import Mathlib.Data.List.Basic
import Mathlib.Data.Nat.Digits

/-!
# Route keys

`getShardIDsFromEtcd` keeps the shard group of a metric on a day under the key
`routeInfoPrefix() + metricName + "/" + strconv.FormatUint(day, 10)`. The watch loop reads
the keys of route events back: it splits the whole key on `/`, takes
`strings.TrimPrefix(strArray[0], routeInfoPrefix())` as the metric name, and parses
`strArray[1]` with `strconv.ParseUint`; an event whose day does not parse is skipped.
The watch loop's handler of group-route keys instead trims its prefix from the whole key
first.

`routeInfoPrefix()` is declared outside the sources at hand and is a parameter here.
Go's string functions work on bytes; as a byte `/` never occurs inside the UTF-8
encoding of another character, they are modelled on the characters of a `String`.

Reading a key undoes writing it when neither the prefix nor the metric name contains
`/`. A prefix that contains `/`, as the spec's layout `{ns}/route/{metric}/{day}` has,
makes the handler skip the event, or apply it to another metric.

## Main definitions

* `trimPrefix`, `parseUint`, `formatUint` — `strings.TrimPrefix`, `strconv.ParseUint`,
  `strconv.FormatUint`
* `routeKey` — the key `getShardIDsFromEtcd` writes
* `readRouteKey` — the reading of a key by the route-event handler

## Main results

* `parseUint_formatUint` — `ParseUint` undoes `FormatUint` on 64-bit values
* `readRouteKey_routeKey` — reading undoes writing for prefixes and metric names
  without `/`
-/

namespace Baudtime.Meta

/-- `strings.TrimPrefix(s, prefix)`. -/
def trimPrefix (s pre : String) : String :=
  if pre.data.isPrefixOf s.data then ⟨s.data.drop pre.length⟩ else s

/-- The digit loop of `strconv.ParseUint`: `n = n*10 + d` for each digit `d`. -/
def digitsValue (s : List Char) : Nat :=
  s.foldl (fun n c => 10 * n + (c.toNat - '0'.toNat)) 0

/-- `strconv.ParseUint(s, 10, 0)`. Go fails on an empty string, at a character that is not
a decimal digit, and once the value leaves 64 bits; as the value only grows along the
string, it fails exactly when one of these holds of the whole string. -/
def parseUint (s : String) : Option Nat :=
  if !s.data.isEmpty && s.data.all Char.isDigit && digitsValue s.data < 2 ^ 64 then
    some (digitsValue s.data)
  else none

/-- `strconv.FormatUint(i, 10)`. -/
def formatUint (i : Nat) : String := ⟨Nat.toDigits 10 i⟩

/-- The route key of a metric on a day:
`routeInfoPrefix() + metricName + "/" + strconv.FormatUint(day, 10)`. -/
def routeKey (routeInfoPrefix metricName : String) (day : Nat) : String :=
  routeInfoPrefix ++ metricName ++ "/" ++ formatUint day

/-- How the route-event handler reads a key. -/
inductive RouteKeyRead
  /-- `strArray[1]` on a key without `/` panics. -/
  | indexOutOfRange
  /-- `ParseUint` failed: the handler skips the event (`continue`). -/
  | parseError
  /-- The event is applied to `metricName` on `day`. -/
  | ok (metricName : String) (day : Nat)
  deriving DecidableEq, Repr

/-- The first lines of the route-event handler: `strings.Split(key, "/")`, then
`TrimPrefix(strArray[0], routeInfoPrefix())` and `ParseUint(strArray[1], 10, 0)`. -/
def readRouteKey (routeInfoPrefix key : String) : RouteKeyRead :=
  match (key.data.splitOn '/').map String.mk with
  | strArray0 :: strArray1 :: _ =>
    match parseUint strArray1 with
    | some day => .ok (trimPrefix strArray0 routeInfoPrefix) day
    | none => .parseError
  | _ => .indexOutOfRange

/-! ## Decimal digits -/

theorem digitChar_spec : ∀ k < 10, (Nat.digitChar k).isDigit ∧
    (Nat.digitChar k).toNat - '0'.toNat = k := by
  decide

/-- `Nat.toDigits` (through its loop `toDigitsCore`) emits decimal digits in front of
`ds`, and the digit loop of `ParseUint` reads them back as the number. -/
theorem toDigitsCore_spec (fuel n : Nat) (ds : List Char) (h : n < fuel) :
    Nat.toDigitsCore 10 fuel n ds ≠ [] ∧
      (∀ c ∈ Nat.toDigitsCore 10 fuel n ds, c.isDigit ∨ c ∈ ds) ∧
      digitsValue (Nat.toDigitsCore 10 fuel n ds) = ds.foldl
        (fun n c => 10 * n + (c.toNat - '0'.toNat)) n := by
  induction fuel generalizing n ds with
  | zero => omega
  | succ fuel ih =>
    obtain ⟨hd, hv⟩ := digitChar_spec (n % 10) (Nat.mod_lt n (by decide))
    rw [Nat.toDigitsCore]
    split
    · refine ⟨List.cons_ne_nil _ _, fun c hc => ?_, ?_⟩
      · rcases List.mem_cons.mp hc with rfl | hc
        · exact .inl hd
        · exact .inr hc
      · simp only [digitsValue, List.foldl_cons, hv]
        congr 1
        omega
    · obtain ⟨hne, hall, hval⟩ := ih (n / 10) (Nat.digitChar (n % 10) :: ds) (by omega)
      refine ⟨hne, fun c hc => ?_, ?_⟩
      · rcases hall c hc with hc | hc
        · exact .inl hc
        · rcases List.mem_cons.mp hc with rfl | hc
          · exact .inl hd
          · exact .inr hc
      · rw [hval, List.foldl_cons, hv]
        congr 1
        omega

theorem formatUint_spec (i : Nat) :
    (formatUint i).data ≠ [] ∧ (∀ c ∈ (formatUint i).data, c.isDigit) ∧
      digitsValue (formatUint i).data = i := by
  obtain ⟨hne, hall, hval⟩ := toDigitsCore_spec (i + 1) i [] (by omega)
  exact ⟨hne, fun c hc => (hall c hc).resolve_right (List.not_mem_nil c), hval⟩

/-- `ParseUint` undoes `FormatUint` on every 64-bit value. -/
theorem parseUint_formatUint {i : Nat} (hi : i < 2 ^ 64) : parseUint (formatUint i) = some i := by
  obtain ⟨hne, hall, hval⟩ := formatUint_spec i
  have hne' : (formatUint i).data.isEmpty = false := List.isEmpty_eq_false.mpr hne
  rw [parseUint, hne', List.all_eq_true.mpr hall, hval, if_pos (by simpa using hi)]

/-! ## Reading a route key -/

theorem trimPrefix_append (p m : String) : trimPrefix (p ++ m) p = m := by
  obtain ⟨p⟩ := p
  have hp : p.isPrefixOf (p ++ m.data) = true :=
    List.isPrefixOf_iff_prefix.mpr (List.prefix_append _ _)
  rw [trimPrefix, String.data_append, if_pos hp, String.length_mk, List.drop_left]

/-- Reading a route key undoes writing it whenever neither the prefix nor the metric name
contains `/` and the day fits in 64 bits. -/
theorem readRouteKey_routeKey {p m : String} (hp : '/' ∉ p.data) (hm : '/' ∉ m.data)
    {day : Nat} (hday : day < 2 ^ 64) : readRouteKey p (routeKey p m day) = .ok m day := by
  obtain ⟨-, hdigits, -⟩ := formatUint_spec day
  have hpm : ∀ c ∈ (p ++ m).data, ¬(c == '/') = true := by
    rintro c hc h
    rw [beq_iff_eq] at h
    subst h
    rcases List.mem_append.mp hc with hc | hc
    exacts [hp hc, hm hc]
  have hds : ∀ c ∈ (formatUint day).data, ¬(c == '/') = true := by
    rintro c hc h
    rw [beq_iff_eq] at h
    subst h
    exact absurd (hdigits _ hc) (by decide)
  have hkey : (routeKey p m day).data = (p ++ m).data ++ '/' :: (formatUint day).data := by
    simp [routeKey]
  have hsplit : (routeKey p m day).data.splitOn '/' = [(p ++ m).data, (formatUint day).data] := by
    rw [hkey, List.splitOn, List.splitOnP_first _ _ hpm '/' (by simp),
      List.splitOnP_eq_single _ _ hds]
  rw [readRouteKey, hsplit]
  simp only [List.map_cons, List.map_nil]
  rw [show String.mk (formatUint day).data = formatUint day from rfl, parseUint_formatUint hday,
    show String.mk (p ++ m).data = p ++ m from rfl, trimPrefix_append]

/-- The prefix `route_`, the metric `cpu` and the day 19723. -/
theorem readRouteKey_routeKey_cpu :
    '/' ∉ "route_".data ∧ '/' ∉ "cpu".data ∧ 19723 < 2 ^ 64 ∧
      readRouteKey "route_" (routeKey "route_" "cpu" 19723) = .ok "cpu" 19723 :=
  ⟨by decide, by decide, by decide, readRouteKey_routeKey (by decide) (by decide) (by decide)⟩

/-- A list split at a `/` after which none occurs is split at its last `/`. -/
theorem append_slash_inj {xs ys xs' ys' : List Char} (hy : '/' ∉ ys) (hy' : '/' ∉ ys')
    (h : xs ++ '/' :: ys = xs' ++ '/' :: ys') : xs = xs' ∧ ys = ys' := by
  rcases List.append_eq_append_iff.mp h with ⟨a, rfl, ha⟩ | ⟨c, rfl, hc⟩
  · cases a with
    | nil => simpa using ha
    | cons x a =>
      obtain ⟨-, rfl⟩ := List.cons.inj ha
      exact absurd (List.mem_append_right _ (List.mem_cons_self _ _)) hy
  · cases c with
    | nil => simpa using hc.symm
    | cons x c =>
      obtain ⟨-, rfl⟩ := List.cons.inj hc
      exact absurd (List.mem_append_right _ (List.mem_cons_self _ _)) hy'

/-- Distinct metrics and days have distinct route keys: the day is what follows the last
`/`, and `FormatUint` is injective. -/
theorem routeKey_inj {p m₁ m₂ : String} {d₁ d₂ : Nat}
    (h : routeKey p m₁ d₁ = routeKey p m₂ d₂) : m₁ = m₂ ∧ d₁ = d₂ := by
  have hslash : ∀ d, '/' ∉ (formatUint d).data := fun d hd =>
    absurd ((formatUint_spec d).2.1 _ hd) (by decide)
  have hdata := congrArg String.data h
  simp only [routeKey, String.data_append, List.append_assoc] at hdata
  obtain ⟨hm, hd⟩ := append_slash_inj (hslash d₁) (hslash d₂) (List.append_cancel_left hdata)
  refine ⟨String.ext hm, ?_⟩
  rw [← (formatUint_spec d₁).2.2, ← (formatUint_spec d₂).2.2, hd]

/-- With the spec's layout, prefix `n1/route/`, the key of metric `cpu` on day 19723 is
skipped by the handler; with prefix `n1/`, the key of metric `7` on day 19723 is applied
to metric `n1` on day 7. -/
theorem readRouteKey_prefix_with_slash :
    readRouteKey "n1/route/" (routeKey "n1/route/" "cpu" 19723) = .parseError ∧
      readRouteKey "n1/" (routeKey "n1/" "7" 19723) = .ok "n1" 7 := by
  decide

end Baudtime.Meta
