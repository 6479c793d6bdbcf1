import Mathlib.Data.List.Basic

/-!
# Leftmost-first matching, as Go's `regexp` does it

The console splits its input lines with `regexp.FindAllString`. Go's `regexp` returns the
match a backtracking matcher finds first: of the matches that start earliest, the one found
by trying the alternatives of `a|b` from left to right, `x*?` with as few repetitions as
the rest of the pattern allows, and `x+` with as many. This file gives that semantics for
the patterns the console uses: alternatives of sequences of single-character classes.

## Main definitions

* `Piece`, `matchSeq`, `matchAlts` — the match at the start of the input
* `findAllString` — `FindAllString(s, -1)`

## Main results

* `lazyStar_one_eq_some` — `p*?` followed by the character `q` stops at the first `q`
* `greedyStar_nil` — `p*` at the end of a pattern takes the longest run of `p`
* `findAllString_of_none`, `findAllString_of_some` — the loop skips a character where
  nothing matches, and goes on after a match
-/

namespace Baudtime.Console

/-- One piece of a sequence: a character of the class `p`, or the class repeated. -/
inductive Piece
  /-- One character of the class. -/
  | one (p : Char → Bool)
  /-- `p*?`: as few characters of the class as the rest of the sequence allows. -/
  | lazyStar (p : Char → Bool)
  /-- `p+`: as many characters of the class as the rest of the sequence allows. -/
  | plus (p : Char → Bool)

/-- `p*?` followed by the rest `k` of the sequence: `k` is tried before each character. -/
def lazyStar (p : Char → Bool) (k : List Char → Option (List Char)) :
    List Char → Option (List Char)
  | [] => k []
  | c :: s => k (c :: s) <|> if p c then lazyStar p k s else none

/-- `p*` followed by the rest `k` of the sequence: each character of the class is taken
before `k` is tried. -/
def greedyStar (p : Char → Bool) (k : List Char → Option (List Char)) :
    List Char → Option (List Char)
  | [] => k []
  | c :: s => (if p c then greedyStar p k s else none) <|> k (c :: s)

/-- The match of a sequence at the start of the input that a backtracking matcher finds
first, as the input left after it. -/
def matchSeq : List Piece → List Char → Option (List Char)
  | [], s => some s
  | .one p :: ps, s =>
    match s with
    | c :: s => if p c then matchSeq ps s else none
    | [] => none
  | .lazyStar p :: ps, s => lazyStar p (matchSeq ps) s
  | .plus p :: ps, s =>
    match s with
    | c :: s => if p c then greedyStar p (matchSeq ps) s else none
    | [] => none

@[simp] theorem matchSeq_nil (s : List Char) : matchSeq [] s = some s := rfl

@[simp] theorem matchSeq_one_nil (p : Char → Bool) (ps : List Piece) :
    matchSeq (.one p :: ps) [] = none := rfl

@[simp] theorem matchSeq_one_cons (p : Char → Bool) (ps : List Piece) (c : Char) (s : List Char) :
    matchSeq (.one p :: ps) (c :: s) = if p c then matchSeq ps s else none := rfl

@[simp] theorem matchSeq_lazyStar (p : Char → Bool) (ps : List Piece) (s : List Char) :
    matchSeq (.lazyStar p :: ps) s = lazyStar p (matchSeq ps) s := rfl

@[simp] theorem matchSeq_plus_nil (p : Char → Bool) (ps : List Piece) :
    matchSeq (.plus p :: ps) [] = none := rfl

@[simp] theorem matchSeq_plus_cons (p : Char → Bool) (ps : List Piece) (c : Char) (s : List Char) :
    matchSeq (.plus p :: ps) (c :: s) = if p c then greedyStar p (matchSeq ps) s else none := rfl

/-- `a|b|…` at the start of the input: the first alternative that matches. -/
def matchAlts (alts : List (List Piece)) (s : List Char) : Option (List Char) :=
  alts.findSome? fun a => matchSeq a s

/-- `FindAllString(s, -1)`: the leftmost match, then the leftmost match after its end, and
so on. A pattern that matches the empty string would need the rule of `allMatches` for
empty matches; the loop stops there. -/
def findAllString (alts : List (List Piece)) : List Char → List (List Char)
  | [] => []
  | c :: s =>
    match matchAlts alts (c :: s) with
    | some rest =>
      if h : rest.length < s.length + 1 then
        (c :: s).take (s.length + 1 - rest.length) :: findAllString alts rest
      else []
    | none => findAllString alts s
termination_by s => s.length

/-! ## The repetitions -/

/-- `p*?` followed by the character `q` matches up to the first `q`, over characters of the
class. -/
theorem lazyStar_one_eq_some {p : Char → Bool} {q : Char} {s r : List Char} :
    lazyStar p (matchSeq [.one (· == q)]) s = some r ↔
      ∃ a, s = a ++ q :: r ∧ ∀ c ∈ a, p c = true ∧ c ≠ q := by
  induction s with
  | nil => simp [lazyStar, matchSeq]
  | cons c s ih =>
    by_cases hcq : c = q
    · subst hcq
      simp only [lazyStar, matchSeq, beq_self_eq_true, if_true, Option.some_orElse,
        Option.some.injEq]
      constructor
      · rintro rfl; exact ⟨[], rfl, by simp⟩
      · rintro ⟨_ | ⟨d, a⟩, h, ha⟩
        · simpa using h
        · exact absurd (List.cons.inj h).1.symm ((ha d (List.mem_cons_self _ _)).2)
    · have hk : matchSeq [.one (· == q)] (c :: s) = none := by
        simp [matchSeq, hcq]
      rw [lazyStar, hk, Option.none_orElse]
      constructor
      · intro h
        split at h
        · obtain ⟨a, rfl, ha⟩ := ih.mp h
          exact ⟨c :: a, rfl, by simpa [*] using ha⟩
        · cases h
      · rintro ⟨_ | ⟨d, a⟩, h, ha⟩
        · exact absurd (List.cons.inj h).1 hcq
        · obtain ⟨rfl, rfl⟩ := List.cons.inj h
          rw [if_pos (ha c (List.mem_cons_self _ _)).1]
          exact ih.mpr ⟨a, rfl, fun x hx => ha x (List.mem_cons_of_mem _ hx)⟩

/-- `p*` at the end of a sequence takes the longest run of the class. -/
theorem greedyStar_nil (p : Char → Bool) (s : List Char) :
    greedyStar p (matchSeq []) s = some (s.dropWhile p) := by
  induction s with
  | nil => rfl
  | cons c s ih =>
    by_cases hc : p c
    · simp [greedyStar, hc, ih]
    · simp [greedyStar, hc, matchSeq]

/-! ## The loop of `FindAllString` -/

@[simp]
theorem findAllString_nil (alts : List (List Piece)) : findAllString alts [] = [] := by
  rw [findAllString]

/-- Where no alternative matches, the loop goes on from the next character. -/
theorem findAllString_of_none {alts : List (List Piece)} {c : Char} {s : List Char}
    (h : matchAlts alts (c :: s) = none) : findAllString alts (c :: s) = findAllString alts s := by
  rw [findAllString, h]

/-- Where a non-empty text `t` matches, the loop returns it and goes on after it. -/
theorem findAllString_of_some {alts : List (List Piece)} {t r : List Char} (ht : t ≠ [])
    (h : matchAlts alts (t ++ r) = some r) :
    findAllString alts (t ++ r) = t :: findAllString alts r := by
  obtain ⟨c, t, rfl⟩ := List.exists_cons_of_ne_nil ht
  have hlen : (t ++ r).length + 1 - r.length = (c :: t).length := by simp; omega
  rw [List.cons_append, findAllString, ← List.cons_append, h]
  dsimp only
  rw [dif_pos (by simp; omega), hlen, List.take_left]

end Baudtime.Console
