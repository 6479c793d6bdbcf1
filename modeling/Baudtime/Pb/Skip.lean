import Baudtime.Pb.RoundTrip

/-!
# `Unmarshal` skips the fields it does not know

The `default` case of the `switch fieldNum` of every generated `Unmarshal` goes back to the
field's tag, asks `skipPb` for the length of the whole field, and goes on after it. A writer
built from a later `pb.proto` may add fields; this module shows that `Unmarshal` reads what
such a writer sends as if the added fields were not there, wherever they stand among the
fields it knows.

The added fields are those of the wire types a proto3 writer uses: varints (0), eight bytes
(1), length-delimited bytes (2) and four bytes (5). Groups (3 and 4) are left out: no proto3
message has them.

## Main definitions

* `Unknown`, `UnknownField` — a field of a number the `switch` has no case for, laid out as
  any protobuf writer lays it out
* `Item` — a field that the `switch` decodes, or one that it skips

## Main results

* `skipGeneric_unknown` — `skipPb` returns the length of such a field
* `skipPb_ne_outOfFuel` — the fuel of the model's `skipPb` never runs out, nested groups
  included
* `unmarshalLoop_items` — the run lemma of the loop over known and unknown fields
* `unmarshal_skips_unknown` — for the messages of `pb.proto`, `Unmarshal` of the fields that
  `MarshalTo(x)` writes, with unknown fields anywhere among them, reads `x`
-/

namespace Baudtime.Pb

/-- What a field of a wire type that `skipPb` skips holds after its tag; each constructor
carries what makes its bytes well formed. -/
inductive Unknown
  /-- wire type 0: a varint -/
  | varint (v : Nat) (lt : v < 2 ^ 64)
  /-- wire type 1: eight bytes -/
  | fixed64 (b : Bytes) (length_eq : b.length = 8)
  /-- wire type 2: the length of `b`, then `b` -/
  | bytes (b : Bytes)
  /-- wire type 5: four bytes -/
  | fixed32 (b : Bytes) (length_eq : b.length = 4)

namespace Unknown

def wireType : Unknown → Nat
  | varint .. => 0
  | fixed64 .. => 1
  | bytes _ => 2
  | fixed32 .. => 5

/-- The bytes after the field's tag. -/
def payload : Unknown → Bytes
  | varint v _ => encodeVarint v
  | fixed64 b _ => b
  | bytes b => encodeVarint b.length ++ b
  | fixed32 b _ => b

theorem wireType_lt (x : Unknown) : x.wireType < 8 := by
  cases x <;> simp [wireType]

theorem wireType_ne_four (x : Unknown) : x.wireType ≠ 4 := by
  cases x <;> simp [wireType]

end Unknown

/-- A field of number `num`, which `protoc` keeps below `2^29`. -/
structure UnknownField where
  num : Nat
  value : Unknown
  num_pos : 0 < num
  num_lt : num < 2 ^ 29

namespace UnknownField

/-- The field's tag varint, `num << 3 | wireType`, then its payload. -/
def encode (u : UnknownField) : Bytes :=
  encodeVarint (u.num * 8 + u.value.wireType) ++ u.value.payload

theorem tag_lt (u : UnknownField) : u.num * 8 + u.value.wireType < 2 ^ 32 := by
  have := u.num_lt
  have := u.value.wireType_lt
  omega

end UnknownField

/-- The wire type that `Unmarshal` takes from a tag `num << 3 | wireType`. -/
theorem tag_wireType (num : Nat) {wireType : Nat} (hwt : wireType < 8) :
    (num * 8 + wireType) % 2 ^ 64 % 8 = wireType := by
  omega

/-- The field number that `Unmarshal` takes from a tag `num << 3 | wireType`. -/
theorem tag_fieldNum {num wireType : Nat} (hnum : num < 2 ^ 29) (hwt : wireType < 8) :
    Int.bmod (((num * 8 + wireType) % 2 ^ 64 / 8 : Nat) : Int) (2 ^ 32) = num := by
  rw [Nat.mod_eq_of_lt (by omega), show (num * 8 + wireType) / 8 = num by omega,
    Int.bmod_def, Int.emod_eq_of_lt (by omega) (by omega), if_pos (by omega)]

/-- `skipPb` on the bytes of an unknown field returns the field's length. -/
theorem skipGeneric_unknown (fuel : Nat) (u : UnknownField) {rest : Bytes}
    (hlen : (u.encode ++ rest).length < 2 ^ 63) :
    skipGeneric (fuel + 1) (u.encode ++ rest) = .ok u.encode.length := by
  have hd : (u.encode ++ rest).drop (0 : Int).toNat =
      encodeVarint (u.num * 8 + u.value.wireType) ++ (u.value.payload ++ rest) := by
    rw [UnknownField.encode, List.append_assoc]; rfl
  have hpay := drop_append_of_drop hd
  rw [skipGeneric, if_pos (List.length_pos.mpr (by simp [UnknownField.encode, encodeVarint_ne_nil])),
    readVarint_encodeVarint (by have := u.tag_lt; omega) le_rfl hd, ok_bind]
  dsimp only
  rw [tag_wireType u.num u.value.wireType_lt]
  set k := (encodeVarint (u.num * 8 + u.value.wireType)).length with hk
  have hpay' : (u.encode ++ rest).drop ((0 : Int) + k).toNat = u.value.payload ++ rest := by
    simpa using hpay
  have henc : (u.encode.length : Int) = 0 + k + u.value.payload.length := by
    simp [UnknownField.encode, hk]
  have hlt : (u.encode.length : Int) < 2 ^ 63 := by
    have := List.length_append u.encode rest
    omega
  cases hx : u.value with
  | varint v hv =>
    rw [hx] at hpay' henc
    dsimp only [Unknown.wireType, Unknown.payload] at hpay' henc ⊢
    rw [readVarint_encodeVarint hv (by omega) hpay', ok_bind, henc]
    rfl
  | fixed64 b hb | fixed32 b hb =>
    rw [hx] at henc
    dsimp only [Unknown.wireType, Unknown.payload] at henc ⊢
    rw [goInt_of_lt (by omega) (by omega), henc, hb]
    rfl
  | bytes b =>
    rw [hx] at hpay' henc
    dsimp only [Unknown.wireType, Unknown.payload] at hpay' henc ⊢
    rw [List.append_assoc] at hpay'
    rw [List.length_append, Nat.cast_add, ← Int.add_assoc] at henc
    rw [readVarint_encodeVarint (by omega) (by omega) hpay', ok_bind]
    dsimp only
    rw [goInt_of_lt (by omega) (by omega), if_neg (by omega), goInt_of_lt (by omega) (by omega), henc]
    rfl

/-! ## The fuel of `skipPb`

`skipPb` recurses once for each group it enters and once for each turn of a group's loop;
the model gives it `2 * len(dAtA) + 1` units. Every read ends past where it starts, so the
fuel never runs out and `skipPb` returns what Go's recursion returns. -/

theorem byteAt_ok {dAtA : Bytes} {i : Int} {b : UInt8} (h : byteAt dAtA i = .ok b) : 0 ≤ i := by
  unfold byteAt at h
  split at h
  · assumption
  · cases h

theorem byteAt_ne_outOfFuel (dAtA : Bytes) (i : Int) : byteAt dAtA i ≠ .error .outOfFuel := by
  unfold byteAt
  split
  · split <;> intro h <;> cases h
  · intro h; cases h

/-- A varint read starts inside the slice and ends after its first byte, within the slice. -/
theorem readVarintFrom_ok {dAtA : Bytes} {n shift : Nat} {i : Int} {x v : Nat} {j : Int}
    (h : readVarintFrom dAtA n shift i x = .ok (v, j)) : 0 ≤ i ∧ i < j ∧ j ≤ dAtA.length := by
  induction n generalizing shift i x with
  | zero => cases h
  | succ n ih =>
    rw [readVarintFrom] at h
    split at h
    · cases h
    split at h
    · cases h
    next hi =>
    obtain ⟨b, hb, h⟩ := bind_eq_ok.mp h
    have h0 := byteAt_ok hb
    split at h
    · cases h; omega
    · have := ih h; omega

theorem readVarintFrom_ne_outOfFuel (dAtA : Bytes) (n shift : Nat) (i : Int) (x : Nat) :
    readVarintFrom dAtA n shift i x ≠ .error .outOfFuel := by
  induction n generalizing shift i x with
  | zero => intro h; cases h
  | succ n ih =>
    rw [readVarintFrom]
    split
    · intro h; cases h
    split
    · intro h; cases h
    refine bind_ne_error (byteAt_ne_outOfFuel _ _) fun b _ => ?_
    dsimp only
    split
    · intro h; cases h
    · exact ih _ _ _

theorem readVarint_ok {dAtA : Bytes} {i : Int} {v : Nat} {j : Int}
    (h : readVarint dAtA i = .ok (v, j)) : 0 ≤ i ∧ i < j ∧ j ≤ dAtA.length :=
  readVarintFrom_ok h

theorem readVarint_ne_outOfFuel (dAtA : Bytes) (i : Int) : readVarint dAtA i ≠ .error .outOfFuel :=
  readVarintFrom_ne_outOfFuel _ _ _ _ _

/-- What `skipPb` returns on a slice shorter than `2^62`: the length of a field, below
`2^63`, or a sum `iNdEx + length` that wrapped below `-2^62`. -/
def SkipResult (r : Int) : Prop := (1 ≤ r ∧ r < 2 ^ 63) ∨ (-2 ^ 63 ≤ r ∧ r < -2 ^ 62)

/-- The loop of a group goes on at `start + next`: past `start`, or at a negative index. -/
theorem goInt_add_skip {start next : Int} {L : Nat} (h0 : 0 ≤ start) (hL : start < L)
    (hL' : L < 2 ^ 62) (hn : SkipResult next) :
    start < goInt (start + next) ∨ goInt (start + next) < 0 := by
  rcases hn with ⟨h1, h2⟩ | ⟨h1, h2⟩
  · by_cases hlt : start + next < 2 ^ 63
    · left; rw [goInt_of_lt (by omega) hlt]; omega
    · right; rw [goInt_of_ge (by omega) (by omega)]; omega
  · right; rw [goInt_of_neg (by omega) (by omega)]; omega

/-- What `skipGeneric` and the loop of a group return, by induction on the fuel. -/
theorem skip_ok : ∀ n : Nat,
    (∀ (dAtA : Bytes) (r : Int), dAtA.length < 2 ^ 62 → skipGeneric n dAtA = .ok r →
      SkipResult r) ∧
    (∀ (dAtA : Bytes) (i r : Int), dAtA.length < 2 ^ 62 → skipGroup n dAtA i = .ok r →
      0 ≤ i ∧ i < r ∧ r ≤ dAtA.length)
  | 0 => ⟨(fun _ _ _ h => by cases h), fun _ _ _ _ h => by cases h⟩
  | n + 1 => by
    obtain ⟨ihs, ihg⟩ := skip_ok n
    refine ⟨fun dAtA r hL h => ?_, fun dAtA i r hL h => ?_⟩
    · rw [skipGeneric] at h
      split at h
      · obtain ⟨⟨wire, i₁⟩, hread, h⟩ := bind_eq_ok.mp h
        obtain ⟨-, h₁, h₁L⟩ := readVarint_ok hread
        dsimp only at h
        split at h
        · obtain ⟨⟨_, i₂⟩, hread₂, h⟩ := bind_eq_ok.mp h
          obtain ⟨-, h₂, h₂L⟩ := readVarint_ok hread₂
          cases h; left; omega
        · cases h; left; rw [goInt_of_lt (by omega) (by omega)]; omega
        · obtain ⟨⟨len, i₂⟩, hread₂, h⟩ := bind_eq_ok.mp h
          obtain ⟨-, h₂, h₂L⟩ := readVarint_ok hread₂
          dsimp only at h
          split at h
          · cases h
          · next hlen =>
            cases h
            have hg := goInt_mem len
            by_cases hlt : i₂ + goInt len < 2 ^ 63
            · left; rw [goInt_of_lt (by omega) hlt]; omega
            · right; rw [goInt_of_ge (by omega) (by omega)]; omega
        · have := ihg _ _ _ hL h; left; omega
        · cases h; left; omega
        · cases h; left; rw [goInt_of_lt (by omega) (by omega)]; omega
        · cases h
      · cases h
    · rw [skipGroup] at h
      obtain ⟨⟨wire, i₁⟩, hread, h⟩ := bind_eq_ok.mp h
      obtain ⟨h0, h₁, h₁L⟩ := readVarint_ok hread
      dsimp only at h
      split at h
      · cases h; exact ⟨h0, h₁, h₁L⟩
      · rw [slice_to_end h0 (by omega), ok_bind] at h
        obtain ⟨next, hnext, h⟩ := bind_eq_ok.mp h
        have hres := ihs _ _ (by rw [List.length_drop]; omega) hnext
        obtain ⟨h0', hlt, hrL⟩ := ihg _ _ _ hL h
        exact ⟨h0, by rcases goInt_add_skip h0 (by omega) hL hres with _ | _ <;> omega, hrL⟩

/-- The fuel a call needs: one unit for itself and, for a group, one for each turn of its
loop, whose inner fields start past the group's tag. -/
theorem skip_fuel : ∀ n : Nat,
    (∀ dAtA : Bytes, dAtA.length < 2 ^ 62 → 2 * dAtA.length + 1 ≤ n →
      skipGeneric n dAtA ≠ .error .outOfFuel) ∧
    (∀ (dAtA : Bytes) (i : Int), dAtA.length < 2 ^ 62 → 0 < n →
      (0 ≤ i → 2 * (dAtA.length - i).toNat + 2 ≤ n) → skipGroup n dAtA i ≠ .error .outOfFuel)
  | 0 => ⟨(fun _ _ h => absurd h (by omega)), fun _ _ _ h => absurd h (by omega)⟩
  | n + 1 => by
    obtain ⟨ihs, ihg⟩ := skip_fuel n
    refine ⟨fun dAtA hL hn => ?_, fun dAtA i hL _ hn => ?_⟩
    · rw [skipGeneric]
      split
      · refine bind_ne_error (readVarint_ne_outOfFuel _ _) fun ⟨wire, i₁⟩ hread => ?_
        obtain ⟨-, h₁, h₁L⟩ := readVarint_ok hread
        dsimp only
        split
        · exact bind_ne_error (readVarint_ne_outOfFuel _ _) fun _ _ h => by cases h
        · intro h; cases h
        · refine bind_ne_error (readVarint_ne_outOfFuel _ _) fun _ _ => ?_
          dsimp only
          split <;> intro h <;> cases h
        · exact ihg _ _ hL (by omega) fun _ => by omega
        · intro h; cases h
        · intro h; cases h
        · intro h; cases h
      · intro h; cases h
    · rw [skipGroup]
      refine bind_ne_error (readVarint_ne_outOfFuel _ _) fun ⟨wire, i₁⟩ hread => ?_
      obtain ⟨h0, h₁, h₁L⟩ := readVarint_ok hread
      have hn' := hn h0
      dsimp only
      split
      · intro h; cases h
      · have hlen : (dAtA.drop i.toNat).length = dAtA.length - i.toNat := List.length_drop _ _
        rw [slice_to_end h0 (by omega), ok_bind]
        refine bind_ne_error (ihs _ (by omega) (by omega)) fun next hnext => ?_
        have hres := (skip_ok n).1 _ _ (by omega) hnext
        refine ihg _ _ hL (by omega) fun hpos => ?_
        rcases goInt_add_skip h0 (by omega) hL hres with _ | _ <;> omega

/-- `skipPb` never runs out of fuel: the nested groups of a slice below `2^62` bytes, and the
turns of their loops, take less than `2 * len(dAtA) + 1` steps. -/
theorem skipPb_ne_outOfFuel {dAtA : Bytes} (h : dAtA.length < 2 ^ 62) :
    skipPb dAtA ≠ .error .outOfFuel :=
  (skip_fuel _).1 dAtA h le_rfl

/-- Three nested start-group tags with nothing after them: the innermost loop reads past the
end, as `skipPb` does. -/
example : skipPb [0x1b, 0x1b, 0x1b] = .error (.error errUnexpectedEOF) := rfl

/-! ## One step of the loop -/

section Step

variable {μ : Type} {name : String} {fields : Int → Option (Case μ)} {dAtA rest : Bytes}
  {fuel : Nat} {i : Int} {m : μ}

/-- The `default` case of the `switch`: a field of a number it has no case for is skipped
whole, and the loop goes on after it with the message unchanged. -/
theorem unmarshalLoop_unknown {u : UnknownField} (hu : fields u.num = none)
    (hlen : dAtA.length < 2 ^ 63) (hi : 0 ≤ i) (hd : dAtA.drop i.toNat = u.encode ++ rest) :
    unmarshalLoop name fields dAtA (fuel + 1) i m =
      unmarshalLoop name fields dAtA fuel (i + u.encode.length) m := by
  have hne : u.encode ≠ [] := by simp [UnknownField.encode, encodeVarint_ne_nil]
  have hk := add_length_le_of_drop hne hd
  have hpos := List.length_pos.mpr hne
  have hread := readVarint_encodeVarint (by have := u.tag_lt; omega) hi
    (show dAtA.drop i.toNat = encodeVarint (u.num * 8 + u.value.wireType) ++ (u.value.payload ++ rest)
      by rw [hd, UnknownField.encode, List.append_assoc])
  have hs : slice dAtA i dAtA.length = .ok (dAtA.drop i.toNat) := slice_to_end hi (by omega)
  have hskip : skipPb (dAtA.drop i.toNat) = .ok u.encode.length := by
    have := List.length_drop i.toNat dAtA
    rw [hd] at this ⊢
    exact skipGeneric_unknown _ u (by omega)
  have hnext : goInt (i + u.encode.length) = i + u.encode.length := goInt_of_lt (by omega) (by omega)
  rw [unmarshalLoop, if_pos (by omega), hread, ok_bind]
  simp only [unmarshalField, tag_wireType u.num u.value.wireType_lt,
    tag_fieldNum u.num_lt u.value.wireType_lt, if_neg u.value.wireType_ne_four,
    if_neg (not_le.mpr (Int.ofNat_pos.mpr u.num_pos)), hu, hs, hskip, hnext, pure_bind, ok_bind,
    if_neg (show ¬((u.encode.length : Int) < 0) by omega),
    if_neg (show ¬((dAtA.length : Int) < i + u.encode.length) by omega)]

/-- A field of a number the `switch` has a case for is decoded by that case, and the loop
goes on after it. -/
theorem unmarshalLoop_known {f : Field μ} (hf : f.Decodes fields)
    (hlen : dAtA.length < 2 ^ 63) (hi : 0 ≤ i) (hd : dAtA.drop i.toNat = f.encode ++ rest) :
    unmarshalLoop name fields dAtA (fuel + 1) i m =
      unmarshalLoop name fields dAtA fuel (i + f.encode.length) (f.update m) := by
  obtain ⟨hnum, hnum', hwt, hwt4, case, hcase, hdec⟩ := hf
  have htag : f.num * 8 + f.wireType < 0x80 := by omega
  have hread := readVarint_encodeVarint (by omega) hi
    (show dAtA.drop i.toNat = encodeVarint (f.num * 8 + f.wireType) ++ (f.payload ++ rest) by
      rw [hd, encodeVarint_of_lt htag]; rfl)
  rw [encodeVarint_of_lt htag, List.length_singleton, Nat.cast_one] at hread
  have hpay : dAtA.drop (i + 1).toNat = f.payload ++ rest := by
    rw [show (i + 1).toNat = i.toNat + 1 by omega]
    exact drop_succ_of_drop hd
  have hk := add_length_le_of_drop (List.cons_ne_nil _ _) hd
  have hnumEq := tag_fieldNum (show f.num < 2 ^ 29 by omega) hwt
  have hwire := tag_wireType f.num hwt
  simp only [Field.encode, List.length_cons] at hk ⊢
  rw [unmarshalLoop, if_pos (by omega), hread, ok_bind]
  dsimp only
  rw [unmarshalField_case (by rw [hwire]; exact hwt4) (by rw [hnumEq]; omega)
      (by rw [hnumEq]; exact hcase), hwire, hdec dAtA _ (i + 1) m (by omega) hpay hlen, ok_bind]
  dsimp only
  rw [show i + 1 + (f.payload.length : Int) = i + ((f.payload.length + 1 : Nat) : Int) by omega]

end Step

/-! ## Known and unknown fields -/

/-- A field in the bytes that `Unmarshal` reads: one the `switch` has a case for, as
`MarshalTo` writes it, or an unknown one. -/
inductive Item (μ : Type)
  | known (f : Field μ)
  | unknown (u : UnknownField)

namespace Item

variable {μ : Type}

def encode : Item μ → Bytes
  | known f => f.encode
  | unknown u => u.encode

/-- What decoding the field does to the message. -/
def update : Item μ → μ → μ
  | known f => f.update
  | unknown _ => id

/-- The field, if it is a known one. -/
def field? : Item μ → Option (Field μ)
  | known f => some f
  | unknown _ => none

/-- The loop reads the field: the `switch` decodes a known field, and has no case for the
number of an unknown one. -/
def Reads (fields : Int → Option (Case μ)) : Item μ → Prop
  | known f => f.Decodes fields
  | unknown u => fields u.num = none

theorem encode_ne_nil (x : Item μ) : x.encode ≠ [] := by
  cases x <;> simp [encode, Field.encode, UnknownField.encode, encodeVarint_ne_nil]

theorem length_le_flatMap_encode (xs : List (Item μ)) : xs.length ≤ (xs.flatMap encode).length := by
  induction xs with
  | nil => simp
  | cons x xs ih =>
    have := List.length_pos.mpr x.encode_ne_nil
    rw [List.flatMap_cons, List.length_append, List.length_cons]
    omega

/-- The known fields take no more bytes than all of them. -/
theorem length_flatMap_field_le (xs : List (Item μ)) :
    ((xs.filterMap field?).flatMap Field.encode).length ≤ (xs.flatMap encode).length := by
  induction xs with
  | nil => simp
  | cons x xs ih =>
    cases x with
    | known f =>
      rw [List.filterMap_cons_some (show field? (known f) = some f from rfl), List.flatMap_cons,
        List.flatMap_cons, List.length_append, List.length_append]
      exact Nat.add_le_add_left ih _
    | unknown u =>
      rw [List.filterMap_cons_none (show field? (unknown u : Item μ) = none from rfl),
        List.flatMap_cons, List.length_append]
      exact ih.trans (Nat.le_add_left _ _)

/-- Skipping a field leaves the message as it is, so the fields decode as the known ones. -/
theorem foldl_update (xs : List (Item μ)) (m : μ) :
    xs.foldl (fun m x => x.update m) m = (xs.filterMap field?).foldl (fun m f => f.update m) m := by
  induction xs generalizing m with
  | nil => rfl
  | cons x xs ih =>
    cases x with
    | known f =>
      rw [List.foldl_cons, List.filterMap_cons_some (show field? (known f) = some f from rfl),
        List.foldl_cons]
      exact ih _
    | unknown u =>
      rw [List.foldl_cons,
        List.filterMap_cons_none (show field? (unknown u : Item μ) = none from rfl)]
      exact ih _

/-- The loop reads every field of `xs` when its known fields are `fs`, each of which the
`switch` decodes, and the `switch` has no case for its unknown ones. -/
theorem reads_of_filterMap {fields : Int → Option (Case μ)} {xs : List (Item μ)}
    {fs : List (Field μ)} (hfs : xs.filterMap field? = fs) (hd : ∀ f ∈ fs, f.Decodes fields)
    (hu : ∀ u, unknown u ∈ xs → fields u.num = none) : ∀ x ∈ xs, x.Reads fields
  | known f, h => hd f (hfs ▸ List.mem_filterMap.mpr ⟨_, h, rfl⟩)
  | unknown u, h => hu u h

end Item

/-- The run lemma of `Unmarshal` over known and unknown fields: from any index, the loop
decodes the known fields written there and skips the unknown ones, up to the end of
`dAtA`. -/
theorem unmarshalLoop_items {μ : Type} {name : String} {fields : Int → Option (Case μ)}
    {dAtA : Bytes} (hlen : dAtA.length < 2 ^ 63) (xs : List (Item μ))
    (hxs : ∀ x ∈ xs, x.Reads fields) :
    ∀ (fuel : Nat) (i : Int) (m : μ), xs.length < fuel → 0 ≤ i → i ≤ dAtA.length →
      dAtA.drop i.toNat = xs.flatMap Item.encode →
      unmarshalLoop name fields dAtA fuel i m = .ok (xs.foldl (fun m x => x.update m) m) := by
  induction xs with
  | nil => exact unmarshalLoop_fields hlen [] (fun _ h => absurd h (List.not_mem_nil _))
  | cons x xs ih =>
    rintro (_ | fuel) i m hfuel hi hle hd
    · exact absurd hfuel (Nat.not_lt_zero _)
    have hk := add_length_le_of_drop x.encode_ne_nil hd
    have hrest : dAtA.drop (i + x.encode.length).toNat = xs.flatMap Item.encode := by
      rw [show (i + x.encode.length).toNat = i.toNat + x.encode.length by omega]
      exact drop_append_of_drop hd
    have hstep : unmarshalLoop name fields dAtA (fuel + 1) i m =
        unmarshalLoop name fields dAtA fuel (i + x.encode.length) (x.update m) := by
      cases x with
      | known f => exact unmarshalLoop_known (hxs _ (List.mem_cons_self _ _)) hlen hi hd
      | unknown u => exact unmarshalLoop_unknown (hxs _ (List.mem_cons_self _ _)) hlen hi hd
    rw [hstep, ih (fun y hy => hxs y (List.mem_cons_of_mem _ hy)) fuel _ _
      (by simpa using hfuel) (by omega) (by omega) hrest]
    rfl

/-- `Unmarshal` of the fields `fs`, each of which the `switch` decodes, with unknown fields
anywhere among them, decodes `fs` and nothing else. -/
theorem unmarshal_interleaved {μ : Type} {name : String} {fields : Int → Option (Case μ)}
    {fs : List (Field μ)} (hd : ∀ f ∈ fs, f.Decodes fields) (xs : List (Item μ))
    (hfs : xs.filterMap Item.field? = fs) (hu : ∀ u, .unknown u ∈ xs → fields u.num = none)
    (hlen : (xs.flatMap Item.encode).length < 2 ^ 63) (m : μ) :
    unmarshal name fields (xs.flatMap Item.encode) m = .ok (fs.foldl (fun m f => f.update m) m) := by
  rw [unmarshal, unmarshalLoop_items hlen xs (Item.reads_of_filterMap hfs hd hu) _ 0 m
    (Nat.lt_succ_of_le (Item.length_le_flatMap_encode xs)) le_rfl (Int.ofNat_nonneg _) rfl,
    Item.foldl_update, hfs]

/-- `Unmarshal` with a `switch` that has no case at all skips every field. -/
theorem unmarshal_unknowns {μ : Type} {name : String} (us : List UnknownField)
    (hlen : (us.flatMap UnknownField.encode).length < 2 ^ 63) (m : μ) :
    unmarshal name (fun _ => none) (us.flatMap UnknownField.encode) m = .ok m := by
  have hxs : us.flatMap UnknownField.encode = (us.map (@Item.unknown μ)).flatMap Item.encode := by
    rw [List.flatMap_map]; rfl
  rw [hxs] at hlen ⊢
  have hfs : (us.map (@Item.unknown μ)).filterMap Item.field? = [] := by
    simp [Item.field?]
  exact unmarshal_interleaved (fun _ h => absurd h (List.not_mem_nil _)) _ hfs (fun _ _ => rfl) hlen m

/-- For the messages of `pb.proto`, `Unmarshal` of the fields that `MarshalTo(x)` writes,
with fields of numbers it has no case for inserted anywhere among them (before, between or
after), reads `x`, as it reads `MarshalTo(x)` alone; `Unmarshal` of the field-less
`Info` and `JoinCluster` of `admin.proto` skips every field; and `skipPb` on an unknown field
returns the field's length exactly. -/
theorem unmarshal_skips_unknown :
    (∀ (x : Label) (xs : List (Item Label)), xs.filterMap Item.field? = x.wireFields →
      (∀ u, .unknown u ∈ xs → Label.fields u.num = none) →
      (xs.flatMap Item.encode).length < 2 ^ 63 →
      Label.unmarshal (xs.flatMap Item.encode) = .ok x) ∧
    (∀ (x : Point) (xs : List (Item Point)), xs.filterMap Item.field? = x.wireFields →
      (∀ u, .unknown u ∈ xs → Point.fields u.num = none) →
      (xs.flatMap Item.encode).length < 2 ^ 63 →
      Point.unmarshal (xs.flatMap Item.encode) = .ok x.zeroNormalized) ∧
    (∀ (x : Series) (xs : List (Item Series)), xs.filterMap Item.field? = x.wireFields →
      (∀ u, .unknown u ∈ xs → Series.fields u.num = none) →
      (xs.flatMap Item.encode).length < 2 ^ 63 →
      Series.unmarshal (xs.flatMap Item.encode) = .ok x.zeroNormalized) ∧
    (∀ (x : LabelValuesResponse) (xs : List (Item LabelValuesResponse)),
      xs.filterMap Item.field? = x.wireFields →
      (∀ u, .unknown u ∈ xs → LabelValuesResponse.fields u.num = none) →
      (xs.flatMap Item.encode).length < 2 ^ 63 →
      LabelValuesResponse.unmarshal (xs.flatMap Item.encode) = .ok x) ∧
    (∀ (x : GeneralResponse) (xs : List (Item GeneralResponse)),
      xs.filterMap Item.field? = x.wireFields →
      (∀ u, .unknown u ∈ xs → GeneralResponse.fields u.num = none) →
      (xs.flatMap Item.encode).length < 2 ^ 63 →
      GeneralResponse.unmarshal (xs.flatMap Item.encode) = .ok x) ∧
    (∀ us : List UnknownField, (us.flatMap UnknownField.encode).length < 2 ^ 63 →
      Info.unmarshal (us.flatMap UnknownField.encode) = .ok {}) ∧
    (∀ us : List UnknownField, (us.flatMap UnknownField.encode).length < 2 ^ 63 →
      JoinCluster.unmarshal (us.flatMap UnknownField.encode) = .ok {}) ∧
    (∀ (u : UnknownField) (rest : Bytes), (u.encode ++ rest).length < 2 ^ 63 →
      skipPb (u.encode ++ rest) = .ok u.encode.length) := by
  refine ⟨fun x xs hfs hu hlen => ?_, fun x xs hfs hu hlen => ?_, fun x xs hfs hu hlen => ?_,
    fun x xs hfs hu hlen => ?_, fun x xs hfs hu hlen => ?_, fun us hlen => ?_, fun us hlen => ?_,
    fun u _ hlen => skipGeneric_unknown _ u hlen⟩
  · rw [Label.unmarshal, unmarshal_interleaved x.wireFields_decode xs hfs hu hlen,
      Label.foldl_wireFields]
  · rw [Point.unmarshal, unmarshal_interleaved x.wireFields_decode xs hfs hu hlen,
      Point.foldl_wireFields]
  · have hx : x.marshalTo.length < 2 ^ 63 := by
      have := Item.length_flatMap_field_le xs
      rw [hfs, ← Series.marshalTo_eq] at this
      omega
    rw [Series.unmarshal, unmarshal_interleaved (Series.wireFields_decode hx) xs hfs hu hlen,
      Series.foldl_wireFields]
  · rw [LabelValuesResponse.unmarshal, unmarshal_interleaved x.wireFields_decode xs hfs hu hlen,
      LabelValuesResponse.foldl_wireFields]
  · rw [GeneralResponse.unmarshal, unmarshal_interleaved x.wireFields_decode xs hfs hu hlen,
      GeneralResponse.foldl_wireFields]
  · exact unmarshal_unknowns us hlen _
  · exact unmarshal_unknowns us hlen _

/-- `Label{Name: "j"}` as this version writes it, followed by a varint field 3 and a
length-delimited field 100 (whose tag takes two bytes) that a later writer adds: `Unmarshal`
reads the label. -/
theorem unmarshal_skips_unknown_label :
    let x : Label := ⟨[0x6a], []⟩
    let xs : List (Item Label) := x.wireFields.map .known ++
      [.unknown ⟨3, .varint 7 (by decide), by decide, by decide⟩,
        .unknown ⟨100, .bytes [1, 2], by decide, by decide⟩]
    xs.filterMap Item.field? = x.wireFields ∧ (∀ u, .unknown u ∈ xs → Label.fields u.num = none) ∧
      (xs.flatMap Item.encode).length < 2 ^ 63 ∧ Label.unmarshal (xs.flatMap Item.encode) = .ok x := by
  intro x xs
  have h1 : xs.filterMap Item.field? = x.wireFields := rfl
  have h2 : ∀ u, .unknown u ∈ xs → Label.fields u.num = none := by
    intro u hu
    simp only [xs, List.mem_append, List.mem_map, List.mem_cons, Item.unknown.injEq,
      List.not_mem_nil, or_false] at hu
    rcases hu with ⟨_, _, h⟩ | rfl | rfl
    · cases h
    all_goals rfl
  have h3 : (xs.flatMap Item.encode).length < 2 ^ 63 := by
    simp [xs, x, Label.wireFields, Item.encode, UnknownField.encode, Unknown.payload, Unknown.wireType,
      Field.encode, bytesField, encodeVarint_of_lt, encodeVarint_of_ge]
  exact ⟨h1, h2, h3, unmarshal_skips_unknown.1 x xs h1 h2 h3⟩

end Baudtime.Pb
