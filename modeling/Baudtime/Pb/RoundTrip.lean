import Baudtime.Pb.Messages

/-!
# Marshal, then Unmarshal

What `MarshalTo` writes is a sequence of fields, each a one-byte tag and the bytes after
it, and the loop of `Unmarshal` decodes such a sequence field by field
(`unmarshal_flatMap_encode`). For each message, `wireFields` lists the fields its
`MarshalTo` writes, each with what decoding it does to the message; the round trip is
that these updates, applied to a zero message, rebuild the message.

They rebuild it but for one case. `Point.MarshalTo` writes `V` only when `m.V != 0`, which
is false for `-0.0` as well as for `+0.0`: a `V` of `-0.0` is not written, and comes back
as `+0.0` (`Point.zeroNormalized`). Every other bit pattern of `V`, NaNs included, comes
back unchanged, as does every `int64` timestamp and every `StatusCode`.

A length is a Go `int`, so the results hold of encodings shorter than `2^63` bytes, as
every Go slice is.

## Main definitions

* `bytesField`, `messageField`, `varintField`, `fixed64Field` — a field as `MarshalTo`
  writes it, and as the matching case of `Unmarshal` reads it
* `Label.wireFields`, `Point.wireFields`, `Series.wireFields`,
  `LabelValuesResponse.wireFields`, `GeneralResponse.wireFields`
* `Point.zeroNormalized`, `Series.zeroNormalized` — a message with `V = -0.0` read as `+0.0`

## Main results

* `Label.unmarshal_marshalTo` and its siblings — `Unmarshal` undoes `MarshalTo`
* `Label.size_eq` and its siblings — `Size()` is the length `MarshalTo` writes, so
  `Marshal` never writes past its buffer
* `unmarshal_marshal` — `Unmarshal` after `Marshal`, for the five messages of `pb.proto`
-/

namespace Baudtime.Pb

/-! ## Fields -/

section Fields

variable {μ ν : Type}

/-- A `string` field numbered `num` holding `b`. -/
def bytesField (num : Nat) (set : μ → Bytes → μ) (b : Bytes) : Field μ :=
  ⟨num, 2, encodeVarint b.length ++ b, (set · b)⟩

/-- An embedded message field numbered `num`, written as `b` and read back as `v`. -/
def messageField (num : Nat) (set : μ → ν → μ) (b : Bytes) (v : ν) : Field μ :=
  ⟨num, 2, encodeVarint b.length ++ b, (set · v)⟩

/-- A varint field numbered `num` holding `v`. -/
def varintField (num : Nat) (set : μ → Nat → μ) (v : Nat) : Field μ :=
  ⟨num, 0, encodeVarint v, (set · v)⟩

/-- A `double` field numbered `num` holding the bits `v`. -/
def fixed64Field (num : Nat) (set : μ → Nat → μ) (v : Nat) : Field μ :=
  ⟨num, 1, putUint64 v, (set · v)⟩

variable {fields : Int → Option (Case μ)} {num : Nat} {fieldName : String}

theorem bytesField_decodes {set : μ → Bytes → μ} (b : Bytes) (hnum : 0 < num ∧ num < 16)
    (hcase : fields num = some (bytesCase fieldName set)) : (bytesField num set b).Decodes fields :=
  ⟨hnum.1, hnum.2, (by decide : 2 < 8), (by decide : 2 ≠ 4), _, hcase, bytesCase_decodes fieldName set b⟩

theorem messageField_decodes {unmarshalSub : Bytes → Except Failure ν} {set : μ → ν → μ}
    {b : Bytes} {v : ν} (hnum : 0 < num ∧ num < 16)
    (hcase : fields num = some (messageCase fieldName unmarshalSub set))
    (hsub : unmarshalSub b = .ok v) : (messageField num set b v).Decodes fields :=
  ⟨hnum.1, hnum.2, (by decide : 2 < 8), (by decide : 2 ≠ 4), _, hcase, messageCase_decodes fieldName set hsub⟩

theorem varintField_decodes {set : μ → Nat → μ} {v : Nat} (hv : v < 2 ^ 64)
    (hnum : 0 < num ∧ num < 16) (hcase : fields num = some (varintCase fieldName set)) :
    (varintField num set v).Decodes fields :=
  ⟨hnum.1, hnum.2, (by decide : 0 < 8), (by decide : 0 ≠ 4), _, hcase, varintCase_decodes fieldName set hv⟩

theorem fixed64Field_decodes {set : μ → Nat → μ} {v : Nat} (hv : v < 2 ^ 64)
    (hnum : 0 < num ∧ num < 16) (hcase : fields num = some (fixed64Case fieldName set)) :
    (fixed64Field num set v).Decodes fields :=
  ⟨hnum.1, hnum.2, (by decide : 1 < 8), (by decide : 1 ≠ 4), _, hcase, fixed64Case_decodes fieldName set hv⟩

theorem forall_mem_ite_nil {α : Type} {p : α → Prop} {c : Prop} [Decidable c] {x : α}
    (h : p x) : ∀ y ∈ (if c then [x] else []), p y := by
  split <;> simp [h]

/-- A field written somewhere in `fs.flatMap Field.encode` is shorter than the whole. -/
theorem Field.length_payload_lt {fs : List (Field μ)} {f : Field μ} (hf : f ∈ fs) :
    f.payload.length < (fs.flatMap Field.encode).length := by
  have := (List.sublist_flatten_of_mem (List.mem_map_of_mem Field.encode hf)).length_le
  rw [Field.encode, List.length_cons] at this
  exact this

/-- Appending the image under `g` of each element of `as` to a repeated field appends
`as.map g`. -/
theorem foldl_append_map {α β : Type} (get : μ → List β) (set : μ → List β → μ) (g : α → β)
    (hget : ∀ m l, get (set m l) = l) (hset : ∀ m l l', set (set m l) l' = set m l')
    (hself : ∀ m, set m (get m) = m) (m : μ) (as : List α) :
    as.foldl (fun m a => set m (get m ++ [g a])) m = set m (get m ++ as.map g) := by
  induction as generalizing m with
  | nil => rw [List.foldl_nil, List.map_nil, List.append_nil, hself]
  | cons a as ih =>
    rw [List.foldl_cons, ih, hget, hset, List.map_cons, List.append_assoc, List.singleton_append]

end Fields

theorem length_lengthDelimited (tag : UInt8) (b : Bytes) :
    (lengthDelimited tag b).length = lengthDelimitedSize b.length := by
  rw [lengthDelimited, lengthDelimitedSize, sov_eq_length, List.length_append, List.length_cons]
  omega

theorem length_encodeVarint_le : ∀ (n : Nat) {v : Nat}, v < 2 ^ (7 * (n + 1)) →
    (encodeVarint v).length ≤ n + 1
  | 0, v, hv => by rw [encodeVarint_of_lt (by simpa using hv)]; rfl
  | n + 1, v, hv => by
    by_cases h : v < 0x80
    · rw [encodeVarint_of_lt h]; simp
    · have hv' : v / 0x80 < 2 ^ (7 * (n + 1)) := by
        rw [Nat.div_lt_iff_lt_mul (by norm_num)]
        calc v < 2 ^ (7 * (n + 1 + 1)) := hv
          _ = 2 ^ (7 * (n + 1)) * 0x80 := by rw [Nat.mul_succ, Nat.pow_add]
      rw [encodeVarint_of_ge (by omega), List.length_cons]
      exact Nat.succ_le_succ (length_encodeVarint_le n hv')

/-! ## Scalars -/

theorem zigzag_lt (x : UInt64) : zigzag x < 2 ^ 64 := by
  have := x.toNat_lt_size
  rw [zigzag]
  split <;> omega

theorem uint64_ofNat_eq {x : UInt64} {n : Nat} (h : n % 2 ^ 64 = x.toNat) : UInt64.ofNat n = x := by
  apply UInt64.eq_of_toBitVec_eq
  apply BitVec.eq_of_toNat_eq
  simpa [UInt64.ofNat, UInt64.toNat] using h

theorem uint32_ofNat_eq {x : UInt32} {n : Nat} (h : n % 2 ^ 32 = x.toNat) : UInt32.ofNat n = x := by
  apply UInt32.eq_of_toBitVec_eq
  apply BitVec.eq_of_toNat_eq
  simpa [UInt32.ofNat, UInt32.toNat] using h

/-- Zigzag decoding undoes zigzag encoding on every `int64`. -/
theorem unzigzag_zigzag (x : UInt64) : unzigzag (zigzag x % 2 ^ 64) = x := by
  have : x.toNat < 2 ^ 64 := x.toNat_lt_size
  rw [unzigzag, Nat.mod_eq_of_lt (zigzag_lt x), zigzag]
  apply uint64_ofNat_eq
  by_cases h : x.toNat < 2 ^ 63
  · rw [if_pos h, if_pos (Nat.mul_mod_right 2 _), Nat.mul_div_cancel_left _ two_pos,
      Nat.mod_eq_of_lt this]
  · rw [if_neg h, if_neg (by omega)]; omega

theorem statusUint64_lt (s : UInt32) : statusUint64 s < 2 ^ 64 := by
  have := s.toNat_lt_size
  change s.toNat < 2 ^ 32 at this
  rw [statusUint64]
  split <;> omega

/-- The low 32 bits of the sign-extended status are the status. -/
theorem statusOfVarint_statusUint64 (s : UInt32) : statusOfVarint (statusUint64 s) = s := by
  have := s.toNat_lt_size
  change s.toNat < 2 ^ 32 at this
  apply uint32_ofNat_eq
  rw [statusUint64]
  split <;> omega

/-! ## `Label` -/

namespace Label

/-- The fields `Label.MarshalTo` writes. -/
def wireFields (m : Label) : List (Field Label) :=
  (if m.name.length > 0 then [bytesField 1 (fun m s => { m with name := s }) m.name] else []) ++
    (if m.value.length > 0 then [bytesField 2 (fun m s => { m with value := s }) m.value] else [])

theorem marshalTo_eq (m : Label) : m.marshalTo = m.wireFields.flatMap Field.encode := by
  simp only [marshalTo, wireFields, List.flatMap_append, apply_ite (List.flatMap · Field.encode),
    List.flatMap_cons, List.flatMap_nil, List.append_nil]
  rfl

theorem wireFields_decode (m : Label) : ∀ f ∈ m.wireFields, f.Decodes fields :=
  List.forall_mem_append.mpr ⟨forall_mem_ite_nil (bytesField_decodes _ (by decide) rfl),
    forall_mem_ite_nil (bytesField_decodes _ (by decide) rfl)⟩

theorem foldl_wireFields (m : Label) : m.wireFields.foldl (fun m f => f.update m) {} = m := by
  obtain ⟨name, value⟩ := m
  rw [wireFields]
  split <;> split <;> simp_all [bytesField]

theorem size_eq (m : Label) : m.size = m.marshalTo.length := by
  simp only [size, marshalTo, List.length_append, apply_ite List.length, length_lengthDelimited,
    List.length_nil]

theorem unmarshal_marshalTo {m : Label} (h : m.marshalTo.length < 2 ^ 63) :
    unmarshal m.marshalTo = .ok m := by
  rw [marshalTo_eq] at h ⊢
  rw [unmarshal, unmarshal_flatMap_encode _ m.wireFields_decode h, foldl_wireFields]

theorem marshal_eq (m : Label) : m.marshal = .ok m.marshalTo := by
  rw [marshal, if_pos (size_eq m).ge]

end Label

/-! ## `Point` -/

namespace Point

/-- The point that `Unmarshal` rebuilds: a `V` of `-0.0` is not written, and reads as
`+0.0`. -/
def zeroNormalized (m : Point) : Point := { m with v := if float64IsZero m.v then 0 else m.v }

/-- The fields `Point.MarshalTo` writes. -/
def wireFields (m : Point) : List (Field Point) :=
  (if m.t ≠ 0 then
    [varintField 1 (fun m v => { m with t := unzigzag (v % 2 ^ 64) }) (zigzag m.t)] else []) ++
  (if !float64IsZero m.v then
    [fixed64Field 2 (fun m v => { m with v := UInt64.ofNat v }) m.v.toNat] else [])

theorem marshalTo_eq (m : Point) : m.marshalTo = m.wireFields.flatMap Field.encode := by
  simp only [marshalTo, wireFields, List.flatMap_append, apply_ite (List.flatMap · Field.encode),
    List.flatMap_cons, List.flatMap_nil, List.append_nil]
  rfl

theorem wireFields_decode (m : Point) : ∀ f ∈ m.wireFields, f.Decodes fields :=
  List.forall_mem_append.mpr
    ⟨forall_mem_ite_nil (varintField_decodes (zigzag_lt m.t) (by decide) rfl),
      forall_mem_ite_nil (fixed64Field_decodes m.v.toNat_lt_size (by decide) rfl)⟩

theorem foldl_wireFields (m : Point) :
    m.wireFields.foldl (fun m f => f.update m) {} = m.zeroNormalized := by
  obtain ⟨t, v⟩ := m
  have ht : unzigzag (zigzag t % 2 ^ 64) = t := unzigzag_zigzag t
  have hv : UInt64.ofNat v.toNat = v := uint64_ofNat_eq (Nat.mod_eq_of_lt v.toNat_lt_size)
  rw [wireFields, zeroNormalized]
  split <;> split <;> simp_all [varintField, fixed64Field]

theorem size_eq (m : Point) : m.size = m.marshalTo.length := by
  simp only [size, marshalTo, List.length_append, apply_ite List.length, List.length_cons,
    putUint64_length, sov_eq_length, List.length_nil]
  split <;> split <;> omega

theorem length_marshalTo_le (m : Point) : m.marshalTo.length ≤ 20 := by
  have := length_encodeVarint_le 9 (lt_of_lt_of_le (zigzag_lt m.t) (by norm_num))
  rw [← size_eq, size, sov_eq_length]
  split <;> split <;> omega

/-- `Unmarshal` undoes `MarshalTo` on every point, but for `V = -0.0`. -/
theorem unmarshal_marshalTo (m : Point) : unmarshal m.marshalTo = .ok m.zeroNormalized := by
  have h : (m.wireFields.flatMap Field.encode).length < 2 ^ 63 := by
    have := length_marshalTo_le m
    rw [marshalTo_eq] at this
    omega
  rw [marshalTo_eq, unmarshal, unmarshal_flatMap_encode _ m.wireFields_decode h, foldl_wireFields]

theorem marshal_eq (m : Point) : m.marshal = .ok m.marshalTo := by
  rw [marshal, if_pos (size_eq m).ge]

end Point

/-! ## `Series` -/

namespace Series

/-- The series that `Unmarshal` rebuilds: each point's `V = -0.0` reads as `+0.0`. -/
def zeroNormalized (m : Series) : Series := { m with points := m.points.map Point.zeroNormalized }

/-- The fields `Series.MarshalTo` writes. -/
def wireFields (m : Series) : List (Field Series) :=
  m.labels.map (fun l => messageField 1 (fun m l => { m with labels := m.labels ++ [l] })
      l.marshalTo l) ++
    m.points.map fun p => messageField 2 (fun m p => { m with points := m.points ++ [p] })
      p.marshalTo p.zeroNormalized

theorem marshalTo_eq (m : Series) : m.marshalTo = m.wireFields.flatMap Field.encode := by
  simp only [marshalTo, wireFields, List.flatMap_append, List.flatMap_map, Label.size_eq,
    Point.size_eq]
  rfl

theorem wireFields_decode {m : Series} (h : m.marshalTo.length < 2 ^ 63) :
    ∀ f ∈ m.wireFields, f.Decodes fields := by
  intro f hf
  have hlen := Field.length_payload_lt hf
  rw [← marshalTo_eq] at hlen
  rcases List.mem_append.mp hf with hf | hf <;> obtain ⟨x, -, rfl⟩ := List.mem_map.mp hf
  · simp only [messageField, List.length_append] at hlen
    exact messageField_decodes (by decide) rfl (Label.unmarshal_marshalTo (by omega))
  · exact messageField_decodes (by decide) rfl (Point.unmarshal_marshalTo x)

theorem foldl_wireFields (m : Series) :
    m.wireFields.foldl (fun m f => f.update m) {} = m.zeroNormalized := by
  rw [wireFields, List.foldl_append, List.foldl_map, List.foldl_map]
  refine (congrArg (List.foldl _ · _) (foldl_append_map labels (fun m l => { m with labels := l })
    id (fun _ _ => rfl) (fun _ _ _ => rfl) (fun _ => rfl) {} m.labels)).trans
    ((foldl_append_map points (fun m l => { m with points := l }) Point.zeroNormalized
      (fun _ _ => rfl) (fun _ _ _ => rfl) (fun _ => rfl) _ _).trans ?_)
  simp [zeroNormalized]

theorem size_eq (m : Series) : m.size = m.marshalTo.length := by
  simp only [size, marshalTo, List.length_append, List.length_flatMap, Function.comp_def,
    List.length_cons, Label.size_eq, Point.size_eq, length_lengthDelimited, lengthDelimitedSize,
    sov_eq_length]
  congr 1 <;> congr 1 <;> exact List.map_congr_left fun _ _ => by omega

theorem unmarshal_marshalTo {m : Series} (h : m.marshalTo.length < 2 ^ 63) :
    unmarshal m.marshalTo = .ok m.zeroNormalized := by
  have hd := wireFields_decode h
  rw [marshalTo_eq] at h ⊢
  rw [unmarshal, unmarshal_flatMap_encode _ hd h, foldl_wireFields]

theorem marshal_eq (m : Series) : m.marshal = .ok m.marshalTo := by
  rw [marshal, if_pos (size_eq m).ge]

end Series

/-! ## `LabelValuesResponse` -/

namespace LabelValuesResponse

/-- On a length, which is never negative, the loop inlined in
`LabelValuesResponse.MarshalTo` is `encodeVarintPb`. -/
theorem inlineVarint_natCast (n : Nat) : inlineVarint n = encodeVarint n := by
  induction n using Nat.strong_induction_on with
  | _ n ih =>
    rw [inlineVarint, encodeVarint]
    by_cases h : n < 0x80
    · rw [if_neg (by omega), if_pos h, show ((n : Int) % 0x100).toNat = n by omega]
    · rw [if_pos (by omega), if_neg h, show (n : Int) / 0x80 = ((n / 0x80 : Nat) : Int) by omega,
        ih _ (by omega), Int.toNat_ofNat]

/-- Each value goes out as a length-delimited field. -/
theorem value_bytes (s : Bytes) : 0xa :: inlineVarint s.length ++ s = lengthDelimited 0xa s := by
  rw [inlineVarint_natCast]; rfl

/-- The fields `LabelValuesResponse.MarshalTo` writes. -/
def wireFields (m : LabelValuesResponse) : List (Field LabelValuesResponse) :=
  m.values.map (bytesField 1 fun m s => { m with values := m.values ++ [s] }) ++
    (if m.status ≠ 0 then
      [varintField 2 (fun m v => { m with status := statusOfVarint v }) (statusUint64 m.status)]
      else []) ++
    (if m.errorMsg.length > 0 then
      [bytesField 3 (fun m s => { m with errorMsg := s }) m.errorMsg] else [])

theorem marshalTo_eq (m : LabelValuesResponse) :
    m.marshalTo = m.wireFields.flatMap Field.encode := by
  simp only [marshalTo, value_bytes, wireFields, List.flatMap_append, List.flatMap_map,
    apply_ite (List.flatMap · Field.encode), List.flatMap_cons, List.flatMap_nil, List.append_nil]
  rfl

theorem wireFields_decode (m : LabelValuesResponse) : ∀ f ∈ m.wireFields, f.Decodes fields := by
  refine List.forall_mem_append.mpr ⟨List.forall_mem_append.mpr ⟨?_,
    forall_mem_ite_nil (varintField_decodes (statusUint64_lt _) (by decide) rfl)⟩,
    forall_mem_ite_nil (bytesField_decodes _ (by decide) rfl)⟩
  intro f hf
  obtain ⟨s, -, rfl⟩ := List.mem_map.mp hf
  exact bytesField_decodes s (by decide) rfl

theorem foldl_wireFields (m : LabelValuesResponse) :
    m.wireFields.foldl (fun m f => f.update m) {} = m := by
  obtain ⟨values, status, errorMsg⟩ := m
  have hv : values.foldl (fun (m : LabelValuesResponse) s => (bytesField 1
      (fun (m : LabelValuesResponse) s => { m with values := m.values ++ [s] }) s).update m) {} =
      ({ values := values } : LabelValuesResponse) :=
    (foldl_append_map LabelValuesResponse.values (fun m l => { m with values := l }) id
      (fun _ _ => rfl) (fun _ _ _ => rfl) (fun _ => rfl) {} values).trans (by simp)
  have hs := statusOfVarint_statusUint64 status
  rw [wireFields, List.foldl_append, List.foldl_append, List.foldl_map, hv]
  split <;> split <;> simp_all [varintField, bytesField]

theorem size_eq (m : LabelValuesResponse) : m.size = m.marshalTo.length := by
  simp only [size, marshalTo, value_bytes, List.length_append, List.length_flatMap, Function.comp_def,
    length_lengthDelimited, apply_ite List.length, List.length_cons, sov_eq_length, List.length_nil]
  split <;> omega

theorem unmarshal_marshalTo {m : LabelValuesResponse} (h : m.marshalTo.length < 2 ^ 63) :
    unmarshal m.marshalTo = .ok m := by
  rw [marshalTo_eq] at h ⊢
  rw [unmarshal, unmarshal_flatMap_encode _ m.wireFields_decode h, foldl_wireFields]

theorem marshal_eq (m : LabelValuesResponse) : m.marshal = .ok m.marshalTo := by
  rw [marshal, if_pos (size_eq m).ge]

end LabelValuesResponse

/-! ## `GeneralResponse` -/

namespace GeneralResponse

/-- The fields `GeneralResponse.MarshalTo` writes. -/
def wireFields (m : GeneralResponse) : List (Field GeneralResponse) :=
  (if m.status ≠ 0 then
    [varintField 1 (fun m v => { m with status := statusOfVarint v }) (statusUint64 m.status)]
    else []) ++
  (if m.message.length > 0 then
    [bytesField 2 (fun m s => { m with message := s }) m.message] else [])

theorem marshalTo_eq (m : GeneralResponse) : m.marshalTo = m.wireFields.flatMap Field.encode := by
  simp only [marshalTo, wireFields, List.flatMap_append, apply_ite (List.flatMap · Field.encode),
    List.flatMap_cons, List.flatMap_nil, List.append_nil]
  rfl

theorem wireFields_decode (m : GeneralResponse) : ∀ f ∈ m.wireFields, f.Decodes fields :=
  List.forall_mem_append.mpr
    ⟨forall_mem_ite_nil (varintField_decodes (statusUint64_lt _) (by decide) rfl),
      forall_mem_ite_nil (bytesField_decodes _ (by decide) rfl)⟩

theorem foldl_wireFields (m : GeneralResponse) :
    m.wireFields.foldl (fun m f => f.update m) {} = m := by
  obtain ⟨status, message⟩ := m
  have hs := statusOfVarint_statusUint64 status
  rw [wireFields]
  split <;> split <;> simp_all [varintField, bytesField]

theorem size_eq (m : GeneralResponse) : m.size = m.marshalTo.length := by
  simp only [size, marshalTo, List.length_append, apply_ite List.length, length_lengthDelimited,
    List.length_cons, sov_eq_length, List.length_nil]
  split <;> omega

theorem unmarshal_marshalTo {m : GeneralResponse} (h : m.marshalTo.length < 2 ^ 63) :
    unmarshal m.marshalTo = .ok m := by
  rw [marshalTo_eq] at h ⊢
  rw [unmarshal, unmarshal_flatMap_encode _ m.wireFields_decode h, foldl_wireFields]

theorem marshal_eq (m : GeneralResponse) : m.marshal = .ok m.marshalTo := by
  rw [marshal, if_pos (size_eq m).ge]

end GeneralResponse

/-! ## The round trip -/

/-- `Unmarshal` after `Marshal` returns no error and rebuilds the message, for every
message of `pb.proto` whose `Size()` fits in a Go `int`; a point's `V` of `-0.0` comes back
as `+0.0`, every other field unchanged. -/
theorem unmarshal_marshal :
    (∀ m : Label, m.size < 2 ^ 63 → (m.marshal >>= Label.unmarshal) = .ok m) ∧
    (∀ m : Point, (m.marshal >>= Point.unmarshal) = .ok m.zeroNormalized) ∧
    (∀ m : Series, m.size < 2 ^ 63 → (m.marshal >>= Series.unmarshal) = .ok m.zeroNormalized) ∧
    (∀ m : LabelValuesResponse, m.size < 2 ^ 63 →
      (m.marshal >>= LabelValuesResponse.unmarshal) = .ok m) ∧
    (∀ m : GeneralResponse, m.size < 2 ^ 63 →
      (m.marshal >>= GeneralResponse.unmarshal) = .ok m) := by
  refine ⟨fun m h => ?_, fun m => ?_, fun m h => ?_, fun m h => ?_, fun m h => ?_⟩
  · rw [Label.marshal_eq, ok_bind]; exact Label.unmarshal_marshalTo (Label.size_eq m ▸ h)
  · rw [Point.marshal_eq, ok_bind]; exact Point.unmarshal_marshalTo m
  · rw [Series.marshal_eq, ok_bind]; exact Series.unmarshal_marshalTo (Series.size_eq m ▸ h)
  · rw [LabelValuesResponse.marshal_eq, ok_bind]
    exact LabelValuesResponse.unmarshal_marshalTo (LabelValuesResponse.size_eq m ▸ h)
  · rw [GeneralResponse.marshal_eq, ok_bind]
    exact GeneralResponse.unmarshal_marshalTo (GeneralResponse.size_eq m ▸ h)

/-- A series with a label, a sample `-0.0` at `T = 5` and a staleness marker (a NaN) at
`T = -1`. -/
theorem unmarshal_marshal_series :
    let s : Series := ⟨[⟨[0x6a, 0x6f, 0x62], [0x61, 0x70, 0x69]⟩],
      [⟨5, 0x8000000000000000⟩, ⟨0xffffffffffffffff, 0x7ff0000000000002⟩]⟩
    s.size < 2 ^ 63 ∧ (s.marshal >>= Series.unmarshal) = .ok s.zeroNormalized := by
  intro s
  have h : s.size < 2 ^ 63 := by
    simp [s, Series.size, Label.size, Point.size, lengthDelimitedSize, sov_of_lt, zigzag, float64IsZero,
      UInt64.size]
  exact ⟨h, unmarshal_marshal.2.2.1 s h⟩

/-- A point whose value is `-0.0` comes back with the value `+0.0`. -/
theorem Point.unmarshal_marshal_negative_zero :
    (Point.marshal ⟨0, 0x8000000000000000⟩ >>= Point.unmarshal) = .ok ⟨0, 0⟩ ∧
      (⟨0, 0⟩ : Point) ≠ ⟨0, 0x8000000000000000⟩ :=
  ⟨rfl, by decide⟩

end Baudtime.Pb
