import Mathlib.Data.List.Basic
import Mathlib.Data.Nat.Digits
import Mathlib.Tactic.Ring

/-!
# The protobuf wire format of the generated code

`pb.pb.go` and `admin.pb.go` are generated by gogo/protobuf. Their encoders write
base-128 varints (`encodeVarintPb`) and size them with `sovPb`; their decoders share one
loop shape: read a tag varint, switch on the field number, decode the field, and hand
unknown fields to `skipPb` (`skipAdmin`), which steps over one field of any wire type.

Go's `int` is 64 bits wide and wraps, so every addition of two indices is taken
`Int.bmod 2^64` (`goInt`). An index or slice expression outside the slice, like a read
through a `nil` pointer, is a runtime panic, a `Failure.panic` here. The decoding loops
read at least one byte an iteration; they run on fuel `len(dAtA) + 1`, and
`Failure.outOfFuel` marks an exhausted fuel. `skipPb` runs on fuel `2 * len(dAtA) + 1`,
since a group costs one unit for the call and one for each turn of its loop; the fuel
never runs out (`skipPb_ne_outOfFuel`).

## Main definitions

* `Failure` — how a decoder ends other than by returning normally
* `readVarint` — the varint loop of every decoder
* `readLengthDelimited` — a string or embedded message field
* `skipGeneric`, `skipPb` — `skipPb` and `skipAdmin`
* `Case`, `unmarshalLoop` — the loop of a generated `Unmarshal`
* `encodeVarint`, `sov`
-/

namespace Baudtime.Pb

/-- A Go `[]byte`. -/
abbrev Bytes := List UInt8

/-- How a generated function ends when it does not return normally. -/
inductive Failure
  /-- It returns an error. -/
  | error (err : String)
  /-- A Go runtime panic: an index or slice bound out of range, or a `nil` pointer
  dereference. -/
  | panic
  /-- The fuel of a loop ran out. -/
  | outOfFuel
  deriving DecidableEq, Repr

/-- `io.ErrUnexpectedEOF`. -/
def errUnexpectedEOF : String := "unexpected EOF"

/-- `ErrInvalidLengthPb` and `ErrInvalidLengthAdmin`. -/
def errInvalidLength : String := "proto: negative length found during unmarshaling"

/-- `ErrIntOverflowPb` and `ErrIntOverflowAdmin`. -/
def errIntOverflow : String := "proto: integer overflow"

/-- A Go `int` computed from an integer: its value modulo `2^64`, in `[-2^63, 2^63)`. -/
def goInt (x : Int) : Int := x.bmod (2 ^ 64)

/-- `dAtA[i]`. -/
def byteAt (dAtA : Bytes) (i : Int) : Except Failure UInt8 :=
  if 0 ≤ i then
    match dAtA[i.toNat]? with
    | some b => .ok b
    | none => .error .panic
  else .error .panic

/-- `dAtA[low:high]`, on a slice whose capacity is its length. -/
def slice (dAtA : Bytes) (low high : Int) : Except Failure Bytes :=
  if 0 ≤ low ∧ low ≤ high ∧ high ≤ dAtA.length then
    .ok ((dAtA.drop low.toNat).take (high - low).toNat)
  else .error .panic

/-! ## Decoding -/

/-- The loop `for shift := uint(0); ; shift += 7 { ... }` that reads a varint at `iNdEx`,
`x |= (b & 0x7F) << shift` for each byte `b` up to one below `0x80`. The groups take
disjoint bits, so `x` is their sum; each caller truncates it to the width of its
variable. `n` counts the iterations left before `shift` reaches 70, where the check
`shift >= 64` fails. -/
def readVarintFrom (dAtA : Bytes) : Nat → Nat → Int → Nat → Except Failure (Nat × Int)
  | 0, _, _, _ => .error (.error errIntOverflow)
  | n + 1, shift, iNdEx, x =>
    if 64 ≤ shift then .error (.error errIntOverflow)
    else if (dAtA.length : Int) ≤ iNdEx then .error (.error errUnexpectedEOF)
    else do
      let b ← byteAt dAtA iNdEx
      let x := x + b.toNat % 0x80 * 2 ^ shift
      if b.toNat < 0x80 then pure (x, iNdEx + 1)
      else readVarintFrom dAtA n (shift + 7) (iNdEx + 1) x

/-- A varint at `iNdEx`: its value, and the index after it. -/
def readVarint (dAtA : Bytes) (iNdEx : Int) : Except Failure (Nat × Int) :=
  readVarintFrom dAtA 10 0 iNdEx 0

/-- A length-delimited field at `iNdEx`: its length as a Go `int` (`intStringLen` or
`msglen`), the checks `< 0` and `postIndex > l`, and the slice `dAtA[iNdEx:postIndex]`. -/
def readLengthDelimited (dAtA : Bytes) (iNdEx : Int) : Except Failure (Bytes × Int) := do
  let (len, iNdEx) ← readVarint dAtA iNdEx
  let len := goInt len
  if len < 0 then throw (.error errInvalidLength)
  let postIndex := goInt (iNdEx + len)
  if (dAtA.length : Int) < postIndex then throw (.error errUnexpectedEOF)
  let s ← slice dAtA iNdEx postIndex
  pure (s, postIndex)

/-- `encoding_binary.LittleEndian.Uint64(b)`. -/
def uint64LE (b : Bytes) : Except Failure Nat :=
  if 8 ≤ b.length then .ok (((b.take 8).map UInt8.toNat).foldr (fun d v => d + 256 * v) 0)
  else .error .panic

mutual

/-- `skipPb(dAtA)` and `skipAdmin(dAtA)`: the length of the field that starts `dAtA`. Every
case of its `switch wireType` returns, so its `for iNdEx < l` loop runs at most once. -/
def skipGeneric : Nat → Bytes → Except Failure Int
  | 0, _ => .error .outOfFuel
  | fuel + 1, dAtA =>
    if 0 < dAtA.length then do
      let (wire, iNdEx) ← readVarint dAtA 0
      match wire % 2 ^ 64 % 8 with
      | 0 =>
        let (_, iNdEx) ← readVarint dAtA iNdEx
        pure iNdEx
      | 1 => pure (goInt (iNdEx + 8))
      | 2 =>
        let (length, iNdEx) ← readVarint dAtA iNdEx
        let length := goInt length
        let iNdEx := goInt (iNdEx + length)
        if length < 0 then throw (.error errInvalidLength)
        pure iNdEx
      | 3 => skipGroup fuel dAtA iNdEx
      | 4 => pure iNdEx
      | 5 => pure (goInt (iNdEx + 4))
      | wireType => throw (.error ("proto: illegal wireType " ++ toString wireType))
    else .error .panic

/-- The loop of `skipPb` over the fields of a group, up to its end-group tag: each inner
field is skipped by `skipPb(dAtA[start:])`, and the loop goes on at `start + next`. -/
def skipGroup : Nat → Bytes → Int → Except Failure Int
  | 0, _, _ => .error .outOfFuel
  | fuel + 1, dAtA, iNdEx => do
    let start := iNdEx
    let (innerWire, iNdEx) ← readVarint dAtA iNdEx
    if innerWire % 2 ^ 64 % 8 = 4 then pure iNdEx
    else
      let next ← skipGeneric fuel (← slice dAtA start dAtA.length)
      skipGroup fuel dAtA (goInt (start + next))

end

/-- `skipPb(dAtA)` and `skipAdmin(dAtA)`, whose code is the same, on fuel enough for the
groups of `dAtA` nested in each other. -/
def skipPb (dAtA : Bytes) : Except Failure Int := skipGeneric (2 * dAtA.length + 1) dAtA

/-- One `case` of the `switch fieldNum` of a generated `Unmarshal`: given the wire type,
it decodes the field at `iNdEx` into the message. -/
abbrev Case (μ : Type) := Nat → Bytes → Int → μ → Except Failure (μ × Int)

/-- The body of the `for iNdEx < l` loop of a generated `Unmarshal` for the message `name`
after its tag varint `wire`, read at `preIndex` and ending at `iNdEx`: the checks of the
wire type and the field number, then the `switch fieldNum`, which is `fields` (`none` for
its `default` case, which skips the field). The loop goes on as `loop`. -/
def unmarshalField {μ : Type} (name : String) (fields : Int → Option (Case μ)) (dAtA : Bytes)
    (loop : Int → μ → Except Failure μ) (preIndex : Int) (wire : Nat) (iNdEx : Int) (m : μ) :
    Except Failure μ := do
  let wire : Nat := wire % 2 ^ 64
  let fieldNum : Int := Int.bmod (wire / 8 : Nat) (2 ^ 32)
  let wireType : Nat := wire % 8
  if wireType = 4 then
    throw (.error ("proto: " ++ name ++ ": wiretype end group for non-group"))
  if fieldNum ≤ 0 then
    throw (.error ("proto: " ++ name ++ ": illegal tag " ++ toString fieldNum ++
      " (wire type " ++ toString wire ++ ")"))
  match fields fieldNum with
  | some case =>
    let (m, iNdEx) ← case wireType dAtA iNdEx m
    loop iNdEx m
  | none =>
    let skippy ← skipPb (← slice dAtA preIndex dAtA.length)
    if skippy < 0 then throw (.error errInvalidLength)
    if (dAtA.length : Int) < goInt (preIndex + skippy) then throw (.error errUnexpectedEOF)
    loop (goInt (preIndex + skippy)) m

/-- The `for iNdEx < l` loop of a generated `Unmarshal` for the message `name`, followed
by the final check `iNdEx > l`. -/
def unmarshalLoop {μ : Type} (name : String) (fields : Int → Option (Case μ))
    (dAtA : Bytes) : Nat → Int → μ → Except Failure μ
  | 0, _, _ => .error .outOfFuel
  | fuel + 1, iNdEx, m =>
    if iNdEx < dAtA.length then do
      let (wire, iNdEx') ← readVarint dAtA iNdEx
      unmarshalField name fields dAtA (unmarshalLoop name fields dAtA fuel) iNdEx wire iNdEx' m
    else if (dAtA.length : Int) < iNdEx then throw (.error errUnexpectedEOF)
    else pure m

/-- A generated `Unmarshal` of the message `name` into `m`. -/
def unmarshal {μ : Type} (name : String) (fields : Int → Option (Case μ)) (dAtA : Bytes)
    (m : μ) : Except Failure μ :=
  unmarshalLoop name fields dAtA (dAtA.length + 1) 0 m

/-- `if wireType != expected { return fmt.Errorf(...) }`. -/
def checkWireType (expected : Nat) (fieldName : String) (wireType : Nat) :
    Except Failure Unit :=
  if wireType ≠ expected then
    throw (.error ("proto: wrong wireType = " ++ toString wireType ++ " for field " ++ fieldName))
  else pure ()

/-- A `string` field: wire type 2, then `string(dAtA[iNdEx:postIndex])`. -/
def bytesCase {μ : Type} (fieldName : String) (set : μ → Bytes → μ) : Case μ :=
  fun wireType dAtA iNdEx m => do
    checkWireType 2 fieldName wireType
    let (s, iNdEx) ← readLengthDelimited dAtA iNdEx
    pure (set m s, iNdEx)

/-- An embedded message field: wire type 2, then its `Unmarshal` on
`dAtA[iNdEx:postIndex]`. -/
def messageCase {μ ν : Type} (fieldName : String) (unmarshalSub : Bytes → Except Failure ν)
    (set : μ → ν → μ) : Case μ :=
  fun wireType dAtA iNdEx m => do
    checkWireType 2 fieldName wireType
    let (s, iNdEx) ← readLengthDelimited dAtA iNdEx
    let v ← unmarshalSub s
    pure (set m v, iNdEx)

/-- A varint field: wire type 0, then its varint. -/
def varintCase {μ : Type} (fieldName : String) (set : μ → Nat → μ) : Case μ :=
  fun wireType dAtA iNdEx m => do
    checkWireType 0 fieldName wireType
    let (v, iNdEx) ← readVarint dAtA iNdEx
    pure (set m v, iNdEx)

/-- A `double` field: wire type 1, the check `iNdEx + 8 > l`, then
`LittleEndian.Uint64(dAtA[iNdEx:])`. -/
def fixed64Case {μ : Type} (fieldName : String) (set : μ → Nat → μ) : Case μ :=
  fun wireType dAtA iNdEx m => do
    checkWireType 1 fieldName wireType
    if (dAtA.length : Int) < goInt (iNdEx + 8) then throw (.error errUnexpectedEOF)
    let v ← uint64LE (← slice dAtA iNdEx dAtA.length)
    pure (set m v, goInt (iNdEx + 8))

/-! ## Encoding -/

/-- `encodeVarintPb`: seven bits a byte, least significant first, `0x80` on all bytes but
the last. -/
def encodeVarint (v : Nat) : Bytes :=
  if v < 0x80 then [UInt8.ofNat v] else UInt8.ofNat (v % 0x80 + 0x80) :: encodeVarint (v / 0x80)
termination_by v
decreasing_by omega

/-- `sovPb(x)`: the number of bytes of the varint of `x`. -/
def sov (x : Nat) : Nat := if x / 0x80 = 0 then 1 else sov (x / 0x80) + 1
termination_by x
decreasing_by omega

/-- `encoding_binary.LittleEndian.PutUint64`. -/
def putUint64 (v : Nat) : Bytes := (List.range 8).map fun k => UInt8.ofNat (v / 256 ^ k)

/-! ## Reading what was written -/

/-- A `do` block in `Except` goes on with the value of a step that succeeded. -/
theorem ok_bind {ε α β : Type} (x : α) (f : α → Except ε β) : (Except.ok x >>= f) = f x := rfl

/-- A `do` block in `Except` that returns normally had its first step return normally. -/
theorem bind_eq_ok {ε α β : Type} {x : Except ε α} {f : α → Except ε β} {b : β} :
    (x >>= f) = .ok b ↔ ∃ a, x = .ok a ∧ f a = .ok b := by
  cases x with
  | error e => exact ⟨fun h => (nomatch h), fun ⟨_, h, _⟩ => (nomatch h)⟩
  | ok a => exact ⟨fun h => ⟨a, rfl, h⟩, fun ⟨_, h, hb⟩ => by cases h; exact hb⟩

/-- A `do` block in `Except` fails with `e` only if one of its steps does. -/
theorem bind_ne_error {ε α β : Type} {x : Except ε α} {f : α → Except ε β} {e : ε}
    (hx : x ≠ .error e) (hf : ∀ a, x = .ok a → f a ≠ .error e) : (x >>= f) ≠ .error e := by
  cases x with
  | error e' => intro h; cases h; exact hx rfl
  | ok a => exact hf a rfl

theorem goInt_of_lt {x : Int} (h0 : 0 ≤ x) (h1 : x < 2 ^ 63) : goInt x = x := by
  rw [goInt, Int.bmod_def, Int.emod_eq_of_lt h0 (by omega), if_pos (by omega)]

/-- A sum in `[2^63, 2^64)` wraps to a negative `int`. -/
theorem goInt_of_ge {x : Int} (h0 : 2 ^ 63 ≤ x) (h1 : x < 2 ^ 64) : goInt x = x - 2 ^ 64 := by
  simp only [goInt, Int.bmod_def]; push_cast; split <;> omega

theorem goInt_of_neg {x : Int} (h0 : -2 ^ 63 ≤ x) (h1 : x < 0) : goInt x = x := by
  simp only [goInt, Int.bmod_def]; push_cast; split <;> omega

/-- A Go `int` lies in `[-2^63, 2^63)`. -/
theorem goInt_mem (x : Int) : -2 ^ 63 ≤ goInt x ∧ goInt x < 2 ^ 63 := by
  simp only [goInt, Int.bmod_def]; push_cast; split <;> omega

theorem byteAt_of_drop {dAtA rest : Bytes} {i : Int} {b : UInt8} (hi : 0 ≤ i)
    (h : dAtA.drop i.toNat = b :: rest) : byteAt dAtA i = .ok b := by
  have hb : dAtA[i.toNat]? = some b := by rw [← List.head?_drop, h]; rfl
  simp [byteAt, hi, hb]

theorem lt_length_of_drop {dAtA rest : Bytes} {k : Nat} {b : UInt8}
    (h : dAtA.drop k = b :: rest) : k < dAtA.length := by
  have := congrArg List.length h
  simp only [List.length_drop, List.length_cons] at this
  omega

theorem drop_succ_of_drop {dAtA rest : Bytes} {k : Nat} {b : UInt8}
    (h : dAtA.drop k = b :: rest) : dAtA.drop (k + 1) = rest := by
  rw [← List.tail_drop, h]; rfl

theorem encodeVarint_of_lt {v : Nat} (h : v < 0x80) : encodeVarint v = [UInt8.ofNat v] := by
  rw [encodeVarint, if_pos h]

theorem encodeVarint_of_ge {v : Nat} (h : 0x80 ≤ v) :
    encodeVarint v = UInt8.ofNat (v % 0x80 + 0x80) :: encodeVarint (v / 0x80) := by
  rw [encodeVarint, if_neg (by omega)]

theorem encodeVarint_ne_nil (v : Nat) : encodeVarint v ≠ [] := by
  rw [encodeVarint]; split <;> simp

theorem sov_of_lt {x : Nat} (h : x < 0x80) : sov x = 1 := by
  rw [sov, if_pos (by omega)]

theorem sov_eq_length (v : Nat) : sov v = (encodeVarint v).length := by
  induction v using Nat.strong_induction_on with
  | _ v ih =>
    rw [sov]
    by_cases h : v < 0x80
    · rw [if_pos (by omega), encodeVarint_of_lt h]; rfl
    · rw [if_neg (by omega), encodeVarint_of_ge (by omega), List.length_cons, ih _ (by omega)]

/-- The varint loop reads back the varint of `v`, from any iteration on which it still has
room for all of its bytes. -/
theorem readVarintFrom_encodeVarint {dAtA rest : Bytes} :
    ∀ (n v shift x : Nat) (i : Int), 0 < n → v < 2 ^ (7 * n) → shift + 7 * n ≤ 70 → 0 ≤ i →
      dAtA.drop i.toNat = encodeVarint v ++ rest →
      readVarintFrom dAtA n shift i x = .ok (x + v * 2 ^ shift, i + (encodeVarint v).length)
  | 0, _, _, _, _, h, _, _, _, _ => absurd h (lt_irrefl 0)
  | n + 1, v, shift, x, i, _, hv, hs, hi, hd => by
    by_cases hsmall : v < 0x80
    · rw [encodeVarint_of_lt hsmall] at hd ⊢
      have hlt := lt_length_of_drop hd
      have hb : (UInt8.ofNat v).toNat = v := UInt8.toNat_ofNat_of_lt (show v < 256 by omega)
      rw [readVarintFrom, if_neg (by omega), if_neg (by omega)]
      simp only [byteAt_of_drop hi hd, bind, Except.bind, hb, if_pos hsmall, pure, Except.pure,
        Nat.mod_eq_of_lt hsmall, List.length_singleton, Nat.cast_one]
    · rw [encodeVarint_of_ge (by omega)] at hd ⊢
      have hlt := lt_length_of_drop hd
      have hb : (UInt8.ofNat (v % 0x80 + 0x80)).toNat = v % 0x80 + 0x80 :=
        UInt8.toNat_ofNat_of_lt (show v % 0x80 + 0x80 < 256 by omega)
      have hn : 0 < n := Nat.pos_of_ne_zero fun h0 => by subst h0; norm_num at hv; omega
      have hv' : v / 0x80 < 2 ^ (7 * n) := by
        rw [Nat.div_lt_iff_lt_mul (by norm_num)]
        calc v < 2 ^ (7 * (n + 1)) := hv
          _ = 2 ^ (7 * n) * 0x80 := by rw [Nat.mul_succ, Nat.pow_add]
      have hd' : dAtA.drop (i + 1).toNat = encodeVarint (v / 0x80) ++ rest := by
        rw [show (i + 1).toNat = i.toNat + 1 by omega]
        exact drop_succ_of_drop hd
      rw [readVarintFrom, if_neg (by omega), if_neg (by omega)]
      simp only [byteAt_of_drop hi hd, bind, Except.bind, hb, if_neg (show ¬(v % 0x80 + 0x80 < 0x80) by omega)]
      rw [readVarintFrom_encodeVarint n (v / 0x80) (shift + 7) _ (i + 1) hn hv' (by omega)
        (by omega) hd', List.length_cons, Nat.add_mod_right, Nat.mod_mod, pow_add, Nat.add_assoc,
        ← Nat.mul_assoc, Nat.mul_right_comm, ← Nat.add_mul, show (2 : Nat) ^ 7 = 0x80 from rfl,
        Nat.mod_add_div', Nat.cast_succ, Int.add_right_comm i 1, Int.add_assoc i]

theorem readVarint_encodeVarint {dAtA rest : Bytes} {v : Nat} {i : Int} (hv : v < 2 ^ 64)
    (hi : 0 ≤ i) (hd : dAtA.drop i.toNat = encodeVarint v ++ rest) :
    readVarint dAtA i = .ok (v, i + (encodeVarint v).length) := by
  rw [readVarint, readVarintFrom_encodeVarint 10 v 0 0 i (by norm_num) (by omega) (by norm_num) hi hd]
  simp

theorem drop_append_of_drop {dAtA pre rest : Bytes} {k : Nat} (h : dAtA.drop k = pre ++ rest) :
    dAtA.drop (k + pre.length) = rest := by
  rw [← List.drop_drop, h, List.drop_left]

theorem add_length_le_of_drop {dAtA pre rest : Bytes} {k : Nat} (hne : pre ≠ [])
    (h : dAtA.drop k = pre ++ rest) : k + pre.length ≤ dAtA.length := by
  have := congrArg List.length h
  have := List.length_pos.mpr hne
  simp only [List.length_drop, List.length_append] at *
  omega

theorem slice_of_drop {dAtA b rest : Bytes} {low : Int} (hlow : 0 ≤ low)
    (hle : low ≤ dAtA.length) (h : dAtA.drop low.toNat = b ++ rest) :
    slice dAtA low (low + b.length) = .ok b := by
  have hlen := congrArg List.length h
  simp only [List.length_drop, List.length_append] at hlen
  rw [slice, if_pos ⟨hlow, by omega, by omega⟩, h, show (low + b.length - low).toNat = b.length by omega,
    List.take_left]

/-- A length-delimited field reads back its bytes. -/
theorem readLengthDelimited_of_drop {dAtA rest b : Bytes} {i : Int} (hi : 0 ≤ i)
    (hd : dAtA.drop i.toNat = encodeVarint b.length ++ b ++ rest) (hlen : dAtA.length < 2 ^ 63) :
    readLengthDelimited dAtA i = .ok (b, i + (encodeVarint b.length ++ b).length) := by
  have hk := add_length_le_of_drop (by simp [encodeVarint_ne_nil]) hd
  simp only [List.length_append] at hk
  have hread := @readVarint_encodeVarint dAtA (b ++ rest) b.length i (by omega) hi
    (by rw [hd, List.append_assoc])
  have hb : dAtA.drop (i + (encodeVarint b.length).length).toNat = b ++ rest := by
    rw [show (i + (encodeVarint b.length).length).toNat = i.toNat + (encodeVarint b.length).length
      by omega, List.append_assoc] at *
    exact drop_append_of_drop hd
  have hpost : goInt (i + (encodeVarint b.length).length + b.length) =
      i + (encodeVarint b.length).length + b.length := goInt_of_lt (by omega) (by omega)
  rw [readLengthDelimited]
  simp only [hread, bind, Except.bind, goInt_of_lt (by omega) (by omega : (b.length : Int) < 2 ^ 63),
    hpost, pure, Except.pure, if_neg (show ¬((b.length : Int) < 0) by omega),
    if_neg (show ¬((dAtA.length : Int) < i + (encodeVarint b.length).length + b.length) by omega),
    slice_of_drop (by omega) (by omega) hb]
  simp only [List.length_append, Nat.cast_add, Int.add_assoc]

theorem toNat_ofNat_byte (x : Nat) : (UInt8.ofNat x).toNat = x % 256 := by
  simp [UInt8.toNat, UInt8.ofNat, BitVec.toNat_ofNat]

theorem putUint64_length (v : Nat) : (putUint64 v).length = 8 := by
  simp [putUint64]

/-- The little-endian bytes of `v` fold back to `v` modulo `256 ^ n`. -/
theorem foldr_bytes (n v : Nat) :
    ((List.range n).map fun k => v / 256 ^ k % 256).foldr (fun d acc => d + 256 * acc) 0 =
      v % 256 ^ n := by
  induction n generalizing v with
  | zero => simp [Nat.mod_one]
  | succ n ih =>
    rw [List.range_succ_eq_map, List.map_cons, List.map_map, List.foldr_cons, pow_succ',
      Nat.mod_mul, ← ih (v / 256)]
    simp only [Function.comp_def, pow_succ', ← Nat.div_div_eq_div_mul, pow_zero, Nat.div_one]

theorem uint64LE_putUint64 {v : Nat} (hv : v < 2 ^ 64) (rest : Bytes) :
    uint64LE (putUint64 v ++ rest) = .ok v := by
  rw [uint64LE, if_pos (by simp [putUint64_length]), List.take_left' (putUint64_length v),
    putUint64, List.map_map]
  simp only [Function.comp_def, toNat_ofNat_byte]
  rw [foldr_bytes, Nat.mod_eq_of_lt (by omega)]

/-! ## The loop of `Unmarshal` over what `MarshalTo` writes -/

/-- The `case` decodes a field of wire type `wireType` whose bytes after the tag are
`payload` by applying `update` to the message, wherever the field sits in `dAtA`. -/
def DecodesAs {μ : Type} (case : Case μ) (wireType : Nat) (payload : Bytes) (update : μ → μ) :
    Prop :=
  ∀ (dAtA rest : Bytes) (i : Int) (m : μ), 0 ≤ i → dAtA.drop i.toNat = payload ++ rest →
    dAtA.length < 2 ^ 63 → case wireType dAtA i m = .ok (update m, i + payload.length)

/-- A field as `MarshalTo` writes it: its number, its wire type, the bytes after its tag,
and what decoding it does to the message. -/
structure Field (μ : Type) where
  num : Nat
  wireType : Nat
  payload : Bytes
  update : μ → μ

/-- The field's tag byte and its payload. -/
def Field.encode {μ : Type} (f : Field μ) : Bytes := UInt8.ofNat (f.num * 8 + f.wireType) :: f.payload

/-- What a `switch fieldNum` must do with a field for the loop to decode it: the field has
a one-byte tag of a number the switch has a case for, and the case decodes it. -/
def Field.Decodes {μ : Type} (fields : Int → Option (Case μ)) (f : Field μ) : Prop :=
  0 < f.num ∧ f.num < 16 ∧ f.wireType < 8 ∧ f.wireType ≠ 4 ∧
    ∃ case, fields f.num = some case ∧ DecodesAs case f.wireType f.payload f.update

theorem flatMap_encode_length {μ : Type} (fs : List (Field μ)) :
    fs.length ≤ (fs.flatMap Field.encode).length := by
  induction fs with
  | nil => simp
  | cons f fs ih =>
    rw [List.flatMap_cons, List.length_append, List.length_cons]
    have : 1 ≤ f.encode.length := by simp [Field.encode]
    omega

/-- A field of a number the `switch` has a case for is decoded by that case. -/
theorem unmarshalField_case {μ : Type} {name : String} {fields : Int → Option (Case μ)}
    {dAtA : Bytes} {loop : Int → μ → Except Failure μ} {preIndex : Int} {wire : Nat}
    {iNdEx : Int} {m : μ} {case : Case μ} (hwt : wire % 2 ^ 64 % 8 ≠ 4)
    (hnum : 0 < Int.bmod (wire % 2 ^ 64 / 8 : Nat) (2 ^ 32))
    (hcase : fields (Int.bmod (wire % 2 ^ 64 / 8 : Nat) (2 ^ 32)) = some case) :
    unmarshalField name fields dAtA loop preIndex wire iNdEx m =
      case (wire % 2 ^ 64 % 8) dAtA iNdEx m >>= fun r => loop r.2 r.1 := by
  simp only [unmarshalField, if_neg hwt, if_neg (not_le.mpr hnum), hcase]
  rfl

/-- The run lemma of `Unmarshal`: from any index, the loop decodes the fields written
there, one after another, up to the end of `dAtA`. -/
theorem unmarshalLoop_fields {μ : Type} {name : String} {fields : Int → Option (Case μ)}
    {dAtA : Bytes} (hlen : dAtA.length < 2 ^ 63) (fs : List (Field μ)) (hfs : ∀ f ∈ fs, f.Decodes fields) :
    ∀ (fuel : Nat) (i : Int) (m : μ), fs.length < fuel → 0 ≤ i → i ≤ dAtA.length →
      dAtA.drop i.toNat = fs.flatMap Field.encode →
      unmarshalLoop name fields dAtA fuel i m = .ok (fs.foldl (fun m f => f.update m) m) := by
  induction fs with
  | nil =>
    rintro (_ | fuel) i m hfuel hi hle hd
    · exact absurd hfuel (Nat.not_lt_zero _)
    have : dAtA.length ≤ i.toNat := List.drop_eq_nil_iff.mp hd
    rw [unmarshalLoop, if_neg (by omega), if_neg (by omega)]
    rfl
  | cons f fs ih =>
    rintro (_ | fuel) i m hfuel hi hle hd
    · exact absurd hfuel (Nat.not_lt_zero _)
    obtain ⟨hnum, hnum', hwt, hwt4, case, hcase, hdec⟩ := hfs f (List.mem_cons_self _ _)
    have htag : f.num * 8 + f.wireType < 0x80 := by omega
    have hread := readVarint_encodeVarint (by omega) hi
      (show dAtA.drop i.toNat = encodeVarint (f.num * 8 + f.wireType) ++
        (f.payload ++ fs.flatMap Field.encode) by rw [hd, encodeVarint_of_lt htag]; rfl)
    rw [encodeVarint_of_lt htag, List.length_singleton, Nat.cast_one] at hread
    have hpay : dAtA.drop (i + 1).toNat = f.payload ++ fs.flatMap Field.encode := by
      rw [show (i + 1).toNat = i.toNat + 1 by omega]
      exact drop_succ_of_drop hd
    have hk := add_length_le_of_drop (List.cons_ne_nil _ _) hd
    simp only [Field.encode, List.length_cons] at hk
    have hrest : dAtA.drop (i + 1 + f.payload.length).toNat = fs.flatMap Field.encode := by
      rw [show (i + 1 + f.payload.length).toNat = (i + 1).toNat + f.payload.length by omega]
      exact drop_append_of_drop hpay
    have hnumEq : Int.bmod (((f.num * 8 + f.wireType) % 2 ^ 64 / 8 : Nat) : Int) (2 ^ 32) = f.num := by
      rw [Nat.mod_eq_of_lt (by omega), show (f.num * 8 + f.wireType) / 8 = f.num by omega,
        Int.bmod_def, Int.emod_eq_of_lt (by omega) (by omega), if_pos (by omega)]
    have hwire : (f.num * 8 + f.wireType) % 2 ^ 64 % 8 = f.wireType := by omega
    rw [unmarshalLoop, if_pos (by omega), hread]
    simp only [bind, Except.bind]
    rw [unmarshalField_case (by rw [hwire]; exact hwt4) (by rw [hnumEq]; omega) (by rw [hnumEq]; exact hcase), hwire,
      hdec dAtA _ (i + 1) m (by omega) hpay hlen]
    exact ih (fun g hg => hfs g (List.mem_cons_of_mem _ hg)) fuel _ _
      (by simpa using hfuel) (by omega) (by omega) hrest

/-- `Unmarshal` of the concatenated fields decodes them all, in order. -/
theorem unmarshal_flatMap_encode {μ : Type} {name : String} {fields : Int → Option (Case μ)}
    (fs : List (Field μ)) (hfs : ∀ f ∈ fs, f.Decodes fields)
    (hlen : (fs.flatMap Field.encode).length < 2 ^ 63) (m : μ) :
    unmarshal name fields (fs.flatMap Field.encode) m = .ok (fs.foldl (fun m f => f.update m) m) :=
  unmarshalLoop_fields hlen fs hfs _ 0 m (Nat.lt_succ_of_le (flatMap_encode_length fs)) le_rfl
    (Int.ofNat_nonneg _) rfl

/-! ## The cases of the `switch` -/

section Cases

variable {μ ν : Type} (fieldName : String)

theorem checkWireType_self (wireType : Nat) : checkWireType wireType fieldName wireType = .ok () := by
  rw [checkWireType, if_neg (not_not.mpr rfl)]
  rfl

theorem slice_to_end {dAtA : Bytes} {i : Int} (hi : 0 ≤ i) (hle : i ≤ dAtA.length) :
    slice dAtA i dAtA.length = .ok (dAtA.drop i.toNat) := by
  rw [slice, if_pos ⟨hi, hle, le_rfl⟩, List.take_of_length_le]
  rw [List.length_drop]
  omega

theorem bytesCase_decodes (set : μ → Bytes → μ) (b : Bytes) :
    DecodesAs (bytesCase fieldName set) 2 (encodeVarint b.length ++ b) (set · b) := by
  intro dAtA rest i m hi hd hlen
  simp only [bytesCase, checkWireType_self, readLengthDelimited_of_drop hi hd hlen, bind,
    Except.bind, pure, Except.pure]

theorem messageCase_decodes {unmarshalSub : Bytes → Except Failure ν} (set : μ → ν → μ)
    {b : Bytes} {v : ν} (hsub : unmarshalSub b = .ok v) :
    DecodesAs (messageCase fieldName unmarshalSub set) 2 (encodeVarint b.length ++ b) (set · v) := by
  intro dAtA rest i m hi hd hlen
  simp only [messageCase, checkWireType_self, readLengthDelimited_of_drop hi hd hlen, hsub, bind,
    Except.bind, pure, Except.pure]

theorem varintCase_decodes (set : μ → Nat → μ) {v : Nat} (hv : v < 2 ^ 64) :
    DecodesAs (varintCase fieldName set) 0 (encodeVarint v) (set · v) := by
  intro dAtA rest i m hi hd _
  simp only [varintCase, checkWireType_self, readVarint_encodeVarint hv hi hd, bind,
    Except.bind, pure, Except.pure]

theorem fixed64Case_decodes (set : μ → Nat → μ) {v : Nat} (hv : v < 2 ^ 64) :
    DecodesAs (fixed64Case fieldName set) 1 (putUint64 v) (set · v) := by
  intro dAtA rest i m hi hd hlen
  have hk := add_length_le_of_drop (by simp [putUint64]) hd
  rw [putUint64_length] at hk
  have h8 : goInt (i + 8) = i + 8 := goInt_of_lt (by omega) (by omega)
  have hs := slice_to_end hi (show i ≤ (dAtA.length : Int) by omega)
  simp only [fixed64Case, checkWireType_self, h8, if_neg (show ¬((dAtA.length : Int) < i + 8) by omega),
    hs, hd, uint64LE_putUint64 hv, putUint64_length, bind, Except.bind,
    pure, Except.pure, Nat.cast_ofNat]

end Cases

end Baudtime.Pb
