import Baudtime.Pb.Wire

/-!
# The messages of `pb.proto` and `admin.proto`

The generated code of each message: `Size`, `MarshalTo` and `Marshal`, and `Unmarshal`,
which is the common loop `unmarshal` over the message's `switch fieldNum`. Strings are
Go strings, byte sequences. `Point.T` is kept as the bits of the `int64`, `Point.V` as
`math.Float64bits(V)`, and a `StatusCode` as the bits of the `int32`. The zigzag
expressions of `Point` are taken by their values, `zigzag` and `unzigzag`; `zigzagBits`,
`unzigzagBits` and `soz` are the expressions as the code writes them, on bit vectors,
and `Pb.Scalars` proves them equal.

`Marshal` sizes its buffer with `Size()` and lets `MarshalTo` fill it: writing past the
buffer would panic, and an embedded message's length prefix is its `Size()` while its
bytes are its `MarshalTo`.

## Main definitions

* `Label`, `Point`, `Series`, `LabelValuesResponse`, `GeneralResponse`
* `AdminCmdRequest` (its oneof `AdminCommand`), `Info`, `JoinCluster`
* for each: `size`, `marshalTo`, `marshal`, `fields`, `unmarshal`
* `LabelValuesResponse.inlineVarint` — the varint loop `LabelValuesResponse.MarshalTo`
  inlines
* `zigzagBits`, `unzigzagBits`, `soz` — the zigzag expressions and `sozPb`
-/

namespace Baudtime.Pb

/-- A `double` is zero (`m.V != 0` is false) exactly for `+0.0` and `-0.0`, whose bits
are `0` and `0x8000000000000000`. -/
def float64IsZero (v : UInt64) : Bool := v.toNat % 2 ^ 63 == 0

/-- `(uint64(x) << 1) ^ uint64(x >> 63)` for the `int64` with bits `x`: twice a
non-negative value, and `-2x - 1` for a negative one. -/
def zigzag (x : UInt64) : Nat :=
  if x.toNat < 2 ^ 63 then 2 * x.toNat else 2 ^ 65 - 1 - 2 * x.toNat

/-- `(v >> 1) ^ uint64((int64(v&1)<<63)>>63)` and `int64(v)`: an even `v` gives `v / 2`, an
odd one the complement of `v / 2`. -/
def unzigzag (v : Nat) : UInt64 :=
  UInt64.ofNat (if v % 2 = 0 then v / 2 else 2 ^ 64 - 1 - v / 2)

/-- `(x << 1) ^ uint64((int64(x) >> 63))` of `sozPb`, which is also
`(uint64(m.T) << 1) ^ uint64((m.T >> 63))` of `Point.MarshalTo`, on the 64 bits of the
`int64`: `>>` of an `int64` shifts in copies of its sign bit. -/
def zigzagBits (x : BitVec 64) : BitVec 64 := (x <<< 1) ^^^ x.sshiftRight 63

/-- `(v >> 1) ^ uint64((int64(v&1)<<63)>>63)` of `Point.Unmarshal`. -/
def unzigzagBits (v : BitVec 64) : BitVec 64 := (v >>> 1) ^^^ ((v &&& 1) <<< 63).sshiftRight 63

/-- `sozPb(x)`, the size of the zigzag varint of the `int64` with bits `x`. -/
def soz (x : UInt64) : Nat := sov (zigzagBits x.toBitVec).toNat

/-- `uint64(m.Status)` for the `int32` with bits `s`, sign-extended to 64 bits. -/
def statusUint64 (s : UInt32) : Nat :=
  if s.toNat < 2 ^ 31 then s.toNat else s.toNat + (2 ^ 64 - 2 ^ 32)

/-- `m.Status |= (StatusCode(b) & 0x7F) << shift` over a varint: `int32` shifts drop the
bits from the 32nd on. -/
def statusOfVarint (x : Nat) : UInt32 := UInt32.ofNat x

/-- A length-delimited field: its tag byte, its length and its bytes. -/
def lengthDelimited (tag : UInt8) (b : Bytes) : Bytes := tag :: encodeVarint b.length ++ b

/-- `1 + l + sovPb(uint64(l))`, the size of a length-delimited field of `l` bytes. -/
def lengthDelimitedSize (l : Nat) : Nat := 1 + l + sov l

/-! ## `pb.proto` -/

/-- `pb.Label`. -/
structure Label where
  name : Bytes := []
  value : Bytes := []
  deriving DecidableEq, Repr

namespace Label

/-- `Label.Size`. -/
def size (m : Label) : Nat :=
  (if m.name.length > 0 then lengthDelimitedSize m.name.length else 0) +
    (if m.value.length > 0 then lengthDelimitedSize m.value.length else 0)

/-- `Label.MarshalTo`. -/
def marshalTo (m : Label) : Bytes :=
  (if m.name.length > 0 then lengthDelimited 0xa m.name else []) ++
    (if m.value.length > 0 then lengthDelimited 0x12 m.value else [])

/-- `Label.Marshal`: `MarshalTo` into a buffer of `Size()` bytes. -/
def marshal (m : Label) : Except Failure Bytes :=
  if m.marshalTo.length ≤ m.size then .ok m.marshalTo else .error .panic

/-- The `switch fieldNum` of `Label.Unmarshal`. -/
def fields : Int → Option (Case Label)
  | 1 => some (bytesCase "Name" fun m s => { m with name := s })
  | 2 => some (bytesCase "Value" fun m s => { m with value := s })
  | _ => none

/-- `Label.Unmarshal` into a zero `Label`. -/
def unmarshal (dAtA : Bytes) : Except Failure Label := Pb.unmarshal "Label" fields dAtA {}

end Label

/-- `pb.Point`: the bits of the `int64` timestamp `T` and of the `double` value `V`. -/
structure Point where
  t : UInt64 := 0
  v : UInt64 := 0
  deriving DecidableEq, Repr

namespace Point

/-- `Point.Size`; its `sozPb(uint64(m.T))` is `sov (zigzag m.t)` (`soz_eq`). -/
def size (m : Point) : Nat :=
  (if m.t ≠ 0 then 1 + sov (zigzag m.t) else 0) + (if !float64IsZero m.v then 9 else 0)

/-- `Point.MarshalTo`. -/
def marshalTo (m : Point) : Bytes :=
  (if m.t ≠ 0 then 0x8 :: encodeVarint (zigzag m.t) else []) ++
    (if !float64IsZero m.v then 0x11 :: putUint64 m.v.toNat else [])

/-- `Point.Marshal`. -/
def marshal (m : Point) : Except Failure Bytes :=
  if m.marshalTo.length ≤ m.size then .ok m.marshalTo else .error .panic

/-- The `switch fieldNum` of `Point.Unmarshal`. -/
def fields : Int → Option (Case Point)
  | 1 => some (varintCase "T" fun m v => { m with t := unzigzag (v % 2 ^ 64) })
  | 2 => some (fixed64Case "V" fun m v => { m with v := UInt64.ofNat v })
  | _ => none

/-- `Point.Unmarshal` into a zero `Point`. -/
def unmarshal (dAtA : Bytes) : Except Failure Point := Pb.unmarshal "Point" fields dAtA {}

end Point

/-- `pb.Series`. -/
structure Series where
  labels : List Label := []
  points : List Point := []
  deriving DecidableEq, Repr

namespace Series

/-- `Series.Size`. -/
def size (m : Series) : Nat :=
  (m.labels.map fun e => lengthDelimitedSize e.size).sum +
    (m.points.map fun e => lengthDelimitedSize e.size).sum

/-- `Series.MarshalTo`: each element's tag, its `Size()` and its `MarshalTo`. -/
def marshalTo (m : Series) : Bytes :=
  (m.labels.flatMap fun msg => 0xa :: encodeVarint msg.size ++ msg.marshalTo) ++
    (m.points.flatMap fun msg => 0x12 :: encodeVarint msg.size ++ msg.marshalTo)

/-- `Series.Marshal`. -/
def marshal (m : Series) : Except Failure Bytes :=
  if m.marshalTo.length ≤ m.size then .ok m.marshalTo else .error .panic

/-- The `switch fieldNum` of `Series.Unmarshal`: each element is appended as a zero
message and unmarshalled in place. -/
def fields : Int → Option (Case Series)
  | 1 => some (messageCase "Labels" Label.unmarshal fun m l => { m with labels := m.labels ++ [l] })
  | 2 => some (messageCase "Points" Point.unmarshal fun m p => { m with points := m.points ++ [p] })
  | _ => none

/-- `Series.Unmarshal` into a zero `Series`. -/
def unmarshal (dAtA : Bytes) : Except Failure Series := Pb.unmarshal "Series" fields dAtA {}

end Series

/-- `pb.LabelValuesResponse`. -/
structure LabelValuesResponse where
  values : List Bytes := []
  status : UInt32 := 0
  errorMsg : Bytes := []
  deriving DecidableEq, Repr

namespace LabelValuesResponse

/-- `LabelValuesResponse.Size`. -/
def size (m : LabelValuesResponse) : Nat :=
  (m.values.map fun s => lengthDelimitedSize s.length).sum +
    (if m.status ≠ 0 then 1 + sov (statusUint64 m.status) else 0) +
    (if m.errorMsg.length > 0 then lengthDelimitedSize m.errorMsg.length else 0)

/-- The copy of `encodeVarintPb` that `LabelValuesResponse.MarshalTo` inlines for the
length `l` of a value, an `int`: `uint8(uint64(l)&0x7f | 0x80)` while `l >= 1<<7`, then
`l >>= 7` on the `int`, and last `uint8(l)`. -/
def inlineVarint (l : Int) : Bytes :=
  if 0x80 ≤ l then UInt8.ofNat (l.toNat % 0x80 + 0x80) :: inlineVarint (l / 0x80)
  else [UInt8.ofNat (l % 0x100).toNat]
termination_by l.toNat
decreasing_by omega

/-- `LabelValuesResponse.MarshalTo`; the varint of each value's length is written by the
inline loop `inlineVarint`. -/
def marshalTo (m : LabelValuesResponse) : Bytes :=
  m.values.flatMap (fun s => 0xa :: inlineVarint s.length ++ s) ++
    (if m.status ≠ 0 then 0x10 :: encodeVarint (statusUint64 m.status) else []) ++
    (if m.errorMsg.length > 0 then lengthDelimited 0x1a m.errorMsg else [])

/-- `LabelValuesResponse.Marshal`. -/
def marshal (m : LabelValuesResponse) : Except Failure Bytes :=
  if m.marshalTo.length ≤ m.size then .ok m.marshalTo else .error .panic

/-- The `switch fieldNum` of `LabelValuesResponse.Unmarshal`. -/
def fields : Int → Option (Case LabelValuesResponse)
  | 1 => some (bytesCase "Values" fun m s => { m with values := m.values ++ [s] })
  | 2 => some (varintCase "Status" fun m v => { m with status := statusOfVarint v })
  | 3 => some (bytesCase "ErrorMsg" fun m s => { m with errorMsg := s })
  | _ => none

/-- `LabelValuesResponse.Unmarshal` into a zero `LabelValuesResponse`. -/
def unmarshal (dAtA : Bytes) : Except Failure LabelValuesResponse :=
  Pb.unmarshal "LabelValuesResponse" fields dAtA {}

end LabelValuesResponse

/-- `pb.GeneralResponse`. -/
structure GeneralResponse where
  status : UInt32 := 0
  message : Bytes := []
  deriving DecidableEq, Repr

namespace GeneralResponse

/-- `GeneralResponse.Size`. -/
def size (m : GeneralResponse) : Nat :=
  (if m.status ≠ 0 then 1 + sov (statusUint64 m.status) else 0) +
    (if m.message.length > 0 then lengthDelimitedSize m.message.length else 0)

/-- `GeneralResponse.MarshalTo`. -/
def marshalTo (m : GeneralResponse) : Bytes :=
  (if m.status ≠ 0 then 0x8 :: encodeVarint (statusUint64 m.status) else []) ++
    (if m.message.length > 0 then lengthDelimited 0x12 m.message else [])

/-- `GeneralResponse.Marshal`. -/
def marshal (m : GeneralResponse) : Except Failure Bytes :=
  if m.marshalTo.length ≤ m.size then .ok m.marshalTo else .error .panic

/-- The `switch fieldNum` of `GeneralResponse.Unmarshal`. -/
def fields : Int → Option (Case GeneralResponse)
  | 1 => some (varintCase "Status" fun m v => { m with status := statusOfVarint v })
  | 2 => some (bytesCase "Message" fun m s => { m with message := s })
  | _ => none

/-- `GeneralResponse.Unmarshal` into a zero `GeneralResponse`. -/
def unmarshal (dAtA : Bytes) : Except Failure GeneralResponse :=
  Pb.unmarshal "GeneralResponse" fields dAtA {}

end GeneralResponse

/-! ## `admin.proto` -/

/-- `encodeVarintAdmin`, the loop of `encodeVarintPb`. -/
def encodeVarintAdmin (v : Nat) : Bytes := encodeVarint v

/-- `sovAdmin`, the loop of `sovPb`. -/
def sovAdmin (x : Nat) : Nat := sov x

/-- `pb.Info`, a message without fields. -/
structure Info where
  deriving DecidableEq, Repr

namespace Info

/-- `Info.Size`. -/
def size (_ : Info) : Nat := 0

/-- `Info.MarshalTo`. -/
def marshalTo (_ : Info) : Bytes := []

/-- `Info.Marshal`. -/
def marshal (m : Info) : Except Failure Bytes :=
  if m.marshalTo.length ≤ m.size then .ok m.marshalTo else .error .panic

/-- `Info.Unmarshal`: every field goes to `skipAdmin`. -/
def unmarshal (dAtA : Bytes) : Except Failure Info := Pb.unmarshal "Info" (fun _ => none) dAtA {}

end Info

/-- `pb.JoinCluster`, a message without fields. -/
structure JoinCluster where
  deriving DecidableEq, Repr

namespace JoinCluster

/-- `JoinCluster.Size`. -/
def size (_ : JoinCluster) : Nat := 0

/-- `JoinCluster.MarshalTo`. -/
def marshalTo (_ : JoinCluster) : Bytes := []

/-- `JoinCluster.Marshal`. -/
def marshal (m : JoinCluster) : Except Failure Bytes :=
  if m.marshalTo.length ≤ m.size then .ok m.marshalTo else .error .panic

/-- `JoinCluster.Unmarshal`: every field goes to `skipAdmin`. -/
def unmarshal (dAtA : Bytes) : Except Failure JoinCluster :=
  Pb.unmarshal "JoinCluster" (fun _ => none) dAtA {}

end JoinCluster

/-- The `Command` oneof of `AdminCmdRequest`: a wrapper `AdminCmdRequest_Info` or
`AdminCmdRequest_JoinCluster` around a message pointer that may be `nil`, or a `nil`
wrapper pointer held in the non-`nil` interface. -/
inductive AdminCommand
  /-- `&AdminCmdRequest_Info{Info: info}`. -/
  | info (info : Option Info)
  /-- `&AdminCmdRequest_JoinCluster{JoinCluster: joinCluster}`. -/
  | joinCluster (joinCluster : Option JoinCluster)
  /-- `(*AdminCmdRequest_Info)(nil)`. -/
  | nilInfo
  /-- `(*AdminCmdRequest_JoinCluster)(nil)`. -/
  | nilJoinCluster
  deriving DecidableEq, Repr

namespace AdminCommand

/-- `AdminCmdRequest_Info.Size` and `AdminCmdRequest_JoinCluster.Size`: `0` for a `nil`
wrapper (`if m == nil`) or a `nil` message. -/
def size : AdminCommand → Nat
  | .info (some m) => 1 + m.size + sovAdmin m.size
  | .joinCluster (some m) => 1 + m.size + sovAdmin m.size
  | .info none | .joinCluster none | .nilInfo | .nilJoinCluster => 0

/-- `AdminCmdRequest_Info.MarshalTo` and `AdminCmdRequest_JoinCluster.MarshalTo`: the
tag, `encodeVarintAdmin` of the message's `Size()`, and its `MarshalTo`. They have no
`nil` guard: through a `nil` wrapper the read of `m.Info` (`m.JoinCluster`) panics. -/
def marshalTo : AdminCommand → Except Failure Bytes
  | .info (some m) => .ok (0xa :: encodeVarintAdmin m.size ++ m.marshalTo)
  | .joinCluster (some m) => .ok (0x12 :: encodeVarintAdmin m.size ++ m.marshalTo)
  | .info none | .joinCluster none => .ok []
  | .nilInfo | .nilJoinCluster => .error .panic

end AdminCommand

/-- `pb.AdminCmdRequest`. -/
structure AdminCmdRequest where
  command : Option AdminCommand := none
  deriving DecidableEq, Repr

namespace AdminCmdRequest

/-- `AdminCmdRequest.Size`. -/
def size (m : AdminCmdRequest) : Nat :=
  match m.command with
  | some c => c.size
  | none => 0

/-- `AdminCmdRequest.MarshalTo`. -/
def marshalTo (m : AdminCmdRequest) : Except Failure Bytes :=
  match m.command with
  | some c => c.marshalTo
  | none => .ok []

/-- `AdminCmdRequest.Marshal`: `MarshalTo` into a buffer of `Size()` bytes, which panics
at a write past its end. -/
def marshal (m : AdminCmdRequest) : Except Failure Bytes := do
  let b ← m.marshalTo
  if b.length ≤ m.size then pure b else throw .panic

/-- The `switch fieldNum` of `AdminCmdRequest.Unmarshal`: the field's message is
unmarshalled into a fresh `&Info{}` (`&JoinCluster{}`) and wrapped. -/
def fields : Int → Option (Case AdminCmdRequest)
  | 1 => some (messageCase "Info" Info.unmarshal fun _ v => ⟨some (.info (some v))⟩)
  | 2 => some (messageCase "JoinCluster" JoinCluster.unmarshal
      fun _ v => ⟨some (.joinCluster (some v))⟩)
  | _ => none

/-- `AdminCmdRequest.Unmarshal` into a zero `AdminCmdRequest`. -/
def unmarshal (dAtA : Bytes) : Except Failure AdminCmdRequest :=
  Pb.unmarshal "AdminCmdRequest" fields dAtA {}

end AdminCmdRequest

/-- A length of `2^63 - 1` in a `Label` name makes `postIndex = iNdEx + intStringLen` wrap
to a negative `int`, which passes the check `postIndex > l`; the slice
`dAtA[iNdEx:postIndex]` then panics. -/
theorem Label.unmarshal_length_wraps :
    Label.unmarshal [0x0a, 0xff, 0xff, 0xff, 0xff, 0xff, 0xff, 0xff, 0xff, 0x7f] = .error .panic :=
  rfl

end Baudtime.Pb
