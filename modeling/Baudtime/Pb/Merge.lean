import Baudtime.Pb.RoundTrip

/-!
# Unmarshal of concatenated messages merges them

Protocol buffers read the concatenation of two encodings of a message as the merge of the
two messages: a field that the second sets replaces the first's, and a repeated field holds
the first's elements followed by the second's. The generated code has this property because
its `Unmarshal` loop decodes the fields one after another into the same message, each
`case` of its `switch` setting a scalar field or appending to a repeated one, and because
`MarshalTo` writes exactly the fields that are not zero.

`mergeFrom m b` is that merge. A `Point` whose `V` is `-0.0` writes no `V`, so it does not
replace the first point's value.

## Main definitions

* `Label.mergeFrom`, `Point.mergeFrom`, `Series.mergeFrom`, `LabelValuesResponse.mergeFrom`,
  `GeneralResponse.mergeFrom`

## Main results

* `Label.foldl_wireFields_from` and its siblings — decoding a message's fields into `m`
  merges the message into `m`
* `unmarshal_append` — `Unmarshal` of `MarshalTo(a) ++ MarshalTo(b)` is the merge of `a` and
  `b`, for the five messages of `pb.proto`
-/

namespace Baudtime.Pb

/-- `Unmarshal` of two runs of fields, one after the other, decodes the first run and then
the second into the result. -/
theorem unmarshal_flatMap_append {μ : Type} {name : String} {fields : Int → Option (Case μ)}
    {wa wb : List (Field μ)} (ha : ∀ f ∈ wa, f.Decodes fields) (hb : ∀ f ∈ wb, f.Decodes fields)
    (hlen : (wa.flatMap Field.encode).length + (wb.flatMap Field.encode).length < 2 ^ 63) (m : μ) :
    unmarshal name fields (wa.flatMap Field.encode ++ wb.flatMap Field.encode) m =
      .ok (wb.foldl (fun m f => f.update m) (wa.foldl (fun m f => f.update m) m)) := by
  rw [← List.flatMap_append, unmarshal_flatMap_encode _ (List.forall_mem_append.mpr ⟨ha, hb⟩)
    (by rwa [List.flatMap_append, List.length_append]), List.foldl_append]

namespace Label

/-- `b` merged into `m`: each string that `b` sets replaces `m`'s. -/
def mergeFrom (m b : Label) : Label where
  name := if b.name.length > 0 then b.name else m.name
  value := if b.value.length > 0 then b.value else m.value

theorem foldl_wireFields_from (b m : Label) :
    b.wireFields.foldl (fun m f => f.update m) m = m.mergeFrom b := by
  rw [wireFields, mergeFrom]
  split <;> split <;> simp_all [bytesField]

end Label

namespace Point

/-- `b` merged into `m`: a timestamp or a value that `b` sets (`m.T != 0`, `m.V != 0`)
replaces `m`'s. -/
def mergeFrom (m b : Point) : Point where
  t := if b.t ≠ 0 then b.t else m.t
  v := if !float64IsZero b.v then b.v else m.v

theorem foldl_wireFields_from (b m : Point) :
    b.wireFields.foldl (fun m f => f.update m) m = m.mergeFrom b := by
  have ht : unzigzag (zigzag b.t % 2 ^ 64) = b.t := unzigzag_zigzag b.t
  have hv : UInt64.ofNat b.v.toNat = b.v := uint64_ofNat_eq (Nat.mod_eq_of_lt b.v.toNat_lt_size)
  rw [wireFields, mergeFrom]
  split <;> split <;> simp_all [varintField, fixed64Field]

end Point

namespace Series

/-- `b` merged into `m`: both repeated fields are appended to. -/
def mergeFrom (m b : Series) : Series where
  labels := m.labels ++ b.labels
  points := m.points ++ b.points

theorem foldl_wireFields_from (b m : Series) :
    b.wireFields.foldl (fun m f => f.update m) m = m.mergeFrom b.zeroNormalized := by
  rw [wireFields, List.foldl_append, List.foldl_map, List.foldl_map]
  refine (congrArg (List.foldl _ · _) (foldl_append_map labels (fun m l => { m with labels := l })
    id (fun _ _ => rfl) (fun _ _ _ => rfl) (fun _ => rfl) m b.labels)).trans
    ((foldl_append_map points (fun m l => { m with points := l }) Point.zeroNormalized
      (fun _ _ => rfl) (fun _ _ _ => rfl) (fun _ => rfl) _ _).trans ?_)
  simp [mergeFrom, zeroNormalized]

end Series

namespace LabelValuesResponse

/-- `b` merged into `m`: the values are appended to, and a status or an error message that
`b` sets replaces `m`'s. -/
def mergeFrom (m b : LabelValuesResponse) : LabelValuesResponse where
  values := m.values ++ b.values
  status := if b.status ≠ 0 then b.status else m.status
  errorMsg := if b.errorMsg.length > 0 then b.errorMsg else m.errorMsg

theorem foldl_wireFields_from (b m : LabelValuesResponse) :
    b.wireFields.foldl (fun m f => f.update m) m = m.mergeFrom b := by
  have hv : b.values.foldl (fun (m : LabelValuesResponse) s => (bytesField 1
      (fun (m : LabelValuesResponse) s => { m with values := m.values ++ [s] }) s).update m) m =
      { m with values := m.values ++ b.values } :=
    (foldl_append_map LabelValuesResponse.values (fun m l => { m with values := l }) id
      (fun _ _ => rfl) (fun _ _ _ => rfl) (fun _ => rfl) m b.values).trans (by simp)
  have hs := statusOfVarint_statusUint64 b.status
  rw [wireFields, List.foldl_append, List.foldl_append, List.foldl_map, hv, mergeFrom]
  split <;> split <;> simp_all [varintField, bytesField]

end LabelValuesResponse

namespace GeneralResponse

/-- `b` merged into `m`: a status or a message that `b` sets replaces `m`'s. -/
def mergeFrom (m b : GeneralResponse) : GeneralResponse where
  status := if b.status ≠ 0 then b.status else m.status
  message := if b.message.length > 0 then b.message else m.message

theorem foldl_wireFields_from (b m : GeneralResponse) :
    b.wireFields.foldl (fun m f => f.update m) m = m.mergeFrom b := by
  have hs := statusOfVarint_statusUint64 b.status
  rw [wireFields, mergeFrom]
  split <;> split <;> simp_all [varintField, bytesField]

end GeneralResponse

/-- For every two messages of `pb.proto` whose encodings fit in a Go `int`, `Unmarshal`
of their concatenated encodings returns no error and merges the second into the first:
a field the second sets replaces the first's, and repeated fields are concatenated. As in
the round trip, a point's `V` of `-0.0` reads as `+0.0`, and does not replace the value
before it. -/
theorem unmarshal_append :
    (∀ a b : Label, a.size + b.size < 2 ^ 63 →
      Label.unmarshal (a.marshalTo ++ b.marshalTo) = .ok (a.mergeFrom b)) ∧
    (∀ a b : Point,
      Point.unmarshal (a.marshalTo ++ b.marshalTo) = .ok (a.zeroNormalized.mergeFrom b)) ∧
    (∀ a b : Series, a.size + b.size < 2 ^ 63 →
      Series.unmarshal (a.marshalTo ++ b.marshalTo) = .ok (a.mergeFrom b).zeroNormalized) ∧
    (∀ a b : LabelValuesResponse, a.size + b.size < 2 ^ 63 →
      LabelValuesResponse.unmarshal (a.marshalTo ++ b.marshalTo) = .ok (a.mergeFrom b)) ∧
    (∀ a b : GeneralResponse, a.size + b.size < 2 ^ 63 →
      GeneralResponse.unmarshal (a.marshalTo ++ b.marshalTo) = .ok (a.mergeFrom b)) := by
  refine ⟨fun a b h => ?_, fun a b => ?_, fun a b h => ?_, fun a b h => ?_, fun a b h => ?_⟩
  · rw [Label.size_eq, Label.size_eq, Label.marshalTo_eq, Label.marshalTo_eq] at h
    rw [Label.marshalTo_eq, Label.marshalTo_eq, Label.unmarshal,
      unmarshal_flatMap_append a.wireFields_decode b.wireFields_decode h, Label.foldl_wireFields,
      Label.foldl_wireFields_from]
  · have h : (a.wireFields.flatMap Field.encode).length +
        (b.wireFields.flatMap Field.encode).length < 2 ^ 63 := by
      have := Point.length_marshalTo_le a
      have := Point.length_marshalTo_le b
      rw [Point.marshalTo_eq] at *
      omega
    rw [Point.marshalTo_eq, Point.marshalTo_eq, Point.unmarshal,
      unmarshal_flatMap_append a.wireFields_decode b.wireFields_decode h, Point.foldl_wireFields,
      Point.foldl_wireFields_from]
  · rw [Series.size_eq, Series.size_eq] at h
    have hd := Series.wireFields_decode (m := a) (by omega)
    have hd' := Series.wireFields_decode (m := b) (by omega)
    rw [Series.marshalTo_eq, Series.marshalTo_eq] at h
    rw [Series.marshalTo_eq, Series.marshalTo_eq, Series.unmarshal,
      unmarshal_flatMap_append hd hd' h, Series.foldl_wireFields, Series.foldl_wireFields_from]
    simp [Series.mergeFrom, Series.zeroNormalized]
  · rw [LabelValuesResponse.size_eq, LabelValuesResponse.size_eq, LabelValuesResponse.marshalTo_eq,
      LabelValuesResponse.marshalTo_eq] at h
    rw [LabelValuesResponse.marshalTo_eq, LabelValuesResponse.marshalTo_eq,
      LabelValuesResponse.unmarshal,
      unmarshal_flatMap_append a.wireFields_decode b.wireFields_decode h,
      LabelValuesResponse.foldl_wireFields, LabelValuesResponse.foldl_wireFields_from]
  · rw [GeneralResponse.size_eq, GeneralResponse.size_eq, GeneralResponse.marshalTo_eq,
      GeneralResponse.marshalTo_eq] at h
    rw [GeneralResponse.marshalTo_eq, GeneralResponse.marshalTo_eq, GeneralResponse.unmarshal,
      unmarshal_flatMap_append a.wireFields_decode b.wireFields_decode h,
      GeneralResponse.foldl_wireFields, GeneralResponse.foldl_wireFields_from]

/-- A series with the label `j="a"` and a sample at `T = 5`, followed by a series with the
label `k="b"`: `Unmarshal` reads one series with both labels and the sample. -/
theorem unmarshal_append_series :
    let a : Series := ⟨[⟨[0x6a], [0x61]⟩], [⟨5, 0⟩]⟩
    let b : Series := ⟨[⟨[0x6b], [0x62]⟩], []⟩
    a.size + b.size < 2 ^ 63 ∧
      Series.unmarshal (a.marshalTo ++ b.marshalTo) = .ok (a.mergeFrom b).zeroNormalized := by
  intro a b
  have h : a.size + b.size < 2 ^ 63 := by
    simp [a, b, Series.size, Label.size, Point.size, lengthDelimitedSize, sov_of_lt, zigzag,
      float64IsZero, UInt64.size]
  exact ⟨h, unmarshal_append.2.2.1 a b h⟩

end Baudtime.Pb
