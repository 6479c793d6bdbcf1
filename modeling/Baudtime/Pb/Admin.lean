import Baudtime.Pb.Merge
import Baudtime.Pb.Sizes

/-!
# The round trip of `admin.proto`

`AdminCmdRequest` holds its command in a `oneof`: a wrapper `AdminCmdRequest_Info` or
`AdminCmdRequest_JoinCluster` around a message pointer. `MarshalTo` writes the wrapped
message as field 1 or 2 when the pointer is not `nil`, and nothing otherwise. For each
such field it meets, `Unmarshal` sets the command to a new wrapper around the message it
reads, so that the last one wins.

So a request that `MarshalTo` writes reads back as itself, except that a wrapper around
`nil`, which writes nothing, reads back as no command at all. Of two requests written one
after the other, the second's command replaces the first's when the second writes one. (A
`nil` wrapper pointer is not written at all: `MarshalTo` panics on it,
`AdminCmdRequest.marshal_nil_wrapper_panics`.)

## Main definitions

* `AdminCmdRequest.nilDropped` — the request without a wrapper around `nil`
* `AdminCmdRequest.wireFields` — the field `MarshalTo` writes
* `AdminCmdRequest.mergeFrom` — the `oneof` merge

## Main results

* `AdminCmdRequest.unmarshal_marshalTo`, `AdminCmdRequest.unmarshal_marshalTo_append` — the
  round trip and the merge law of `AdminCmdRequest`
-/

namespace Baudtime.Pb

namespace AdminCmdRequest

/-- The request that `Unmarshal` rebuilds: a wrapper around a `nil` message writes
nothing, so it reads back as no command. -/
def nilDropped (m : AdminCmdRequest) : AdminCmdRequest :=
  match m.command with
  | some (.info none) | some (.joinCluster none) | some .nilInfo | some .nilJoinCluster => {}
  | _ => m

/-- `b` merged into `m`: a command that `b` holds replaces `m`'s. -/
def mergeFrom (m b : AdminCmdRequest) : AdminCmdRequest :=
  if b.command.isSome then b else m

/-- The field `AdminCmdRequest.MarshalTo` writes. -/
def wireFields (m : AdminCmdRequest) : List (Field AdminCmdRequest) :=
  match m.command with
  | some (.info (some v)) => [messageField 1 (fun _ v => ⟨some (.info (some v))⟩) v.marshalTo v]
  | some (.joinCluster (some v)) =>
    [messageField 2 (fun _ v => ⟨some (.joinCluster (some v))⟩) v.marshalTo v]
  | _ => []

theorem marshalTo_eq {m : AdminCmdRequest} {b : Bytes} (h : m.marshalTo = .ok b) :
    b = m.wireFields.flatMap Field.encode := by
  rcases m with ⟨_ | (_ | v) | (_ | v) | _ | _⟩ <;>
    simp only [marshalTo, AdminCommand.marshalTo, reduceCtorEq, Except.ok.injEq] at h <;>
    subst h <;>
    simp only [wireFields, messageField, Field.encode, encodeVarintAdmin, Info.size_eq,
      JoinCluster.size_eq, List.flatMap_cons, List.flatMap_nil, List.append_nil,
      List.cons_append] <;> rfl

theorem empty_mergeFrom (b : AdminCmdRequest) : ({} : AdminCmdRequest).mergeFrom b = b := by
  rcases b with ⟨_ | c⟩ <;> rfl

/-- The message of either case is field-less, so its own `Unmarshal` reads it back. -/
theorem wireFields_decode (m : AdminCmdRequest) : ∀ f ∈ m.wireFields, f.Decodes fields := by
  rcases m with ⟨_ | (_ | v) | (_ | v) | _ | _⟩
  all_goals first
    | exact fun _ h => absurd h (List.not_mem_nil _)
    | exact List.forall_mem_singleton.mpr (messageField_decodes (by decide) rfl rfl)

theorem length_marshalTo_le {m : AdminCmdRequest} {b : Bytes} (h : m.marshalTo = .ok b) :
    b.length ≤ 2 := by
  rw [← size_eq h]
  rcases m with ⟨_ | (_ | v) | (_ | v) | _ | _⟩ <;> simp [size, AdminCommand.size, Info.size,
    JoinCluster.size, sovAdmin, sov_of_lt]

/-- Decoding the request's field into `m` merges the request into `m`. -/
theorem foldl_wireFields_from (b m : AdminCmdRequest) :
    b.wireFields.foldl (fun m f => f.update m) m = m.mergeFrom b.nilDropped := by
  rcases b with ⟨_ | (_ | v) | (_ | v) | _ | _⟩ <;> rfl

theorem unmarshal_marshalTo {m : AdminCmdRequest} {b : Bytes} (h : m.marshalTo = .ok b) :
    unmarshal b = .ok m.nilDropped := by
  have hl := length_marshalTo_le h
  obtain rfl := marshalTo_eq h
  rw [unmarshal, unmarshal_flatMap_encode _ m.wireFields_decode (by omega),
    foldl_wireFields_from, empty_mergeFrom]

/-- `Info` and `JoinCluster` read back as themselves, and a request whose command wraps a
`nil` message reads back with none. -/
example (m : Info) : (m.marshal >>= Info.unmarshal) = .ok m := rfl

example (m : JoinCluster) : (m.marshal >>= JoinCluster.unmarshal) = .ok m := rfl

example : ((⟨some (.joinCluster none)⟩ : AdminCmdRequest).marshal >>= unmarshal) = .ok {} := rfl

theorem unmarshal_marshalTo_append {a b : AdminCmdRequest} {ba bb : Bytes}
    (ha : a.marshalTo = .ok ba) (hb : b.marshalTo = .ok bb) :
    unmarshal (ba ++ bb) = .ok (a.nilDropped.mergeFrom b.nilDropped) := by
  have hla := length_marshalTo_le ha
  have hlb := length_marshalTo_le hb
  obtain rfl := marshalTo_eq ha
  obtain rfl := marshalTo_eq hb
  rw [unmarshal, unmarshal_flatMap_append a.wireFields_decode b.wireFields_decode
    (by omega), foldl_wireFields_from, foldl_wireFields_from, empty_mergeFrom]

/-- The second request's command wins. -/
example : (do unmarshal ((← (⟨some (.info (some {}))⟩ : AdminCmdRequest).marshalTo) ++
    (← (⟨some (.joinCluster (some {}))⟩ : AdminCmdRequest).marshalTo))) =
    .ok ⟨some (.joinCluster (some {}))⟩ := by
  simp only [marshalTo, AdminCommand.marshalTo, encodeVarintAdmin, Info.size, JoinCluster.size,
    encodeVarint_of_lt (by decide : 0 < 0x80)]
  rfl

end AdminCmdRequest

end Baudtime.Pb
