import Baudtime.Pb.RoundTrip

/-!
# `Marshal` fills exactly the buffer it allocates

Every generated `Marshal` allocates `m.Size()` bytes and lets `m.MarshalTo` write into
them from index `0` on; a write past the end is a runtime panic. `Size` and `MarshalTo`
are two separate computations of one length: the first adds up tags, `sovPb` of the
lengths and the lengths, the second writes the varints and the bytes. An embedded
message's length prefix is its `Size()`, while the bytes after it are its `MarshalTo`,
and `LabelValuesResponse` writes its length varints with a loop of its own.

For every message of `pb.proto` and `admin.proto`, `MarshalTo` writes exactly `Size()`
bytes, so `Marshal` never panics and returns all of them, with one exception: a `nil`
wrapper pointer held in the `Command` interface of `AdminCmdRequest` has `Size()` `0` and
makes `MarshalTo` dereference `nil`.

## Main results

* `AdminCommand.size_eq`, `AdminCmdRequest.size_eq` — the admin messages
* `marshal_writes_size` — every message but the `nil` wrapper
* `AdminCmdRequest.marshal_nil_wrapper_panics` — the `nil` wrapper
-/

namespace Baudtime.Pb

theorem Info.size_eq (m : Info) : m.size = m.marshalTo.length := rfl

theorem JoinCluster.size_eq (m : JoinCluster) : m.size = m.marshalTo.length := rfl

/-- The wrapper of either case writes its tag, the varint of the message's `Size()` and
the message, or nothing for a `nil` message. -/
theorem AdminCommand.size_eq {c : AdminCommand} {b : Bytes} (h : c.marshalTo = .ok b) :
    c.size = b.length := by
  rcases c with (_ | m) | (_ | m) | _ | _ <;>
    simp only [AdminCommand.marshalTo, reduceCtorEq, Except.ok.injEq] at h <;> subst h <;>
    simp only [AdminCommand.size, sovAdmin, encodeVarintAdmin, sov_eq_length, Info.size_eq,
      JoinCluster.size_eq, List.length_cons, List.length_append, List.length_nil] <;> omega

theorem AdminCmdRequest.size_eq {m : AdminCmdRequest} {b : Bytes} (h : m.marshalTo = .ok b) :
    m.size = b.length := by
  rcases m with ⟨_ | c⟩
  · cases h; rfl
  · exact AdminCommand.size_eq h

theorem AdminCmdRequest.marshal_eq {m : AdminCmdRequest} {b : Bytes} (h : m.marshalTo = .ok b) :
    m.marshal = .ok b := by
  rw [marshal, h, ok_bind, if_pos (size_eq h).ge]
  rfl

/-- Every request but one holding a `nil` wrapper pointer is written. -/
theorem AdminCmdRequest.marshalTo_ok {m : AdminCmdRequest} (hi : m.command ≠ some .nilInfo)
    (hj : m.command ≠ some .nilJoinCluster) : ∃ b, m.marshalTo = .ok b := by
  rcases m with ⟨_ | (_ | _) | (_ | _) | _ | _⟩
  all_goals first | exact ⟨_, rfl⟩ | exact absurd rfl ‹_›

/-- A `nil` wrapper pointer in the `Command` interface, `(*AdminCmdRequest_Info)(nil)` or
`(*AdminCmdRequest_JoinCluster)(nil)`: `Size()` returns `0` at its `m == nil` guard, while
`MarshalTo` passes its `m.Command != nil` check and the wrapper's `MarshalTo`, which has no
such guard, panics reading `m.Info` (`m.JoinCluster`) through the `nil` pointer. So
`Marshal` panics instead of returning `Size()` bytes. -/
theorem AdminCmdRequest.marshal_nil_wrapper_panics :
    (⟨some .nilInfo⟩ : AdminCmdRequest).size = 0 ∧
      (⟨some .nilInfo⟩ : AdminCmdRequest).marshal = .error .panic ∧
    (⟨some .nilJoinCluster⟩ : AdminCmdRequest).size = 0 ∧
      (⟨some .nilJoinCluster⟩ : AdminCmdRequest).marshal = .error .panic :=
  ⟨rfl, rfl, rfl, rfl⟩

theorem Info.marshal_eq (m : Info) : m.marshal = .ok m.marshalTo := rfl

theorem JoinCluster.marshal_eq (m : JoinCluster) : m.marshal = .ok m.marshalTo := rfl

/-- The loop inlined in `LabelValuesResponse.MarshalTo` writes `sovPb(len(s))` bytes. -/
theorem length_inlineVarint (s : Bytes) :
    (LabelValuesResponse.inlineVarint s.length).length = sov s.length := by
  rw [LabelValuesResponse.inlineVarint_natCast, sov_eq_length]

/-- For every value of every message, but an `AdminCmdRequest` holding a `nil` wrapper
pointer, `MarshalTo` into a buffer of `Size()` bytes returns and writes exactly `Size()`
bytes, so that `Marshal` returns them without writing past its buffer; the length varints
of `LabelValuesResponse` take `sovPb` of the lengths. -/
theorem marshal_writes_size :
    (∀ m : Label, m.marshalTo.length = m.size ∧ m.marshal = .ok m.marshalTo) ∧
    (∀ m : Point, m.marshalTo.length = m.size ∧ m.marshal = .ok m.marshalTo) ∧
    (∀ m : Series, m.marshalTo.length = m.size ∧ m.marshal = .ok m.marshalTo) ∧
    (∀ m : LabelValuesResponse, m.marshalTo.length = m.size ∧ m.marshal = .ok m.marshalTo) ∧
    (∀ m : GeneralResponse, m.marshalTo.length = m.size ∧ m.marshal = .ok m.marshalTo) ∧
    (∀ m : AdminCmdRequest, m.command ≠ some .nilInfo → m.command ≠ some .nilJoinCluster →
      ∃ b, m.marshalTo = .ok b ∧ b.length = m.size ∧ m.marshal = .ok b) ∧
    (∀ m : Info, m.marshalTo.length = m.size ∧ m.marshal = .ok m.marshalTo) ∧
    (∀ m : JoinCluster, m.marshalTo.length = m.size ∧ m.marshal = .ok m.marshalTo) ∧
    (∀ s : Bytes, (LabelValuesResponse.inlineVarint s.length).length = sov s.length) :=
  ⟨fun m => ⟨(Label.size_eq m).symm, Label.marshal_eq m⟩,
    fun m => ⟨(Point.size_eq m).symm, Point.marshal_eq m⟩,
    fun m => ⟨(Series.size_eq m).symm, Series.marshal_eq m⟩,
    fun m => ⟨(LabelValuesResponse.size_eq m).symm, LabelValuesResponse.marshal_eq m⟩,
    fun m => ⟨(GeneralResponse.size_eq m).symm, GeneralResponse.marshal_eq m⟩,
    fun _ hi hj =>
      let ⟨b, hb⟩ := AdminCmdRequest.marshalTo_ok hi hj
      ⟨b, hb, (AdminCmdRequest.size_eq hb).symm, AdminCmdRequest.marshal_eq hb⟩,
    fun m => ⟨(Info.size_eq m).symm, Info.marshal_eq m⟩,
    fun m => ⟨(JoinCluster.size_eq m).symm, JoinCluster.marshal_eq m⟩, length_inlineVarint⟩

end Baudtime.Pb
