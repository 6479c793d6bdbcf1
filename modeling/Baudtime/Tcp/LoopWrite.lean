import Mathlib.Data.List.Basic

/-!
# The write loop of a connection

`ReadWriteLoop.LoopWrite` takes encoded messages off the loop's `out` queue and writes
them to the connection, which buffers them until `Flush`. While it has written since its
last flush it dequeues without blocking; when `Dequeue` then returns `nil` it flushes and
goes back to blocking. So the loop never sleeps on the queue while a message it wrote
waits in the connection's buffer.

The loop is run against its environment: at each iteration, what `Dequeue` returns and
what `WriteMsg` returns should the iteration write. Its calls on the queue and the
connection are its trace. The loop condition reads flags that other goroutines set, so a
run may stop after any iteration, which is a shorter environment.

## Main definitions

* `Dequeued`, `WriteResult`, `Call`
* `iteration`, `loopWrite` — one iteration of the loop, and the loop
* `unflushed` — the messages written since the last `Flush`

## Main results

* `iteration_spec` — the step lemma
* `loopWrite_unflushed` — the run lemma
* `loopWrite_blocks_flushed` — no blocking `Dequeue` while a message is unflushed
-/

namespace Baudtime.Tcp

/-- What `loop.out.Dequeue(block)` returns. -/
inductive Dequeued
  /-- An encoded message, a `[]byte`. -/
  | bytes (b : List UInt8)
  /-- A value of another type, which the loop skips. -/
  | other
  /-- `nil`: nothing to take. -/
  | nil
  deriving DecidableEq, Repr

/-- What `loop.conn.WriteMsg(bytes)` returns. -/
inductive WriteResult
  | ok
  /-- A `net.Error`, `io.EOF` or `io.ErrUnexpectedEOF`: the loop calls `Exit` and
  returns. -/
  | closed
  /-- Any other error, which the loop logs before it goes on. -/
  | failed
  deriving DecidableEq, Repr

/-- A call of the loop on its queue or its connection; `bytesPool.Put` and the logging
are left out. -/
inductive Call
  | dequeue (block : Bool)
  | writeMsg (bytes : List UInt8)
  | flush
  /-- `loop.Exit()`. -/
  | exit
  deriving DecidableEq, Repr

/-- One iteration of the loop of `LoopWrite` from `block`, given what `Dequeue` and
`WriteMsg` return: its calls, and the `block` of the next iteration, `none` where the
loop returns. -/
def iteration (block : Bool) (msgV : Dequeued) (err : WriteResult) : List Call × Option Bool :=
  match msgV with
  | .bytes b =>
    match err with
    | .closed => ([.dequeue block, .writeMsg b, .exit], none)
    | _ => ([.dequeue block, .writeMsg b], some false)
  | .other => ([.dequeue block], some block)
  | .nil => if !block then ([.dequeue block, .flush], some true) else ([.dequeue block], some block)

/-- The calls of the loop of `LoopWrite` from `block`, over its environment. `LoopWrite`
starts it with `block := true`. -/
def loopWrite (block : Bool) : List (Dequeued × WriteResult) → List Call
  | [] => []
  | (msgV, err) :: env =>
    (iteration block msgV err).1 ++
      match (iteration block msgV err).2 with
      | some block => loopWrite block env
      | none => []

/-- The messages written since the last `Flush`, after one more call. -/
def unflushedAfter (pending : List (List UInt8)) : Call → List (List UInt8)
  | .writeMsg b => pending ++ [b]
  | .flush => []
  | _ => pending

/-- The messages a sequence of calls has written and not flushed. -/
def unflushed (calls : List Call) : List (List UInt8) := calls.foldl unflushedAfter []

/-- The step lemma: an iteration dequeues first and only then, and it leaves nothing
unflushed when the next iteration blocks, provided nothing was unflushed if this one
blocked. -/
theorem iteration_spec (block : Bool) (msgV : Dequeued) (err : WriteResult)
    (p : List (List UInt8)) (hp : block = true → p = []) :
    ∃ rest, (iteration block msgV err).1 = .dequeue block :: rest ∧ (∀ b, .dequeue b ∉ rest) ∧
      ((iteration block msgV err).2 = some true →
        (iteration block msgV err).1.foldl unflushedAfter p = []) := by
  cases msgV with
  | bytes b => cases err <;> simp [iteration]
  | other => cases block <;> simp_all [iteration, unflushedAfter]
  | nil => cases block <;> simp_all [iteration, unflushedAfter]

/-- A blocking `Dequeue` past the first call of an iteration is in a later iteration. -/
theorem split_after_iteration {rest tail pre post : List Call} (hrest : ∀ b, .dequeue b ∉ rest)
    (h : pre ++ .dequeue true :: post = rest ++ tail) :
    ∃ mid, pre = rest ++ mid ∧ tail = mid ++ .dequeue true :: post := by
  rcases List.append_eq_append_iff.mp h with ⟨_ | ⟨x, mid⟩, hrest', htail⟩ | ⟨mid, hpre, htail⟩
  · exact ⟨[], by simpa using hrest'.symm, by simpa using htail.symm⟩
  · obtain ⟨rfl, -⟩ := List.cons.inj htail
    exact absurd (hrest' ▸ List.mem_append_right pre (List.mem_cons_self _ _)) (hrest true)
  · exact ⟨mid, hpre, htail⟩

/-- The run lemma: from any `block` with nothing unflushed if it blocks, every blocking
`Dequeue` of the loop comes with nothing unflushed. -/
theorem loopWrite_unflushed (env : List (Dequeued × WriteResult)) :
    ∀ (block : Bool) (p : List (List UInt8)), (block = true → p = []) →
      ∀ pre post, loopWrite block env = pre ++ .dequeue true :: post →
        pre.foldl unflushedAfter p = [] := by
  induction env with
  | nil => intro _ _ _ pre post h; simp [loopWrite] at h
  | cons e env ih =>
    obtain ⟨msgV, err⟩ := e
    intro block p hp pre post h
    obtain ⟨rest, hcalls, hrest, hnext⟩ := iteration_spec block msgV err p hp
    rw [loopWrite, hcalls, List.cons_append] at h
    rcases pre with _ | ⟨c, pre⟩
    · obtain ⟨hblock, -⟩ := List.cons.inj h
      cases hblock
      exact hp rfl
    · obtain ⟨rfl, h'⟩ := List.cons.inj h
      obtain ⟨mid, rfl, htail⟩ := split_after_iteration hrest h'.symm
      generalize (iteration block msgV err).2 = next at htail hnext
      cases next with
      | none => simp at htail
      | some block' =>
        have hp' : block' = true → (Call.dequeue block :: rest).foldl unflushedAfter p = [] :=
          fun hb => hcalls ▸ hnext (hb ▸ rfl)
        rw [← List.cons_append, List.foldl_append]
        exact ih block' _ hp' mid post htail

/-- Whatever `Dequeue` and `WriteMsg` return, `LoopWrite` calls `Dequeue` in blocking mode
only once every message it has written has been flushed. -/
theorem loopWrite_blocks_flushed {env : List (Dequeued × WriteResult)} {pre post : List Call}
    (h : loopWrite true env = pre ++ .dequeue true :: post) : unflushed pre = [] :=
  loopWrite_unflushed env true [] (fun _ => rfl) pre post h

/-- A message, then an empty queue: the loop flushes before it blocks again. -/
theorem loopWrite_flushes_before_blocking :
    loopWrite true [(.bytes [7], .ok), (.nil, .ok), (.nil, .ok)] =
        [.dequeue true, .writeMsg [7], .dequeue false, .flush] ++ .dequeue true :: [] ∧
      unflushed [.dequeue true, .writeMsg [7], .dequeue false, .flush] = [] :=
  have h : loopWrite true [(.bytes [7], .ok), (.nil, .ok), (.nil, .ok)] =
      [.dequeue true, .writeMsg [7], .dequeue false, .flush] ++ .dequeue true :: [] := rfl
  ⟨h, loopWrite_blocks_flushed h⟩

end Baudtime.Tcp
