import Baudtime.Tcp.LoopWrite
import Mathlib.Data.List.Infix

/-!
# The read-write loop of a connection, across goroutines

A `ReadWriteLoop` is driven by two goroutines, `LoopRead` and `LoopWrite`, while any other
goroutine may call `Write`, `Exit`, `CloseWrite` or `CloseRead` on it. They share three
flags, the connection `conn` and the queue `out`. `Exit`, `CloseWrite` and `CloseRead` each
guard their body with a `CompareAndSwapUint32` of their flag from `0` to `1`; the loops and
`Write` read the flags with `LoadUint32` before they touch the connection or the queue.

The model interleaves any number of such goroutines at their atomic steps: each flag load,
each successful or failed `CompareAndSwapUint32`, and each call on `conn`, `out` or
`onExit` is one step of one goroutine. What the connection, the codec, `handle` and the
queue return is the environment's choice, given with the step. A log records every call
on the flags, the connection, the queue and `onExit`, with the goroutine and the code it
ran in.

Two facts hold over every interleaving. Each of the three closing methods runs its body
at most once, in one goroutine and in its order: `Exit` sets `closed`, flushes, closes
the connection, closes the queue and calls `onExit` (`methods_run_once`). And once a flag
is set, every goroutine makes at most one more call of each kind that the flag stops,
the one it had already decided on before the flag was set (`winds_down`).

## Main definitions

* `Method`, `Effect`, `Flags` — the closing methods, the calls, the flags
* `methodStep` — one step of `Exit`, `CloseWrite` or `CloseRead`
* `Thread`, `Thread.step` — a goroutine and its next step: `LoopRead`, `LoopWrite`, `Write`
  or an outside call of a closing method
* `State`, `State.step`, `run`
* `since`, `countSince` — the log from a flag's setting on, and a goroutine's calls there

## Main results

* `Thread.budget_step` — the step lemma of the wind-down
* `step_inv`, `run_inv` — the invariant `Inv` over every run
* `methods_run_once`, `winds_down`
-/

namespace Baudtime.Tcp.ReadWriteLoop

/-- The methods that close part of the loop: `Exit` (flag `closed`), `CloseWrite`
(`wrClosed`) and `CloseRead` (`rdClosed`). -/
inductive Method
  | exit
  | closeWrite
  | closeRead
  deriving DecidableEq, Repr

/-- A call on the loop's flags, its connection, its queue or `onExit`. -/
inductive Effect
  /-- The `CompareAndSwapUint32` of the method's flag from `0` to `1` succeeds. -/
  | set (m : Method)
  /-- `loop.conn.ReadMsg(bytes)`. -/
  | readMsg
  /-- `loop.conn.WriteMsg(bytes)`. -/
  | writeMsg (bytes : List UInt8)
  /-- `loop.conn.Flush()`. -/
  | flush
  /-- `loop.conn.Close()`. -/
  | close
  /-- `loop.conn.CloseWrite()`. -/
  | closeWrite
  /-- `loop.conn.CloseRead()`. -/
  | closeRead
  /-- `loop.out.Enqueue(bytes)`. -/
  | enqueue (bytes : List UInt8)
  /-- `loop.out.Dequeue(block)`. -/
  | dequeue (block : Bool)
  /-- `loop.out.Close()`. -/
  | closeOut
  /-- `loop.onExit()`. -/
  | onExit
  deriving DecidableEq, Repr

/-- `rdClosed`, `wrClosed` and `closed`, `0` being `false`. -/
structure Flags where
  rdClosed : Bool := false
  wrClosed : Bool := false
  closed : Bool := false
  deriving DecidableEq, Repr

/-- The flag a method swaps. -/
def Flags.get (f : Flags) : Method → Bool
  | .exit => f.closed
  | .closeWrite => f.wrClosed
  | .closeRead => f.rdClosed

/-- The flags after a method's swap succeeded. -/
def Flags.set (f : Flags) : Method → Flags
  | .exit => { f with closed := true }
  | .closeWrite => { f with wrClosed := true }
  | .closeRead => { f with rdClosed := true }

/-- What a method does once its swap succeeded. `Exit`: `conn.Flush()`, `conn.Close()`,
`out.Close()` and, when `onExit != nil`, `onExit()`; `CloseWrite`: `conn.CloseWrite()`
and `out.Close()`; `CloseRead`: `conn.CloseRead()`. -/
def Method.body (onExit : Bool) : Method → List Effect
  | .exit => [.flush, .close, .closeOut] ++ if onExit then [.onExit] else []
  | .closeWrite => [.closeWrite, .closeOut]
  | .closeRead => [.closeRead]

/-- Where a call of a closing method stands: before its swap, or running its body with
`rest` still to do. -/
inductive MethodPc
  | cas
  | run (rest : List Effect)
  deriving DecidableEq, Repr

/-- One step of a call of `m`: the call it makes, and where it goes on (`none`: the
method returns). A failed swap returns at once. -/
def methodStep (onExit : Bool) (f : Flags) (m : Method) : MethodPc → Option Effect × Option MethodPc
  | .cas => if f.get m then (none, none) else (some (.set m), some (.run (m.body onExit)))
  | .run [] => (none, none)
  | .run (e :: rest) => (some e, some (.run rest))

/-! ## The goroutines -/

/-- `pb.CtrlCode` of a `ConnCtrl` message. -/
inductive CtrlCode
  | closeRead
  | closeWrite
  /-- A code the `switch` of `LoopRead` has no case for. -/
  | other
  deriving DecidableEq, Repr

/-- What `handle` returns for a request, as `codec.Encode` then treats it. -/
inductive Response
  /-- `EmptyMsg`. -/
  | empty
  /-- A message that `Encode` turns into `bytes`. -/
  | encoded (bytes : List UInt8)
  /-- A message that `Encode` fails on. -/
  | encodeError
  deriving DecidableEq, Repr

/-- What one `ReadMsg` brings `LoopRead`, after `Decode` and `handle`. -/
inductive Request
  /-- A `net.Error`, `io.EOF` or `io.ErrUnexpectedEOF`. -/
  | closed
  /-- Any other error of `ReadMsg`. -/
  | failed
  /-- Bytes that `Decode` fails on. -/
  | undecodable
  /-- A `ConnCtrl` message. -/
  | ctrl (code : CtrlCode)
  /-- A request, and what `handle` answers. -/
  | msg (resp : Response)
  deriving DecidableEq, Repr

/-- Where `LoopRead` stands. -/
inductive ReaderPc
  /-- Before `loop.IsRunning()` of the loop condition. -/
  | checkRunning
  /-- Before `!loop.ReadClosed()`. -/
  | checkReadClosed
  | readMsg
  /-- Before `loop.WriteClosed() || out == EmptyMsg`, with `handle`'s response. -/
  | checkWriteClosed (resp : Response)
  | enqueue (bytes : List UInt8)
  /-- Inside `Exit`, `CloseRead` or `CloseWrite`; then back to the loop condition
  (`resume`) or returned. -/
  | calling (m : Method) (pc : MethodPc) (resume : Bool)
  | done
  deriving DecidableEq, Repr

/-- Where `LoopWrite` stands. -/
inductive WriterPc
  | checkRunning
  /-- Before `!loop.WriteClosed()`. -/
  | checkWriteClosed
  | dequeue
  | writeMsg (bytes : List UInt8)
  | flush
  /-- Inside `Exit`, then returned. -/
  | exiting (pc : MethodPc)
  | done
  deriving DecidableEq, Repr

/-- Where a call of `Write(msg)` stands. -/
inductive WritePc
  | checkRunning
  | checkWriteClosed
  /-- Before `codec.Encode` and `out.Enqueue`. -/
  | enqueue
  /-- Returned `err`. -/
  | returned (err : Option String)
  deriving DecidableEq, Repr

/-- A goroutine running on the loop. -/
inductive Thread
  | reader (pc : ReaderPc)
  /-- `LoopWrite` with its local `block`. -/
  | writer (block : Bool) (pc : WriterPc)
  | write (pc : WritePc)
  /-- A call of `Exit`, `CloseWrite` or `CloseRead` from another goroutine; `none` when it
  returned. -/
  | call (m : Method) (pc : Option MethodPc)
  deriving DecidableEq, Repr

/-- What the environment gives a step that asks it. -/
inductive Input
  /-- `ReadMsg`, `Decode` and `handle`. -/
  | request (r : Request)
  /-- `out.Dequeue(block)`. -/
  | dequeued (d : Dequeued)
  /-- `conn.WriteMsg(bytes)`. -/
  | written (r : WriteResult)
  /-- `codec.Encode(msg, bytes)` and `out.Enqueue` of `Write`. -/
  | encoded (r : Except String (List UInt8)) (enqueueErr : Option String)

/-- The code a call was made from. -/
inductive Source
  | method (m : Method)
  | loopRead
  | loopWrite
  | write
  deriving DecidableEq, Repr

/-- `LoopRead` after its `ReadMsg`: a closed connection or an undecodable message make it
`Exit` and return, a control code makes it call `CloseRead` or `CloseWrite`, and a request
brings it to the check of `WriteClosed`. -/
def afterRead : Request → ReaderPc
  | .closed => .calling .exit .cas false
  | .failed => .checkRunning
  | .undecodable => .calling .exit .cas false
  | .ctrl .closeRead => .calling .closeRead .cas true
  | .ctrl .closeWrite => .calling .closeWrite .cas true
  | .ctrl .other => .checkRunning
  | .msg resp => .checkWriteClosed resp

/-- `if loop.WriteClosed() || out == EmptyMsg { continue }`, then `Encode`: on an error
`continue`, otherwise `Enqueue`. -/
def afterHandle (wrClosed : Bool) : Response → ReaderPc
  | .empty => .checkRunning
  | .encoded bytes => if wrClosed then .checkRunning else .enqueue bytes
  | .encodeError => .checkRunning

/-- `LoopWrite` after `Dequeue(block)`. -/
def afterDequeue (block : Bool) : Dequeued → Thread
  | .bytes b => .writer block (.writeMsg b)
  | .other => .writer block .checkRunning
  | .nil => if !block then .writer block .flush else .writer block .checkRunning

/-- `LoopWrite` after `WriteMsg`: `Exit` and return on a closed connection, otherwise
`block = false`. -/
def afterWrite (block : Bool) : WriteResult → Thread
  | .closed => .writer block (.exiting .cas)
  | _ => .writer false .checkRunning

/-- Where a goroutine inside a closing method goes on: the method's next `pc`, or, when
it returned, `back`. -/
def resumeWith (inside : MethodPc → Thread) (back : Thread) : Option MethodPc → Thread
  | some pc => inside pc
  | none => back

variable (onExit : Bool) (f : Flags)

/-- One step of a goroutine from `f`, given the environment's answer where the step asks
one: the goroutine after it, and the call it makes with the code it is made from. -/
def Thread.step : Thread → Option Input → Option (Thread × Option (Source × Effect))
  | .reader .checkRunning, none => some (.reader (if f.closed then .done else .checkReadClosed), none)
  | .reader .checkReadClosed, none => some (.reader (if f.rdClosed then .done else .readMsg), none)
  | .reader .readMsg, some (.request r) => some (.reader (afterRead r), some (.loopRead, .readMsg))
  | .reader (.checkWriteClosed resp), none => some (.reader (afterHandle f.wrClosed resp), none)
  | .reader (.enqueue b), none => some (.reader .checkRunning, some (.loopRead, .enqueue b))
  | .reader (.calling m pc resume), none =>
    some (resumeWith (fun pc => .reader (.calling m pc resume))
        (.reader (if resume then .checkRunning else .done)) (methodStep onExit f m pc).2,
      (methodStep onExit f m pc).1.map (.method m, ·))
  | .writer block .checkRunning, none =>
    some (.writer block (if f.closed then .done else .checkWriteClosed), none)
  | .writer block .checkWriteClosed, none =>
    some (.writer block (if f.wrClosed then .done else .dequeue), none)
  | .writer block .dequeue, some (.dequeued d) =>
    some (afterDequeue block d, some (.loopWrite, .dequeue block))
  | .writer block (.writeMsg b), some (.written r) =>
    some (afterWrite block r, some (.loopWrite, .writeMsg b))
  | .writer _ .flush, none => some (.writer true .checkRunning, some (.loopWrite, .flush))
  | .writer block (.exiting pc), none =>
    some (resumeWith (fun pc => .writer block (.exiting pc)) (.writer block .done)
        (methodStep onExit f .exit pc).2,
      (methodStep onExit f .exit pc).1.map (.method .exit, ·))
  | .write .checkRunning, none =>
    some (.write (if f.closed then .returned (some "loop is not running") else .checkWriteClosed),
      none)
  | .write .checkWriteClosed, none =>
    some (.write (if f.wrClosed then .returned (some "write is closed") else .enqueue), none)
  | .write .enqueue, some (.encoded (.error err) _) => some (.write (.returned (some err)), none)
  | .write .enqueue, some (.encoded (.ok b) enqueueErr) =>
    some (.write (.returned enqueueErr), some (.write, .enqueue b))
  | .call m (some pc), none =>
    some (.call m (methodStep onExit f m pc).2, (methodStep onExit f m pc).1.map (.method m, ·))
  | _, _ => none

/-! ## The process -/

/-- A call in the log: the goroutine that made it, the code it was made from, and the
call. -/
structure Entry where
  thread : Nat
  source : Source
  effect : Effect
  deriving DecidableEq, Repr

/-- The loop's flags, whether `onExit` is set, the goroutines, and the log. -/
structure State where
  flags : Flags
  onExit : Bool
  threads : List Thread
  log : List Entry

/-- A step of goroutine `thread`, with the environment's answer if it asks one. -/
structure Action where
  thread : Nat
  input : Option Input

/-- The flags after a call: a successful swap sets its flag. -/
def Flags.after (f : Flags) : Option (Source × Effect) → Flags
  | some (_, .set m) => f.set m
  | _ => f

/-- The log entries of a step of goroutine `i`: its call, if it made one. -/
def entries (i : Nat) : Option (Source × Effect) → List Entry
  | some (src, eff) => [⟨i, src, eff⟩]
  | none => []

/-- The process after goroutine `i` moved on to `th'` making call `e`. -/
def State.after (s : State) (i : Nat) (th' : Thread) (e : Option (Source × Effect)) : State :=
  ⟨s.flags.after e, s.onExit, s.threads.set i th', s.log ++ entries i e⟩

/-- One step of the process; `none` when the goroutine cannot take it. -/
def State.step (s : State) (a : Action) : Option State := do
  let th ← s.threads[a.thread]?
  let (th', e) ← th.step s.onExit s.flags a.input
  some (s.after a.thread th' e)

@[simp] theorem State.after_flags (s : State) (i : Nat) (th' : Thread) (e) :
    (s.after i th' e).flags = s.flags.after e := rfl

@[simp] theorem State.after_onExit (s : State) (i : Nat) (th' : Thread) (e) :
    (s.after i th' e).onExit = s.onExit := rfl

@[simp] theorem State.after_log (s : State) (i : Nat) (th' : Thread) (e) :
    (s.after i th' e).log = s.log ++ entries i e := rfl

theorem State.after_threads {s : State} {i : Nat} {th : Thread} (hth : s.threads[i]? = some th)
    (th' : Thread) (e) (j : Nat) :
    (s.after i th' e).threads[j]? = if i = j then some th' else s.threads[j]? := by
  simp [State.after, List.getElem?_set, (List.getElem?_eq_some_iff.mp hth).1]

theorem thread_of_mem_entries {x : Entry} {i : Nat} {e : Option (Source × Effect)}
    (h : x ∈ entries i e) : x.thread = i := by
  rcases e with _ | ⟨src, eff⟩
  · cases h
  · rw [entries, List.mem_singleton] at h
    rw [h]

/-- A run of the process; `none` when some step cannot be taken. -/
def run (s : State) (acts : List Action) : Option State := acts.foldlM State.step s

/-- What a goroutine runs. `LoopRead` and `LoopWrite` are started on a new loop, whose
flags are clear; the others are calls from other goroutines. -/
inductive Role
  | loopRead
  | loopWrite
  | write
  | call (m : Method)
  deriving DecidableEq, Repr

/-- A goroutine at its start; `LoopWrite` starts with `block := true`. -/
def Role.start : Role → Thread
  | .loopRead => .reader .checkRunning
  | .loopWrite => .writer true .checkRunning
  | .write => .write .checkRunning
  | .call m => .call m (some .cas)

/-- `NewReadWriteLoop`, with `onExit` set or not, and the goroutines at their start. -/
def State.init (onExit : Bool) (roles : List Role) : State :=
  ⟨{}, onExit, roles.map Role.start, []⟩

/-! ## The closing methods -/

/-- The closing method a goroutine is inside, and where. -/
def Thread.method? : Thread → Option (Method × MethodPc)
  | .reader (.calling m pc _) => some (m, pc)
  | .writer _ (.exiting pc) => some (.exit, pc)
  | .call m (some pc) => some (m, pc)
  | _ => none

/-- Whether a call was made by a closing method. -/
def Source.isMethod : Source → Bool
  | .method _ => true
  | _ => false

theorem set_not_mem_body (onExit : Bool) (m m' : Method) : Effect.set m' ∉ m.body onExit := by
  cases m <;> cases onExit <;> simp [Method.body]

@[simp] theorem Flags.get_set_self (f : Flags) (m : Method) : (f.set m).get m = true := by
  cases m <;> rfl

theorem Flags.get_set_of_ne (f : Flags) {m m' : Method} (h : m' ≠ m) :
    (f.set m').get m = f.get m := by
  cases m <;> cases m' <;> first | rfl | exact absurd rfl h

theorem method?_back (resume : Bool) :
    (Thread.reader (if resume then .checkRunning else .done)).method? = none := by
  cases resume <;> rfl

/-- A goroutine inside a closing method takes that method's step, and makes its call from
that method. -/
theorem Thread.step_of_method {th th' : Thread} {inp : Option Input}
    {e : Option (Source × Effect)} {m : Method} {pc : MethodPc} (hm : th.method? = some (m, pc))
    (h : th.step onExit f inp = some (th', e)) :
    e = (methodStep onExit f m pc).1.map (.method m, ·) ∧
      th'.method? = (methodStep onExit f m pc).2.map (m, ·) := by
  unfold method? at hm
  split at hm <;> cases hm <;> cases inp <;> cases h
  all_goals
    refine ⟨rfl, ?_⟩
    generalize (methodStep onExit f _ _).2 = r
    cases r <;> simp [resumeWith, method?]
  all_goals exact method?_back _

/-- A goroutine outside the closing methods makes no call from one and swaps no flag, and
it enters a method only at the method's swap. -/
theorem Thread.step_of_method_eq_none {th th' : Thread} {inp : Option Input}
    {e : Option (Source × Effect)} (hm : th.method? = none)
    (h : th.step onExit f inp = some (th', e)) :
    (∀ p ∈ e, p.1.isMethod = false ∧ ∀ m, p.2 ≠ .set m) ∧ ∀ m r, th'.method? ≠ some (m, .run r) := by
  rcases th with ⟨_ | _ | _ | _ | _ | _ | _⟩ | ⟨block, _ | _ | _ | _ | _ | _ | _⟩ |
      ⟨_ | _ | _ | _⟩ | ⟨_, _ | _⟩ <;> cases hm <;>
    rcases inp with _ | ⟨r⟩ | ⟨d⟩ | ⟨r⟩ | ⟨_ | _, err⟩ <;> cases h <;>
    refine ⟨fun p hp => by cases hp <;> exact ⟨rfl, fun _ => nofun⟩, fun m rest hr => ?_⟩ <;>
    (try dsimp only [afterRead, afterHandle, afterDequeue, afterWrite] at hr) <;>
    (try split at hr) <;> (try split at hr) <;> cases hr

/-! ## The wind-down -/

/-- The kind of a call that `LoopRead`, `LoopWrite` or `Write` makes on `conn` or `out`. -/
inductive Kind
  | readMsg
  | writeMsg
  | flush
  | enqueue
  | dequeue
  deriving DecidableEq, Repr

/-- The kind of a call, for the calls the loops and `Write` make. -/
def Effect.kind : Effect → Option Kind
  | .readMsg => some .readMsg
  | .writeMsg _ => some .writeMsg
  | .flush => some .flush
  | .enqueue _ => some .enqueue
  | .dequeue _ => some .dequeue
  | _ => none

/-- The calls a flag stops, each code checking its flags before them: `closed` stops all
of them, `wrClosed` those of the write side, `rdClosed` the reads. -/
def Method.stops : Method → Kind → Bool
  | .exit, _ => true
  | .closeWrite, k => k != .readMsg
  | .closeRead, k => k == .readMsg

/-- A call of kind `k` made by a loop or by `Write`, not by a closing method. -/
def IsCall (k : Kind) (p : Source × Effect) : Bool := !p.1.isMethod && p.2.kind == some k

/-- `1` for a call of kind `k` by a loop or `Write`, `0` for any other step. -/
def callCount (k : Kind) : Option (Source × Effect) → Nat
  | some p => (IsCall k p).toNat
  | none => 0

/-- Whether a goroutine may still make a call of kind `k` before it next reads the flag of
`m`: from the point where it passed that check until it makes the call. -/
def Thread.pending : Thread → Method → Kind → Bool
  | .reader .checkReadClosed, .exit, .readMsg | .reader .checkReadClosed, .exit, .enqueue
  | .reader .readMsg, .exit, .readMsg | .reader .readMsg, .exit, .enqueue
  | .reader .readMsg, .closeRead, .readMsg
  | .reader (.checkWriteClosed _), .exit, .enqueue
  | .reader (.enqueue _), .exit, .enqueue | .reader (.enqueue _), .closeWrite, .enqueue
  | .writer _ .checkWriteClosed, .exit, .dequeue | .writer _ .checkWriteClosed, .exit, .writeMsg
  | .writer _ .checkWriteClosed, .exit, .flush
  | .writer _ .dequeue, .exit, .dequeue | .writer _ .dequeue, .exit, .writeMsg
  | .writer _ .dequeue, .exit, .flush
  | .writer _ .dequeue, .closeWrite, .dequeue | .writer _ .dequeue, .closeWrite, .writeMsg
  | .writer _ .dequeue, .closeWrite, .flush
  | .writer _ (.writeMsg _), .exit, .writeMsg | .writer _ (.writeMsg _), .closeWrite, .writeMsg
  | .writer _ .flush, .exit, .flush | .writer _ .flush, .closeWrite, .flush
  | .write .checkWriteClosed, .exit, .enqueue
  | .write .enqueue, .exit, .enqueue | .write .enqueue, .closeWrite, .enqueue => true
  | _, _, _ => false

/-- How many calls of kind `k` a goroutine may still make before it next reads the flag of
`m`. -/
def Thread.budget (th : Thread) (m : Method) (k : Kind) : Nat := (th.pending m k).toNat

theorem Thread.budget_le_one (th : Thread) (m : Method) (k : Kind) : th.budget m k ≤ 1 :=
  Bool.toNat_le _

/-- A goroutine inside a closing method has no budget. -/
theorem Thread.budget_of_method? {th : Thread} {p : Method × MethodPc} (hm : th.method? = some p)
    (m : Method) (k : Kind) : th.budget m k = 0 := by
  rcases th with ⟨_ | _ | _ | _ | _ | _ | _⟩ | ⟨_, _ | _ | _ | _ | _ | _ | _⟩ | _ | ⟨_, _ | _⟩ <;>
    first | rfl | cases hm

/-- Nor has it after a step of the method, inside the method or back in its code. -/
theorem Thread.budget_after_method {th th' : Thread} {inp : Option Input}
    {e : Option (Source × Effect)} {p : Method × MethodPc} (hm : th.method? = some p)
    (h : th.step onExit f inp = some (th', e)) (m : Method) (k : Kind) : th'.budget m k = 0 := by
  unfold method? at hm
  split at hm <;> cases hm <;> cases inp <;> cases h
  all_goals generalize (methodStep onExit f _ _).2 = r; cases r <;> try rfl
  rename_i resume; cases resume <;> rfl

/-- The step lemma of the wind-down: once the flag of `m` is set, a step that makes a call
of a kind `m` stops uses up the goroutine's budget for that kind. -/
theorem Thread.budget_step {th th' : Thread} {inp : Option Input} {e : Option (Source × Effect)}
    {m : Method} {k : Kind} (hk : m.stops k = true) (hf : f.get m = true)
    (h : th.step onExit f inp = some (th', e)) :
    callCount k e + th'.budget m k ≤ th.budget m k := by
  cases hm : th.method? with
  | some p =>
    obtain ⟨m', pc⟩ := p
    obtain ⟨rfl, -⟩ := th.step_of_method onExit f hm h
    rw [budget_of_method? hm, budget_after_method onExit f hm h]
    cases (methodStep onExit f m' pc).1 <;> rfl
  | none =>
    rcases th with ⟨_ | _ | _ | _ | _ | _ | _⟩ | ⟨block, _ | _ | _ | _ | _ | _ | _⟩ |
        ⟨_ | _ | _ | _⟩ | ⟨_, _ | _⟩ <;> cases hm <;>
      rcases inp with _ | ⟨r⟩ | ⟨d⟩ | ⟨r⟩ | ⟨_ | _, err⟩ <;> cases h <;>
      (try dsimp only [afterRead, afterHandle, afterDequeue, afterWrite]) <;>
      (try split) <;> (try split) <;> cases m <;> cases k <;>
      first
      | exact Nat.le_of_ble_eq_true rfl
      | exact absurd hk (by decide)
      | exact absurd hf ‹_›

/-! ## The log -/

/-- The calls made from `m`, in order. -/
def methodLog (m : Method) (log : List Entry) : List Effect :=
  log.filterMap fun x => if x.source = .method m then some x.effect else none

/-- The log from the swap that set the flag of `m` on; empty while no swap did. -/
def since (m : Method) (log : List Entry) : List Entry :=
  log.dropWhile fun x => x.effect != .set m

/-- The calls of kind `k` that goroutine `t` made from its loop or from `Write` since the
flag of `m` was set. -/
def countSince (m : Method) (k : Kind) (t : Nat) (log : List Entry) : Nat :=
  (since m log).countP fun x => x.thread == t && IsCall k (x.source, x.effect)

@[simp] theorem methodLog_append (m : Method) (l l' : List Entry) :
    methodLog m (l ++ l') = methodLog m l ++ methodLog m l' :=
  List.filterMap_append _ _ _

theorem methodLog_eq_nil {m : Method} {log : List Entry} :
    methodLog m log = [] ↔ ∀ x ∈ log, x.source ≠ .method m := by
  simp [methodLog]

theorem exists_of_methodLog_ne_nil {m : Method} {log : List Entry} (h : methodLog m log ≠ []) :
    ∃ x ∈ log, x.source = .method m := by
  simpa [methodLog_eq_nil] using h

@[simp] theorem methodLog_entries (m : Method) (i : Nat) (src : Source) (eff : Effect) :
    methodLog m (entries i (some (src, eff))) = if src = .method m then [eff] else [] := by
  by_cases h : src = .method m <;> simp [methodLog, entries, h]

theorem since_append_of_mem {m : Method} {log : List Entry} (h : ∃ x ∈ log, x.effect = .set m)
    (l : List Entry) : since m (log ++ l) = since m log ++ l := by
  obtain ⟨x, hx, hset⟩ := h
  have hne : (log.dropWhile fun x => x.effect != .set m).isEmpty = false := by
    rw [List.isEmpty_eq_false, ne_eq, List.dropWhile_eq_nil_iff]
    exact fun hall => by simpa [hset] using hall x hx
  rw [since, since, List.dropWhile_append, hne, if_neg Bool.false_ne_true]

theorem since_append_of_not_mem {m : Method} {log : List Entry} (h : ∀ x ∈ log, x.effect ≠ .set m)
    (l : List Entry) : since m (log ++ l) = since m l :=
  List.dropWhile_append_of_pos fun x hx => by simpa using h x hx

theorem countP_entries (k : Kind) (t i : Nat) (e : Option (Source × Effect)) :
    (entries i e).countP (fun x => x.thread == t && IsCall k (x.source, x.effect)) =
      if i = t then callCount k e else 0 := by
  rcases e with _ | ⟨src, eff⟩
  · simp [entries, callCount]
  · by_cases hi : i = t <;> cases hc : IsCall k (src, eff) <;> simp [entries, callCount, hi, hc]

/-! ## The invariant -/

/-- The invariant of every reachable state. -/
structure Inv (s : State) : Prop where
  /-- Every call in the log was made by one of the goroutines. -/
  log_thread : ∀ x ∈ s.log, x.thread < s.threads.length
  /-- Only a method's own swap sets its flag. -/
  set_source : ∀ m, ∀ x ∈ s.log, x.effect = .set m → x.source = .method m
  /-- A method's flag is set exactly when the method has made a call. -/
  flag_iff : ∀ m, s.flags.get m = true ↔ methodLog m s.log ≠ []
  /-- A method's calls so far are its swap and the start of its body. -/
  in_order : ∀ m, methodLog m s.log <+: .set m :: m.body s.onExit
  /-- One goroutine made all calls from a method. -/
  owner : ∀ m, ∀ x ∈ s.log, ∀ y ∈ s.log, x.source = .method m → y.source = .method m →
    x.thread = y.thread
  /-- A goroutine inside a method's body made the method's calls so far, and `rest` is
  what the body has left to do. -/
  running : ∀ m i th rest, s.threads[i]? = some th → th.method? = some (m, .run rest) →
    methodLog m s.log ≠ [] ∧ methodLog m s.log ++ rest = .set m :: m.body s.onExit ∧
      ∀ x ∈ s.log, x.source = .method m → x.thread = i
  /-- Once the flag of `m` is set, a goroutine's calls of a kind `m` stops, with what it may
  still make, are at most one. -/
  budget : ∀ m k t th, m.stops k = true → s.flags.get m = true → s.threads[t]? = some th →
    countSince m k t s.log + th.budget m k ≤ 1

theorem State.step_eq_some {s s' : State} {a : Action} (h : s.step a = some s') :
    ∃ th th' e, s.threads[a.thread]? = some th ∧
      th.step s.onExit s.flags a.input = some (th', e) ∧ s' = s.after a.thread th' e := by
  obtain ⟨th, hth, h⟩ := Option.bind_eq_some.mp h
  obtain ⟨⟨th', e⟩, hst, h⟩ := Option.bind_eq_some.mp h
  exact ⟨th, th', e, hth, hst, (Option.some.inj h).symm⟩

/-- What a goroutine's step does, as the closing methods see it: a step outside them (a
failed swap and a method's return among them), a successful swap, or a call of a method's
body. -/
theorem Thread.step_cases {th th' : Thread} {inp : Option Input} {e : Option (Source × Effect)}
    (h : th.step onExit f inp = some (th', e)) :
    ((∀ p ∈ e, p.1.isMethod = false ∧ ∀ m, p.2 ≠ .set m) ∧
        ∀ m r, th'.method? ≠ some (m, .run r)) ∨
      (∃ m, th.method? = some (m, .cas) ∧ f.get m = false ∧ e = some (.method m, .set m) ∧
        th'.method? = some (m, .run (m.body onExit))) ∨
      ∃ m eff rest, th.method? = some (m, .run (eff :: rest)) ∧ e = some (.method m, eff) ∧
        th'.method? = some (m, .run rest) := by
  cases hm : th.method? with
  | none => exact .inl (th.step_of_method_eq_none onExit f hm h)
  | some p =>
    obtain ⟨m, pc⟩ := p
    obtain ⟨rfl, hth'⟩ := th.step_of_method onExit f hm h
    have hout : ∀ r, th'.method? = none → th'.method? ≠ some r := fun r h' => by simp [h']
    rcases pc with _ | _ | ⟨eff, rest⟩
    · cases hf : f.get m <;> simp only [methodStep, hf, Bool.false_eq_true, if_false, if_true,
        Option.map] at hth' ⊢
      · exact .inr (.inl ⟨m, rfl, hf, rfl, hth'⟩)
      · exact .inl ⟨nofun, fun _ _ => hout _ hth'⟩
    · exact .inl ⟨nofun, fun _ _ => hout _ hth'⟩
    · exact .inr (.inr ⟨m, eff, rest, rfl, rfl, hth'⟩)

theorem Flags.after_of_not_set (f : Flags) {e : Option (Source × Effect)}
    (h : ∀ p ∈ e, ∀ m, p.2 ≠ .set m) : f.after e = f := by
  rcases e with _ | ⟨src, eff⟩
  · rfl
  · cases eff <;> first | rfl | exact absurd rfl (h _ rfl _)

theorem eq_set_of_mem_body {onExit : Bool} {m : Method} {done rest : List Effect} {eff : Effect}
    (h : done ++ eff :: rest = m.body onExit) (m' : Method) : eff ≠ .set m' := by
  rintro rfl
  exact set_not_mem_body onExit m m' (h ▸ List.mem_append_right _ (List.mem_cons_self _ _))

/-- A goroutine inside a method's body never calls a swap: what it calls next is in the
body. -/
theorem Inv.not_set_of_running {s : State} (hi : Inv s) {m : Method} {i : Nat} {th : Thread}
    {eff : Effect} {rest : List Effect} (hth : s.threads[i]? = some th)
    (hm : th.method? = some (m, .run (eff :: rest))) (m' : Method) : eff ≠ .set m' := by
  obtain ⟨hne, happ, -⟩ := hi.running m i th _ hth hm
  obtain ⟨x, done, hx⟩ := List.exists_cons_of_ne_nil hne
  rw [hx, List.cons_append, List.cons.injEq] at happ
  exact eq_set_of_mem_body happ.2 m'

theorem Inv.methodLog_of_clear {s : State} (hi : Inv s) {m : Method} (hf : s.flags.get m = false) :
    methodLog m s.log = [] := by
  by_contra hne
  exact absurd ((hi.flag_iff m).2 hne) (by simp [hf])

/-- While a flag is clear, no swap of it is in the log. -/
theorem Inv.not_set {s : State} (hi : Inv s) {m : Method} (hf : s.flags.get m = false) :
    ∀ x ∈ s.log, x.effect ≠ .set m := fun x hx hset =>
  methodLog_eq_nil.mp (hi.methodLog_of_clear hf) x hx (hi.set_source m x hx hset)

/-- The swap of a set flag is in the log. -/
theorem Inv.exists_set {s : State} (hi : Inv s) {m : Method} (hf : s.flags.get m = true) :
    ∃ x ∈ s.log, x.effect = .set m := by
  obtain ⟨rest, hrest⟩ := hi.in_order m
  obtain ⟨eff, done, hlog⟩ := List.exists_cons_of_ne_nil ((hi.flag_iff m).1 hf)
  rw [hlog, List.cons_append, List.cons.injEq] at hrest
  have hmem : eff ∈ methodLog m s.log := hlog ▸ List.mem_cons_self _ _
  simp only [methodLog, List.mem_filterMap, Option.ite_none_right_eq_some, Option.some.injEq] at hmem
  obtain ⟨x, hx, -, rfl⟩ := hmem
  exact ⟨x, hx, hrest.1⟩

/-! ## One step -/

section Step

variable {s : State} {i : Nat} {th th' : Thread} {inp : Option Input} {e : Option (Source × Effect)}

/-- How a step changes what method `m` called: not at all, or by the swap while the method
had called nothing, or by the next call of the body, from the goroutine inside it. -/
theorem Inv.step_method (hi : Inv s) (hth : s.threads[i]? = some th)
    (h : th.step s.onExit s.flags inp = some (th', e)) (m : Method) :
    (methodLog m (entries i e) = [] ∧ (∀ x ∈ entries i e, x.effect ≠ .set m) ∧
        (s.flags.after e).get m = s.flags.get m ∧ ∀ r, th'.method? ≠ some (m, .run r)) ∨
      (s.flags.get m = false ∧ e = some (.method m, .set m) ∧
        th'.method? = some (m, .run (m.body s.onExit))) ∨
      ∃ eff rest, th.method? = some (m, .run (eff :: rest)) ∧ e = some (.method m, eff) ∧
        (∀ m', eff ≠ .set m') ∧ th'.method? = some (m, .run rest) := by
  rcases th.step_cases s.onExit s.flags h with ⟨hout, hth'⟩ | ⟨m₀, -, hf, rfl, hth'⟩ |
      ⟨m₀, eff, rest, hm, rfl, hth'⟩
  · refine .inl ⟨?_, ?_, by rw [Flags.after_of_not_set _ fun p hp => (hout p hp).2], hth' m⟩
    · rcases e with _ | ⟨src, eff⟩
      · rfl
      · have := (hout _ rfl).1
        cases src <;> simp_all [Source.isMethod]
    · rcases e with _ | ⟨src, eff⟩
      · nofun
      · simpa [entries] using (hout _ rfl).2 m
  · by_cases hm₀ : m₀ = m
    · subst hm₀
      exact .inr (.inl ⟨hf, rfl, hth'⟩)
    · refine .inl ⟨by simp [hm₀], by simp [entries, hm₀], Flags.get_set_of_ne _ hm₀, ?_⟩
      simp [hth', hm₀]
  · have hne := hi.not_set_of_running hth hm
    by_cases hm₀ : m₀ = m
    · subst hm₀
      exact .inr (.inr ⟨eff, rest, hm, rfl, hne, hth'⟩)
    · refine .inl ⟨by simp [hm₀], by simpa [entries] using hne m, ?_, by simp [hth', hm₀]⟩
      rw [Flags.after_of_not_set _ fun p hp => by cases hp; exact hne]

variable (hi : Inv s) (hth : s.threads[i]? = some th) (h : th.step s.onExit s.flags inp = some (th', e))
include hi hth h

omit h in
theorem Inv.after_log_thread : ∀ x ∈ (s.after i th' e).log, x.thread < (s.after i th' e).threads.length := by
  intro x hx
  rw [State.after_log, List.mem_append] at hx
  rw [State.after, List.length_set]
  exact hx.elim (hi.log_thread x) fun hx =>
    thread_of_mem_entries hx ▸ (List.getElem?_eq_some_iff.mp hth).1

theorem Inv.after_set_source (m : Method) :
    ∀ x ∈ (s.after i th' e).log, x.effect = .set m → x.source = .method m := by
  intro x hx hset
  rcases List.mem_append.mp hx with hx | hx
  · exact hi.set_source m x hx hset
  rcases hi.step_method hth h m with ⟨-, hno, -⟩ | ⟨-, rfl, -⟩ | ⟨eff, rest, -, rfl, hne, -⟩
  · exact absurd hset (hno x hx)
  · rw [entries, List.mem_singleton] at hx
    rw [hx]
  · rw [entries, List.mem_singleton] at hx
    rw [hx] at hset
    exact absurd hset (hne m)

theorem Inv.after_flag_iff (m : Method) :
    (s.after i th' e).flags.get m = true ↔ methodLog m (s.after i th' e).log ≠ [] := by
  simp only [State.after_flags, State.after_log, methodLog_append]
  rcases hi.step_method hth h m with ⟨hlog, -, hflag, -⟩ | ⟨-, rfl, -⟩ |
      ⟨eff, rest, hm, rfl, hne, -⟩
  · rw [hlog, List.append_nil, hflag]
    exact hi.flag_iff m
  · simp [Flags.after]
  · have hlog := (hi.running m i th _ hth hm).1
    rw [Flags.after_of_not_set _ fun p hp => by cases hp; exact hne]
    exact iff_of_true ((hi.flag_iff m).2 hlog) (List.append_ne_nil_of_left_ne_nil hlog _)

theorem Inv.after_in_order (m : Method) :
    methodLog m (s.after i th' e).log <+: .set m :: m.body (s.after i th' e).onExit := by
  simp only [State.after_log, State.after_onExit, methodLog_append]
  rcases hi.step_method hth h m with ⟨hlog, -⟩ | ⟨hf, rfl, -⟩ | ⟨eff, rest, hm, rfl, -, -⟩
  · rw [hlog, List.append_nil]
    exact hi.in_order m
  · rw [hi.methodLog_of_clear hf]
    exact ⟨m.body s.onExit, by simp⟩
  · obtain ⟨-, happ, -⟩ := hi.running m i th _ hth hm
    exact ⟨rest, by simpa using happ⟩

omit h in
/-- After a swap or a call of `m`'s body by goroutine `i`, goroutine `i` made all of `m`'s
calls. -/
theorem Inv.after_thread_of_method {m : Method}
    (hcase : (s.flags.get m = false ∧ e = some (.method m, .set m)) ∨
      ∃ eff rest, th.method? = some (m, .run (eff :: rest)) ∧ e = some (.method m, eff)) :
    ∀ x ∈ s.log ++ entries i e, x.source = .method m → x.thread = i := by
  intro x hx hxm
  rcases List.mem_append.mp hx with hx | hx
  · rcases hcase with ⟨hf, -⟩ | ⟨eff, rest, hm, -⟩
    · exact absurd hxm (methodLog_eq_nil.mp (hi.methodLog_of_clear hf) x hx)
    · exact (hi.running m i th _ hth hm).2.2 x hx hxm
  · exact thread_of_mem_entries hx

theorem Inv.after_owner (m : Method) :
    ∀ x ∈ (s.after i th' e).log, ∀ y ∈ (s.after i th' e).log,
      x.source = .method m → y.source = .method m → x.thread = y.thread := by
  intro x hx y hy hxm hym
  rcases hi.step_method hth h m with ⟨hlog, -⟩ | ⟨hf, he, -⟩ | ⟨eff, rest, hm, he, -, -⟩
  · have hold : ∀ z ∈ (s.after i th' e).log, z.source = .method m → z ∈ s.log :=
      fun z hz hzm => (List.mem_append.mp hz).resolve_right fun hz =>
        methodLog_eq_nil.mp hlog z hz hzm
    exact hi.owner m x (hold x hx hxm) y (hold y hy hym) hxm hym
  · rw [hi.after_thread_of_method hth (.inl ⟨hf, he⟩) x hx hxm,
      hi.after_thread_of_method hth (.inl ⟨hf, he⟩) y hy hym]
  · rw [hi.after_thread_of_method hth (.inr ⟨eff, rest, hm, he⟩) x hx hxm,
      hi.after_thread_of_method hth (.inr ⟨eff, rest, hm, he⟩) y hy hym]

theorem Inv.after_running (m : Method) (j : Nat) (thj : Thread) (rest : List Effect)
    (hj : (s.after i th' e).threads[j]? = some thj) (hrun : thj.method? = some (m, .run rest)) :
    methodLog m (s.after i th' e).log ≠ [] ∧
      methodLog m (s.after i th' e).log ++ rest = .set m :: m.body (s.after i th' e).onExit ∧
      ∀ x ∈ (s.after i th' e).log, x.source = .method m → x.thread = j := by
  rw [State.after_threads hth] at hj
  by_cases hij : i = j
  · subst hij
    rw [if_pos rfl, Option.some.injEq] at hj
    subst hj
    simp only [State.after_log, State.after_onExit, methodLog_append]
    rcases hi.step_method hth h m with ⟨-, -, -, hno⟩ | ⟨hf, he, hth'⟩ |
        ⟨eff, rest', hm, he, -, hth'⟩
    · exact absurd hrun (hno rest)
    · rw [hth', Option.some.injEq, Prod.mk.injEq, MethodPc.run.injEq] at hrun
      obtain ⟨-, rfl⟩ := hrun
      subst he
      rw [hi.methodLog_of_clear hf]
      exact ⟨by simp, by simp, hi.after_thread_of_method hth (.inl ⟨hf, rfl⟩)⟩
    · rw [hth', Option.some.injEq, Prod.mk.injEq, MethodPc.run.injEq] at hrun
      obtain ⟨-, rfl⟩ := hrun
      subst he
      obtain ⟨hne, happ, -⟩ := hi.running m i th _ hth hm
      exact ⟨List.append_ne_nil_of_left_ne_nil hne _, by simpa using happ,
        hi.after_thread_of_method hth (.inr ⟨eff, _, hm, rfl⟩)⟩
  · rw [if_neg hij] at hj
    obtain ⟨hne, happ, hall⟩ := hi.running m j thj rest hj hrun
    have hlog : methodLog m (entries i e) = [] := by
      rcases hi.step_method hth h m with ⟨hlog, -⟩ | ⟨hf, -⟩ | ⟨eff, rest', hm, -⟩
      · exact hlog
      · exact absurd (hi.methodLog_of_clear hf) hne
      · obtain ⟨x, hx, hxm⟩ := exists_of_methodLog_ne_nil hne
        exact absurd (((hi.running m i th _ hth hm).2.2 x hx hxm).symm.trans (hall x hx hxm)) hij
    simp only [State.after_log, State.after_onExit, methodLog_append, hlog, List.append_nil]
    exact ⟨hne, happ, fun x hx hxm => (List.mem_append.mp hx).elim (fun hx => hall x hx hxm)
      fun hx => absurd hxm (methodLog_eq_nil.mp hlog x hx)⟩

theorem Inv.after_budget (m : Method) (k : Kind) (t : Nat) (tht : Thread) (hk : m.stops k = true)
    (hf' : (s.after i th' e).flags.get m = true) (ht : (s.after i th' e).threads[t]? = some tht) :
    countSince m k t (s.after i th' e).log + tht.budget m k ≤ 1 := by
  rw [State.after_threads hth] at ht
  rw [State.after_log, countSince]
  cases hf : s.flags.get m
  · -- the step is the swap that sets the flag
    rcases hi.step_method hth h m with ⟨-, -, hflag, -⟩ | ⟨-, rfl, -⟩ | ⟨eff, rest, hm, -⟩
    · rw [State.after_flags, hflag, hf] at hf'
      cases hf'
    · rw [since_append_of_not_mem (hi.not_set hf)]
      simpa [since, entries, IsCall, Source.isMethod] using tht.budget_le_one m k
    · exact absurd ((hi.flag_iff m).2 (hi.running m i th _ hth hm).1) (by simp [hf])
  · rw [since_append_of_mem (hi.exists_set hf), List.countP_append, countP_entries]
    by_cases hit : i = t
    · subst hit
      rw [if_pos rfl, Option.some.injEq] at ht
      rw [if_pos rfl]
      subst ht
      have hold := hi.budget m k i th hk hf hth
      have hstep := th.budget_step s.onExit s.flags hk hf h
      rw [countSince] at hold
      omega
    · rw [if_neg hit] at ht
      rw [if_neg hit, Nat.add_zero]
      exact hi.budget m k t tht hk hf ht

omit hi hth h

/-- The invariant holds at the start, with the loop's flags clear and no call made. -/
theorem init_inv (onExit : Bool) (roles : List Role) : Inv (State.init onExit roles) where
  log_thread := nofun
  set_source := fun _ _ => nofun
  flag_iff m := by cases m <;> simp [State.init, Flags.get, methodLog]
  in_order m := by simp [State.init, methodLog]
  owner := fun _ _ => nofun
  running m j th rest hth hm := by
    simp only [State.init, List.getElem?_map, Option.map_eq_some'] at hth
    obtain ⟨r, -, rfl⟩ := hth
    cases r <;> cases hm
  budget m k t th hk hf := by cases m <;> cases hf

end Step

/-- The invariant is kept by every step of every goroutine. -/
theorem Inv.step {s s' : State} {a : Action} (hi : Inv s) (h : s.step a = some s') : Inv s' := by
  obtain ⟨th, th', e, hth, hst, rfl⟩ := State.step_eq_some h
  exact ⟨hi.after_log_thread hth, hi.after_set_source hth hst, hi.after_flag_iff hth hst,
    hi.after_in_order hth hst, hi.after_owner hth hst, hi.after_running hth hst,
    hi.after_budget hth hst⟩

/-- Each step keeps whether `onExit` is set. -/
theorem State.step_onExit {s s' : State} {a : Action} (h : s.step a = some s') :
    s'.onExit = s.onExit := by
  obtain ⟨th, th', e, -, -, rfl⟩ := State.step_eq_some h
  rfl

theorem run_preserves {P : State → Prop} (hstep : ∀ s a s', P s → s.step a = some s' → P s')
    {s s' : State} {acts : List Action} (hs : P s) (h : run s acts = some s') : P s' := by
  induction acts generalizing s with
  | nil => cases h; exact hs
  | cons a acts ih =>
    obtain ⟨s₁, h₁, h⟩ := Option.bind_eq_some.mp h
    exact ih (hstep s a s₁ hs h₁) h

/-- Every state a run reaches from a new loop satisfies the invariant. -/
theorem run_inv {onExit : Bool} {roles : List Role} {acts : List Action} {s : State}
    (h : run (State.init onExit roles) acts = some s) : Inv s ∧ s.onExit = onExit :=
  run_preserves (P := fun s => Inv s ∧ s.onExit = onExit)
    (fun _ _ _ hs h => ⟨hs.1.step h, (State.step_onExit h).trans hs.2⟩) ⟨init_inv _ _, rfl⟩ h

/-! ## Over every interleaving -/

/-- Over every interleaving of the loops, `Write` and outside calls of `Exit`, `CloseWrite`
and `CloseRead`, each of the three methods runs its body at most once: what it called is its
swap followed by the start of its body, in order, and one goroutine made all of it. -/
theorem methods_run_once {onExit : Bool} {roles : List Role} {acts : List Action} {s : State}
    (h : run (State.init onExit roles) acts = some s) (m : Method) :
    methodLog m s.log <+: .set m :: m.body onExit ∧
      ∀ x ∈ s.log, ∀ y ∈ s.log, x.source = .method m → y.source = .method m →
        x.thread = y.thread := by
  obtain ⟨hi, rfl⟩ := run_inv h
  exact ⟨hi.in_order m, hi.owner m⟩

/-- `LoopRead` finds the connection closed and calls `Exit` while another goroutine calls it
too: the other goroutine's swap wins, and `LoopRead`'s fails and returns. -/
theorem methods_run_once_two_exits :
    ∃ s, run (State.init false [.loopRead, .call .exit])
        [⟨0, none⟩, ⟨0, none⟩, ⟨0, some (.request .closed)⟩, ⟨1, none⟩, ⟨0, none⟩, ⟨1, none⟩,
          ⟨1, none⟩, ⟨1, none⟩, ⟨1, none⟩] = some s ∧
      methodLog .exit s.log = [.set .exit, .flush, .close, .closeOut] ∧
      methodLog .exit s.log <+: .set .exit :: Method.body false .exit ∧
      ∀ x ∈ s.log, ∀ y ∈ s.log, x.source = .method .exit → y.source = .method .exit →
        x.thread = y.thread := by
  obtain ⟨s, h⟩ : ∃ s, run (State.init false [.loopRead, .call .exit])
      [⟨0, none⟩, ⟨0, none⟩, ⟨0, some (.request .closed)⟩, ⟨1, none⟩, ⟨0, none⟩, ⟨1, none⟩,
        ⟨1, none⟩, ⟨1, none⟩, ⟨1, none⟩] = some s := ⟨_, rfl⟩
  have hlog : methodLog .exit s.log = [.set .exit, .flush, .close, .closeOut] := by
    cases h
    rfl
  exact ⟨s, h, hlog, methods_run_once h .exit⟩

/-- Once a closing method has set its flag, each goroutine makes at most one more call of
each kind the flag stops: the one it had decided on before it last read the flag. -/
theorem winds_down {onExit : Bool} {roles : List Role} {acts : List Action} {s : State}
    (h : run (State.init onExit roles) acts = some s) {m : Method} {k : Kind}
    (hk : m.stops k = true) (t : Nat) : countSince m k t s.log ≤ 1 := by
  obtain ⟨hi, -⟩ := run_inv h
  cases hf : s.flags.get m
  · have hnil : since m s.log = [] := by simpa [since] using since_append_of_not_mem (hi.not_set hf) []
    simp [countSince, hnil]
  · by_cases ht : t < s.threads.length
    · have := hi.budget m k t _ hk hf (List.getElem?_eq_getElem ht)
      omega
    · refine le_of_eq_of_le (List.countP_eq_zero.mpr fun x hx hxt => ht ?_) (Nat.zero_le 1)
      have hx' := hi.log_thread x ((List.dropWhile_suffix _).subset hx)
      simp only [Bool.and_eq_true, beq_iff_eq] at hxt
      exact hxt.1 ▸ hx'

/-- `Exit` sets `closed` while `LoopRead` waits in `ReadMsg`: the request it then reads is
still answered, with one `ReadMsg` and one `Enqueue` after the flag, and the loop ends. -/
theorem winds_down_read_after_exit :
    ∃ s, run (State.init true [.loopRead, .loopWrite, .call .exit])
        [⟨0, none⟩, ⟨0, none⟩, ⟨2, none⟩, ⟨2, none⟩, ⟨2, none⟩, ⟨2, none⟩, ⟨2, none⟩, ⟨2, none⟩,
          ⟨0, some (.request (.msg (.encoded [1])))⟩, ⟨0, none⟩, ⟨0, none⟩, ⟨0, none⟩,
          ⟨1, none⟩] = some s ∧
      countSince .exit .readMsg 0 s.log = 1 ∧ countSince .exit .enqueue 0 s.log = 1 ∧
      countSince .exit .enqueue 0 s.log ≤ 1 := by
  obtain ⟨s, h⟩ : ∃ s, run (State.init true [.loopRead, .loopWrite, .call .exit])
      [⟨0, none⟩, ⟨0, none⟩, ⟨2, none⟩, ⟨2, none⟩, ⟨2, none⟩, ⟨2, none⟩, ⟨2, none⟩, ⟨2, none⟩,
        ⟨0, some (.request (.msg (.encoded [1])))⟩, ⟨0, none⟩, ⟨0, none⟩, ⟨0, none⟩,
        ⟨1, none⟩] = some s := ⟨_, rfl⟩
  have hcount : countSince .exit .readMsg 0 s.log = 1 ∧ countSince .exit .enqueue 0 s.log = 1 := by
    cases h
    exact ⟨rfl, rfl⟩
  exact ⟨s, h, hcount.1, hcount.2, winds_down h (show Method.exit.stops .enqueue = true from rfl) 0⟩

end Baudtime.Tcp.ReadWriteLoop
