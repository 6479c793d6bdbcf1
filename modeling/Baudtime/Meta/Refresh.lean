import Baudtime.Meta.Cluster

/-!
# Concurrent refreshes of the cluster view

`RefreshCluster` coalesces concurrent calls. A call first swaps the `refreshing` flag from
`0` to `1`; if the swap fails it returns `nil` at once, another call being under way. The
call that wins reads the node records with `GetNodes`, builds the map, publishes it with
`StorePointer`, and clears the flag in a deferred call on its way out; an error of
`GetNodes` is returned, the flag cleared all the same.

The model interleaves any number of calls with changes of the node records in the store.
A step is a new call, a change of the node set, or one call's next atomic step: its CAS,
its `GetNodes`, its `StorePointer` or its return. The published map is `refreshCluster` of
the node list it was built from, and the model keeps that list. Ghost state records the
time, as the number of steps taken, each call's invocation time, each publish with its
publisher and the time of the read it was built from, and, for a call that lost the CAS,
the call that held the flag.

The flag is a lock: it is set exactly while one call is between its CAS and its return
(`RefreshInv`). A call that wins returns `nil` only after publishing a view read after its
invocation. A call that loses returns `nil` with no such view: when the holder of the flag
read the nodes before the loser was invoked, a node added in between is missing from the
view once both have returned (`refresh_loser_returns_stale`).

## Main definitions

* `Pc`, `Call`, `Publish`, `World`, `Action`
* `step`, `run`
* `Holds`, `CallInv`, `RefreshInv` — the invariant
* `FreshReturns` — every `nil` return comes after a view read since the call's invocation

## Main results

* `step_refreshInv`, `run_refreshInv`, `init_refreshInv`
* `refresh_returns_nil_spec` — what a `nil` return guarantees, on either path
* `refresh_loser_returns_stale`
-/

namespace Baudtime.Meta.Refresh

/-- Where a call of `RefreshCluster` stands. -/
inductive Pc
  /-- Invoked, before `CompareAndSwapUint32(&m.refreshing, 0, 1)`. -/
  | start
  /-- Won the CAS, before `GetNodes`. -/
  | won
  /-- `GetNodes` returned `nodes`; the read took place at time `readAt`. -/
  | read (nodes : List Node) (readAt : Nat)
  /-- After `StorePointer`, before the deferred `StoreUint32(&m.refreshing, 0)`. -/
  | published
  /-- Returned at time `returnedAt` after winning the CAS: `nil` (`ok`), or the error of
  `GetNodes`. -/
  | returned (ok : Bool) (returnedAt : Nat)
  /-- Lost the CAS and returned `nil` at time `returnedAt`; `holder` is the call that held
  the flag then (ghost). -/
  | lost (holder : Option Nat) (returnedAt : Nat)
  deriving DecidableEq, Repr

/-- Between the CAS and the return: the call holds the flag. -/
def Pc.holding : Pc → Bool
  | .won | .read _ _ | .published => true
  | _ => false

/-- The time the call returned `nil`, if it has. -/
def Pc.returnedNil : Pc → Option Nat
  | .returned true t | .lost _ t => some t
  | _ => none

/-- A call of `RefreshCluster`, with the time it was invoked (ghost). -/
structure Call where
  invokedAt : Nat
  pc : Pc
  deriving DecidableEq, Repr

/-- A publish of the view (ghost): by which call, built from a read at which time, and
published at which time. -/
structure Publish where
  caller : Nat
  readAt : Nat
  publishedAt : Nat
  deriving DecidableEq, Repr

/-- The state of the process: the store's node records, the `meta` object, the calls, and
ghost state. -/
structure World where
  /-- The node records in the store, what `GetNodes` returns. -/
  nodes : List Node
  /-- `m.refreshing`. -/
  refreshing : Bool
  /-- The node list the published map was built from: `m.shards` is
  `refreshCluster shards`. -/
  shards : List Node
  calls : List Call
  /-- The number of steps taken (ghost). -/
  clock : Nat
  /-- Every publish so far (ghost). -/
  publishes : List Publish
  deriving DecidableEq, Repr

/-- A step of the process. -/
inductive Action
  /-- A goroutine calls `RefreshCluster`. -/
  | invoke
  /-- The node records in the store change. -/
  | change (nodes : List Node)
  /-- Call `i` swaps the flag. -/
  | cas (i : Nat)
  /-- Call `i`'s `GetNodes` returns the nodes, or an error. -/
  | getNodes (i : Nat) (ok : Bool)
  /-- Call `i` publishes its map. -/
  | publish (i : Nat)
  /-- Call `i` clears the flag and returns `nil`. -/
  | ret (i : Nat)
  deriving DecidableEq, Repr

namespace World

/-- No call yet and the flag clear, with the map built from `shards` published. -/
def init (nodes shards : List Node) : World where
  nodes := nodes
  refreshing := false
  shards := shards
  calls := []
  clock := 0
  publishes := []

/-- The call that holds the flag, if any (ghost). -/
def holder (w : World) : Option Nat := w.calls.findIdx? (·.pc.holding)

/-- Call `i`, read as `c`, moves to `pc`. -/
def setPc (w : World) (i : Nat) (c : Call) (pc : Pc) : World :=
  { w with calls := w.calls.set i { c with pc := pc } }

/-- One step later. -/
def tick (w : World) : World := { w with clock := w.clock + 1 }

end World

/-- One step of the process; `none` when it cannot be taken. -/
def step (w : World) : Action → Option World
  | .invoke => some { w with calls := w.calls ++ [Call.mk w.clock .start] }.tick
  | .change nodes => some { w with nodes := nodes }.tick
  | .cas i => do
    let c ← w.calls[i]?
    match c.pc with
    | .start =>
      if w.refreshing then some (w.setPc i c (.lost w.holder w.clock)).tick
      else some ({ w with refreshing := true }.setPc i c .won).tick
    | _ => none
  | .getNodes i ok => do
    let c ← w.calls[i]?
    match c.pc with
    | .won =>
      if ok then some (w.setPc i c (.read w.nodes w.clock)).tick
      else some ({ w with refreshing := false }.setPc i c (.returned false w.clock)).tick
    | _ => none
  | .publish i => do
    let c ← w.calls[i]?
    match c.pc with
    | .read nodes readAt =>
      some ({ w with
        shards := nodes
        publishes := w.publishes ++ [Publish.mk i readAt w.clock] }.setPc i c .published).tick
    | _ => none
  | .ret i => do
    let c ← w.calls[i]?
    match c.pc with
    | .published => some ({ w with refreshing := false }.setPc i c (.returned true w.clock)).tick
    | _ => none

/-- A run of the process from `w`; `none` when some step cannot be taken. -/
def run (w : World) (acts : List Action) : Option World := acts.foldlM step w

/-- Every call that returned `nil` did so after some view was published that was built
from a read of the nodes made no earlier than the call's invocation. -/
def FreshReturns (w : World) : Prop :=
  ∀ c ∈ w.calls, ∀ t ∈ c.pc.returnedNil,
    ∃ p ∈ w.publishes, c.invokedAt ≤ p.readAt ∧ p.publishedAt ≤ t

instance (w : World) : Decidable (FreshReturns w) :=
  inferInstanceAs (Decidable (∀ c ∈ w.calls, ∀ t ∈ c.pc.returnedNil,
    ∃ p ∈ w.publishes, c.invokedAt ≤ p.readAt ∧ p.publishedAt ≤ t))

/-- A call whose rival held the flag while it had read the nodes before the call was
invoked returns `nil` at once; after both returned, a node added in between has no shard
in the view. -/
theorem refresh_loser_returns_stale :
    let m : Node := ⟨"s1", "10.0.0.1", "8121", "", "", "z1", 0⟩
    let a : Node := ⟨"s2", "10.0.0.2", "8121", "", "", "z1", 0⟩
    ∃ w, run (World.init [m] [m])
        [.invoke, .cas 0, .getNodes 0 true, .change [m, a], .invoke, .cas 1, .publish 0,
          .ret 0] = some w ∧
      w.calls.map (·.pc.returnedNil) = [some 7, some 5] ∧ ¬ FreshReturns w ∧
      a ∈ w.nodes ∧ getShard (refreshCluster w.shards) a.shardID = none := by
  intro m a
  exact ⟨_, rfl, by decide⟩

/-! ## The flag is a lock -/

namespace World

variable (w : World) (i : Nat) (c : Call) (pc : Pc)

@[simp] theorem setPc_calls : (w.setPc i c pc).calls = w.calls.set i { c with pc := pc } := rfl
@[simp] theorem setPc_refreshing : (w.setPc i c pc).refreshing = w.refreshing := rfl
@[simp] theorem setPc_clock : (w.setPc i c pc).clock = w.clock := rfl
@[simp] theorem setPc_publishes : (w.setPc i c pc).publishes = w.publishes := rfl
@[simp] theorem tick_calls : w.tick.calls = w.calls := rfl
@[simp] theorem tick_refreshing : w.tick.refreshing = w.refreshing := rfl
@[simp] theorem tick_clock : w.tick.clock = w.clock + 1 := rfl
@[simp] theorem tick_publishes : w.tick.publishes = w.publishes := rfl

end World

/-- Call `j` holds the flag. -/
def Holds (w : World) (j : Nat) : Prop := ∃ c, w.calls[j]? = some c ∧ c.pc.holding = true

/-- What the ghost state records of call `j`, by where it stands: a read made after its
invocation, the publish of that read, the publish it returned after, or another call
holding the flag when it lost the CAS. -/
def CallInv (w : World) (j : Nat) (c : Call) : Prop :=
  c.invokedAt ≤ w.clock ∧
    match c.pc with
    | .read _ readAt => c.invokedAt ≤ readAt
    | .published => ∃ p ∈ w.publishes, p.caller = j ∧ c.invokedAt ≤ p.readAt
    | .returned true t =>
      ∃ p ∈ w.publishes, p.caller = j ∧ c.invokedAt ≤ p.readAt ∧ p.publishedAt ≤ t
    | .lost holder _ => ∃ k, holder = some k ∧ k ≠ j
    | _ => True

/-- The invariant: the flag is set exactly when a call holds it, at most one call does,
every publish is in the past, and every call's ghost state is as `CallInv` says. -/
structure RefreshInv (w : World) : Prop where
  flag_iff : w.refreshing = true ↔ ∃ j, Holds w j
  holds_unique : ∀ j k, Holds w j → Holds w k → j = k
  publishes_le : ∀ p ∈ w.publishes, p.publishedAt ≤ w.clock
  calls_inv : ∀ j c, w.calls[j]? = some c → CallInv w j c

/-- `CallInv` survives into a later state that keeps every publish. -/
theorem CallInv.mono {w w' : World} {j : Nat} {c : Call} (h : CallInv w j c)
    (hclock : w.clock ≤ w'.clock) (hpub : ∀ p ∈ w.publishes, p ∈ w'.publishes) :
    CallInv w' j c := by
  obtain ⟨hle, h⟩ := h
  refine ⟨hle.trans hclock, ?_⟩
  rcases c with ⟨_, _ | _ | _ | _ | ⟨_ | _, _⟩ | _⟩ <;> try exact h
  · obtain ⟨p, hp, h⟩ := h; exact ⟨p, hpub p hp, h⟩
  · obtain ⟨p, hp, h⟩ := h; exact ⟨p, hpub p hp, h⟩

/-- Who holds the flag after call `i` moves to `pc`. -/
theorem holds_set {w w' : World} {i j : Nat} {c : Call} (hc : w.calls[i]? = some c) {pc : Pc}
    (hcalls : w'.calls = w.calls.set i { c with pc := pc }) :
    Holds w' j ↔ if j = i then pc.holding = true else Holds w j := by
  unfold Holds
  rw [hcalls, getElem?_set_of_getElem? hc]
  split
  · simp
  · rfl

/-- When a call holds the flag, `holder` names one that does. -/
theorem holder_of_holds {w : World} {j : Nat} (h : Holds w j) :
    ∃ k, w.holder = some k ∧ Holds w k := by
  obtain ⟨c, hc, hh⟩ := h
  cases hk : w.holder with
  | none =>
    have := List.findIdx?_eq_none_iff.mp hk c (List.mem_iff_getElem?.mpr ⟨j, hc⟩)
    rw [hh] at this; cases this
  | some k =>
    obtain ⟨hlt, hp, -⟩ := List.findIdx?_eq_some_iff_getElem.mp hk
    exact ⟨k, rfl, _, List.getElem?_eq_getElem hlt, hp⟩

/-- A move between two `pc`s that agree on holding the flag, with the flag kept, keeps
the holders. -/
theorem holds_of_same {w' : World} {i : Nat} {c : Call} (hc : w.calls[i]? = some c) {pc : Pc}
    (hcalls : w'.calls = w.calls.set i { c with pc := pc }) (hsame : pc.holding = c.pc.holding)
    (j : Nat) : Holds w' j ↔ Holds w j := by
  rw [holds_set hc hcalls]
  split
  · subst j; rw [hsame]; exact ⟨fun h => ⟨c, hc, h⟩, fun ⟨d, hd, h⟩ => by rw [hc] at hd; cases hd; exact h⟩
  · rfl

namespace RefreshInv

variable {w : World} (hw : RefreshInv w)
include hw

/-- A step that moves call `i` to `pc`, one tick later, keeps the invariant when the flag
and its holders still agree, publishes are only added and in the past, and the moved
call's ghost state is right. -/
theorem move {w' : World} {i : Nat} {c : Call} (hc : w.calls[i]? = some c) {pc : Pc}
    (hcalls : w'.calls = w.calls.set i { c with pc := pc }) (hclock : w'.clock = w.clock + 1)
    (hpub : ∀ p ∈ w.publishes, p ∈ w'.publishes)
    (hpub' : ∀ p ∈ w'.publishes, p.publishedAt ≤ w'.clock)
    (hflag : w'.refreshing = true ↔ ∃ j, Holds w' j)
    (hunique : ∀ j k, Holds w' j → Holds w' k → j = k)
    (hcall : CallInv w' i { c with pc := pc }) : RefreshInv w' := by
  refine ⟨hflag, hunique, hpub', fun j d hd => ?_⟩
  rw [hcalls, getElem?_set_of_getElem? hc] at hd
  split at hd
  · cases hd; subst j; exact hcall
  · exact (hw.calls_inv j d hd).mono (by omega) hpub

/-- After the holder moves to a `pc` that releases the flag, nobody holds it. -/
theorem not_holds_of_release {w' : World} {i : Nat} {c : Call} (hc : w.calls[i]? = some c)
    (hheld : c.pc.holding = true) {pc : Pc} (hcalls : w'.calls = w.calls.set i { c with pc := pc })
    (hrel : pc.holding = false) (j : Nat) : ¬ Holds w' j := by
  rw [holds_set hc hcalls]
  split
  · rw [hrel]; exact Bool.false_ne_true
  · exact fun h => ‹¬j = i› (hw.holds_unique j i h ⟨c, hc, hheld⟩)

theorem publishes_le_succ : ∀ p ∈ w.publishes, p.publishedAt ≤ w.clock + 1 :=
  fun p hp => Nat.le_succ_of_le (hw.publishes_le p hp)

/-- A step that moves call `i` to a `pc` that agrees with its old one on holding the
flag, and keeps the flag, keeps the invariant when `move`'s other conditions hold. -/
theorem keep {w' : World} {i : Nat} {c : Call} (hc : w.calls[i]? = some c) {pc : Pc}
    (hcalls : w'.calls = w.calls.set i { c with pc := pc }) (hclock : w'.clock = w.clock + 1)
    (hflag : w'.refreshing = w.refreshing) (hsame : pc.holding = c.pc.holding)
    (hpub : ∀ p ∈ w.publishes, p ∈ w'.publishes)
    (hpub' : ∀ p ∈ w'.publishes, p.publishedAt ≤ w'.clock)
    (hcall : CallInv w' i { c with pc := pc }) : RefreshInv w' := by
  have hholds := holds_of_same hc hcalls hsame
  refine hw.move hc hcalls hclock hpub hpub' ?_
    (fun j k hj hk => hw.holds_unique j k ((hholds j).mp hj) ((hholds k).mp hk)) hcall
  simp only [hholds, hflag]; exact hw.flag_iff

/-- The CAS of a call at `start` with the flag clear: the call takes the flag. -/
theorem casWin {i : Nat} {c : Call} (hc : w.calls[i]? = some c) (hfree : w.refreshing = false) :
    RefreshInv ({ w with refreshing := true }.setPc i c .won).tick := by
  have hholds : ∀ j, Holds ({ w with refreshing := true }.setPc i c .won).tick j ↔ j = i := by
    intro j
    rw [holds_set hc rfl]
    split
    · exact iff_of_true rfl ‹_›
    · refine iff_of_false (fun h => ?_) ‹_›
      rw [hw.flag_iff.mpr ⟨j, h⟩] at hfree; cases hfree
  refine hw.move hc rfl rfl (fun _ => id) hw.publishes_le_succ ?_
    (fun j k hj hk => ((hholds j).mp hj).trans ((hholds k).mp hk).symm)
    ⟨Nat.le_succ_of_le (hw.calls_inv i c hc).1, trivial⟩
  simp [hholds]

/-- The CAS of a call at `start` with the flag set: the call returns `nil` at once. -/
theorem casLose {i : Nat} {c : Call} (hc : w.calls[i]? = some c) (hpc : c.pc = .start)
    (hbusy : w.refreshing = true) : RefreshInv (w.setPc i c (.lost w.holder w.clock)).tick := by
  obtain ⟨j, hj⟩ := hw.flag_iff.mp hbusy
  obtain ⟨k, hk, d, hd, hh⟩ := holder_of_holds hj
  have hki : k ≠ i := by
    rintro rfl
    rw [hc] at hd; cases hd; rw [hpc] at hh; cases hh
  exact hw.keep hc rfl rfl rfl (by rw [hpc]; rfl) (fun _ => id) hw.publishes_le_succ
    ⟨Nat.le_succ_of_le (hw.calls_inv i c hc).1, k, hk, hki⟩

/-- `GetNodes` returns the node records of the moment. -/
theorem readOk {i : Nat} {c : Call} (hc : w.calls[i]? = some c) (hpc : c.pc = .won) :
    RefreshInv (w.setPc i c (.read w.nodes w.clock)).tick :=
  have hle := (hw.calls_inv i c hc).1
  hw.keep hc rfl rfl rfl (by rw [hpc]; rfl) (fun _ => id) hw.publishes_le_succ
    ⟨Nat.le_succ_of_le hle, hle⟩

/-- The holder of the flag releases it, moving to `pc`: the flag is clear and nobody holds
it. -/
theorem release {i : Nat} {c : Call} (hc : w.calls[i]? = some c) (hheld : c.pc.holding = true)
    {pc : Pc} (hrel : pc.holding = false)
    (hcall : CallInv ({ w with refreshing := false }.setPc i c pc).tick i { c with pc := pc }) :
    RefreshInv ({ w with refreshing := false }.setPc i c pc).tick := by
  have hnone := hw.not_holds_of_release hc hheld
    (show ({ w with refreshing := false }.setPc i c pc).tick.calls = _ from rfl) hrel
  exact hw.move hc rfl rfl (fun _ => id) hw.publishes_le_succ
    (iff_of_false Bool.false_ne_true fun ⟨j, hj⟩ => hnone j hj)
    (fun j _ hj => absurd hj (hnone j)) hcall

/-- `StorePointer` of the map built from the nodes read. -/
theorem publish {i : Nat} {c : Call} {nodes : List Node} {readAt : Nat}
    (hc : w.calls[i]? = some c) (hpc : c.pc = .read nodes readAt) :
    RefreshInv ({ w with
      shards := nodes
      publishes := w.publishes ++ [Publish.mk i readAt w.clock] }.setPc i c .published).tick := by
  obtain ⟨hle, hread⟩ := hw.calls_inv i c hc
  rw [hpc] at hread
  refine hw.keep hc rfl rfl rfl (by rw [hpc]; rfl) (fun _ hp => List.mem_append_left _ hp)
    (fun p hp => ?_)
    ⟨Nat.le_succ_of_le hle, _, List.mem_append_right _ (List.mem_singleton_self _), rfl, hread⟩
  rcases List.mem_append.mp hp with hp | hp
  · exact hw.publishes_le_succ p hp
  · rw [List.mem_singleton.mp hp]; exact Nat.le_succ _

/-- A new call. -/
theorem invoke : RefreshInv { w with calls := w.calls ++ [Call.mk w.clock .start] }.tick := by
  have hcases : ∀ {j : Nat} {d : Call}, (w.calls ++ [Call.mk w.clock .start])[j]? = some d →
      w.calls[j]? = some d ∨ d = Call.mk w.clock .start := by
    intro j d hd
    by_cases hj : j < w.calls.length
    · exact .inl (by rwa [List.getElem?_append_left hj] at hd)
    · rw [List.getElem?_append_right (by omega)] at hd
      exact .inr (List.mem_singleton.mp (List.mem_iff_getElem?.mpr ⟨_, hd⟩))
  have hholds : ∀ j, Holds { w with calls := w.calls ++ [Call.mk w.clock .start] }.tick j ↔
      Holds w j := by
    intro j
    refine ⟨fun ⟨d, hd, hh⟩ => ?_, fun ⟨d, hd, hh⟩ => ⟨d, ?_, hh⟩⟩
    · rcases hcases hd with hd | rfl
      · exact ⟨d, hd, hh⟩
      · cases hh
    · exact List.getElem?_append_left (List.getElem?_eq_some_iff.mp hd).1 ▸ hd
  refine ⟨?_, fun j k hj hk => hw.holds_unique j k ((hholds j).mp hj) ((hholds k).mp hk),
    hw.publishes_le_succ, fun j d hd => ?_⟩
  · simp only [hholds]; exact hw.flag_iff
  · rcases hcases hd with hd | rfl
    · exact (hw.calls_inv j d hd).mono (Nat.le_succ _) fun _ => id
    · exact ⟨Nat.le_succ _, trivial⟩

/-- A change of the node records in the store. -/
theorem change (nodes : List Node) : RefreshInv { w with nodes := nodes }.tick :=
  ⟨hw.flag_iff, hw.holds_unique, hw.publishes_le_succ,
    fun j d hd => (hw.calls_inv j d hd).mono (Nat.le_succ _) fun _ => id⟩

end RefreshInv

/-! ## Every run -/

/-- Every step keeps the invariant. -/
theorem step_refreshInv {w w' : World} {act : Action} (hw : RefreshInv w)
    (h : step w act = some w') : RefreshInv w' := by
  cases act with
  | invoke => cases h; exact hw.invoke
  | change nodes => cases h; exact hw.change nodes
  | cas i =>
    obtain ⟨c, hc, h⟩ := Option.bind_eq_some.mp h
    split at h
    · rename_i hpc
      split at h <;> cases h
      · exact hw.casLose hc hpc ‹_›
      · exact hw.casWin hc (by simpa using ‹¬w.refreshing = true›)
    · cases h
  | getNodes i ok =>
    obtain ⟨c, hc, h⟩ := Option.bind_eq_some.mp h
    split at h
    · rename_i hpc
      split at h <;> cases h
      · exact hw.readOk hc hpc
      · exact hw.release hc (by rw [hpc]; rfl) rfl
          ⟨Nat.le_succ_of_le (hw.calls_inv i c hc).1, trivial⟩
    · cases h
  | publish i =>
    obtain ⟨c, hc, h⟩ := Option.bind_eq_some.mp h
    split at h
    · cases h; exact hw.publish hc ‹_›
    · cases h
  | ret i =>
    obtain ⟨c, hc, h⟩ := Option.bind_eq_some.mp h
    split at h
    · rename_i hpc
      cases h
      obtain ⟨hle, hinv⟩ := hw.calls_inv i c hc
      rw [hpc] at hinv
      obtain ⟨p, hp, hcaller, hread⟩ := hinv
      exact hw.release hc (by rw [hpc]; rfl) rfl
          ⟨Nat.le_succ_of_le hle, p, hp, hcaller, hread, hw.publishes_le p hp⟩
    · cases h

theorem run_refreshInv {w w' : World} {acts : List Action} (hw : RefreshInv w)
    (h : run w acts = some w') : RefreshInv w' := by
  induction acts generalizing w with
  | nil => cases h; exact hw
  | cons act acts ih =>
    obtain ⟨w₁, h₁, h⟩ := Option.bind_eq_some.mp h
    exact ih (step_refreshInv hw h₁) h

theorem init_refreshInv (nodes shards : List Node) : RefreshInv (World.init nodes shards) where
  flag_iff := iff_of_false Bool.false_ne_true fun ⟨_, _, hc, _⟩ => by cases hc
  holds_unique _ _ h := by obtain ⟨_, hc, _⟩ := h; cases hc
  publishes_le _ hp := by cases hp
  calls_inv _ _ hc := by cases hc

/-- Over every run: at most one call holds the `refreshing` flag at a time, and a call
that returned `nil` either won the CAS and, before returning, published a view read after
its invocation, or lost the CAS while another call held the flag. -/
theorem refresh_returns_nil_spec {nodes shards : List Node} {acts : List Action} {w : World}
    (h : run (World.init nodes shards) acts = some w) :
    (∀ j k, Holds w j → Holds w k → j = k) ∧
    ∀ i c, w.calls[i]? = some c →
      (∀ t, c.pc = .returned true t →
        ∃ p ∈ w.publishes, p.caller = i ∧ c.invokedAt ≤ p.readAt ∧ p.publishedAt ≤ t) ∧
      (∀ holder t, c.pc = .lost holder t → ∃ j, holder = some j ∧ j ≠ i) := by
  have hw := run_refreshInv (init_refreshInv nodes shards) h
  refine ⟨hw.holds_unique, fun i c hc => ⟨fun t hpc => ?_, fun holder t hpc => ?_⟩⟩ <;>
    have hinv := (hw.calls_inv i c hc).2 <;> rw [hpc] at hinv <;> exact hinv

/-- Two calls: the first wins the CAS and returns after its publish, the second loses
while the first holds the flag. -/
theorem refresh_returns_nil_two_calls :
    let m : Node := ⟨"s1", "10.0.0.1", "8121", "", "", "z1", 0⟩
    ∃ w, run (World.init [m] [m])
        [.invoke, .invoke, .cas 0, .cas 1, .getNodes 0 true, .publish 0, .ret 0] = some w ∧
      w.calls.map (·.pc.returnedNil) = [some 6, some 3] ∧
      (∀ j k, Holds w j → Holds w k → j = k) ∧
      ∀ i c, w.calls[i]? = some c →
        (∀ t, c.pc = .returned true t →
          ∃ p ∈ w.publishes, p.caller = i ∧ c.invokedAt ≤ p.readAt ∧ p.publishedAt ≤ t) ∧
        (∀ holder t, c.pc = .lost holder t → ∃ j, holder = some j ∧ j ≠ i) := by
  intro m
  obtain ⟨w, h⟩ : ∃ w, run (World.init [m] [m])
      [.invoke, .invoke, .cas 0, .cas 1, .getNodes 0 true, .publish 0, .ret 0] = some w :=
    ⟨_, rfl⟩
  have hcalls : w.calls.map (·.pc.returnedNil) = [some 6, some 3] := by
    cases h; rfl
  exact ⟨w, h, hcalls, refresh_returns_nil_spec h⟩

end Baudtime.Meta.Refresh
