import Baudtime.Meta.Failover

/-!
# Failover across gateways

Every gateway keeps its own cluster view, published by `RefreshCluster`, and runs its own
watch loop over the node keys of the shared store. For each watch response the loop calls
`FailoverIfNeeded(prevNode)` on every `DELETE` of a node key, one call after the other,
and then `RefreshCluster`. A call of `FailoverIfNeeded` checks the shard, the node's
heartbeat and the shard's `failovering` latch, waits for the store-wide `failover` mutex
and runs its callback under it: the callback re-reads the gateway's view, sends
`SlaveOfCommand{}` to the slave it chooses, waits for the reply, and calls
`RefreshCluster` before it returns.

The system is a state machine. A step is the store taking a `PUT` or losing a key, a
gateway receiving a watch response or its loop taking its next step, or one call of
`FailoverIfNeeded` taking its next step. The latch lives on the `Shard` object of the view
the call read, so it is named by the gateway, the view's generation and the shard ID; a
refresh publishes new objects, with the latch clear. The order in which `GetNodes` lists
the nodes is not fixed by the sources at hand: the store keeps them in the order they
first registered. Failed connections and writes, which make a callback return early, are
left out; a call of `FailoverIfNeeded` from outside the watch loop is the action `invoke`.

`mutexRun("failover", ...)` is declared outside the sources at hand; its mutex is
modelled from the spec, as one store-wide lock that a call takes before its callback and
releases when the callback returns. The invariant `MutexInv`, that the mutex is held
exactly by the call inside the callback, is what the proofs of progress build on. The
mutex does not make a master's loss promote one node: the guard of the callback reads the
gateway's own view, and a gateway whose loop is inside `FailoverIfNeeded` has not
refreshed it. When one watch response brings a gateway both a new slave's `PUT` and the
master's `DELETE`, that gateway chooses without the new slave, and two gateways promote
two different nodes.

## Main definitions

* `NodeEvent`, `FailoverPc`, `LoopPc`, `Gateway`, `World`, `Action`
* `failoverStep` — one step of a call of `FailoverIfNeeded`
* `watchStep` — one step of a gateway's watch loop
* `step`, `run`

## Main results

* `step_mutexInv`, `run_mutexInv` — the mutex is held exactly by the call inside the
  callback
* `failover_promotes_two_nodes` — two gateways promote two nodes for one master's loss
-/

namespace Baudtime.Meta.Gateways

/-- A node-key event, as a watch stream delivers it: a `PUT` of a node record, or a
`DELETE` with the previous record (`WithPrevKV`). -/
inductive NodeEvent
  | put (node : Node)
  | delete (prev : Node)
  deriving DecidableEq, Repr

/-- Where a call of `FailoverIfNeeded` stands. `gen` is the generation of the view it read
its `Shard` from: it holds the latch of that `Shard` object. -/
inductive FailoverPc
  /-- Before `GetShard`. -/
  | start
  /-- Holding the latch, waiting for the `failover` mutex. -/
  | lock (gen : Nat)
  /-- Holding the mutex, before the callback reads the view. -/
  | callback (gen : Nat)
  /-- Holding the mutex after sending `SlaveOfCommand{}`, before `RefreshCluster`. -/
  | refresh (gen : Nat)
  /-- Returned. -/
  | done
  deriving DecidableEq, Repr

/-- The call is inside the callback of `mutexRun("failover", ...)`. -/
def FailoverPc.inCallback : FailoverPc → Bool
  | .callback _ | .refresh _ => true
  | _ => false

/-- A call of `FailoverIfNeeded(node)` in gateway `gateway`. -/
structure FailoverCall where
  gateway : Nat
  node : Node
  pc : FailoverPc
  deriving DecidableEq, Repr

/-- Where the watch loop of a gateway stands in the node stream. -/
inductive LoopPc
  /-- Waiting for the next watch response. -/
  | idle
  /-- Going through `wresp.Events`; `events` are the ones left. -/
  | handling (events : List NodeEvent)
  /-- Inside `FailoverIfNeeded`, the call numbered `call`; `events` are the ones left. -/
  | failingOver (call : Nat) (events : List NodeEvent)
  deriving DecidableEq, Repr

/-- A gateway: its view and the view's generation, the node events its watch has not yet
delivered, and its watch loop. -/
structure Gateway where
  view : String → Option Shard
  gen : Nat
  stream : List NodeEvent
  loop : LoopPc

/-- `m.RefreshCluster()`: read the nodes of the store and publish a new view. -/
def Gateway.refreshCluster (gw : Gateway) (store : List Node) : Gateway :=
  { gw with view := Meta.refreshCluster store, gen := gw.gen + 1 }

/-- The gateways, the store and the `failover` mutex. -/
structure World where
  /-- The node records, as `GetNodes` lists them. -/
  store : List Node
  now : Int
  gateways : List Gateway
  /-- Every call of `FailoverIfNeeded` so far, numbered by position. -/
  calls : List FailoverCall
  /-- Modelled from the spec: the call holding the mutex of `mutexRun("failover", ...)`. -/
  mutex : Option Nat
  /-- The `Shard` objects whose `failovering` latch is set: gateway, generation, shard ID. -/
  latched : List (Nat × Nat × String)
  /-- Ghost: every `SlaveOfCommand{}` sent, with the gateway, the dead node and the target. -/
  sent : List (Nat × Node × Node)

/-- A step of the system. -/
inductive Action
  /-- A node writes its record (registers, heartbeats, or re-registers as a master). -/
  | put (node : Node)
  /-- The key of the node at `addr` disappears (its lease expired). -/
  | expire (addr : String × String)
  /-- Time passes. -/
  | advance (dt : Nat)
  /-- Gateway `g` receives a watch response of its next `k + 1` events. -/
  | receive (g k : Nat)
  /-- The watch loop of gateway `g` takes its next step. -/
  | watch (g : Nat)
  /-- Gateway `g` calls `FailoverIfNeeded(node)` from outside its watch loop. -/
  | invoke (g : Nat) (node : Node)
  /-- Call `i` of `FailoverIfNeeded` takes its next step. -/
  | failover (i : Nat)

/-- The store after a `PUT` of `n`: its key, `n`'s address, holds `n`. -/
def putNode (store : List Node) (n : Node) : List Node :=
  if store.any (·.addr = n.addr) then store.map fun m => if m.addr = n.addr then n else m
  else store ++ [n]

namespace World

/-- Every gateway's watch stream gets the event `e`. -/
def broadcast (w : World) (e : NodeEvent) : List Gateway :=
  w.gateways.map fun gw => { gw with stream := gw.stream ++ [e] }

/-- Replace gateway `g`. -/
def setGateway (w : World) (g : Nat) (gw : Gateway) : World :=
  { w with gateways := w.gateways.set g gw }

/-- Move call `i` to `pc`. -/
def setPc (w : World) (i : Nat) (c : FailoverCall) (pc : FailoverPc) : World :=
  { w with calls := w.calls.set i { c with pc := pc } }

/-- The callback of call `i` returns: `mutexRun` releases the mutex, and the deferred
`StoreUint32(&shard.failovering, 0)` clears the latch of the `Shard` object it set. -/
def release (w : World) (i : Nat) (c : FailoverCall) (gen : Nat) : World :=
  { w.setPc i c .done with
    mutex := none
    latched := w.latched.erase (c.gateway, gen, c.node.shardID) }

end World

variable (sessionExpireTTL : Int)

/-- One step of call `i` of `FailoverIfNeeded`; `none` when it waits for the mutex or has
returned. -/
def failoverStep (w : World) (i : Nat) : Option World := do
  let c ← w.calls[i]?
  let gw ← w.gateways[c.gateway]?
  match c.pc with
  | .start =>
    match getShard gw.view c.node.shardID with
    | none => some (w.setPc i c .done)
    | some _ =>
      if c.node.mayOnline sessionExpireTTL w.now ||
          w.latched.contains (c.gateway, gw.gen, c.node.shardID) then
        some (w.setPc i c .done)
      else
        some { w.setPc i c (.lock gw.gen) with
          latched := w.latched ++ [(c.gateway, gw.gen, c.node.shardID)] }
  | .lock gen =>
    if w.mutex = none then some { w.setPc i c (.callback gen) with mutex := some i } else none
  | .callback gen =>
    match failoverCallback gw.view c.node with
    | .ok (some chosen) =>
      some { w.setPc i c (.refresh gen) with sent := w.sent ++ [(c.gateway, c.node, chosen)] }
    | _ => some (w.release i c gen)
  | .refresh gen => some ((w.setGateway c.gateway (gw.refreshCluster w.store)).release i c gen)
  | .done => none

/-- One step of the watch loop of gateway `g`; `none` when it waits. -/
def watchStep (w : World) (g : Nat) : Option World := do
  let gw ← w.gateways[g]?
  match gw.loop with
  | .idle => none
  | .handling [] => some (w.setGateway g { gw.refreshCluster w.store with loop := .idle })
  | .handling (.put _ :: events) => some (w.setGateway g { gw with loop := .handling events })
  | .handling (.delete prev :: events) =>
    some { w.setGateway g { gw with loop := .failingOver w.calls.length events } with
      calls := w.calls ++ [⟨g, prev, .start⟩] }
  | .failingOver i events => do
    let c ← w.calls[i]?
    if c.pc = .done then some (w.setGateway g { gw with loop := .handling events }) else none

/-- One step of the system; `none` when it cannot be taken. -/
def step (w : World) : Action → Option World
  | .put n => some { w with store := putNode w.store n, gateways := w.broadcast (.put n) }
  | .expire addr => do
    let prev ← w.store.find? (·.addr = addr)
    some { w with
      store := w.store.filter (·.addr ≠ addr)
      gateways := w.broadcast (.delete prev) }
  | .advance dt => some { w with now := w.now + dt }
  | .receive g k => do
    let gw ← w.gateways[g]?
    if gw.loop = .idle ∧ gw.stream ≠ [] then
      some (w.setGateway g { gw with
        stream := gw.stream.drop (k + 1)
        loop := .handling (gw.stream.take (k + 1)) })
    else none
  | .watch g => watchStep w g
  | .invoke g node => do
    let _ ← w.gateways[g]?
    some { w with calls := w.calls ++ [⟨g, node, .start⟩] }
  | .failover i => failoverStep sessionExpireTTL w i

/-- A run of the system from `w`; `none` when some step cannot be taken. -/
def run (w : World) (acts : List Action) : Option World := acts.foldlM (step sessionExpireTTL) w

/-- The store holds `nodes`, `now` is `now`, and each of `k` gateways has refreshed its
view once and waits for a watch response. -/
def World.init (nodes : List Node) (now : Int) (k : Nat) : World where
  store := nodes
  now := now
  gateways := List.replicate k ⟨refreshCluster nodes, 0, [], .idle⟩
  calls := []
  mutex := none
  latched := []
  sent := []

theorem run_append (w : World) (acts acts' : List Action) :
    run sessionExpireTTL w (acts ++ acts') =
      (run sessionExpireTTL w acts).bind (run sessionExpireTTL · acts') :=
  List.foldlM_append _ _ _ _

/-! ## The mutex is held by the call inside the callback -/

/-- Call `i` of `calls` is inside the callback. -/
def InCallback (calls : List FailoverCall) (i : Nat) : Prop :=
  ∃ c, calls[i]? = some c ∧ c.pc.inCallback = true

/-- The `failover` mutex is held exactly by the call inside the callback. -/
def MutexInv (w : World) : Prop := ∀ i, InCallback w.calls i ↔ w.mutex = some i

theorem inCallback_append {calls : List FailoverCall} {c : FailoverCall}
    (hc : c.pc.inCallback = false) (j : Nat) : InCallback (calls ++ [c]) j ↔ InCallback calls j := by
  unfold InCallback
  by_cases hj : j < calls.length
  · rw [List.getElem?_append_left hj]
  · rw [List.getElem?_append_right (Nat.le_of_not_lt hj)]
    constructor
    · rintro ⟨d, hd, hin⟩
      obtain ⟨hk, rfl⟩ := List.getElem?_eq_some_iff.mp hd
      rw [List.mem_singleton.mp (List.getElem_mem hk), hc] at hin
      cases hin
    · rintro ⟨d, hd, -⟩
      exact absurd (List.getElem?_eq_some_iff.mp hd).1 hj

theorem inCallback_set {calls : List FailoverCall} {i : Nat} {c : FailoverCall}
    (hc : calls[i]? = some c) (c' : FailoverCall) (j : Nat) :
    InCallback (calls.set i c') j ↔ if j = i then c'.pc.inCallback = true else InCallback calls j := by
  have hi : i < calls.length := (List.getElem?_eq_some_iff.mp hc).1
  by_cases hji : j = i
  · subst hji
    simp [InCallback, List.getElem?_set_self hi]
  · simp [InCallback, List.getElem?_set_ne (Ne.symm hji), hji]

/-- What a step of a call of `FailoverIfNeeded` does to the calls and the mutex: it moves
the call to a new `pc`, and it takes the mutex entering the callback and releases it
leaving. -/
theorem failoverStep_cases {w w' : World} {i : Nat} (h : failoverStep sessionExpireTTL w i = some w') :
    ∃ c pc, w.calls[i]? = some c ∧ w'.calls = w.calls.set i { c with pc := pc } ∧
      ((c.pc.inCallback = false ∧ pc.inCallback = false ∧ w'.mutex = w.mutex) ∨
        (w.mutex = none ∧ pc.inCallback = true ∧ w'.mutex = some i) ∨
        (c.pc.inCallback = true ∧ pc.inCallback = true ∧ w'.mutex = w.mutex) ∨
        (c.pc.inCallback = true ∧ pc.inCallback = false ∧ w'.mutex = none)) := by
  obtain ⟨c, hc, h⟩ := Option.bind_eq_some.mp h
  obtain ⟨gw, -, h⟩ := Option.bind_eq_some.mp h
  refine ⟨c, ?_⟩
  cases hpc : c.pc <;> rw [hpc] at h <;> dsimp only at h
  case start =>
    split at h
    · cases h; exact ⟨_, hc, rfl, .inl ⟨rfl, rfl, rfl⟩⟩
    · split at h <;> cases h <;> exact ⟨_, hc, rfl, .inl ⟨rfl, rfl, rfl⟩⟩
  case lock =>
    split at h
    · cases h; exact ⟨_, hc, rfl, .inr (.inl ⟨‹_›, rfl, rfl⟩)⟩
    · cases h
  case callback =>
    split at h <;> cases h
    · exact ⟨_, hc, rfl, .inr (.inr (.inl ⟨rfl, rfl, rfl⟩))⟩
    · exact ⟨_, hc, rfl, .inr (.inr (.inr ⟨rfl, rfl, rfl⟩))⟩
  case refresh =>
    cases h
    exact ⟨_, hc, rfl, .inr (.inr (.inr ⟨rfl, rfl, rfl⟩))⟩
  case done => cases h

theorem failoverStep_mutexInv {w w' : World} {i : Nat}
    (h : failoverStep sessionExpireTTL w i = some w') (hw : MutexInv w) : MutexInv w' := by
  obtain ⟨c, pc, hc, hcalls, hcase⟩ := failoverStep_cases sessionExpireTTL h
  have hhold : InCallback w.calls i ↔ c.pc.inCallback = true := ⟨fun ⟨d, hd, hin⟩ => by
    rw [hc] at hd; cases hd; exact hin, fun hin => ⟨c, hc, hin⟩⟩
  intro j
  rw [hcalls, inCallback_set hc]
  by_cases hji : j = i
  · subst hji
    rw [if_pos rfl]
    rcases hcase with ⟨hold, hnew, hm⟩ | ⟨-, hnew, hm⟩ | ⟨hold, hnew, hm⟩ | ⟨-, hnew, hm⟩
    · rw [hnew, hm, ← hw, hhold, hold]
    · simp [hnew, hm]
    · rw [hnew, hm, ← hw, hhold, hold]
    · simp [hnew, hm]
  · rw [if_neg hji]
    rcases hcase with ⟨-, -, hm⟩ | ⟨hm0, -, hm⟩ | ⟨-, -, hm⟩ | ⟨hold, -, hm⟩
    · rw [hm, hw]
    · rw [hm, hw, hm0]; simp [Ne.symm hji]
    · rw [hm, hw]
    · rw [hm, hw, (hw i).mp (hhold.mpr hold)]; simp [Ne.symm hji]

/-- The calls of a step other than one of `FailoverIfNeeded` leave the callbacks and the
mutex alone: they only ever add a call at its start. -/
theorem mutexInv_of_frame {w w' : World} (hw : MutexInv w) (hm : w'.mutex = w.mutex)
    (hcalls : w'.calls = w.calls ∨ ∃ c, w'.calls = w.calls ++ [c] ∧ c.pc = .start) :
    MutexInv w' := by
  intro j
  rw [hm, ← hw]
  rcases hcalls with hcalls | ⟨c, hcalls, hc⟩
  · rw [hcalls]
  · rw [hcalls, inCallback_append (by rw [hc]; rfl)]

theorem watchStep_mutexInv {w w' : World} {g : Nat} (h : watchStep w g = some w')
    (hw : MutexInv w) : MutexInv w' := by
  obtain ⟨gw, -, h⟩ := Option.bind_eq_some.mp h
  split at h
  · cases h
  · cases h; exact mutexInv_of_frame hw rfl (.inl rfl)
  · cases h; exact mutexInv_of_frame hw rfl (.inl rfl)
  · cases h; exact mutexInv_of_frame hw rfl (.inr ⟨_, rfl, rfl⟩)
  · obtain ⟨c, -, h⟩ := Option.bind_eq_some.mp h
    split at h
    · cases h; exact mutexInv_of_frame hw rfl (.inl rfl)
    · cases h

/-- Every step keeps the mutex with the call inside the callback. -/
theorem step_mutexInv {w w' : World} {act : Action} (h : step sessionExpireTTL w act = some w')
    (hw : MutexInv w) : MutexInv w' := by
  cases act with
  | put n => cases h; exact mutexInv_of_frame hw rfl (.inl rfl)
  | expire addr =>
    obtain ⟨_, -, h⟩ := Option.bind_eq_some.mp h
    cases h; exact mutexInv_of_frame hw rfl (.inl rfl)
  | advance dt => cases h; exact mutexInv_of_frame hw rfl (.inl rfl)
  | receive g k =>
    obtain ⟨_, -, h⟩ := Option.bind_eq_some.mp h
    split at h
    · cases h; exact mutexInv_of_frame hw rfl (.inl rfl)
    · cases h
  | watch g => exact watchStep_mutexInv h hw
  | invoke g node =>
    obtain ⟨_, -, h⟩ := Option.bind_eq_some.mp h
    cases h; exact mutexInv_of_frame hw rfl (.inr ⟨_, rfl, rfl⟩)
  | failover i => exact failoverStep_mutexInv sessionExpireTTL h hw

theorem run_mutexInv {w w' : World} {acts : List Action} (h : run sessionExpireTTL w acts = some w')
    (hw : MutexInv w) : MutexInv w' := by
  induction acts generalizing w with
  | nil => cases h; exact hw
  | cons act acts ih =>
    obtain ⟨w₁, h₁, h⟩ := Option.bind_eq_some.mp h
    exact ih h (step_mutexInv sessionExpireTTL h₁ hw)

theorem init_mutexInv (nodes : List Node) (now : Int) (k : Nat) :
    MutexInv (World.init nodes now k) := fun i => by
  simp [MutexInv, InCallback, World.init]

/-! ## Two gateways promote two nodes -/

/-- Shard `s1` has master `m` and slave `a` (IDC `z2`), and both gateways have read this
view. Slave `b`, in `m`'s IDC `z1`, registers, and gateway 0 refreshes; then `m`'s key
expires. Gateway 0 gets the `DELETE` alone, gateway 1 gets `b`'s `PUT` and the `DELETE` in
one response. Gateway 0 takes the mutex first and promotes `b`, the slave in `z1`; `b`
re-registers as a master. Gateway 1 then takes the mutex: its view still has the master
`m`, at the dead node's address, and only the slave `a`, so it promotes `a`. -/
theorem failover_promotes_two_nodes :
    let m : Node := ⟨"s1", "10.0.0.1", "8121", "", "", "z1", 0⟩
    let a : Node := ⟨"s1", "10.0.0.2", "8121", "10.0.0.1", "8121", "z2", 100⟩
    let b : Node := ⟨"s1", "10.0.0.3", "8121", "10.0.0.1", "8121", "z1", 100⟩
    (run 30 (World.init [m, a] 100 2)
      ([.put b, .receive 0 0, .watch 0, .watch 0, .expire m.addr,
        .receive 0 0, .watch 0, .receive 1 1, .watch 1, .watch 1] ++
       [.failover 0, .failover 1, .failover 0, .failover 0, .failover 0] ++
       [.put { b with masterIP := "", masterPort := "" }, .failover 1, .failover 1,
        .failover 1])).map World.sent =
      some [(0, m, b), (1, m, a)] := by
  intro m a b
  have h₁ : run 30 (World.init [m, a] 100 2) [.put b, .receive 0 0, .watch 0, .watch 0,
      .expire m.addr, .receive 0 0, .watch 0, .receive 1 1, .watch 1, .watch 1] =
      some ⟨[a, b], 100, [⟨refreshCluster [m, a, b], 1, [], .failingOver 0 []⟩,
        ⟨refreshCluster [m, a], 0, [], .failingOver 1 []⟩],
        [⟨0, m, .start⟩, ⟨1, m, .start⟩], none, [], []⟩ := rfl
  have h₂ : run 30 ⟨[a, b], 100, [⟨refreshCluster [m, a, b], 1, [], .failingOver 0 []⟩,
        ⟨refreshCluster [m, a], 0, [], .failingOver 1 []⟩],
        [⟨0, m, .start⟩, ⟨1, m, .start⟩], none, [], []⟩
      [.failover 0, .failover 1, .failover 0, .failover 0, .failover 0] =
      some ⟨[a, b], 100, [⟨refreshCluster [a, b], 2, [], .failingOver 0 []⟩,
        ⟨refreshCluster [m, a], 0, [], .failingOver 1 []⟩],
        [⟨0, m, .done⟩, ⟨1, m, .lock 0⟩], none, [(1, 0, "s1")], [(0, m, b)]⟩ := rfl
  rw [run_append, run_append, h₁, Option.some_bind, h₂, Option.some_bind]
  decide

end Baudtime.Meta.Gateways
