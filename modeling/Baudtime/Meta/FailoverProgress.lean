import Baudtime.Meta.Gateways
import Baudtime.Backend.MergeQuerier

/-!
# Neither the node watch nor `FailoverIfNeeded` stalls

A call of `FailoverIfNeeded` waits for nothing but the `failover` mutex, and the call that
holds the mutex is inside the callback, where each of its steps can be taken: it re-reads
its gateway's view, sends `SlaveOfCommand{}` or gives up, refreshes, and releases the mutex
with the `failovering` latch. So from every reachable state the calls can be run to their
return by their own steps alone: neither the mutex nor the latches can deadlock them. Each
step moves its call forward, so the steps the calls have left strictly fall.

A watch loop waits for the call of `FailoverIfNeeded` it made for a `DELETE`, and for
nothing else. Once the calls have returned, a busy loop can take its next step, and a loop
with events not yet delivered can receive them; each such step lowers the steps the loops
have left. Alternating the two, the gateways handle every delivered event and come back to
waiting, with no node changing its record meanwhile.

## Main definitions

* `FailoverPc.rank`, `World.left` — the steps the calls have left
* `Gateway.left`, `World.gatewaysLeft` — the steps the watch loops have left
* `Live` — what keeps the loops and the calls moving: the mutex invariant, and every call
  and every awaited call known
* `World.Drained` — every call returned, every loop waiting, no event undelivered

## Main results

* `failoverStep_moves` — a step moves its call forward, and refreshes at most one view
* `run_live` — over every run
* `calls_return`, `failover_calls_return` — the calls return by their own steps
* `exists_watch_step` — once the calls have returned, a busy gateway can step
* `drains`, `node_watch_drains` — the gateways and the calls drain by their own steps
-/

namespace Baudtime.Meta.Gateways

variable (sessionExpireTTL : Int)

/-! ## The calls of `FailoverIfNeeded` -/

/-- How many more steps a call takes at most. -/
def FailoverPc.rank : FailoverPc → Nat
  | .start => 4
  | .lock _ => 3
  | .callback _ => 2
  | .refresh _ => 1
  | .done => 0

/-- The steps the calls have left in all. -/
def World.left (w : World) : Nat := w.calls.foldr (fun c n => c.pc.rank + n) 0

/-- `gs'` is `gs`, or `gs` with the view of one gateway refreshed. -/
def Refreshed (gs gs' : List Gateway) : Prop :=
  gs' = gs ∨ ∃ g gw store, gs[g]? = some gw ∧ gs' = gs.set g (gw.refreshCluster store)

theorem Refreshed.length_eq {gs gs' : List Gateway} (h : Refreshed gs gs') :
    gs'.length = gs.length := by
  rcases h with rfl | ⟨g, gw, store, -, rfl⟩
  · rfl
  · exact List.length_set _ _ _

/-- A step of call `i` moves it to a `pc` of lower rank, and refreshes at most the view of
its gateway. -/
theorem failoverStep_moves {w w' : World} {i : Nat}
    (h : failoverStep sessionExpireTTL w i = some w') :
    ∃ c pc, w.calls[i]? = some c ∧ w'.calls = w.calls.set i { c with pc := pc } ∧
      pc.rank < c.pc.rank ∧ Refreshed w.gateways w'.gateways := by
  obtain ⟨c, hc, h⟩ := Option.bind_eq_some.mp h
  obtain ⟨gw, hgw, h⟩ := Option.bind_eq_some.mp h
  refine ⟨c, ?_⟩
  cases hpc : c.pc <;> rw [hpc] at h <;> dsimp only at h
  case start =>
    split at h
    · cases h; exact ⟨_, hc, rfl, Nat.le_of_ble_eq_true rfl, .inl rfl⟩
    · split at h <;> cases h <;> exact ⟨_, hc, rfl, Nat.le_of_ble_eq_true rfl, .inl rfl⟩
  case lock =>
    split at h
    · cases h; exact ⟨_, hc, rfl, Nat.le_of_ble_eq_true rfl, .inl rfl⟩
    · cases h
  case callback =>
    split at h <;> cases h <;> exact ⟨_, hc, rfl, Nat.le_of_ble_eq_true rfl, .inl rfl⟩
  case refresh =>
    cases h
    exact ⟨_, hc, rfl, Nat.le_of_ble_eq_true rfl, .inr ⟨_, gw, _, hgw, rfl⟩⟩
  case done => cases h

/-- Each step of a call lowers the steps the calls have left. -/
theorem left_failoverStep {w w' : World} {i : Nat}
    (h : failoverStep sessionExpireTTL w i = some w') : w'.left < w.left := by
  obtain ⟨c, pc, hc, hcalls, hlt, -⟩ := failoverStep_moves sessionExpireTTL h
  have := Backend.MergeQuerier.foldr_set_add hc (fun c => c.pc.rank) { c with pc := pc }
  unfold World.left
  rw [hcalls]
  dsimp only at this
  omega

/-! ## What keeps the calls and the loops moving -/

/-- Every call belongs to a gateway of the world. -/
def GatewaysKnown (w : World) : Prop := ∀ c ∈ w.calls, c.gateway < w.gateways.length

/-- Every watch loop inside `FailoverIfNeeded` waits for a call that exists. -/
def LoopsKnown (w : World) : Prop :=
  ∀ gw ∈ w.gateways, ∀ i events, gw.loop = .failingOver i events → i < w.calls.length

/-- A world whose gateways are as many as before, and whose calls are earlier calls or
belong to one of them, keeps every call with its gateway. -/
theorem GatewaysKnown.of {w w' : World} (hw : GatewaysKnown w)
    (hlen : w'.gateways.length = w.gateways.length)
    (hcalls : ∀ c ∈ w'.calls, c ∈ w.calls ∨ c.gateway < w.gateways.length) : GatewaysKnown w' :=
  fun c hc => hlen ▸ (hcalls c hc).elim (hw c) id

/-- A world with at least the calls of before, whose loops are earlier loops or wait for
known calls, keeps every loop waiting for a known call. -/
theorem LoopsKnown.of {w w' : World} (hw : LoopsKnown w) (hlen : w.calls.length ≤ w'.calls.length)
    (hgw : ∀ gw' ∈ w'.gateways, (∃ gw ∈ w.gateways, gw'.loop = gw.loop) ∨
      ∀ i events, gw'.loop = .failingOver i events → i < w'.calls.length) : LoopsKnown w' := by
  intro gw' hgw' i events hl
  rcases hgw gw' hgw' with ⟨gw, hgw, heq⟩ | h
  · exact Nat.lt_of_lt_of_le (hw gw hgw i events (heq ▸ hl)) hlen
  · exact h i events hl

/-- The loops of the gateways are those of before. -/
theorem LoopsKnown.of_loops {w w' : World} (hw : LoopsKnown w)
    (hlen : w.calls.length ≤ w'.calls.length)
    (hgw : ∀ gw' ∈ w'.gateways, ∃ gw ∈ w.gateways, gw'.loop = gw.loop) : LoopsKnown w' :=
  hw.of hlen fun gw' h => .inl (hgw gw' h)

/-- Gateway `g` is replaced by one whose loop waits for no unknown call. -/
theorem LoopsKnown.set {w w' : World} (hw : LoopsKnown w) (hlen : w.calls.length ≤ w'.calls.length)
    {g : Nat} {gw' : Gateway} (hgws : w'.gateways = w.gateways.set g gw')
    (hnew : ∀ i events, gw'.loop = .failingOver i events → i < w'.calls.length) :
    LoopsKnown w' :=
  hw.of hlen fun x hx => by
    rw [hgws] at hx
    rcases List.mem_or_eq_of_mem_set hx with hx | rfl
    · exact .inl ⟨x, hx, rfl⟩
    · exact .inr hnew

theorem loops_broadcast {w : World} (e : NodeEvent) :
    ∀ gw' ∈ w.broadcast e, ∃ gw ∈ w.gateways, gw'.loop = gw.loop := fun _ h => by
  obtain ⟨gw, hgw, rfl⟩ := List.mem_map.mp h
  exact ⟨gw, hgw, rfl⟩

/-- A new call of gateway `g` at the end of the calls. -/
theorem mem_append_call {calls : List FailoverCall} {gateways : List Gateway} {g : Nat}
    {gw : Gateway} (hg : gateways[g]? = some gw) (node : Node) :
    ∀ c ∈ calls ++ [⟨g, node, .start⟩], c ∈ calls ∨ c.gateway < gateways.length := by
  intro c hc
  rcases List.mem_append.mp hc with hc | hc
  · exact .inl hc
  · rw [List.mem_singleton.mp hc]; exact .inr (List.getElem?_eq_some_iff.mp hg).1

theorem failoverStep_gatewaysKnown {w w' : World} {i : Nat}
    (h : failoverStep sessionExpireTTL w i = some w') (hw : GatewaysKnown w) :
    GatewaysKnown w' := by
  obtain ⟨c, pc, hc, hcalls, -, hg⟩ := failoverStep_moves sessionExpireTTL h
  refine hw.of hg.length_eq fun d hd => ?_
  rw [hcalls] at hd
  rcases List.mem_or_eq_of_mem_set hd with hd | rfl
  · exact .inl hd
  · exact .inr (hw c (List.getElem?_mem hc))

theorem failoverStep_loopsKnown {w w' : World} {i : Nat}
    (h : failoverStep sessionExpireTTL w i = some w') (hw : LoopsKnown w) : LoopsKnown w' := by
  obtain ⟨c, pc, -, hcalls, -, hg⟩ := failoverStep_moves sessionExpireTTL h
  refine hw.of_loops (by rw [hcalls, List.length_set]) fun gw' hgw' => ?_
  rcases hg with hg | ⟨g, gw, store, hgw, hg⟩
  · exact ⟨gw', hg ▸ hgw', rfl⟩
  · rw [hg] at hgw'
    rcases List.mem_or_eq_of_mem_set hgw' with h | rfl
    · exact ⟨gw', h, rfl⟩
    · exact ⟨gw, List.getElem?_mem hgw, rfl⟩

/-- What a step of a watch loop does: it replaces its gateway by one whose loop waits for no
call, or, for a `DELETE`, by one waiting for the new call of `FailoverIfNeeded` it adds. -/
theorem watchStep_cases {w w' : World} {g : Nat} (h : watchStep w g = some w') :
    ∃ gw, w.gateways[g]? = some gw ∧
      ((∃ gw', (∀ i events, gw'.loop ≠ .failingOver i events) ∧ w' = w.setGateway g gw') ∨
        ∃ prev events, w' = { w.setGateway g { gw with loop := .failingOver w.calls.length events }
          with calls := w.calls ++ [⟨g, prev, .start⟩] }) := by
  obtain ⟨gw, hgw, h⟩ := Option.bind_eq_some.mp h
  refine ⟨gw, hgw, ?_⟩
  split at h
  · cases h
  · cases h; exact .inl ⟨_, (fun _ _ h => by cases h), rfl⟩
  · cases h; exact .inl ⟨_, (fun _ _ h => by cases h), rfl⟩
  · cases h; exact .inr ⟨_, _, rfl⟩
  · obtain ⟨c, -, h⟩ := Option.bind_eq_some.mp h
    split at h
    · cases h; exact .inl ⟨_, (fun _ _ h => by cases h), rfl⟩
    · cases h

theorem watchStep_gatewaysKnown {w w' : World} {g : Nat} (h : watchStep w g = some w')
    (hw : GatewaysKnown w) : GatewaysKnown w' := by
  obtain ⟨gw, hgw, ⟨gw', -, rfl⟩ | ⟨prev, events, rfl⟩⟩ := watchStep_cases h
  · exact hw.of (List.length_set _ _ _) fun c hc => .inl hc
  · exact hw.of (List.length_set _ _ _) (mem_append_call hgw _)

theorem watchStep_loopsKnown {w w' : World} {g : Nat} (h : watchStep w g = some w')
    (hw : LoopsKnown w) : LoopsKnown w' := by
  obtain ⟨gw, -, ⟨gw', hnew, rfl⟩ | ⟨prev, events, rfl⟩⟩ := watchStep_cases h
  · exact hw.set le_rfl rfl fun i events h => absurd h (hnew i events)
  · refine hw.set (by simp) rfl fun _ _ h => ?_
    cases h; simp

/-- What keeps the calls and the watch loops moving: the mutex is held by the call in the
callback, every call belongs to a gateway, and every loop waits for a known call. -/
structure Live (w : World) : Prop where
  mutex : MutexInv w
  gateways : GatewaysKnown w
  loops : LoopsKnown w

theorem step_live {w w' : World} {act : Action} (h : step sessionExpireTTL w act = some w')
    (hw : Live w) : Live w' := by
  suffices GatewaysKnown w' ∧ LoopsKnown w' from
    ⟨step_mutexInv sessionExpireTTL h hw.mutex, this.1, this.2⟩
  cases act with
  | put n =>
    cases h
    exact ⟨hw.gateways.of (List.length_map _ _) fun c hc => .inl hc,
      hw.loops.of_loops le_rfl (loops_broadcast _)⟩
  | expire addr =>
    obtain ⟨_, -, h⟩ := Option.bind_eq_some.mp h
    cases h
    exact ⟨hw.gateways.of (List.length_map _ _) fun c hc => .inl hc,
      hw.loops.of_loops le_rfl (loops_broadcast _)⟩
  | advance dt => cases h; exact ⟨hw.gateways, hw.loops⟩
  | receive g k =>
    obtain ⟨_, -, h⟩ := Option.bind_eq_some.mp h
    split at h
    · cases h
      exact ⟨hw.gateways.of (List.length_set _ _ _) fun c hc => .inl hc,
        hw.loops.set le_rfl rfl fun _ _ h => by cases h⟩
    · cases h
  | watch g => exact ⟨watchStep_gatewaysKnown h hw.gateways, watchStep_loopsKnown h hw.loops⟩
  | invoke g node =>
    obtain ⟨_, hgw, h⟩ := Option.bind_eq_some.mp h
    cases h
    exact ⟨hw.gateways.of rfl (mem_append_call hgw node),
      hw.loops.of_loops (by simp) fun gw h => ⟨gw, h, rfl⟩⟩
  | failover i =>
    exact ⟨failoverStep_gatewaysKnown sessionExpireTTL h hw.gateways,
      failoverStep_loopsKnown sessionExpireTTL h hw.loops⟩

theorem run_live {w w' : World} {acts : List Action} (h : run sessionExpireTTL w acts = some w')
    (hw : Live w) : Live w' := by
  induction acts generalizing w with
  | nil => cases h; exact hw
  | cons act acts ih =>
    obtain ⟨w₁, h₁, h⟩ := Option.bind_eq_some.mp h
    exact ih h (step_live sessionExpireTTL h₁ hw)

theorem init_live (nodes : List Node) (now : Int) (k : Nat) : Live (World.init nodes now k) :=
  ⟨init_mutexInv nodes now k, (fun _ h => by cases h), fun _ h _ _ hl => by
    rw [List.eq_of_mem_replicate h] at hl; cases hl⟩

/-! ## The calls return -/

/-- A call that has not returned can step, unless it waits for a mutex that another call
holds. -/
theorem failoverStep_isSome {w : World} {i : Nat} {c : FailoverCall} (hc : w.calls[i]? = some c)
    (hg : c.gateway < w.gateways.length) (hpc : c.pc ≠ .done)
    (hlock : ∀ gen, c.pc = .lock gen → w.mutex = none) :
    (failoverStep sessionExpireTTL w i).isSome := by
  obtain ⟨gw, hgw⟩ : ∃ gw, w.gateways[c.gateway]? = some gw :=
    ⟨_, List.getElem?_eq_getElem hg⟩
  simp only [failoverStep, hc, hgw, Option.bind_eq_bind, Option.some_bind]
  cases hp : c.pc with
  | start => dsimp only; split <;> (try split) <;> rfl
  | lock gen => dsimp only; rw [if_pos (hlock gen hp)]; rfl
  | callback gen => dsimp only; split <;> rfl
  | refresh gen => rfl
  | done => exact absurd hp hpc

/-- Until every call has returned some call can step: the one holding the mutex, or, when
the mutex is free, any call that has not returned. -/
theorem exists_failoverStep {w : World} (hm : MutexInv w) (hg : GatewaysKnown w) {j : Nat}
    {c : FailoverCall} (hj : w.calls[j]? = some c) (hc : c.pc ≠ .done) :
    ∃ i w', failoverStep sessionExpireTTL w i = some w' := by
  cases hmutex : w.mutex with
  | none =>
    exact ⟨j, Option.isSome_iff_exists.mp (failoverStep_isSome sessionExpireTTL hj
      (hg c (List.getElem?_mem hj)) hc fun _ _ => hmutex)⟩
  | some i =>
    obtain ⟨d, hd, hin⟩ := (hm i).mpr hmutex
    refine ⟨i, Option.isSome_iff_exists.mp (failoverStep_isSome sessionExpireTTL hd
      (hg d (List.getElem?_mem hd)) ?_ fun gen hl => ?_)⟩
    · intro hdone; rw [hdone] at hin; cases hin
    · rw [hl] at hin; cases hin

/-- From a live world the calls of `FailoverIfNeeded` can be run on by their own steps
until every one has returned. -/
theorem calls_return {w : World} (hl : Live w) :
    ∃ (more : List Nat) (w' : World), run sessionExpireTTL w (more.map .failover) = some w' ∧
      ∀ c ∈ w'.calls, c.pc = .done := by
  obtain ⟨n, hn⟩ : ∃ n, w.left = n := ⟨_, rfl⟩
  induction n using Nat.strong_induction_on generalizing w with
  | _ n ih =>
    by_cases hdone : ∀ c ∈ w.calls, c.pc = .done
    · exact ⟨[], w, rfl, hdone⟩
    · push_neg at hdone
      obtain ⟨c, hc, hpc⟩ := hdone
      obtain ⟨j, hj⟩ := List.mem_iff_getElem?.mp hc
      obtain ⟨i, w₁, h₁⟩ := exists_failoverStep sessionExpireTTL hl.mutex hl.gateways hj hpc
      have h₁' : step sessionExpireTTL w (.failover i) = some w₁ := h₁
      obtain ⟨more, w', hrun, hall⟩ := ih _ (hn ▸ left_failoverStep sessionExpireTTL h₁)
        (step_live sessionExpireTTL h₁' hl) rfl
      refine ⟨i :: more, w', ?_, hall⟩
      rw [List.map_cons, run, List.foldlM_cons, h₁']
      exact hrun

/-- From every state a run reaches, the calls of `FailoverIfNeeded` can be run on by their
own steps until every one has returned: no call waits for the mutex or a latch forever. -/
theorem failover_calls_return {nodes : List Node} {now : Int} {k : Nat} {acts : List Action}
    {w : World} (h : run sessionExpireTTL (World.init nodes now k) acts = some w) :
    ∃ (more : List Nat) (w' : World), run sessionExpireTTL w (more.map .failover) = some w' ∧
      ∀ c ∈ w'.calls, c.pc = .done :=
  calls_return sessionExpireTTL (run_live sessionExpireTTL h (init_live nodes now k))

/-- Both gateways call `FailoverIfNeeded` for the dead master `m`: gateway 0's call holds
the mutex inside the callback while gateway 1's waits for it. -/
theorem failover_calls_return_two_gateways :
    let m : Node := ⟨"s1", "10.0.0.1", "8121", "", "", "z1", 0⟩
    let a : Node := ⟨"s1", "10.0.0.2", "8121", "10.0.0.1", "8121", "z2", 100⟩
    ∃ w, run 30 (World.init [m, a] 100 2)
        [.invoke 0 m, .invoke 1 m, .failover 0, .failover 1, .failover 0] = some w ∧
      w.calls.map (·.pc) = [.callback 0, .lock 0] ∧
      ∃ (more : List Nat) (w' : World), run 30 w (more.map .failover) = some w' ∧
        ∀ c ∈ w'.calls, c.pc = .done := by
  intro m a
  obtain ⟨w, h⟩ : ∃ w, run 30 (World.init [m, a] 100 2)
      [.invoke 0 m, .invoke 1 m, .failover 0, .failover 1, .failover 0] = some w := ⟨_, rfl⟩
  have hpcs : w.calls.map (·.pc) = [.callback 0, .lock 0] := by
    cases h; rfl
  exact ⟨w, h, hpcs, failover_calls_return 30 h⟩

/-! ## The watch loops drain -/

/-- How many steps the watch loop takes for an event it handles: one for a `PUT`; for a
`DELETE`, one to call `FailoverIfNeeded` and one once the call has returned. -/
def NodeEvent.weight : NodeEvent → Nat
  | .put _ => 1
  | .delete _ => 2

/-- The steps the watch loop takes for `events`. -/
def eventsLeft (events : List NodeEvent) : Nat := events.foldr (fun e n => e.weight + n) 0

@[simp]
theorem eventsLeft_nil : eventsLeft [] = 0 := rfl

@[simp]
theorem eventsLeft_cons (e : NodeEvent) (events : List NodeEvent) :
    eventsLeft (e :: events) = e.weight + eventsLeft events := rfl

/-- The steps the watch loop takes before it waits for the next response. -/
def LoopPc.left : LoopPc → Nat
  | .idle => 0
  | .handling events => eventsLeft events + 1
  | .failingOver _ events => eventsLeft events + 2

/-- The steps a gateway's watch loop has left when each response carries one event: an
event not yet delivered costs its response and the refresh after it, besides its own. -/
def Gateway.left (gw : Gateway) : Nat :=
  eventsLeft gw.stream + 2 * gw.stream.length + gw.loop.left

/-- The steps the watch loops have left in all. -/
def World.gatewaysLeft (w : World) : Nat := w.gateways.foldr (fun gw n => gw.left + n) 0

theorem gatewaysLeft_set {w w' : World} {g : Nat} {gw gw' : Gateway}
    (hgw : w.gateways[g]? = some gw) (hgws : w'.gateways = w.gateways.set g gw') :
    w'.gatewaysLeft + gw.left = w.gatewaysLeft + gw'.left := by
  unfold World.gatewaysLeft
  rw [hgws]
  exact Backend.MergeQuerier.foldr_set_add hgw Gateway.left gw'

/-- Refreshing a view leaves the watch loops alone. -/
theorem Refreshed.gatewaysLeft_eq {w w' : World} (h : Refreshed w.gateways w'.gateways) :
    w'.gatewaysLeft = w.gatewaysLeft := by
  rcases h with h | ⟨g, gw, store, hgw, h⟩
  · unfold World.gatewaysLeft; rw [h]
  · have := gatewaysLeft_set hgw h
    rw [show (gw.refreshCluster store).left = gw.left from rfl] at this
    omega

theorem gatewaysLeft_run_failover {w w' : World} {more : List Nat}
    (h : run sessionExpireTTL w (more.map .failover) = some w') :
    w'.gatewaysLeft = w.gatewaysLeft := by
  induction more generalizing w with
  | nil => cases h; rfl
  | cons i more ih =>
    obtain ⟨w₁, h₁, h⟩ := Option.bind_eq_some.mp h
    obtain ⟨-, -, -, -, -, hg⟩ := failoverStep_moves sessionExpireTTL h₁
    exact (ih h).trans hg.gatewaysLeft_eq

/-- A move of the gateways themselves: a watch response, a step of a watch loop or of a call
of `FailoverIfNeeded`. No node changes its record, no time passes, and nobody calls
`FailoverIfNeeded` from outside. -/
def Action.internal : Action → Bool
  | .receive .. | .watch _ | .failover _ => true
  | _ => false

/-- Once every call has returned, a gateway whose loop is busy, or that has events to
receive, can take a step that lowers the steps the loops have left. -/
theorem exists_watch_step {w : World} (hl : LoopsKnown w) (hdone : ∀ c ∈ w.calls, c.pc = .done)
    {g : Nat} {gw : Gateway} (hgw : w.gateways[g]? = some gw)
    (hbusy : gw.loop = .idle → gw.stream ≠ []) :
    ∃ act w', act.internal = true ∧ step sessionExpireTTL w act = some w' ∧
      w'.gatewaysLeft < w.gatewaysLeft := by
  have hstep : ∀ gw', gw'.left < gw.left → (w.setGateway g gw').gatewaysLeft < w.gatewaysLeft :=
    fun gw' hlt => by
      have : (w.setGateway g gw').gatewaysLeft + gw.left = w.gatewaysLeft + gw'.left :=
        gatewaysLeft_set hgw rfl
      omega
  cases hloop : gw.loop with
  | idle =>
    obtain ⟨e, stream, hs⟩ := List.exists_cons_of_ne_nil (hbusy hloop)
    refine ⟨.receive g 0, w.setGateway g { gw with stream := stream, loop := .handling [e] },
      rfl, ?_, hstep _ ?_⟩
    · simp only [step, hgw, hloop, hs, Option.bind_eq_bind, Option.some_bind]
      rw [if_pos ⟨trivial, List.cons_ne_nil _ _⟩]
      rfl
    · simp only [Gateway.left, hloop, hs, LoopPc.left, eventsLeft_cons, eventsLeft_nil,
        List.length_cons]
      omega
  | handling events =>
    rcases events with _ | ⟨_ | prev, events⟩
    · refine ⟨.watch g, w.setGateway g { gw.refreshCluster w.store with loop := .idle }, rfl,
        ?_, hstep _ ?_⟩
      · simp only [step, watchStep, hgw, hloop, Option.bind_eq_bind, Option.some_bind]
      · simp only [Gateway.left, Gateway.refreshCluster, hloop, LoopPc.left]; omega
    · refine ⟨.watch g, w.setGateway g { gw with loop := .handling events }, rfl, ?_, hstep _ ?_⟩
      · simp only [step, watchStep, hgw, hloop, Option.bind_eq_bind, Option.some_bind]
      · simp only [Gateway.left, hloop, LoopPc.left, eventsLeft_cons, NodeEvent.weight]; omega
    · refine ⟨.watch g, { w.setGateway g { gw with loop := .failingOver w.calls.length events }
        with calls := w.calls ++ [⟨g, prev, .start⟩] }, rfl, ?_, hstep _ ?_⟩
      · simp only [step, watchStep, hgw, hloop, Option.bind_eq_bind, Option.some_bind]
      · simp only [Gateway.left, hloop, LoopPc.left, eventsLeft_cons, NodeEvent.weight]; omega
  | failingOver i events =>
    obtain ⟨c, hc⟩ : ∃ c, w.calls[i]? = some c :=
      ⟨_, List.getElem?_eq_getElem (hl gw (List.getElem?_mem hgw) i events hloop)⟩
    refine ⟨.watch g, w.setGateway g { gw with loop := .handling events }, rfl, ?_, hstep _ ?_⟩
    · simp only [step, watchStep, hgw, hloop, hc, Option.bind_eq_bind, Option.some_bind,
        hdone c (List.getElem?_mem hc), if_true]
    · simp only [Gateway.left, hloop, LoopPc.left]; omega

/-- Every call of `FailoverIfNeeded` has returned, every watch loop waits for a response,
and no event is left to deliver. -/
def World.Drained (w : World) : Prop :=
  (∀ c ∈ w.calls, c.pc = .done) ∧ ∀ gw ∈ w.gateways, gw.loop = .idle ∧ gw.stream = []

/-- From a live world the gateways drain by their own moves: run the calls to their return,
then take a step of a busy gateway, and again, while the loops' steps left fall. -/
theorem drains {w : World} (hl : Live w) :
    ∃ (more : List Action) (w' : World), (∀ act ∈ more, act.internal = true) ∧
      run sessionExpireTTL w more = some w' ∧ w'.Drained := by
  obtain ⟨n, hn⟩ : ∃ n, w.gatewaysLeft = n := ⟨_, rfl⟩
  induction n using Nat.strong_induction_on generalizing w with
  | _ n ih =>
    obtain ⟨is, w₁, h₁, hdone⟩ := calls_return sessionExpireTTL hl
    have hl₁ := run_live sessionExpireTTL h₁ hl
    have hint : ∀ act ∈ is.map Action.failover, act.internal = true := by
      simp [Action.internal]
    by_cases hidle : ∀ gw ∈ w₁.gateways, gw.loop = .idle ∧ gw.stream = []
    · exact ⟨is.map .failover, w₁, hint, h₁, hdone, hidle⟩
    · push_neg at hidle
      obtain ⟨gw, hgw, hbusy⟩ := hidle
      obtain ⟨g, hg⟩ := List.mem_iff_getElem?.mp hgw
      obtain ⟨act, w₂, hact, h₂, hlt⟩ := exists_watch_step sessionExpireTTL hl₁.loops hdone hg hbusy
      rw [gatewaysLeft_run_failover sessionExpireTTL h₁, hn] at hlt
      obtain ⟨more, w', hmore, hrun, hd⟩ := ih _ hlt (step_live sessionExpireTTL h₂ hl₁) rfl
      refine ⟨is.map .failover ++ act :: more, w', ?_, ?_, hd⟩
      · intro a ha
        rcases List.mem_append.mp ha with ha | ha
        · exact hint a ha
        · rcases List.mem_cons.mp ha with rfl | ha
          · exact hact
          · exact hmore a ha
      · rw [run_append, h₁, Option.some_bind, run, List.foldlM_cons, h₂]
        exact hrun

/-- From every state a run reaches, the gateways can go on by their own moves, with no node
changing its record and no outside call of `FailoverIfNeeded`, until every call has
returned, every watch loop waits for a response and every event has been handled: the
watch loops and the calls they make never stall one another. -/
theorem node_watch_drains {nodes : List Node} {now : Int} {k : Nat} {acts : List Action}
    {w : World} (h : run sessionExpireTTL (World.init nodes now k) acts = some w) :
    ∃ (more : List Action) (w' : World), (∀ act ∈ more, act.internal = true) ∧
      run sessionExpireTTL w more = some w' ∧ w'.Drained :=
  drains sessionExpireTTL (run_live sessionExpireTTL h (init_live nodes now k))

/-- The master `m` dies; gateway 0 receives the `DELETE` and calls `FailoverIfNeeded`, while
gateway 1 has not yet received it. -/
theorem node_watch_drains_master_death :
    let m : Node := ⟨"s1", "10.0.0.1", "8121", "", "", "z1", 0⟩
    let a : Node := ⟨"s1", "10.0.0.2", "8121", "10.0.0.1", "8121", "z2", 100⟩
    ∃ w, run 30 (World.init [m, a] 100 2) [.expire m.addr, .receive 0 0, .watch 0] = some w ∧
      w.gateways.map (·.loop) = [.failingOver 0 [], .idle] ∧
      ∃ (more : List Action) (w' : World), (∀ act ∈ more, act.internal = true) ∧
        run 30 w more = some w' ∧ w'.Drained := by
  intro m a
  obtain ⟨w, h⟩ : ∃ w, run 30 (World.init [m, a] 100 2)
      [.expire m.addr, .receive 0 0, .watch 0] = some w := ⟨_, rfl⟩
  have hloops : w.gateways.map (·.loop) = [.failingOver 0 [], .idle] := by
    cases h; rfl
  exact ⟨w, h, hloops, node_watch_drains 30 h⟩

end Baudtime.Meta.Gateways
