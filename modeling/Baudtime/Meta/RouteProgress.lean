import Baudtime.Meta.RouteLocks
import Baudtime.Backend.MergeQuerier

/-!
# No call of `getShardIDs` waits forever

A call of `getShardIDs` waits for nothing but the lock of a `RouteInfo`. A lock is held
only by a call between its `Lock` and its `Unlock`, and such a call never waits: it
re-checks the cache, reads the store, writes it, fills the day in and unlocks, or unlocks
on a hit or an error. This holds over every run, with lease expiries and the evictions
they cause, and with the other gateways writing route keys: an evicted `RouteInfo` is only
dropped from `routeInfos`, and the call holding its lock still unlocks it. So from every
reachable state the calls can be run to their return by their own steps, each of which
lowers the steps the calls have left.

## Main definitions

* `Pc.rank`, `World.left` — the steps the calls have left
* `HoldersKnown` — every lock held is held by a call past its `Lock`

## Main results

* `stepCall_moves` — a step moves its call forward
* `step_holdersKnown`, `run_holdersKnown`
* `exists_stepCall` — while a call has not returned, some call can step
* `getShardIDs_calls_return`
-/

namespace Baudtime.Meta

/-- How many more steps a call of `getShardIDs` takes at most. -/
def Pc.rank : Pc → Nat
  | .start => 7
  | .lookup => 6
  | .lock _ => 5
  | .recheck _ => 4
  | .fetch _ => 3
  | .put _ _ => 2
  | .fill _ _ => 1
  | .done _ => 0

variable (cfg : RouteConfig)

/-- A step of call `i` moves it to a `pc` of lower rank, and changes no other call. -/
theorem stepCall_moves {w w' : World} {i : Nat} (h : stepCall cfg w i = some w') :
    ∃ c pc, w.calls[i]? = some c ∧ w'.calls = w.calls.set i { c with pc := pc } ∧
      pc.rank < c.pc.rank := by
  obtain ⟨c, hc, h⟩ := Option.bind_eq_some.mp h
  refine ⟨c, ?_⟩
  cases hpc : c.pc <;> rw [hpc] at h <;> dsimp only at h
  case done => cases h
  all_goals
    repeat' split at h
    all_goals cases h
    all_goals exact ⟨_, hc, by
      simp only [World.setPc_calls, World.getRouteInfoFromCache_calls, World.unlock_eq,
        World.modifyInfo_calls]; rfl, by simp [hpc, Pc.rank]⟩

/-! ## The locks are held by known calls, over every run -/

/-- Every lock that is held is held by a call between its `Lock` and its `Unlock`. -/
def HoldersKnown (w : World) : Prop :=
  ∀ r j, (w.heap r).holder = some j → ∃ c : Call, w.calls[j]? = some c ∧ c.pc.held = some r

namespace HoldersKnown

variable {w : World} (hk : HoldersKnown w)
include hk

theorem of_eq {w' : World} (hcalls : w'.calls = w.calls) (hheap : w'.heap = w.heap) :
    HoldersKnown w' := by
  intro r j h
  rw [hheap] at h
  rw [hcalls]
  exact hk r j h

/-- An eviction leaves the locks alone. -/
theorem evict (m : String) : HoldersKnown { w with routeInfos := setAt w.routeInfos m none } :=
  hk.of_eq rfl rfl

/-- A `RouteInfo` created by `getRouteInfoFromCache` is unlocked. -/
theorem getRouteInfoFromCache (m : String) : HoldersKnown (w.getRouteInfoFromCache m).1 := by
  unfold World.getRouteInfoFromCache
  split
  · exact hk
  · intro r j h
    dsimp only at h ⊢
    rw [setAt_apply] at h
    split at h
    · cases h
    · exact hk r j h

theorem modifyInfo (r : Nat) {f : RouteInfo → RouteInfo} (hf : ∀ ri, (f ri).holder = ri.holder) :
    HoldersKnown (w.modifyInfo r f) := fun r' j h =>
  hk r' j (by rwa [w.heap_modifyInfo_of_forall r RouteInfo.holder hf r'] at h)

/-- Call `i` moves to a `pc` that holds what it held. -/
theorem setPc {i : Nat} {c : Call} (hc : w.calls[i]? = some c) {pc : Pc}
    (hheld : pc.held = c.pc.held) : HoldersKnown (w.setPc i c pc) := by
  intro r j h
  obtain ⟨d, hd, hdr⟩ := hk r j h
  rw [World.setPc_calls, getElem?_set_of_getElem? hc]
  split
  · subst j; rw [hc] at hd; cases hd; exact ⟨_, rfl, hheld.trans hdr⟩
  · exact ⟨d, hd, hdr⟩

/-- `Lock()` by call `i`, which holds no lock. -/
theorem acquire {i r : Nat} {c : Call} (hc : w.calls[i]? = some c) (hold : c.pc.held = none) :
    HoldersKnown ((w.modifyInfo r ({ · with holder := some i })).setPc i c (.recheck r)) := by
  intro r' j h
  rw [World.setPc_calls, World.modifyInfo_calls, getElem?_set_of_getElem? hc]
  rw [World.setPc_heap, World.modifyInfo_heap, setAt_apply] at h
  split at h
  · subst r'; cases h; exact ⟨_, if_pos rfl, rfl⟩
  · obtain ⟨d, hd, hdr⟩ := hk r' j h
    split
    · subst j; rw [hc] at hd; cases hd; rw [hold] at hdr; cases hdr
    · exact ⟨d, hd, hdr⟩

/-- `Unlock()` by call `i`, which held the lock of `r`. -/
theorem release {i r : Nat} {c : Call} (hc : w.calls[i]? = some c) (hheld : c.pc.held = some r)
    {f : RouteInfo → RouteInfo} (hf : ∀ ri, (f ri).holder = none) (pc : Pc) :
    HoldersKnown ((w.modifyInfo r f).setPc i c pc) := by
  intro r' j h
  rw [World.setPc_heap, World.modifyInfo_heap, setAt_apply] at h
  split at h
  · subst r'; rw [hf] at h; cases h
  · obtain ⟨d, hd, hdr⟩ := hk r' j h
    rw [World.setPc_calls, World.modifyInfo_calls, getElem?_set_of_getElem? hc]
    split
    · subst j; rw [hc] at hd; cases hd; rw [hheld] at hdr; cases hdr; contradiction
    · exact ⟨d, hd, hdr⟩

end HoldersKnown

theorem stepCall_holdersKnown {w w' : World} {i : Nat} (h : stepCall cfg w i = some w')
    (hk : HoldersKnown w) : HoldersKnown w' := by
  obtain ⟨c, hc, h⟩ := Option.bind_eq_some.mp h
  have hk₁ := hk.getRouteInfoFromCache c.metricName
  have hc₁ : (w.getRouteInfoFromCache c.metricName).1.calls[i]? = some c := by
    rw [World.getRouteInfoFromCache_calls]; exact hc
  cases hpc : c.pc <;> rw [hpc] at h <;> dsimp only at h
  case start => split at h <;> cases h <;> exact hk₁.setPc hc₁ (by rw [hpc]; rfl)
  case lookup => cases h; exact hk₁.setPc hc₁ (by rw [hpc]; rfl)
  case lock r =>
    split at h
    · cases h; exact hk.acquire hc (by rw [hpc]; rfl)
    · cases h
  case recheck r =>
    split at h <;> cases h
    · exact hk₁.release hc₁ (by rw [hpc]; rfl) (fun _ => rfl) _
    · exact hk₁.setPc hc₁ (by rw [hpc]; rfl)
  case fetch r =>
    split at h
    · cases h; exact hk.setPc hc (by rw [hpc]; rfl)
    · split at h <;> cases h
      · exact hk.release hc (by rw [hpc]; rfl) (fun _ => rfl) _
      · exact hk.setPc hc (by rw [hpc]; rfl)
  case put r g =>
    cases h
    exact HoldersKnown.setPc (hk.of_eq rfl rfl) hc (by rw [hpc]; rfl)
  case fill r g =>
    cases h; exact hk.release hc (by rw [hpc]; rfl) (fun _ => rfl) _
  case done => cases h

theorem handleRouteEvent_holdersKnown {w w' : World} {e : RouteEvent}
    (h : handleRouteEvent cfg w e = some w') (hk : HoldersKnown w) : HoldersKnown w' := by
  cases e <;> rw [handleRouteEvent] at h <;> split at h
  · cases h; exact (hk.getRouteInfoFromCache _).modifyInfo _ fun _ => rfl
  · cases h; exact hk
  · cases h
  · dsimp only at h
    split at h <;> cases h
    · exact ((hk.getRouteInfoFromCache _).modifyInfo _ (by intro; rfl)).evict _
    · exact (hk.getRouteInfoFromCache _).modifyInfo _ fun _ => rfl
  · cases h; exact hk
  · cases h

theorem step_holdersKnown {w w' : World} {act : Action} (h : step cfg w act = some w')
    (hk : HoldersKnown w) : HoldersKnown w' := by
  cases act with
  | call i => exact stepCall_holdersKnown cfg h hk
  | expire key =>
    rw [step] at h
    split at h
    · cases h; exact hk.of_eq rfl rfl
    · cases h
  | remotePut key g => cases h; exact hk.of_eq rfl rfl
  | deliver =>
    rw [step] at h
    split at h
    · cases h
    · exact handleRouteEvent_holdersKnown cfg h (hk.of_eq rfl rfl)

theorem run_holdersKnown {w w' : World} {acts : List Action} (h : run cfg w acts = some w')
    (hk : HoldersKnown w) : HoldersKnown w' := by
  induction acts generalizing w with
  | nil => cases h; exact hk
  | cons act acts ih =>
    obtain ⟨w₁, h₁, h⟩ := Option.bind_eq_some.mp h
    exact ih h (step_holdersKnown cfg h₁ hk)

theorem init_holdersKnown (calls : List (String × Nat)) : HoldersKnown (World.init calls) :=
  fun _ _ h => by cases h

/-! ## The calls return -/

/-- The steps the calls have left in all. -/
def World.left (w : World) : Nat := w.calls.foldr (fun c n => c.pc.rank + n) 0

/-- Each step of a call lowers the steps the calls have left. -/
theorem left_stepCall {w w' : World} {i : Nat} (h : stepCall cfg w i = some w') :
    w'.left < w.left := by
  obtain ⟨c, pc, hc, hcalls, hlt⟩ := stepCall_moves cfg h
  have := Backend.MergeQuerier.foldr_set_add hc (fun c => c.pc.rank) { c with pc := pc }
  unfold World.left
  rw [hcalls]
  dsimp only at this
  omega

/-- A call that has not returned can step, unless it waits for a lock that is held. -/
theorem stepCall_isSome {w : World} {i : Nat} {c : Call} (hc : w.calls[i]? = some c)
    (hpc : ∀ res, c.pc ≠ .done res) (hlock : ∀ r, c.pc = .lock r → (w.heap r).holder = none) :
    (stepCall cfg w i).isSome := by
  simp only [stepCall, hc, Option.bind_eq_bind, Option.some_bind]
  cases hp : c.pc with
  | start => dsimp only; split <;> rfl
  | lookup => rfl
  | lock r => dsimp only; rw [if_pos (hlock r hp)]; rfl
  | recheck r => dsimp only; split <;> rfl
  | fetch r => dsimp only; split <;> (try split) <;> rfl
  | put r g => rfl
  | fill r g => rfl
  | done res => exact absurd hp (hpc res)

/-- Until every call has returned some call can step: a call waiting for a lock that is
held leaves the step to the holder, which is past its `Lock` and never waits. -/
theorem exists_stepCall {w : World} (hk : HoldersKnown w) {j : Nat} {c : Call}
    (hj : w.calls[j]? = some c) (hc : ∀ res, c.pc ≠ .done res) :
    ∃ i w', stepCall cfg w i = some w' := by
  by_cases hwait : ∃ r i, c.pc = .lock r ∧ (w.heap r).holder = some i
  · obtain ⟨r, i, -, hi⟩ := hwait
    obtain ⟨d, hd, hdr⟩ := hk r i hi
    exact ⟨i, Option.isSome_iff_exists.mp (stepCall_isSome cfg hd
      (fun res h => by rw [h] at hdr; cases hdr) (fun r' h => by rw [h] at hdr; cases hdr))⟩
  · push_neg at hwait
    exact ⟨j, Option.isSome_iff_exists.mp (stepCall_isSome cfg hj hc fun r hr =>
      Option.eq_none_iff_forall_not_mem.mpr fun i hi => hwait r i hr hi)⟩

/-- From a world whose locks are held by known calls, the calls of `getShardIDs` can be run
on by their own steps until every one has returned. -/
theorem calls_return {w : World} (hk : HoldersKnown w) :
    ∃ (more : List Nat) (w' : World), run cfg w (more.map .call) = some w' ∧
      ∀ c ∈ w'.calls, ∃ res, c.pc = .done res := by
  obtain ⟨n, hn⟩ : ∃ n, w.left = n := ⟨_, rfl⟩
  induction n using Nat.strong_induction_on generalizing w with
  | _ n ih =>
    by_cases hdone : ∀ c ∈ w.calls, ∃ res, c.pc = .done res
    · exact ⟨[], w, rfl, hdone⟩
    · push_neg at hdone
      obtain ⟨c, hc, hpc⟩ := hdone
      obtain ⟨j, hj⟩ := List.mem_iff_getElem?.mp hc
      obtain ⟨i, w₁, h₁⟩ := exists_stepCall cfg hk hj hpc
      have h₁' : step cfg w (.call i) = some w₁ := h₁
      obtain ⟨more, w', hrun, hall⟩ := ih _ (hn ▸ left_stepCall cfg h₁)
        (step_holdersKnown cfg h₁' hk) rfl
      refine ⟨i :: more, w', ?_, hall⟩
      rw [List.map_cons, run, List.foldlM_cons, h₁']
      exact hrun

/-- From every state a run reaches, lease expiries and evictions included, the calls of
`getShardIDs` can be run on by their own steps until every one has returned: no call waits
for a `RouteInfo`'s lock forever, since the lock is held only by a call past its `Lock`,
which never waits, and every such call unlocks the `RouteInfo` it locked, evicted or not. -/
theorem getShardIDs_calls_return {calls : List (String × Nat)} {acts : List Action} {w : World}
    (h : run cfg (World.init calls) acts = some w) :
    ∃ (more : List Nat) (w' : World), run cfg w (more.map .call) = some w' ∧
      ∀ c ∈ w'.calls, ∃ res, c.pc = .done res :=
  calls_return cfg (run_holdersKnown cfg h (init_holdersKnown calls))

/-- Two calls for `cpu` on day 2 miss the cache together; the first holds the lock of the
metric's `RouteInfo` and the second waits for it. -/
theorem getShardIDs_calls_return_two_calls :
    ∃ w, run ⟨"route_", ["s1", "s2"], 1⟩ (World.init [("cpu", 2), ("cpu", 2)])
        [.call 0, .call 1, .call 0, .call 1, .call 0] = some w ∧
      w.calls.map (·.pc) = [.recheck 0, .lock 0] ∧
      ∃ (more : List Nat) (w' : World),
        run ⟨"route_", ["s1", "s2"], 1⟩ w (more.map .call) = some w' ∧
          ∀ c ∈ w'.calls, ∃ res, c.pc = .done res := by
  obtain ⟨w, h⟩ : ∃ w, run ⟨"route_", ["s1", "s2"], 1⟩ (World.init [("cpu", 2), ("cpu", 2)])
      [.call 0, .call 1, .call 0, .call 1, .call 0] = some w := ⟨_, rfl⟩
  have hpcs : w.calls.map (·.pc) = [.recheck 0, .lock 0] := by
    cases h; rfl
  exact ⟨w, h, hpcs, getShardIDs_calls_return _ h⟩

end Baudtime.Meta
