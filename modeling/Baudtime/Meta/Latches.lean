import Baudtime.Meta.FailoverProgress

/-!
# The `failovering` latches never leak

`FailoverIfNeeded` sets the `failovering` latch of its `Shard` object with
`CompareAndSwapUint32(&shard.failovering, 0, 1)` and clears it with the deferred
`StoreUint32(&shard.failovering, 0)` when it returns. So a latch that is set is held by a
call between the two; the compare-and-swap admits one call per `Shard` object, so no two
calls hold the same latch; and once every call has returned no latch is left set, so no
later call for the shard is turned away by a latch that nobody will clear.

A `Shard` object is named by its gateway, the generation of the view that holds it and its
shard ID.

## Main definitions

* `FailoverCall.latch` — the latch a call holds
* `LatchInv` — the latches set are those the calls hold, each once

## Main results

* `failoverStep_latches` — what a step of a call does to the latches
* `step_latchInv`, `run_latchInv`
* `latches_released`
-/

namespace Baudtime.Meta.Gateways

variable (sessionExpireTTL : Int)

/-- The latch call `c` holds: between the compare-and-swap and the deferred clear, that of
the `Shard` object of the view it read. -/
def FailoverCall.latch (c : FailoverCall) : Option (Nat × Nat × String) :=
  match c.pc with
  | .lock gen | .callback gen | .refresh gen => some (c.gateway, gen, c.node.shardID)
  | .start | .done => none

/-- The latches set are those the calls hold, and no two calls hold the same one. -/
structure LatchInv (w : World) : Prop where
  nodup : w.latched.Nodup
  held : w.latched.Perm (w.calls.filterMap FailoverCall.latch)

/-- What a step of call `i` does to the latches: it keeps the latch it holds, or takes a
latch that is not set, or clears the latch it held. -/
theorem failoverStep_latches {w w' : World} {i : Nat}
    (h : failoverStep sessionExpireTTL w i = some w') :
    ∃ c pc, w.calls[i]? = some c ∧ w'.calls = w.calls.set i { c with pc := pc } ∧
      ((({ c with pc := pc } : FailoverCall).latch = c.latch ∧ w'.latched = w.latched) ∨
        (∃ x, c.latch = none ∧ ({ c with pc := pc } : FailoverCall).latch = some x ∧
          x ∉ w.latched ∧ w'.latched = w.latched ++ [x]) ∨
        (∃ x, c.latch = some x ∧ ({ c with pc := pc } : FailoverCall).latch = none ∧
          w'.latched = w.latched.erase x)) := by
  obtain ⟨c, hc, h⟩ := Option.bind_eq_some.mp h
  obtain ⟨gw, -, h⟩ := Option.bind_eq_some.mp h
  refine ⟨c, ?_⟩
  rcases c with ⟨g, node, pc⟩
  cases pc <;> dsimp only at h
  case start =>
    split at h
    · cases h; exact ⟨_, hc, rfl, .inl ⟨rfl, rfl⟩⟩
    · split at h
      next => cases h; exact ⟨_, hc, rfl, .inl ⟨rfl, rfl⟩⟩
      next hfree =>
        cases h
        exact ⟨_, hc, rfl, .inr (.inl ⟨_, rfl, rfl, by simp at hfree; exact hfree.2, rfl⟩)⟩
  case lock =>
    split at h
    · cases h; exact ⟨_, hc, rfl, .inl ⟨rfl, rfl⟩⟩
    · cases h
  case callback =>
    split at h <;> cases h
    · exact ⟨_, hc, rfl, .inl ⟨rfl, rfl⟩⟩
    · exact ⟨_, hc, rfl, .inr (.inr ⟨_, rfl, rfl, rfl⟩)⟩
  case refresh =>
    cases h
    exact ⟨_, hc, rfl, .inr (.inr ⟨_, rfl, rfl, rfl⟩)⟩
  case done => cases h

/-- Taking back, at `i`, the element that `a` replaced. -/
theorem filterMap_set_perm_of_some {β γ : Type} {l : List β} {i : Nat} {x : β}
    (hx : l[i]? = some x) (f : β → Option γ) (a : β) {b : γ} (hfx : f x = some b)
    (hfa : f a = none) : (l.filterMap f).Perm ((l.set i a).filterMap f ++ [b]) := by
  induction l generalizing i with
  | nil => cases hx
  | cons y l ih =>
    cases i with
    | zero =>
      rw [List.getElem?_cons_zero, Option.some.injEq] at hx
      subst hx
      simp only [List.set_cons_zero, List.filterMap_cons, hfx, hfa]
      exact (List.perm_append_singleton b _).symm
    | succ i =>
      rw [List.getElem?_cons_succ] at hx
      simp only [List.set_cons_succ, List.filterMap_cons]
      cases f y
      · exact ih hx
      · exact (ih hx).cons _

/-- The deferred clear erases a latch by `==` of its fields, which is equality. -/
theorem erase_latched (l : List (Nat × Nat × String)) (x : Nat × Nat × String) :
    l.erase x = @List.erase _ instBEqOfDecidableEq l x := by
  induction l with
  | nil => rfl
  | cons y l ih =>
    simp only [List.erase_cons, ih, beq_iff_eq]
    by_cases hyx : y = x
    · exact (if_pos hyx).trans (if_pos (decide_eq_true hyx)).symm
    · exact (if_neg hyx).trans (if_neg fun h => hyx (of_decide_eq_true h)).symm

/-- A step that leaves the latches alone, and the calls too but for a new one at its start. -/
theorem LatchInv.of_frame {w w' : World} (hw : LatchInv w) (hl : w'.latched = w.latched)
    (hcalls : w'.calls = w.calls ∨ ∃ c, w'.calls = w.calls ++ [c] ∧ c.pc = .start) :
    LatchInv w' := by
  refine ⟨hl ▸ hw.nodup, ?_⟩
  rcases hcalls with h | ⟨c, h, hc⟩
  · rw [hl, h]; exact hw.held
  · have hnone : c.latch = none := by simp [FailoverCall.latch, hc]
    rw [hl, h, List.filterMap_append, List.filterMap_cons_none hnone, List.filterMap_nil,
      List.append_nil]
    exact hw.held

theorem failoverStep_latchInv {w w' : World} {i : Nat}
    (h : failoverStep sessionExpireTTL w i = some w') (hw : LatchInv w) : LatchInv w' := by
  obtain ⟨c, pc, hc, hcalls, hcase⟩ := failoverStep_latches sessionExpireTTL h
  suffices w'.latched.Nodup ∧ w'.latched.Perm (w'.calls.filterMap FailoverCall.latch) from
    ⟨this.1, this.2⟩
  rw [hcalls]
  rcases hcase with ⟨hkeep, hl⟩ | ⟨x, hnone, hx, hnot, hl⟩ | ⟨x, hx, hnone, hl⟩
  all_goals rw [hl]
  · rw [Backend.MergeQuerier.filterMap_set_of_eq hc _ hkeep]
    exact ⟨hw.nodup, hw.held⟩
  · refine ⟨hw.nodup.append (List.nodup_singleton x) (List.disjoint_singleton.mpr hnot), ?_⟩
    exact (hw.held.append_right [x]).trans
      (Backend.MergeQuerier.filterMap_set_perm hc _ _ hnone hx).symm
  · refine ⟨hw.nodup.erase x, ?_⟩
    have hp := (hw.held.trans (filterMap_set_perm_of_some hc _ _ hx hnone)).trans
      (List.perm_append_singleton x _)
    rw [erase_latched]
    exact ((List.perm_cons_erase (hp.mem_iff.mpr (List.mem_cons_self _ _))).symm.trans hp).cons_inv

theorem watchStep_latchInv {w w' : World} {g : Nat} (h : watchStep w g = some w')
    (hw : LatchInv w) : LatchInv w' := by
  obtain ⟨gw, -, ⟨gw', -, rfl⟩ | ⟨prev, events, rfl⟩⟩ := watchStep_cases h
  · exact hw.of_frame rfl (.inl rfl)
  · exact hw.of_frame rfl (.inr ⟨_, rfl, rfl⟩)

theorem step_latchInv {w w' : World} {act : Action} (h : step sessionExpireTTL w act = some w')
    (hw : LatchInv w) : LatchInv w' := by
  cases act with
  | put n => cases h; exact hw.of_frame rfl (.inl rfl)
  | expire addr =>
    obtain ⟨_, -, h⟩ := Option.bind_eq_some.mp h
    cases h; exact hw.of_frame rfl (.inl rfl)
  | advance dt => cases h; exact hw.of_frame rfl (.inl rfl)
  | receive g k =>
    obtain ⟨_, -, h⟩ := Option.bind_eq_some.mp h
    split at h
    · cases h; exact hw.of_frame rfl (.inl rfl)
    · cases h
  | watch g => exact watchStep_latchInv h hw
  | invoke g node =>
    obtain ⟨_, -, h⟩ := Option.bind_eq_some.mp h
    cases h; exact hw.of_frame rfl (.inr ⟨_, rfl, rfl⟩)
  | failover i => exact failoverStep_latchInv sessionExpireTTL h hw

theorem run_latchInv {w w' : World} {acts : List Action} (h : run sessionExpireTTL w acts = some w')
    (hw : LatchInv w) : LatchInv w' := by
  induction acts generalizing w with
  | nil => cases h; exact hw
  | cons act acts ih =>
    obtain ⟨w₁, h₁, h⟩ := Option.bind_eq_some.mp h
    exact ih h (step_latchInv sessionExpireTTL h₁ hw)

/-- Over every run, each latch set is held by exactly one call of `FailoverIfNeeded`
between its compare-and-swap and its deferred clear, and no two calls hold the same latch;
so once every call has returned, no latch is left set. -/
theorem latches_released {nodes : List Node} {now : Int} {k : Nat} {acts : List Action}
    {w : World} (h : run sessionExpireTTL (World.init nodes now k) acts = some w) :
    (w.calls.filterMap FailoverCall.latch).Nodup ∧
      w.latched.Perm (w.calls.filterMap FailoverCall.latch) ∧
      ((∀ c ∈ w.calls, c.pc = .done) → w.latched = []) := by
  have hw := run_latchInv sessionExpireTTL h ⟨List.nodup_nil, List.Perm.refl _⟩
  refine ⟨hw.held.nodup_iff.mp hw.nodup, hw.held, fun hdone => ?_⟩
  have hnone : w.calls.filterMap FailoverCall.latch = [] :=
    List.filterMap_eq_nil_iff.mpr fun c hc => by simp [FailoverCall.latch, hdone c hc]
  exact List.Perm.eq_nil (hnone ▸ hw.held)

/-- Both gateways' calls for the dead master `m` hold the latch of their own gateway's
`Shard` object. -/
theorem latches_released_two_gateways :
    let m : Node := ⟨"s1", "10.0.0.1", "8121", "", "", "z1", 0⟩
    let a : Node := ⟨"s1", "10.0.0.2", "8121", "10.0.0.1", "8121", "z2", 100⟩
    ∃ w, run 30 (World.init [m, a] 100 2)
        [.invoke 0 m, .invoke 1 m, .failover 0, .failover 1, .failover 0] = some w ∧
      w.latched = [(0, 0, "s1"), (1, 0, "s1")] ∧
      (w.calls.filterMap FailoverCall.latch).Nodup ∧
      w.latched.Perm (w.calls.filterMap FailoverCall.latch) ∧
      ((∀ c ∈ w.calls, c.pc = .done) → w.latched = []) := by
  intro m a
  obtain ⟨w, h⟩ : ∃ w, run 30 (World.init [m, a] 100 2)
      [.invoke 0 m, .invoke 1 m, .failover 0, .failover 1, .failover 0] = some w := ⟨_, rfl⟩
  have hl : w.latched = [(0, 0, "s1"), (1, 0, "s1")] := by
    cases h; rfl
  exact ⟨w, h, hl, latches_released 30 h⟩

end Baudtime.Meta.Gateways
