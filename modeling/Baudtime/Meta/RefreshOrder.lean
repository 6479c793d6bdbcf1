import Baudtime.Meta.Refresh
import Mathlib.Data.List.Chain
import Mathlib.Data.List.Sort

/-!
# Refreshes publish their views in the order they read them

While a call of `RefreshCluster` holds the `refreshing` flag no other call reads the nodes or
publishes a map, so the views are published one read at a time: each view is read after the
view before it was published, and published after its own read. The reads of the published
views therefore strictly increase, and no view replaces one that was read later than itself.
Without the flag a slow call could publish an old read over a newer one and roll the
gateway's view back.

## Main results

* `step_cases` — what a step does to the calls, the flag and the publishes
* `OrderInv`, `step_orderInv`, `run_orderInv` — the ordering invariant over every run
* `publishes_in_read_order`
-/

namespace Baudtime.Meta.Refresh

/-- What a step can do, as the publishes see it: add a call, change the nodes, move a call
to a `pc` that is not a read (setting or clearing the flag), read the nodes, or publish. -/
theorem step_cases {w w' : World} {act : Action} (h : step w act = some w') :
    w' = { w with calls := w.calls ++ [Call.mk w.clock .start] }.tick ∨
    (∃ nodes, w' = { w with nodes := nodes }.tick) ∨
    (∃ i c pc refreshing, w.calls[i]? = some c ∧ (∀ nodes readAt, pc ≠ .read nodes readAt) ∧
      w' = ({ w with refreshing := refreshing }.setPc i c pc).tick) ∨
    (∃ i c, w.calls[i]? = some c ∧ w' = (w.setPc i c (.read w.nodes w.clock)).tick) ∨
    (∃ i c nodes readAt, w.calls[i]? = some c ∧ c.pc = .read nodes readAt ∧
      w' = ({ w with
        shards := nodes
        publishes := w.publishes ++ [Publish.mk i readAt w.clock] }.setPc i c .published).tick) := by
  cases act with
  | invoke => cases h; exact .inl rfl
  | change nodes => cases h; exact .inr (.inl ⟨nodes, rfl⟩)
  | cas i =>
    obtain ⟨c, hc, h⟩ := Option.bind_eq_some.mp h
    split at h
    · split at h <;> cases h
      · exact .inr (.inr (.inl ⟨i, c, _, w.refreshing, hc, (fun _ _ h => by cases h), rfl⟩))
      · exact .inr (.inr (.inl ⟨i, c, _, true, hc, (fun _ _ h => by cases h), rfl⟩))
    · cases h
  | getNodes i ok =>
    obtain ⟨c, hc, h⟩ := Option.bind_eq_some.mp h
    split at h
    · split at h <;> cases h
      · exact .inr (.inr (.inr (.inl ⟨i, c, hc, rfl⟩)))
      · exact .inr (.inr (.inl ⟨i, c, _, false, hc, (fun _ _ h => by cases h), rfl⟩))
    · cases h
  | publish i =>
    obtain ⟨c, hc, h⟩ := Option.bind_eq_some.mp h
    split at h
    · cases h; exact .inr (.inr (.inr (.inr ⟨i, c, _, _, hc, ‹_›, rfl⟩)))
    · cases h
  | ret i =>
    obtain ⟨c, hc, h⟩ := Option.bind_eq_some.mp h
    split at h
    · cases h; exact .inr (.inr (.inl ⟨i, c, _, false, hc, (fun _ _ h => by cases h), rfl⟩))
    · cases h

/-- The ordering invariant: each publish was read after the one before it was published,
and published after its own read; every publish is in the past; and a call that has read
the nodes did so after every publish so far. -/
structure OrderInv (w : World) : Prop where
  chain : w.publishes.Chain' fun p q => p.publishedAt < q.readAt
  read_lt : ∀ p ∈ w.publishes, p.readAt < p.publishedAt
  published_lt : ∀ p ∈ w.publishes, p.publishedAt < w.clock
  fresh : ∀ (j : Nat) (c : Call) (nodes : List Node) (readAt : Nat), w.calls[j]? = some c →
    c.pc = .read nodes readAt →
    readAt < w.clock ∧ ∀ p ∈ w.publishes, p.publishedAt < readAt

theorem getElem?_append_singleton {α : Type} {l : List α} {x a : α} {j : Nat}
    (h : (l ++ [x])[j]? = some a) : l[j]? = some a ∨ a = x := by
  by_cases hj : j < l.length
  · exact .inl (by rwa [List.getElem?_append_left hj] at h)
  · rw [List.getElem?_append_right (by omega)] at h
    exact .inr (List.mem_singleton.mp (List.mem_iff_getElem?.mpr ⟨_, h⟩))

namespace OrderInv

variable {w : World} (ho : OrderInv w)
include ho

/-- A step that keeps the publishes and moves no call to a read keeps the invariant. -/
theorem frame {w' : World} (hpub : w'.publishes = w.publishes) (hclock : w'.clock = w.clock + 1)
    (hcalls : ∀ (j : Nat) (c : Call) (nodes : List Node) (readAt : Nat), w'.calls[j]? = some c →
      c.pc = .read nodes readAt → w.calls[j]? = some c) : OrderInv w' := by
  refine ⟨hpub ▸ ho.chain, hpub ▸ ho.read_lt, fun p hp => ?_, fun j c nodes readAt hc hpc => ?_⟩
  · rw [hpub] at hp
    have := ho.published_lt p hp
    omega
  · obtain ⟨h1, h2⟩ := ho.fresh j c nodes readAt (hcalls j c nodes readAt hc hpc) hpc
    exact ⟨by omega, hpub ▸ h2⟩

/-- A move of call `i` to a `pc` that is not a read. -/
theorem move {i : Nat} {c : Call} (hc : w.calls[i]? = some c) {pc : Pc}
    (hpc : ∀ nodes readAt, pc ≠ .read nodes readAt) (refreshing : Bool) :
    OrderInv ({ w with refreshing := refreshing }.setPc i c pc).tick :=
  ho.frame rfl rfl fun j d nodes readAt hd hread => by
    rw [World.tick_calls, World.setPc_calls, getElem?_set_of_getElem? hc] at hd
    split at hd
    · cases hd; exact absurd hread (hpc nodes readAt)
    · exact hd

/-- `GetNodes` returns: the read is made after every publish so far. -/
theorem read {i : Nat} {c : Call} (hc : w.calls[i]? = some c) :
    OrderInv (w.setPc i c (.read w.nodes w.clock)).tick := by
  refine ⟨ho.chain, ho.read_lt, fun p hp => Nat.lt_succ_of_lt (ho.published_lt p hp),
    fun j d nodes readAt hd hread => ?_⟩
  rw [World.tick_calls, World.setPc_calls, getElem?_set_of_getElem? hc] at hd
  split at hd
  · cases hd; cases hread
    exact ⟨Nat.lt_succ_self _, ho.published_lt⟩
  · obtain ⟨h1, h2⟩ := ho.fresh j d nodes readAt hd hread
    exact ⟨Nat.lt_succ_of_lt h1, h2⟩

/-- `StorePointer` of a read: the holder of the flag is the only call that has read, so the
new publish follows every earlier one. -/
theorem publish (hr : RefreshInv w) {i : Nat} {c : Call} {nodes : List Node} {readAt : Nat}
    (hc : w.calls[i]? = some c) (hpc : c.pc = .read nodes readAt) :
    OrderInv ({ w with
      shards := nodes
      publishes := w.publishes ++ [Publish.mk i readAt w.clock] }.setPc i c .published).tick := by
  obtain ⟨hread, hafter⟩ := ho.fresh i c nodes readAt hc hpc
  have hnew : ∀ p ∈ w.publishes ++ [Publish.mk i readAt w.clock], p.publishedAt ≤ w.clock ∧
      p.readAt < p.publishedAt := by
    intro p hp
    rcases List.mem_append.mp hp with hp | hp
    · exact ⟨(ho.published_lt p hp).le, ho.read_lt p hp⟩
    · rw [List.mem_singleton.mp hp]; exact ⟨le_rfl, hread⟩
  refine ⟨ho.chain.append (List.chain'_singleton _) fun p hp q hq => ?_,
    fun p hp => (hnew p hp).2, fun p hp => Nat.lt_succ_of_le (hnew p hp).1,
    fun j d nodes' readAt' hd hread' => ?_⟩
  · rw [List.head?_cons, Option.mem_def, Option.some_inj] at hq
    subst hq
    exact hafter p (List.mem_of_getLast?_eq_some hp)
  · rw [World.tick_calls, World.setPc_calls, getElem?_set_of_getElem? hc] at hd
    split at hd
    · cases hd; cases hread'
    · exact absurd (hr.holds_unique j i ⟨d, hd, by rw [hread']; rfl⟩ ⟨c, hc, by rw [hpc]; rfl⟩) ‹_›

end OrderInv

theorem step_orderInv {w w' : World} {act : Action} (hr : RefreshInv w) (ho : OrderInv w)
    (h : step w act = some w') : OrderInv w' := by
  rcases step_cases h with rfl | ⟨nodes, rfl⟩ | ⟨i, c, pc, refreshing, hc, hpc, rfl⟩ |
    ⟨i, c, hc, rfl⟩ | ⟨i, c, nodes, readAt, hc, hpc, rfl⟩
  · exact ho.frame rfl rfl fun j d _ _ hd hread => by
      rcases getElem?_append_singleton hd with hd | rfl
      · exact hd
      · cases hread
  · exact ho.frame rfl rfl fun _ _ _ _ hd _ => hd
  · exact ho.move hc hpc refreshing
  · exact ho.read hc
  · exact ho.publish hr hc hpc

theorem run_orderInv {w w' : World} {acts : List Action} (hr : RefreshInv w) (ho : OrderInv w)
    (h : run w acts = some w') : OrderInv w' := by
  induction acts generalizing w with
  | nil => cases h; exact ho
  | cons act acts ih =>
    obtain ⟨w₁, h₁, h⟩ := Option.bind_eq_some.mp h
    exact ih (step_refreshInv hr h₁) (step_orderInv hr ho h₁) h

theorem init_orderInv (nodes shards : List Node) : OrderInv (World.init nodes shards) :=
  ⟨List.chain'_nil, (fun _ hp => by cases hp), (fun _ hp => by cases hp),
    (fun _ _ _ _ hc => by cases hc)⟩

/-- Over every run, the views are published in the order of their reads: each publish was
read after the publish before it and published after its own read, so the reads of the
published views strictly increase and no view replaces one read later than itself. -/
theorem publishes_in_read_order {nodes shards : List Node} {acts : List Action} {w : World}
    (h : run (World.init nodes shards) acts = some w) :
    w.publishes.Chain' (fun p q => p.publishedAt < q.readAt) ∧
      (∀ p ∈ w.publishes, p.readAt < p.publishedAt) ∧
      (w.publishes.map Publish.readAt).Sorted (· < ·) := by
  have ho := run_orderInv (init_refreshInv nodes shards) (init_orderInv nodes shards) h
  refine ⟨ho.chain, ho.read_lt, ?_⟩
  have hreads : w.publishes.Chain' fun p q => p.readAt < q.readAt :=
    (List.Chain'.iff_mem.mp ho.chain).imp fun p q ⟨hp, _, hpq⟩ => (ho.read_lt p hp).trans hpq
  exact List.chain'_iff_pairwise.mp (List.chain'_map Publish.readAt |>.mpr hreads)

/-- Two refreshes one after the other, with a node added while the first holds the flag:
the second reads after the first has published. -/
theorem publishes_in_read_order_two_refreshes :
    let m : Node := ⟨"s1", "10.0.0.1", "8121", "", "", "z1", 0⟩
    let a : Node := ⟨"s2", "10.0.0.2", "8121", "", "", "z1", 0⟩
    ∃ w, run (World.init [m] [m])
        [.invoke, .cas 0, .getNodes 0 true, .change [m, a], .publish 0, .ret 0, .invoke, .cas 1,
          .getNodes 1 true, .publish 1, .ret 1] = some w ∧
      w.publishes.map Publish.readAt = [2, 8] ∧
      w.publishes.Chain' (fun p q => p.publishedAt < q.readAt) ∧
      (∀ p ∈ w.publishes, p.readAt < p.publishedAt) ∧
      (w.publishes.map Publish.readAt).Sorted (· < ·) := by
  intro m a
  obtain ⟨w, h⟩ : ∃ w, run (World.init [m] [m])
      [.invoke, .cas 0, .getNodes 0 true, .change [m, a], .publish 0, .ret 0, .invoke, .cas 1,
        .getNodes 1 true, .publish 1, .ret 1] = some w := ⟨_, rfl⟩
  have hreads : w.publishes.map Publish.readAt = [2, 8] := by
    cases h; rfl
  exact ⟨w, h, hreads, publishes_in_read_order h⟩

end Baudtime.Meta.Refresh
