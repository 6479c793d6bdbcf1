import Baudtime.Meta.FailoverProgress

/-!
# Whom `SlaveOfCommand{}` goes to

A gateway's view is only ever replaced by `RefreshCluster` of the store as it stands, which
files every node under its own shard ID and lists as slaves only the nodes that name a
master. The callback of `FailoverIfNeeded` sends `SlaveOfCommand{}` to one of the slaves
its gateway's view lists for the dead node's shard. So over every run, across any
interleaving of the gateways, the node writes and the calls, every command goes to a node
record of the dead node's shard that names a master and that stood in the store at some
point of the run, when the view that chose it was read.

The view may be stale by the time the command is sent: the node may have re-registered
since, as a master after an earlier promotion. What the run keeps is where each view and
each target came from, as in a ghost history of the stores.

## Main definitions

* `StoreAlong` — the stores a run passes through
* `ViewsBuilt` — every view is one `RefreshCluster` published from a store seen
* `TargetInv` — the store and the views come from stores seen, and every command sent went
  to a slave record of the shard in a store seen

## Main results

* `failoverCallback_mem_slaves` — the callback sends to a slave of the view
* `watchStep_views`, `failoverStep_sent` — what the steps do to the views and the commands
* `step_targetInv`, `run_targetInv`
* `slaveOf_targets_slaves`
-/

namespace Baudtime.Meta

/-- The callback sends only to a slave the view lists for the dead node's shard. -/
theorem failoverCallback_mem_slaves {shards : String → Option Shard} {node x : Node}
    (h : failoverCallback shards node = .ok (some x)) : x ∈ getSlaves shards node.shardID := by
  unfold failoverCallback at h
  split at h
  · cases h
  · split at h
    · cases h
    · next first rest heq =>
      cases h
      rw [heq]
      cases hm : idcMatch node (first :: rest) with
      | none => exact List.mem_cons_self _ _
      | some y => exact (idcMatch_mem hm).1

/-- A slave of shard `k` in a view `RefreshCluster` published is a record of the node list
that belongs to `k` and names a master. -/
theorem slave_of_refreshCluster {nodes : List Node} {k : String} {x : Node}
    (h : x ∈ getSlaves (refreshCluster nodes) k) : x ∈ nodes ∧ x.shardID = k ∧ x.isMaster = false := by
  rw [getSlaves_refreshCluster] at h
  obtain ⟨hx, hk⟩ := List.mem_filter.mp h
  simpa [hx] using hk

namespace Gateways

variable (sessionExpireTTL : Int)

/-- The stores a run of `acts` from `w` passes through: the store of the world that each
prefix of the run reaches. -/
def StoreAlong (w : World) (acts : List Action) (store : List Node) : Prop :=
  ∃ n ≤ acts.length, ∃ w₀, run sessionExpireTTL w (acts.take n) = some w₀ ∧ w₀.store = store

/-- Every view of the gateways is one that `RefreshCluster` published from a store seen. -/
def ViewsBuilt (seen : List Node → Prop) (gs : List Gateway) : Prop :=
  ∀ gw ∈ gs, ∃ nodes, seen nodes ∧ gw.view = refreshCluster nodes

/-- Every `SlaveOfCommand{}` sent went to a record of a store seen that names a master and
belongs to the dead node's shard. -/
def SentToSlaves (seen : List Node → Prop) (sent : List (Nat × Node × Node)) : Prop :=
  ∀ e ∈ sent, ∃ nodes, seen nodes ∧ e.2.2 ∈ nodes ∧ e.2.2.shardID = e.2.1.shardID ∧
    e.2.2.isMaster = false

/-- The invariant of the commands sent, over the stores `seen` so far: the store is one of
them, the views are built by `RefreshCluster` from them, and every command went to a slave
record of the dead node's shard in one of them. -/
structure TargetInv (seen : List Node → Prop) (w : World) : Prop where
  store : seen w.store
  views : ViewsBuilt seen w.gateways
  sent : SentToSlaves seen w.sent

variable {seen seen' : List Node → Prop}

theorem TargetInv.mono {w : World} (hw : TargetInv seen w) (h : ∀ s, seen s → seen' s) :
    TargetInv seen' w :=
  ⟨h _ hw.store, fun gw hgw => (hw.views gw hgw).imp fun _ ⟨hs, hv⟩ => ⟨h _ hs, hv⟩,
    fun e he => (hw.sent e he).imp fun _ ⟨hs, hx⟩ => ⟨h _ hs, hx⟩⟩

theorem ViewsBuilt.set {gs : List Gateway} (hgs : ViewsBuilt seen gs) {gw : Gateway}
    (hgw : ∃ nodes, seen nodes ∧ gw.view = refreshCluster nodes) (g : Nat) :
    ViewsBuilt seen (gs.set g gw) :=
  fun x hx => (List.mem_or_eq_of_mem_set hx).elim (hgs x) fun h => h ▸ hgw

/-- A gateway replaced by one with the same view, or with the view of a store seen. -/
theorem ViewsBuilt.set_of_view {gs : List Gateway} (hgs : ViewsBuilt seen gs) {g : Nat}
    {gw gw' : Gateway} (hg : gs[g]? = some gw) {store : List Node} (hstore : seen store)
    (hview : gw'.view = gw.view ∨ gw'.view = refreshCluster store) :
    ViewsBuilt seen (gs.set g gw') :=
  hgs.set (hview.elim (fun h => h ▸ hgs gw (List.getElem?_mem hg)) fun h => ⟨store, hstore, h⟩) g

theorem ViewsBuilt.broadcast {w : World} (hw : ViewsBuilt seen w.gateways) (e : NodeEvent) :
    ViewsBuilt seen (w.broadcast e) := fun _ h => by
  obtain ⟨gw, hgw, rfl⟩ := List.mem_map.mp h
  exact hw gw hgw

theorem SentToSlaves.append {sent : List (Nat × Node × Node)} (hs : SentToSlaves seen sent)
    {g : Nat} {node x : Node} {nodes : List Node} (hseen : seen nodes)
    (hx : x ∈ nodes ∧ x.shardID = node.shardID ∧ x.isMaster = false) :
    SentToSlaves seen (sent ++ [(g, node, x)]) := fun e he =>
  (List.mem_append.mp he).elim (hs e) fun h => by rw [List.mem_singleton.mp h]; exact ⟨_, hseen, hx⟩

/-- A step of a watch loop keeps the store, sends nothing, and replaces its gateway by one
with the same view or with the view of the store. -/
theorem watchStep_views {w w' : World} {g : Nat} (h : watchStep w g = some w') :
    w'.store = w.store ∧ w'.sent = w.sent ∧ ∃ gw gw', w.gateways[g]? = some gw ∧
      w'.gateways = w.gateways.set g gw' ∧
      (gw'.view = gw.view ∨ gw'.view = refreshCluster w.store) := by
  obtain ⟨gw, hgw, h⟩ := Option.bind_eq_some.mp h
  split at h
  · cases h
  · cases h; exact ⟨rfl, rfl, gw, _, hgw, rfl, .inr rfl⟩
  · cases h; exact ⟨rfl, rfl, gw, _, hgw, rfl, .inl rfl⟩
  · cases h; exact ⟨rfl, rfl, gw, _, hgw, rfl, .inl rfl⟩
  · obtain ⟨c, -, h⟩ := Option.bind_eq_some.mp h
    split at h
    · cases h; exact ⟨rfl, rfl, gw, _, hgw, rfl, .inl rfl⟩
    · cases h

/-- A step of a call keeps the store, refreshes at most its gateway's view from the store,
and sends nothing or the slave its callback chose over its gateway's view. -/
theorem failoverStep_sent {w w' : World} {i : Nat}
    (h : failoverStep sessionExpireTTL w i = some w') :
    w'.store = w.store ∧
    (w'.gateways = w.gateways ∨ ∃ g gw, w.gateways[g]? = some gw ∧
      w'.gateways = w.gateways.set g (gw.refreshCluster w.store)) ∧
    (w'.sent = w.sent ∨ ∃ c gw x, w.calls[i]? = some c ∧ w.gateways[c.gateway]? = some gw ∧
      failoverCallback gw.view c.node = .ok (some x) ∧
      w'.sent = w.sent ++ [(c.gateway, c.node, x)]) := by
  obtain ⟨c, hc, h⟩ := Option.bind_eq_some.mp h
  obtain ⟨gw, hgw, h⟩ := Option.bind_eq_some.mp h
  cases hpc : c.pc <;> rw [hpc] at h <;> dsimp only at h
  case start => split at h <;> (try split at h) <;> cases h <;> exact ⟨rfl, .inl rfl, .inl rfl⟩
  case lock => split at h <;> cases h; exact ⟨rfl, .inl rfl, .inl rfl⟩
  case callback =>
    split at h <;> cases h
    · exact ⟨rfl, .inl rfl, .inr ⟨c, gw, _, hc, hgw, ‹_›, rfl⟩⟩
    · exact ⟨rfl, .inl rfl, .inl rfl⟩
  case refresh => cases h; exact ⟨rfl, .inr ⟨c.gateway, gw, hgw, rfl⟩, .inl rfl⟩
  case done => cases h

theorem failoverStep_targetInv {w w' : World} {i : Nat}
    (h : failoverStep sessionExpireTTL w i = some w') (hw : TargetInv seen w) :
    TargetInv seen w' := by
  obtain ⟨hstore, hg, hs⟩ := failoverStep_sent sessionExpireTTL h
  refine ⟨hstore ▸ hw.store, ?_, ?_⟩
  · rcases hg with hg | ⟨g, gw, hgw, hg⟩
    · exact hg ▸ hw.views
    · exact hg ▸ hw.views.set_of_view hgw hw.store (.inr rfl)
  · rcases hs with hs | ⟨c, gw, x, -, hgw, hcb, hs⟩
    · exact hs ▸ hw.sent
    · obtain ⟨nodes, hseen, hview⟩ := hw.views gw (List.getElem?_mem hgw)
      rw [hs]
      exact hw.sent.append hseen (slave_of_refreshCluster (hview ▸ failoverCallback_mem_slaves hcb))

/-- A step keeps the invariant, with the store it reaches seen. -/
theorem step_targetInv {w w' : World} {act : Action} (h : step sessionExpireTTL w act = some w')
    (hw : TargetInv seen w) : TargetInv (fun s => seen s ∨ s = w'.store) w' := by
  have hw' : TargetInv (fun s => seen s ∨ s = w'.store) w := hw.mono fun _ => .inl
  cases act with
  | put n => cases h; exact ⟨.inr rfl, hw'.views.broadcast _, hw'.sent⟩
  | expire addr =>
    obtain ⟨_, -, h⟩ := Option.bind_eq_some.mp h
    cases h; exact ⟨.inr rfl, hw'.views.broadcast _, hw'.sent⟩
  | advance dt => cases h; exact ⟨hw'.store, hw'.views, hw'.sent⟩
  | receive g k =>
    obtain ⟨gw, hgw, h⟩ := Option.bind_eq_some.mp h
    split at h
    · cases h
      refine ⟨hw'.store, hw'.views.set ?_ g, hw'.sent⟩
      exact hw'.views gw (List.getElem?_mem hgw)
    · cases h
  | watch g =>
    obtain ⟨hst, hs, gw, gw', hgw, hgs, hview⟩ := watchStep_views h
    exact ⟨hst ▸ hw'.store, hgs ▸ hw'.views.set_of_view hgw hw'.store hview, hs ▸ hw'.sent⟩
  | invoke g node =>
    obtain ⟨_, -, h⟩ := Option.bind_eq_some.mp h
    cases h; exact ⟨hw'.store, hw'.views, hw'.sent⟩
  | failover i => exact failoverStep_targetInv sessionExpireTTL h hw'

/-- Over a run the invariant holds with the stores the run passes through seen. -/
theorem run_targetInv {w w' : World} {acts : List Action} (h : run sessionExpireTTL w acts = some w')
    (hw : TargetInv seen w) : TargetInv (fun s => seen s ∨ StoreAlong sessionExpireTTL w acts s) w' := by
  induction acts generalizing w seen with
  | nil => cases h; exact hw.mono fun _ => .inl
  | cons act acts ih =>
    obtain ⟨w₁, h₁, h⟩ := Option.bind_eq_some.mp h
    refine (ih h (step_targetInv sessionExpireTTL h₁ hw)).mono fun s hs => ?_
    rcases hs with (hs | rfl) | ⟨n, hn, w₀, hrun, rfl⟩
    · exact .inl hs
    · exact .inr ⟨1, by simp, w₁, by simp [run, h₁], rfl⟩
    · refine .inr ⟨n + 1, by simpa using hn, w₀, ?_, rfl⟩
      rw [List.take_succ_cons, run, List.foldlM_cons, h₁]
      exact hrun

theorem init_targetInv (nodes : List Node) (now : Int) (k : Nat) :
    TargetInv (· = nodes) (World.init nodes now k) :=
  ⟨rfl, fun _ h => ⟨nodes, rfl, by rw [List.eq_of_mem_replicate h]⟩, fun _ h => by cases h⟩

/-- Over every run, across any interleaving of the gateways, the node writes and the calls
of `FailoverIfNeeded`, every `SlaveOfCommand{}` goes to a node record of the dead node's
shard that names a master, and that record stood in the store at some point of the run:
the view that chose the target was `RefreshCluster` of that store. The node may have
re-registered since, as a master after an earlier promotion, when the view is stale. -/
theorem slaveOf_targets_slaves {nodes : List Node} {now : Int} {k : Nat} {acts : List Action}
    {w : World} (h : run sessionExpireTTL (World.init nodes now k) acts = some w) :
    ∀ g node target, (g, node, target) ∈ w.sent →
      target.shardID = node.shardID ∧ target.isMaster = false ∧
      ∃ n ≤ acts.length, ∃ w₀, run sessionExpireTTL (World.init nodes now k) (acts.take n) = some w₀ ∧
        target ∈ w₀.store := by
  intro g node target he
  obtain ⟨s, hs, hmem, hshard, hslave⟩ :=
    (run_targetInv sessionExpireTTL h (init_targetInv nodes now k)).sent _ he
  refine ⟨hshard, hslave, ?_⟩
  rcases hs with rfl | ⟨n, hn, w₀, hrun, rfl⟩
  · exact ⟨0, Nat.zero_le _, _, rfl, hmem⟩
  · exact ⟨n, hn, w₀, hrun, hmem⟩

/-- The gateway's call for the dead master `m` sends `SlaveOfCommand{}` to `m`'s slave `a`,
whose record the store held from the start. -/
theorem slaveOf_targets_slaves_dead_master :
    let m : Node := ⟨"s1", "10.0.0.1", "8121", "", "", "z1", 0⟩
    let a : Node := ⟨"s1", "10.0.0.2", "8121", "10.0.0.1", "8121", "z2", 100⟩
    let acts : List Action := [.invoke 0 m, .failover 0, .failover 0, .failover 0]
    ∃ w, run 30 (World.init [m, a] 100 1) acts = some w ∧
      w.sent = [(0, m, a)] ∧
      ∀ g node target, (g, node, target) ∈ w.sent →
        target.shardID = node.shardID ∧ target.isMaster = false ∧
        ∃ n ≤ acts.length, ∃ w₀, run 30 (World.init [m, a] 100 1) (acts.take n) = some w₀ ∧
          target ∈ w₀.store := by
  intro m a acts
  obtain ⟨w, h⟩ : ∃ w, run 30 (World.init [m, a] 100 1) acts = some w := ⟨_, rfl⟩
  have hs : w.sent = [(0, m, a)] := by
    cases h; rfl
  exact ⟨w, h, hs, slaveOf_targets_slaves 30 h⟩

end Gateways

end Baudtime.Meta
