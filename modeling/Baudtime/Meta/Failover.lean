import Baudtime.Meta.Cluster
import Mathlib.Data.List.Nodup

/-!
# Choosing the slave to promote

`FailoverIfNeeded(node)` runs when the watch loop sees a node key deleted. It returns at
once for a shard the gateway's view does not know, for a node that may still be online,
and when a failover of the shard is already running in this gateway (the `failovering`
latch). Otherwise it runs a callback under the store-wide `failover` mutex. The callback
re-reads the view: when the shard has a master at another address, another gateway has
already failed it over. Otherwise it picks among the shard's slaves the last one in the
dead node's IDC, or the first slave when none is, and sends it `SlaveOfCommand{}`
("slave of no one").

The watch loop calls `FailoverIfNeeded` before `RefreshCluster`, so a dead slave is still
in the view. When the view's shard has no master, nothing keeps the dead node itself from
being chosen: its own IDC always matches. With a master at the dead node's address the
choice is among live nodes, since a view never lists a master among the slaves.

## Main definitions

* `Node.mayOnline`
* `idcMatch` — the IDC loop of the callback
* `failoverCallback`, `failoverIfNeeded`

## Main results

* `idcMatch_eq_getLast` — the loop keeps the last slave in the dead node's IDC
* `failoverIfNeeded_mem_slaves`, `failoverIfNeeded_idc` — the target is a slave of the
  shard, in the dead node's IDC whenever one is
* `failoverIfNeeded_addr_ne_of_master` — with the dead master still in the view, the
  target is another node
-/

namespace Baudtime.Meta

/-- Modelled from the spec: `node.MayOnline()`, true iff
`now - heartbeatAt < sessionExpireTTL`. -/
def Node.mayOnline (sessionExpireTTL now : Int) (n : Node) : Bool :=
  decide (now - n.heartbeatAt < sessionExpireTTL)

/-- The loop `for _, slave := range slaves { if slave.IDC == node.IDC { chosen = slave } }`. -/
def idcMatch (node : Node) (slaves : List Node) : Option Node :=
  slaves.foldl (fun chosen slave => if slave.idc = node.idc then some slave else chosen) none

/-- The callback `FailoverIfNeeded` runs under the `failover` mutex, up to
`tcp.Connect(chosen.Addr())`: `none` when the view's master of the shard is at another
address ("already failover by other gateway"), otherwise the slave that is sent
`SlaveOfCommand{}`. -/
def failoverCallback (shards : String → Option Shard) (node : Node) :
    Except String (Option Node) :=
  if (getMaster shards node.shardID).any (·.addr != node.addr) then .ok none
  else
    match getSlaves shards node.shardID with
    | [] => .error "no available slave to failover"
    | slaves@(first :: _) => .ok (some ((idcMatch node slaves).getD first))

/-- The node `FailoverIfNeeded(node)` sends `SlaveOfCommand{}` to, over the view
`shards`: none when it returns before the mutex (an unknown shard, a node that may be
online, the `failovering` latch already set) or the callback sends nothing. -/
def failoverIfNeeded (sessionExpireTTL now : Int) (shards : String → Option Shard)
    (node : Node) : Option Node :=
  match getShard shards node.shardID with
  | none => none
  | some shard =>
    if node.mayOnline sessionExpireTTL now || shard.failovering then none
    else
      match failoverCallback shards node with
      | .ok chosen => chosen
      | .error _ => none

/-! ## The IDC loop -/

theorem idcMatch_eq_getLast (node : Node) (slaves : List Node) :
    idcMatch node slaves = (slaves.filter (·.idc = node.idc)).getLast? := by
  induction slaves using List.reverseRecOn with
  | nil => rfl
  | append_singleton slaves s ih =>
    rw [idcMatch, List.foldl_append, ← idcMatch, ih, List.filter_append]
    by_cases hs : s.idc = node.idc <;> simp [hs]

theorem idcMatch_mem {node x : Node} {slaves : List Node} (h : idcMatch node slaves = some x) :
    x ∈ slaves ∧ x.idc = node.idc := by
  rw [idcMatch_eq_getLast] at h
  simpa using List.mem_of_getLast?_eq_some h

theorem idcMatch_isSome {node : Node} {slaves : List Node}
    (h : ∃ s ∈ slaves, s.idc = node.idc) : (idcMatch node slaves).isSome := by
  obtain ⟨s, hs, hidc⟩ := h
  rw [idcMatch_eq_getLast, List.getLast?_isSome, ← List.length_pos, List.length_pos_iff_exists_mem]
  exact ⟨s, List.mem_filter.mpr ⟨hs, by simpa using hidc⟩⟩

/-! ## The target -/

/-- The callback sends only when the view has no master at another address, and then to
`idcMatch`'s choice, or to the first slave when no slave is in the dead node's IDC. -/
theorem failoverIfNeeded_eq_some {ttl now : Int} {shards : String → Option Shard}
    {node x : Node} (h : failoverIfNeeded ttl now shards node = some x) :
    (getMaster shards node.shardID).all (·.addr = node.addr) ∧
      ∃ first rest, getSlaves shards node.shardID = first :: rest ∧
        (idcMatch node (first :: rest)).getD first = x := by
  unfold failoverIfNeeded failoverCallback at h
  split at h
  · cases h
  · split at h
    · cases h
    · split at h
      · rename_i hcb; split at hcb
        · cases hcb; cases h
        · rename_i hm; split at hcb
          · cases hcb
          · rename_i slaves first rest heq
            cases hcb; cases h
            refine ⟨?_, first, rest, heq, rfl⟩
            cases hg : getMaster shards node.shardID <;> simp_all
      · cases h

theorem failoverIfNeeded_mem_slaves {ttl now : Int} {shards : String → Option Shard}
    {node x : Node} (h : failoverIfNeeded ttl now shards node = some x) :
    x ∈ getSlaves shards node.shardID := by
  obtain ⟨-, first, rest, heq, rfl⟩ := failoverIfNeeded_eq_some h
  rw [heq]
  cases hm : idcMatch node (first :: rest) with
  | none => exact List.mem_cons_self _ _
  | some y => exact (idcMatch_mem hm).1

/-- When the shard has a slave in the dead node's IDC, the target is in that IDC. -/
theorem failoverIfNeeded_idc {ttl now : Int} {shards : String → Option Shard}
    {node x : Node} (h : failoverIfNeeded ttl now shards node = some x)
    (hidc : ∃ s ∈ getSlaves shards node.shardID, s.idc = node.idc) : x.idc = node.idc := by
  obtain ⟨-, first, rest, heq, rfl⟩ := failoverIfNeeded_eq_some h
  rw [heq] at hidc
  obtain ⟨y, hy⟩ := Option.isSome_iff_exists.mp (idcMatch_isSome hidc)
  rw [hy]
  exact (idcMatch_mem hy).2

/-- Over a view `RefreshCluster` built from nodes with distinct addresses, a call for a
dead node that is still the shard's master never targets the dead node: the target is a
slave, and no slave shares the master's address. -/
theorem failoverIfNeeded_addr_ne_of_master {ttl now : Int} {nodes : List Node}
    (hd : (nodes.map Node.addr).Nodup) {node m x : Node}
    (hm : getMaster (refreshCluster nodes) node.shardID = some m)
    (h : failoverIfNeeded ttl now (refreshCluster nodes) node = some x) :
    x.addr ≠ node.addr := by
  have hmaddr : m.addr = node.addr := by
    simpa [hm] using (failoverIfNeeded_eq_some h).1
  have hx := failoverIfNeeded_mem_slaves h
  rw [getSlaves_refreshCluster] at hx
  rw [getMaster_refreshCluster] at hm
  have hm' := List.mem_filter.mp (List.mem_of_getLast?_eq_some hm)
  have hx' := List.mem_filter.mp hx
  have hxm : x ≠ m := by
    rintro rfl
    simp_all
  rw [← hmaddr]
  exact fun heq => hxm (List.inj_on_of_nodup_map hd hx'.1 hm'.1 heq)

/-- A shard whose view has no master (its failover is pending, its promoted slave not yet
re-registered) loses one of its two slaves, both in IDC `z1`: the dead slave is the last
slave in its own IDC, and it is chosen for promotion. -/
theorem failoverIfNeeded_promotes_dead_slave :
    let s1 : Node := ⟨"s1", "10.0.0.2", "8121", "10.0.0.1", "8121", "z1", 100⟩
    let d : Node := ⟨"s1", "10.0.0.3", "8121", "10.0.0.1", "8121", "z1", 0⟩
    d.mayOnline 30 100 = false ∧ failoverIfNeeded 30 100 (refreshCluster [s1, d]) d = some d := by
  decide

end Baudtime.Meta
