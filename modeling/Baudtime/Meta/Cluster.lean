import Mathlib.Data.List.Basic
import Mathlib.Logic.Function.Basic

/-!
# The cluster view

`RefreshCluster` reads every node record from the store and publishes a fresh map from
shard ID to `Shard`: the loop finds or creates the shard of each node, makes a node whose
`MasterIP` and `MasterPort` are both empty that shard's `Master` and appends any other
node to its `Slaves`. `GetShard`, `GetMaster` and `GetSlaves` read the published map, and
`FailoverIfNeeded` reads it to decide whom to promote.

The `Node` record and its `Addr()` are declared outside the sources at hand and are
modelled from the spec. The published map is a function from shard ID to `Option Shard`,
and one iteration of the loop updates it at the node's shard ID (`setAt`).

The view is characterised for every node list: a shard's `Slaves` are its
slave-classified nodes in input order, and its `Master` is the last of its
master-classified nodes, so that every earlier one is dropped from the view.

## Main definitions

* `Node`, `Shard`
* `addNode`, `refreshCluster` — the loop of `RefreshCluster`
* `getShard`, `getMaster`, `getSlaves`

## Main results

* `refreshCluster_eq_shardOf` — the view, as a function of the node list
* `refreshCluster_spec` — keys, slaves and master of every shard of the view
-/

namespace Baudtime.Meta

/-- The map `f` with `k` mapped to `v`. Unlike `Function.update` it casts nothing, so that
runs of the model evaluate by `decide` without comparing keys up to conversion. -/
def setAt {κ ν : Type} [DecidableEq κ] (f : κ → ν) (k : κ) (v : ν) : κ → ν :=
  fun x => if x = k then v else f x

section SetAt

variable {κ ν : Type} [DecidableEq κ] (f : κ → ν) (k : κ) (v : ν)

@[simp] theorem setAt_same : setAt f k v k = v := if_pos rfl

theorem setAt_ne {x : κ} (h : x ≠ k) : setAt f k v x = f x := if_neg h

theorem setAt_eq_update : setAt f k v = Function.update f k v := by
  funext x
  simp [setAt, Function.update_apply]

end SetAt

/-- Reading a list after one entry was set. -/
theorem getElem?_set_of_getElem? {α : Type} {l : List α} {i : Nat} {a : α} (h : l[i]? = some a)
    (b : α) (j : Nat) : (l.set i b)[j]? = if j = i then some b else l[j]? := by
  have hi : i < l.length := (List.getElem?_eq_some_iff.mp h).1
  by_cases hji : j = i
  · subst hji; rw [if_pos rfl, List.getElem?_set_self hi]
  · rw [if_neg hji, List.getElem?_set_ne (Ne.symm hji)]

/-- Modelled from the spec: a node record `(shardID, ip, port, masterIP, masterPort, idc,
heartbeatAt)`, as `GetNodes` returns it and a node key's value holds. -/
structure Node where
  shardID : String
  ip : String
  port : String
  masterIP : String
  masterPort : String
  idc : String
  heartbeatAt : Int
  deriving DecidableEq, Repr

/-- Modelled from the spec: `node.Addr()`, the address a node listens on and is keyed by. -/
def Node.addr (n : Node) : String × String := (n.ip, n.port)

/-- The classification of `RefreshCluster`: `n.MasterIP == "" && n.MasterPort == ""`. -/
def Node.isMaster (n : Node) : Bool := n.masterIP == "" && n.masterPort == ""

/-- `Shard`: the shard's master, its slaves, and the `failovering` latch of
`FailoverIfNeeded`. `new(Shard)` is the default value. -/
structure Shard where
  master : Option Node := none
  slaves : List Node := []
  failovering : Bool := false
  deriving DecidableEq, Repr

/-- One iteration of the loop of `RefreshCluster`. -/
def addNode (shards : String → Option Shard) (n : Node) : String → Option Shard :=
  let shard := (shards n.shardID).getD {}
  setAt shards n.shardID <| some <|
    if n.isMaster then { shard with master := some n }
    else { shard with slaves := shard.slaves ++ [n] }

/-- The map `RefreshCluster` publishes for the nodes `GetNodes` returned. -/
def refreshCluster (nodes : List Node) : String → Option Shard :=
  nodes.foldl addNode fun _ => none

/-- `m.GetShard(shardID)`. -/
def getShard (shards : String → Option Shard) (shardID : String) : Option Shard :=
  shards shardID

/-- `GetMaster(shardID)`: `nil` for an unknown shard. -/
def getMaster (shards : String → Option Shard) (shardID : String) : Option Node :=
  (shards shardID).bind Shard.master

/-- `GetSlaves(shardID)`: `nil` for an unknown shard. -/
def getSlaves (shards : String → Option Shard) (shardID : String) : List Node :=
  ((shards shardID).map Shard.slaves).getD []

/-! ## The view as a function of the node list -/

/-- The shard the view holds for the ID `k`, read off the whole node list: the last
master-classified node of `k`, and the slave-classified nodes of `k` in input order. -/
def collect (nodes : List Node) (k : String) : Shard where
  master := (nodes.filter fun n => n.shardID == k && n.isMaster).getLast?
  slaves := nodes.filter fun n => n.shardID == k && !n.isMaster

/-- The entry of `k` in the view: present exactly when some node belongs to `k`. -/
def shardOf (nodes : List Node) (k : String) : Option Shard :=
  if nodes.any (·.shardID == k) then some (collect nodes k) else none

theorem collect_of_not_any {nodes : List Node} {k : String}
    (hk : ∀ n ∈ nodes, n.shardID ≠ k) : collect nodes k = {} := by
  have hm : nodes.filter (fun n => n.shardID == k && n.isMaster) = [] :=
    List.filter_eq_nil_iff.mpr fun n hn => by simp [hk n hn]
  have hs : nodes.filter (fun n => n.shardID == k && !n.isMaster) = [] :=
    List.filter_eq_nil_iff.mpr fun n hn => by simp [hk n hn]
  simp [collect, hm, hs]

theorem shardOf_getD (nodes : List Node) (k : String) :
    (shardOf nodes k).getD {} = collect nodes k := by
  unfold shardOf
  split
  · rfl
  · rename_i h
    exact (collect_of_not_any fun n hn hk => h (List.any_eq_true.mpr ⟨n, hn, by simpa using hk⟩)).symm

theorem getMaster_eq (shards : String → Option Shard) (k : String) :
    getMaster shards k = ((shards k).getD {}).master := by
  unfold getMaster; cases shards k <;> rfl

theorem getSlaves_eq (shards : String → Option Shard) (k : String) :
    getSlaves shards k = ((shards k).getD {}).slaves := by
  unfold getSlaves; cases shards k <;> rfl

/-- Adding a node to its own shard's entry is appending it to the node list. -/
theorem collect_append_self (nodes : List Node) (n : Node) :
    (if n.isMaster then { collect nodes n.shardID with master := some n }
      else { collect nodes n.shardID with
        slaves := (collect nodes n.shardID).slaves ++ [n] }) =
      collect (nodes ++ [n]) n.shardID := by
  cases hm : n.isMaster <;> simp [collect, List.filter_append, hm]

theorem shardOf_append_of_ne (nodes : List Node) {n : Node} {k : String}
    (hk : k ≠ n.shardID) : shardOf (nodes ++ [n]) k = shardOf nodes k := by
  have hk' : (n.shardID == k) = false := by simpa using Ne.symm hk
  simp [shardOf, collect, List.filter_append, hk']

/-- The step lemma: one iteration of the loop turns the view of a node list into the view
of the list extended by the node. -/
theorem addNode_shardOf (nodes : List Node) (n : Node) :
    addNode (shardOf nodes) n = shardOf (nodes ++ [n]) := by
  funext k
  by_cases hk : k = n.shardID
  · subst hk
    simp only [addNode, setAt_same, shardOf_getD, collect_append_self]
    simp [shardOf]
  · rw [addNode, setAt_ne _ _ _ hk, shardOf_append_of_ne nodes hk]

/-- The run lemma: the published map is `shardOf` of the node list. -/
theorem refreshCluster_eq_shardOf (nodes : List Node) :
    refreshCluster nodes = shardOf nodes := by
  induction nodes using List.reverseRecOn with
  | nil => funext k; rfl
  | append_singleton nodes n ih =>
    rw [refreshCluster, List.foldl_append, ← refreshCluster, ih]
    exact addNode_shardOf nodes n

theorem getShard_refreshCluster_isSome (nodes : List Node) (k : String) :
    (getShard (refreshCluster nodes) k).isSome ↔ ∃ n ∈ nodes, n.shardID = k := by
  simp [getShard, refreshCluster_eq_shardOf, shardOf]

theorem getSlaves_refreshCluster (nodes : List Node) (k : String) :
    getSlaves (refreshCluster nodes) k = nodes.filter fun n => n.shardID == k && !n.isMaster := by
  rw [getSlaves_eq, refreshCluster_eq_shardOf, shardOf_getD]; rfl

theorem getMaster_refreshCluster (nodes : List Node) (k : String) :
    getMaster (refreshCluster nodes) k =
      (nodes.filter fun n => n.shardID == k && n.isMaster).getLast? := by
  rw [getMaster_eq, refreshCluster_eq_shardOf, shardOf_getD]; rfl

/-- For every node list, the view `RefreshCluster` publishes has exactly the nodes'
shard IDs as keys; `GetSlaves` of a shard is its slave-classified nodes in input order,
so a node is listed only under its own shard; and `GetMaster` of a shard is the last of
its master-classified nodes in input order. -/
theorem refreshCluster_spec (nodes : List Node) :
    (∀ k, (getShard (refreshCluster nodes) k).isSome ↔ ∃ n ∈ nodes, n.shardID = k) ∧
      (∀ k, getSlaves (refreshCluster nodes) k =
        nodes.filter fun n => n.shardID == k && !n.isMaster) ∧
      ∀ k, getMaster (refreshCluster nodes) k =
        (nodes.filter fun n => n.shardID == k && n.isMaster).getLast? :=
  ⟨getShard_refreshCluster_isSome nodes, getSlaves_refreshCluster nodes,
    getMaster_refreshCluster nodes⟩

/-- Two nodes of one shard both register as masters, as while a promoted slave still runs
beside an old master that re-registered: the earlier one is neither the shard's master nor
among its slaves. -/
theorem refreshCluster_drops_earlier_master :
    let old : Node := ⟨"s1", "10.0.0.1", "8121", "", "", "z1", 0⟩
    let new : Node := ⟨"s1", "10.0.0.2", "8121", "", "", "z1", 0⟩
    old.addr ≠ new.addr ∧ getMaster (refreshCluster [old, new]) "s1" = some new ∧
      old ∉ getSlaves (refreshCluster [old, new]) "s1" := by
  decide

end Baudtime.Meta
