import Baudtime.Meta.Cluster
import Baudtime.Meta.RouteKey

/-!
# The route cache under concurrent calls

`getShardIDs(metricName, day)` looks the metric's shard group for the day up in the route
cache, and on a miss takes the lock of the metric's `RouteInfo`, looks again, reads the
route key from the store and, when the key is absent, allocates a group from
`GetMasters()` and writes it with `etcdPut`. The cache `routeInfos` maps a metric to its
`RouteInfo`; `getRouteInfoFromCache` creates one with `LoadOrStore` when there is none.
Meanwhile the watch loop applies the store's route-key events to the cache: a `PUT`
fills the day in, and a `DELETE` removes it and evicts the whole metric when the day is
the `RouteInfo`'s `Timeline`. The store is shared with the other gateways, whose own
`getShardIDsFromEtcd` may write a route key at any time; the watch loop receives their
`PUT`s as it receives this process's.

The process is a state machine. A step is one call advancing by one of its steps, the
store expiring a route key's lease, another gateway writing a route key, or the watch loop
handling its next event. Each call
of `getRouteInfoFromCache`, `getShardIDsFromCache`, `etcdGet`, `etcdPut` and each event
is one step. `RouteInfo` is declared outside the sources at hand and is modelled from the
spec. `GetMasters()` is a fixed list of shard IDs, and the store reports no errors, so
that the only error left is "not enough shards". The read of the group-route key and the
`ShardGrpRouteK` field are left out, since no result here depends on them. Ghost logs
record each `etcdPut` of this process with whether its key already existed, and each key
another gateway wrote.

The double-checked locking relies on every call for a metric locking the same
`RouteInfo`. An eviction between two calls' lookups hands the second call a fresh
`RouteInfo`, so both reach `etcdPut` of the same key.

## Main definitions

* `RouteInfo`, `World`, `Call`, `Pc`
* `World.getRouteInfoFromCache`
* `stepCall`, `handleRouteEvent`, `step`, `run`
-/

namespace Baudtime.Meta

/-- Modelled from the spec: a metric's `RouteInfo`, its shard groups by day, `Timeline`
(the most recently written day), and the call holding its lock. -/
structure RouteInfo where
  byDay : Nat → Option (List String) := fun _ => none
  timeline : Nat := 0
  holder : Option Nat := none

namespace RouteInfo

/-- Modelled from the spec: `routeInfo.Get(day)`. -/
def get (r : RouteInfo) (day : Nat) : Option (List String) := r.byDay day

/-- Modelled from the spec: `routeInfo.Put(day, shardGroup)`. -/
def put (r : RouteInfo) (day : Nat) (shardGroup : List String) : RouteInfo :=
  { r with byDay := setAt r.byDay day (some shardGroup), timeline := day }

/-- Modelled from the spec: `routeInfo.Delete(day)`. -/
def delete (r : RouteInfo) (day : Nat) : RouteInfo :=
  { r with byDay := setAt r.byDay day none }

end RouteInfo

/-- A route-key event of the store, as the watch loop receives it. -/
inductive RouteEvent
  | put (key : String) (shardGroup : List String)
  | delete (key : String)

/-- Where a call of `getShardIDs` stands. The `RouteInfo`s are named by their index in
the heap. -/
inductive Pc
  /-- Before the first `getShardIDsFromCache`. -/
  | start
  /-- Before `getRouteInfoFromCache` for the lock. -/
  | lookup
  /-- Waiting for `routeInfo.Lock()`. -/
  | lock (r : Nat)
  /-- Holding the lock, before the second `getShardIDsFromCache`. -/
  | recheck (r : Nat)
  /-- Holding the lock, before `etcdGet` of the route key. -/
  | fetch (r : Nat)
  /-- Holding the lock, before `etcdPut` of the allocated group. -/
  | put (r : Nat) (shardGroup : List String)
  /-- Holding the lock, before `routeInfo.Put` and `Unlock`. -/
  | fill (r : Nat) (shardGroup : List String)
  /-- Returned. -/
  | done (result : Except String (List String))

/-- A call of `getShardIDs(metricName, day)`. -/
structure Call where
  metricName : String
  day : Nat
  pc : Pc

/-- The process and the store. -/
structure World where
  /-- `m.routeInfos`. -/
  routeInfos : String → Option Nat
  /-- The `RouteInfo` objects. -/
  heap : Nat → RouteInfo
  /-- How many `RouteInfo`s were created. -/
  allocated : Nat
  /-- The route keys of the store, written by this process and by the other gateways. -/
  store : String → Option (List String)
  /-- Route-key events the watch loop has not handled yet. -/
  events : List RouteEvent
  calls : List Call
  /-- Ghost: every `etcdPut` of this process, with whether its key already existed. -/
  puts : List (String × Bool)
  /-- Ghost: the route keys the other gateways wrote. -/
  remotePuts : List String

/-- What the process is configured with. -/
structure RouteConfig where
  routeInfoPrefix : String
  /-- The shard IDs of `GetMasters()`, in its order. -/
  masters : List String
  shardGroupCap : Nat

/-- A step of the process. -/
inductive Action
  /-- Call `i` takes its next step. -/
  | call (i : Nat)
  /-- The lease of a route key expires. -/
  | expire (key : String)
  /-- Another gateway's `etcdPut` of a route key, whose `PUT` the watch loop receives in
  turn. -/
  | remotePut (key : String) (shardGroup : List String)
  /-- The watch loop handles its next route-key event. -/
  | deliver

namespace World

/-- No `RouteInfo`, an empty store, and every call at its start. -/
def init (calls : List (String × Nat)) : World where
  routeInfos _ := none
  heap _ := {}
  allocated := 0
  store _ := none
  events := []
  calls := calls.map fun (metricName, day) => ⟨metricName, day, .start⟩
  puts := []
  remotePuts := []

/-- `getRouteInfoFromCache(metricName)`: the cached `RouteInfo`, or a new one stored with
`LoadOrStore`. -/
def getRouteInfoFromCache (w : World) (metricName : String) : World × Nat :=
  match w.routeInfos metricName with
  | some r => (w, r)
  | none =>
    ({ w with
        routeInfos := setAt w.routeInfos metricName (some w.allocated)
        heap := setAt w.heap w.allocated {}
        allocated := w.allocated + 1 }, w.allocated)

/-- Apply `f` to the `RouteInfo` `r`. -/
def modifyInfo (w : World) (r : Nat) (f : RouteInfo → RouteInfo) : World :=
  { w with heap := setAt w.heap r (f (w.heap r)) }

/-- Move call `i` to `pc`. -/
def setPc (w : World) (i : Nat) (c : Call) (pc : Pc) : World :=
  { w with calls := w.calls.set i { c with pc := pc } }

/-- `routeInfo.Unlock()`. -/
def unlock (w : World) (r : Nat) : World := w.modifyInfo r ({ · with holder := none })

end World

variable (cfg : RouteConfig)

/-- The error of `getShardIDsFromEtcd` when `GetMasters()` has fewer than
`ShardGroupCap` masters. -/
def notEnoughShards (key : String) : String := "not enough shards to init " ++ key

/-- One step of call `i` of `getShardIDs`; `none` when it waits for the lock or has
returned. -/
def stepCall (w : World) (i : Nat) : Option World := do
  let c ← w.calls[i]?
  let key := routeKey cfg.routeInfoPrefix c.metricName c.day
  match c.pc with
  | .start =>
    let (w, r) := w.getRouteInfoFromCache c.metricName
    match (w.heap r).get c.day with
    | some shardGroup => some (w.setPc i c (.done (.ok shardGroup)))
    | none => some (w.setPc i c .lookup)
  | .lookup =>
    let (w, r) := w.getRouteInfoFromCache c.metricName
    some (w.setPc i c (.lock r))
  | .lock r =>
    if (w.heap r).holder = none then
      some ((w.modifyInfo r ({ · with holder := some i })).setPc i c (.recheck r))
    else none
  | .recheck r =>
    let (w, r') := w.getRouteInfoFromCache c.metricName
    match (w.heap r').get c.day with
    | some shardGroup => some ((w.unlock r).setPc i c (.done (.ok shardGroup)))
    | none => some (w.setPc i c (.fetch r))
  | .fetch r =>
    match w.store key with
    | some shardGroup => some (w.setPc i c (.fill r shardGroup))
    | none =>
      if cfg.masters.length < cfg.shardGroupCap then
        some ((w.unlock r).setPc i c (.done (.error (notEnoughShards key))))
      else some (w.setPc i c (.put r (cfg.masters.take cfg.shardGroupCap)))
  | .put r shardGroup =>
    some ({ w with
        store := setAt w.store key (some shardGroup)
        events := w.events ++ [RouteEvent.put key shardGroup]
        puts := w.puts ++ [(key, (w.store key).isSome)] }.setPc i c (.fill r shardGroup))
  | .fill r shardGroup =>
    some ((w.modifyInfo r fun ri => { ri.put c.day shardGroup with holder := none }).setPc i c
      (.done (.ok shardGroup)))
  | .done _ => none

/-- The route-event handler of the watch loop; `none` where it panics. -/
def handleRouteEvent (w : World) : RouteEvent → Option World
  | .put key shardGroup =>
    match readRouteKey cfg.routeInfoPrefix key with
    | .ok metricName day =>
      let (w, r) := w.getRouteInfoFromCache metricName
      some (w.modifyInfo r (·.put day shardGroup))
    | .parseError => some w
    | .indexOutOfRange => none
  | .delete key =>
    match readRouteKey cfg.routeInfoPrefix key with
    | .ok metricName day =>
      let (w, r) := w.getRouteInfoFromCache metricName
      let w := w.modifyInfo r (·.delete day)
      if day = (w.heap r).timeline then
        some { w with routeInfos := setAt w.routeInfos metricName none }
      else some w
    | .parseError => some w
    | .indexOutOfRange => none

/-- One step of the process; `none` when the step cannot be taken. -/
def step (w : World) : Action → Option World
  | .call i => stepCall cfg w i
  | .expire key =>
    if (w.store key).isSome then
      some { w with store := setAt w.store key none, events := w.events ++ [RouteEvent.delete key] }
    else none
  | .remotePut key shardGroup =>
    some { w with
      store := setAt w.store key (some shardGroup)
      events := w.events ++ [RouteEvent.put key shardGroup]
      remotePuts := w.remotePuts ++ [key] }
  | .deliver =>
    match w.events with
    | [] => none
    | e :: rest => handleRouteEvent cfg { w with events := rest } e

/-- A run of the process from `w`; `none` when some step cannot be taken. -/
def run (w : World) (acts : List Action) : Option World := acts.foldlM (step cfg) w

/-- Yesterday's call for `cpu` fills the cache (`Timeline` 1). Call 1 for today reaches
`etcdPut` while holding that `RouteInfo`; yesterday's key then expires, its `DELETE`
evicts `cpu`, and call 2 for today creates a fresh `RouteInfo`, locks it, and writes the
key first. Call 1 then writes the key again while it exists. -/
theorem getShardIDs_puts_twice :
    (run ⟨"route_", ["s1", "s2"], 1⟩ (World.init [("cpu", 1), ("cpu", 2), ("cpu", 2)])
      ([.call 0, .call 0, .call 0, .call 0, .call 0, .call 0, .call 0, .deliver] ++
       [.call 1, .call 1, .call 1, .call 1, .call 1] ++ [.expire "route_cpu/1", .deliver] ++
       [.call 2, .call 2, .call 2, .call 2, .call 2, .call 2, .call 2] ++ [.call 1])).map
        World.puts =
      some [("route_cpu/1", false), ("route_cpu/2", false), ("route_cpu/2", true)] := by
  decide

end Baudtime.Meta
