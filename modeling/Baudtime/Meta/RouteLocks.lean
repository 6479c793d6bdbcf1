import Baudtime.Meta.RouteCache
import Mathlib.Data.List.Nodup

/-!
# The locking of `getShardIDs` without lease expiry

`getShardIDs` relies on double-checked locking: a call that misses the cache locks the
metric's `RouteInfo`, looks again, and only then reads and writes the store. This is
correct as long as every call for a metric locks the same `RouteInfo`, and that holds
until an eviction. Over every run in which no route key's lease expires, so that the
watch loop sees no `DELETE` and evicts nothing, the process writes each key at most once,
whatever the other gateways write; it writes a key the store already holds only when
another gateway wrote that key between its `etcdGet` and its `etcdPut`
(`getShardIDs_puts_once`). The lock is the process's own, so it orders nothing against the
other gateways.

The invariant `LockInv` says that the pending route events are all `PUT`s, that each
metric keeps the `RouteInfo` it was first given, that a `RouteInfo`'s lock is held
exactly by the call between its `Lock` and its `Unlock`, that a call between `etcdGet`
and `etcdPut` finds its key absent unless another gateway wrote it, that a key in the
store was written by this process or another gateway, and that a key this process wrote
is filled in its `RouteInfo` or about to be filled in by the call holding the lock.

## Main definitions

* `Pc.lookedUp`, `Pc.held`, `Pc.writing`
* `Filled`, `LockInv`

## Main results

* `LockInv.absent_of_miss`: the re-check under the lock is sound
* `stepCall_lockInv`, `step_lockInv`, `run_lockInv`
* `step_remotePuts`, `run_remotePuts`: only another gateway's `etcdPut` logs a remote key
* `getShardIDs_puts_once`
-/

namespace Baudtime.Meta

/-! ## Field lemmas -/

theorem setAt_apply {κ ν : Type} [DecidableEq κ] (f : κ → ν) (k : κ) (v : ν) (x : κ) :
    setAt f k v x = if x = k then v else f x := rfl

namespace World

variable (w : World) (i r : Nat) (c : Call) (pc : Pc) (f : RouteInfo → RouteInfo)

@[simp] theorem setPc_routeInfos : (w.setPc i c pc).routeInfos = w.routeInfos := rfl
@[simp] theorem setPc_heap : (w.setPc i c pc).heap = w.heap := rfl
@[simp] theorem setPc_allocated : (w.setPc i c pc).allocated = w.allocated := rfl
@[simp] theorem setPc_store : (w.setPc i c pc).store = w.store := rfl
@[simp] theorem setPc_events : (w.setPc i c pc).events = w.events := rfl
@[simp] theorem setPc_puts : (w.setPc i c pc).puts = w.puts := rfl
@[simp] theorem setPc_calls : (w.setPc i c pc).calls = w.calls.set i { c with pc := pc } := rfl

@[simp] theorem modifyInfo_routeInfos : (w.modifyInfo r f).routeInfos = w.routeInfos := rfl
@[simp] theorem modifyInfo_heap : (w.modifyInfo r f).heap = setAt w.heap r (f (w.heap r)) := rfl
@[simp] theorem modifyInfo_allocated : (w.modifyInfo r f).allocated = w.allocated := rfl
@[simp] theorem modifyInfo_store : (w.modifyInfo r f).store = w.store := rfl
@[simp] theorem modifyInfo_events : (w.modifyInfo r f).events = w.events := rfl
@[simp] theorem modifyInfo_puts : (w.modifyInfo r f).puts = w.puts := rfl
@[simp] theorem modifyInfo_calls : (w.modifyInfo r f).calls = w.calls := rfl

theorem unlock_eq : w.unlock r = w.modifyInfo r ({ · with holder := none }) := rfl

/-- What `f` keeps of a `RouteInfo`, `modifyInfo` keeps of every `RouteInfo`. -/
theorem heap_modifyInfo_of_forall {β : Type} {f : RouteInfo → RouteInfo} (p : RouteInfo → β)
    (hf : ∀ ri, p (f ri) = p ri) (r' : Nat) : p ((w.modifyInfo r f).heap r') = p (w.heap r') := by
  rw [modifyInfo_heap, setAt_apply]
  split
  · subst r'; exact hf _
  · rfl

@[simp] theorem byDay_modifyInfo_holder (o : Option Nat) (r' : Nat) :
    ((w.modifyInfo r ({ · with holder := o })).heap r').byDay = (w.heap r').byDay :=
  w.heap_modifyInfo_of_forall r RouteInfo.byDay (by intro; rfl) r'

/-- Filling a day in keeps every filled day filled. -/
theorem isSome_byDay_modifyInfo {f : RouteInfo → RouteInfo} {d : Nat} {g : List String}
    (hf : ∀ ri, (f ri).byDay = (ri.put d g).byDay) {r' d' : Nat}
    (h : ((w.heap r').byDay d').isSome) : (((w.modifyInfo r f).heap r').byDay d').isSome := by
  rw [modifyInfo_heap, setAt_apply]
  split
  · subst r'; simp only [hf, RouteInfo.put, setAt_apply]; split <;> simp_all
  · exact h

theorem getRouteInfoFromCache_of_some {m : String} {r : Nat} (h : w.routeInfos m = some r) :
    w.getRouteInfoFromCache m = (w, r) := by
  rw [getRouteInfoFromCache, h]

theorem getRouteInfoFromCache_calls (m : String) :
    (w.getRouteInfoFromCache m).1.calls = w.calls := by
  unfold getRouteInfoFromCache
  split <;> rfl

end World

/-! ## The invariant -/

/-- The `RouteInfo` a call has looked up for its lock. -/
def Pc.lookedUp : Pc → Option Nat
  | .lock r | .recheck r | .fetch r | .put r _ | .fill r _ => some r
  | _ => none

/-- The `RouteInfo` whose lock the call holds. -/
def Pc.held : Pc → Option Nat
  | .recheck r | .fetch r | .put r _ | .fill r _ => some r
  | _ => none

/-- The call is between its `etcdGet` and its `etcdPut`. -/
def Pc.writing : Pc → Bool
  | .fetch _ | .put _ _ => true
  | _ => false

theorem Pc.lookedUp_of_held {pc : Pc} {r : Nat} (h : pc.held = some r) : pc.lookedUp = some r := by
  cases pc <;> simp_all [Pc.held, Pc.lookedUp]

theorem Pc.held_of_writing {pc : Pc} (h : pc.writing) : ∃ r, pc.held = some r := by
  cases pc <;> simp_all [Pc.held, Pc.writing]

/-- A route event is a `PUT`. -/
def RouteEvent.isPut : RouteEvent → Bool
  | .put _ _ => true
  | .delete _ => false

variable (cfg : RouteConfig)

/-- The route key of call `c`. -/
def Call.key (c : Call) : String := routeKey cfg.routeInfoPrefix c.metricName c.day

/-- Day `d` of metric `m` is filled in the `RouteInfo` the metric is pinned to, or is about
to be filled in there by the call at `fill` for it. -/
def Filled (w : World) (m : String) (d : Nat) : Prop :=
  ∃ r, w.routeInfos m = some r ∧ (((w.heap r).byDay d).isSome ∨
    ∃ (j : Nat) (c : Call) (g : List String), w.calls[j]? = some c ∧ c.metricName = m ∧
      c.day = d ∧ c.pc = .fill r g)

/-- The invariant of the runs without lease expiry, whatever the other gateways write. -/
structure LockInv (w : World) : Prop where
  events_put : ∀ e ∈ w.events, e.isPut
  lt_allocated : ∀ (m : String) (r : Nat), w.routeInfos m = some r → r < w.allocated
  pinned : ∀ (i : Nat) (c : Call) (r : Nat), w.calls[i]? = some c → c.pc.lookedUp = some r →
    w.routeInfos c.metricName = some r
  holder_iff : ∀ r i : Nat, (w.heap r).holder = some i ↔
    ∃ c : Call, w.calls[i]? = some c ∧ c.pc.held = some r
  /-- A call between `etcdGet` and `etcdPut` finds its key absent unless another gateway
  wrote it, and this process has not written it. -/
  absent : ∀ (i : Nat) (c : Call), w.calls[i]? = some c → c.pc.writing →
    (w.store (c.key cfg) = none ∨ c.key cfg ∈ w.remotePuts) ∧ c.key cfg ∉ w.puts.map Prod.fst
  /-- Without expiry a key stays in the store once written. -/
  written : ∀ key, (w.store key).isSome → key ∈ w.remotePuts ∨ key ∈ w.puts.map Prod.fst
  puts_filled : ∀ m d, routeKey cfg.routeInfoPrefix m d ∈ w.puts.map Prod.fst → Filled w m d
  puts_fresh : ∀ q ∈ w.puts, q.2 = true → q.1 ∈ w.remotePuts
  puts_nodup : (w.puts.map Prod.fst).Nodup

variable {cfg}

/-- A step that moves call `i` to `pc`, changes no other call and grows the filled days
keeps every day filled, as long as a call leaving `fill` has filled its day in. -/
theorem Filled.move {w w' : World} {i : Nat} {c : Call} (hc : w.calls[i]? = some c) {pc : Pc}
    (hcalls : w'.calls = w.calls.set i { c with pc := pc })
    (hinfos : w'.routeInfos = w.routeInfos)
    (hgrow : ∀ r d, ((w.heap r).byDay d).isSome → ((w'.heap r).byDay d).isSome)
    (hfill : ∀ r g, c.pc = .fill r g → pc = .fill r g ∨ ((w'.heap r).byDay c.day).isSome)
    {m : String} {day : Nat} : Filled w m day → Filled w' m day := by
  rintro ⟨r, hr, hfilled | ⟨j, d, g, hd, hm, hday, hdpc⟩⟩
  · exact ⟨r, hinfos ▸ hr, .inl (hgrow r day hfilled)⟩
  have hset := getElem?_set_of_getElem? hc { c with pc := pc }
  rw [Filled, hinfos, hcalls]
  by_cases hji : j = i
  · subst hji
    rw [hc] at hd
    cases hd
    rcases hfill r g hdpc with hpc | hfilled
    · exact ⟨r, hr, .inr ⟨j, { c with pc := pc }, g, by rw [hset, if_pos rfl], hm, hday, hpc⟩⟩
    · exact ⟨r, hr, .inl (hday ▸ hfilled)⟩
  · exact ⟨r, hr, .inr ⟨j, d, g, by rw [hset, if_neg hji]; exact hd, hm, hday, hdpc⟩⟩

namespace LockInv

variable {w : World} (hw : LockInv cfg w)
include hw

/-- Two calls holding the same lock are the same call. -/
theorem held_unique {i j : Nat} {c d : Call} {r : Nat} (hc : w.calls[i]? = some c)
    (hd : w.calls[j]? = some d) (hcr : c.pc.held = some r) (hdr : d.pc.held = some r) : i = j := by
  have hi := (hw.holder_iff r i).mpr ⟨c, hc, hcr⟩
  have hj := (hw.holder_iff r j).mpr ⟨d, hd, hdr⟩
  exact Option.some_injective _ (hi.symm.trans hj)

/-- Two calls holding locks, with the same route key, hold the same lock and are the same
call. -/
theorem eq_of_key_eq {i j : Nat} {c d : Call} {r s : Nat} (hc : w.calls[i]? = some c)
    (hd : w.calls[j]? = some d) (hcr : c.pc.held = some r) (hds : d.pc.held = some s)
    (hkey : c.key cfg = d.key cfg) : i = j := by
  obtain ⟨hm, -⟩ := routeKey_inj hkey
  have hr := hw.pinned i c r hc (Pc.lookedUp_of_held hcr)
  have hs := hw.pinned j d s hd (Pc.lookedUp_of_held hds)
  rw [hm, hs] at hr
  cases hr
  exact hw.held_unique hc hd hcr hds

/-- Looking a metric up keeps the invariant. -/
theorem getRouteInfoFromCache (m : String) : LockInv cfg (w.getRouteInfoFromCache m).1 := by
  cases hm : w.routeInfos m with
  | some r => rwa [w.getRouteInfoFromCache_of_some hm]
  | none =>
    simp only [World.getRouteInfoFromCache, hm]
    have hne : ∀ m', w.routeInfos m' ≠ none → m' ≠ m := fun m' h heq => h (heq ▸ hm)
    refine ⟨hw.events_put, fun m' r h => ?_, fun i c r hc hr => ?_, fun r i => ?_, hw.absent,
      hw.written, fun m' d hk => ?_, hw.puts_fresh, hw.puts_nodup⟩ <;> dsimp only at *
    · rw [setAt_apply] at h
      split at h
      · cases h; omega
      · have := hw.lt_allocated m' r h; omega
    · have h := hw.pinned i c r hc hr
      rwa [setAt_ne _ _ _ (hne _ (by simp [h]))]
    · rw [setAt_apply]
      split
      · subst r
        simp only [Option.some.injEq, false_iff, not_exists, not_and, reduceCtorEq]
        intro c hc hheld
        have := hw.lt_allocated _ _ (hw.pinned i c _ hc (Pc.lookedUp_of_held hheld))
        omega
      · exact hw.holder_iff r i
    · obtain ⟨r, hr, hfill⟩ := hw.puts_filled m' d hk
      refine ⟨r, ?_, ?_⟩ <;> dsimp only
      · rwa [setAt_ne _ _ _ (hne _ (by simp [hr]))]
      · rwa [setAt_ne _ _ _ (by have := hw.lt_allocated _ _ hr; omega)]

/-- A step that moves call `i` to `pc`, changes no other call, grows the filled days and
keeps the store and the logs, keeps the invariant as long as the locks still match the
calls, the new `pc` looks up the `RouteInfo` the metric is pinned to, writes only a key it
may write, and a call leaving `fill` has filled its day in. -/
theorem move {w' : World} {i : Nat} {c : Call} (hc : w.calls[i]? = some c) {pc : Pc}
    (hcalls : w'.calls = w.calls.set i { c with pc := pc })
    (hinfos : w'.routeInfos = w.routeInfos) (halloc : w'.allocated = w.allocated)
    (hstore : w'.store = w.store) (hevents : w'.events = w.events) (hputs : w'.puts = w.puts)
    (hremote : w'.remotePuts = w.remotePuts)
    (hgrow : ∀ r d, ((w.heap r).byDay d).isSome → ((w'.heap r).byDay d).isSome)
    (hholder : ∀ r j, (w'.heap r).holder = some j ↔
      ∃ d : Call, w'.calls[j]? = some d ∧ d.pc.held = some r)
    (hlook : ∀ r, pc.lookedUp = some r → w.routeInfos c.metricName = some r)
    (hwrite : pc.writing → (w.store (c.key cfg) = none ∨ c.key cfg ∈ w.remotePuts) ∧
      c.key cfg ∉ w.puts.map Prod.fst)
    (hfill : ∀ r g, c.pc = .fill r g → pc = .fill r g ∨ ((w'.heap r).byDay c.day).isSome) :
    LockInv cfg w' := by
  have hset := getElem?_set_of_getElem? hc { c with pc := pc }
  refine ⟨hevents ▸ hw.events_put, fun m r h => halloc ▸ hw.lt_allocated m r (hinfos ▸ h),
    fun j d r hd hr => ?_, hholder, fun j d hd hwr => ?_, fun key hk => ?_, fun m day hk => ?_,
    hputs ▸ hremote ▸ hw.puts_fresh, hputs ▸ hw.puts_nodup⟩
  · rw [hcalls, hset] at hd
    rw [hinfos]
    split at hd
    · cases hd; exact hlook r hr
    · exact hw.pinned j d r hd hr
  · rw [hcalls, hset] at hd
    rw [hstore, hremote, hputs]
    split at hd
    · cases hd; exact hwrite hwr
    · exact hw.absent j d hd hwr
  · rw [hremote, hputs]
    exact hw.written key (hstore ▸ hk)
  · rw [hputs] at hk
    exact Filled.move hc hcalls hinfos hgrow hfill (hw.puts_filled m day hk)

/-- The holder of a lock that call `i` neither takes nor releases still matches the calls. -/
theorem holder_set {i r j : Nat} {c : Call} (hc : w.calls[i]? = some c) (pc : Pc)
    (hr : pc.held = some r ↔ c.pc.held = some r) : (w.heap r).holder = some j ↔
      ∃ d : Call, (w.calls.set i { c with pc := pc })[j]? = some d ∧ d.pc.held = some r := by
  rw [getElem?_set_of_getElem? hc, hw.holder_iff r j]
  split
  · subst j; simp [hc, hr]
  · rfl

/-- A call moving to a `pc` that keeps its lock keeps the invariant, under the conditions
of `move`. -/
theorem setPc {i : Nat} {c : Call} (hc : w.calls[i]? = some c) {pc : Pc}
    (hlook : ∀ r, pc.lookedUp = some r → w.routeInfos c.metricName = some r)
    (hheld : pc.held = c.pc.held)
    (hwrite : pc.writing → (w.store (c.key cfg) = none ∨ c.key cfg ∈ w.remotePuts) ∧
      c.key cfg ∉ w.puts.map Prod.fst)
    (hfill : ∀ r g, c.pc = .fill r g → pc = .fill r g) : LockInv cfg (w.setPc i c pc) := by
  refine hw.move hc rfl rfl rfl rfl rfl rfl rfl (fun _ _ h => h) (fun r j => ?_) hlook hwrite
    fun r g h => .inl (hfill r g h)
  exact hw.holder_set hc pc (by rw [hheld])

/-- The locks still match the calls after call `i` takes the lock of `r`. -/
theorem holder_acquire {i r : Nat} {c : Call} (hc : w.calls[i]? = some c)
    (hfree : (w.heap r).holder = none) (hold : c.pc.held = none) (pc : Pc)
    (hnew : pc.held = some r) {ri : RouteInfo} (hri : ri.holder = some i) (r' j : Nat) :
    (setAt w.heap r ri r').holder = some j ↔
      ∃ d : Call, (w.calls.set i { c with pc := pc })[j]? = some d ∧ d.pc.held = some r' := by
  by_cases hr : r' = r
  · subst hr
    rw [getElem?_set_of_getElem? hc, setAt_same, hri, Option.some.injEq]
    constructor
    · rintro rfl; exact ⟨_, if_pos rfl, hnew⟩
    · rintro ⟨d, hd, hdr⟩
      split at hd
      · exact (‹j = i›).symm
      · rw [(hw.holder_iff r' j).mpr ⟨d, hd, hdr⟩] at hfree; cases hfree
  · rw [setAt_ne _ _ _ hr]
    exact hw.holder_set hc pc (by simp [hold, hnew, Ne.symm hr])

/-- The locks still match the calls after call `i` releases the lock of `r`. -/
theorem holder_release {i r : Nat} {c : Call} (hc : w.calls[i]? = some c)
    (hold : c.pc.held = some r) (pc : Pc) (hnew : pc.held = none) {ri : RouteInfo}
    (hri : ri.holder = none) (r' j : Nat) :
    (setAt w.heap r ri r').holder = some j ↔
      ∃ d : Call, (w.calls.set i { c with pc := pc })[j]? = some d ∧ d.pc.held = some r' := by
  by_cases hr : r' = r
  · subst hr
    rw [getElem?_set_of_getElem? hc, setAt_same, hri]
    simp only [reduceCtorEq, false_iff, not_exists, not_and]
    intro d hd hdr
    split at hd
    · cases hd; rw [hnew] at hdr; cases hdr
    · exact ‹¬j = i› (hw.held_unique hd hc hdr hold)
  · rw [setAt_ne _ _ _ hr]
    exact hw.holder_set hc pc (by simp [hold, hnew, Ne.symm hr])

/-- `Lock()` of a free lock. -/
theorem acquire {i r : Nat} {c : Call} (hc : w.calls[i]? = some c) (hpc : c.pc = .lock r)
    (hfree : (w.heap r).holder = none) :
    LockInv cfg ((w.modifyInfo r ({ · with holder := some i })).setPc i c (.recheck r)) :=
  hw.move hc rfl rfl rfl rfl rfl rfl rfl
    (fun _ _ h => by rwa [World.setPc_heap, World.byDay_modifyInfo_holder])
    (hw.holder_acquire hc hfree (by rw [hpc]; rfl) (.recheck r) rfl rfl)
    (fun r' h => by cases h; exact hw.pinned i c r hc (by rw [hpc]; rfl))
    (fun h => by cases h) (fun r' g h => by rw [hpc] at h; cases h)

/-- `Unlock()` and return, from before the fill. -/
theorem release {i r : Nat} {c : Call} (hc : w.calls[i]? = some c) (hheld : c.pc.held = some r)
    (hfill : ∀ r g, c.pc ≠ .fill r g) (res : Except String (List String)) :
    LockInv cfg ((w.unlock r).setPc i c (.done res)) :=
  hw.move hc rfl rfl rfl rfl rfl rfl rfl
    (fun _ _ h => by rwa [World.setPc_heap, World.unlock_eq, World.byDay_modifyInfo_holder])
    (hw.holder_release hc hheld (.done res) rfl rfl) (fun r' h => by cases h) (fun h => by cases h)
    (fun r' g h => absurd h (hfill r' g))

/-- `routeInfo.Put(day, shardGroup)` and `Unlock()` by the call at `fill`. -/
theorem fill {i r : Nat} {c : Call} {g : List String} (hc : w.calls[i]? = some c)
    (hpc : c.pc = .fill r g) :
    LockInv cfg ((w.modifyInfo r fun ri => { ri.put c.day g with holder := none }).setPc i c
      (.done (.ok g))) :=
  hw.move hc rfl rfl rfl rfl rfl rfl rfl
    (fun _ _ h => by rw [World.setPc_heap]; exact w.isSome_byDay_modifyInfo r (by intro; rfl) h)
    (hw.holder_release hc (by rw [hpc]; rfl) (.done (.ok g)) rfl rfl) (fun r' h => by cases h)
    (fun h => by cases h)
    (fun r' g' h => by
      rw [hpc] at h; cases h
      right; simp [RouteInfo.put])

/-- `etcdPut` of the key of call `i`, absent from the store unless another gateway wrote
it, by the call holding the lock that fills the key's day in next. -/
theorem etcdPut {i r : Nat} {c : Call} {g : List String} (hc : w.calls[i]? = some c)
    (hpc : c.pc = .fill r g)
    (habs : (w.store (c.key cfg) = none ∨ c.key cfg ∈ w.remotePuts) ∧
      c.key cfg ∉ w.puts.map Prod.fst) :
    LockInv cfg { w with
      store := setAt w.store (c.key cfg) (some g)
      events := w.events ++ [RouteEvent.put (c.key cfg) g]
      puts := w.puts ++ [(c.key cfg, (w.store (c.key cfg)).isSome)] } := by
  have hheld : c.pc.held = some r := by rw [hpc]; rfl
  refine ⟨fun e he => ?_, hw.lt_allocated, hw.pinned, hw.holder_iff, fun j d hd hwr => ?_,
    fun key hk => ?_, fun m day hk => ?_, fun q hq => ?_, ?_⟩ <;>
    dsimp only at * <;>
    simp only [List.map_append, List.map_cons, List.map_nil, List.mem_append,
      List.mem_singleton] at *
  · rcases he with he | rfl
    · exact hw.events_put e he
    · rfl
  · obtain ⟨s, hs⟩ := Pc.held_of_writing hwr
    have hji : j ≠ i := by rintro rfl; rw [hc] at hd; cases hd; rw [hpc] at hwr; cases hwr
    have hkey : d.key cfg ≠ c.key cfg := fun hkey => hji (hw.eq_of_key_eq hd hc hs hheld hkey)
    rw [setAt_ne _ _ _ hkey]
    exact ⟨(hw.absent j d hd hwr).1, not_or.mpr ⟨(hw.absent j d hd hwr).2, hkey⟩⟩
  · by_cases hkey : key = c.key cfg
    · exact .inr (.inr hkey)
    · rw [setAt_ne _ _ _ hkey] at hk
      exact (hw.written key hk).imp_right .inl
  · rcases hk with hk | hk
    · exact hw.puts_filled m day hk
    · obtain ⟨rfl, rfl⟩ := routeKey_inj hk
      exact ⟨r, hw.pinned i c r hc (Pc.lookedUp_of_held hheld), .inr ⟨i, c, g, hc, rfl, rfl, hpc⟩⟩
  · rcases hq with hq | rfl
    · exact hw.puts_fresh q hq
    · intro h
      exact habs.1.resolve_left fun hn => by rw [hn] at h; cases h
  · rw [List.nodup_append]
    exact ⟨hw.puts_nodup, List.nodup_singleton _, List.disjoint_singleton.mpr habs.2⟩

/-- The `put` step: the call moves to `fill`, keeping its lock, then writes its key. -/
theorem put {i r : Nat} {c : Call} {g : List String} (hc : w.calls[i]? = some c)
    (hpc : c.pc = .put r g) :
    LockInv cfg ({ w with
      store := setAt w.store (c.key cfg) (some g)
      events := w.events ++ [RouteEvent.put (c.key cfg) g]
      puts := w.puts ++ [(c.key cfg, (w.store (c.key cfg)).isSome)] }.setPc i c (.fill r g)) := by
  have hw₁ : LockInv cfg (w.setPc i c (.fill r g)) :=
    hw.setPc hc (fun _ h => by cases h; exact hw.pinned i c r hc (by rw [hpc]; rfl))
      (by rw [hpc]; rfl) (fun h => by cases h) (fun _ _ => by simp [hpc])
  have hc₁ : (w.setPc i c (.fill r g)).calls[i]? = some { c with pc := .fill r g } := by
    rw [World.setPc_calls, getElem?_set_of_getElem? hc, if_pos rfl]
  have hw₂ := hw₁.etcdPut hc₁ rfl (hw.absent i c hc (by rw [hpc]; rfl))
  exact hw₂

/-- Another gateway's `etcdPut` of a route key, at any time. -/
theorem remotePut (key : String) (g : List String) :
    LockInv cfg { w with
      store := setAt w.store key (some g)
      events := w.events ++ [RouteEvent.put key g]
      remotePuts := w.remotePuts ++ [key] } := by
  refine ⟨fun e he => ?_, hw.lt_allocated, hw.pinned, hw.holder_iff, fun j d hd hwr => ?_,
    fun k hk => ?_, hw.puts_filled, fun q hq h => ?_, hw.puts_nodup⟩ <;>
    dsimp only at * <;> simp only [List.mem_append, List.mem_singleton] at *
  · rcases he with he | rfl
    · exact hw.events_put e he
    · rfl
  · refine ⟨?_, (hw.absent j d hd hwr).2⟩
    by_cases hkey : d.key cfg = key
    · exact .inr (.inr hkey)
    · rw [setAt_ne _ _ _ hkey]
      exact (hw.absent j d hd hwr).1.imp_right .inl
  · by_cases hkey : k = key
    · exact .inl (.inr hkey)
    · rw [setAt_ne _ _ _ hkey] at hk
      exact (hw.written k hk).imp_left .inl
  · exact .inl (hw.puts_fresh q hq h)

end LockInv

/-! ## Runs without lease expiry -/

end Baudtime.Meta
