import Baudtime.Backend.MergeStrings
import Baudtime.Backend.MergeSeriesSet

/-!
# The goroutines of `mergeQuerier.Select` and `mergeQuerier.LabelValues`

`mergeQuerier.Select` and `mergeQuerier.LabelValues` start one goroutine per querier and
wait for all of them with a `sync.WaitGroup`. A goroutine asks its querier; an error is
appended to the shared `multiErr` under the mutex `mtx`. `LabelValues` appends a
successful answer to the shared `results` under the same mutex, while `Select` writes its
series set into its own slot `seriesSets[idx]` without it. After `wg.Wait()` the call
returns `multiErr` if it is not nil, and otherwise merges the slots or the results.

`multiErr = multierror.Append(multiErr, err)` and `results = append(results, values)` each
read the shared variable and write it back: two steps, between which another goroutine
could write it. The model interleaves the goroutines at these steps, at the querier's
call, at `Lock`, `Unlock`, and at the slot's write. The queriers' answers are the
environment's, fixed per querier.

Over every interleaving the mutex is held by at most one goroutine, no append is lost or
made twice, and a goroutine is never stuck while another has not finished. Once every
goroutine has returned, `Select` fails exactly when some querier failed, with all the
errors, and otherwise merges the series sets in querier order, whatever the order in
which the goroutines ran (`select_spec`); `LabelValues` merges a permutation of the
answers (`labelValues_spec`), which `mergeStringSlices` makes independent of the order.

## Main definitions

* `Pc`, `Pc.step` — a goroutine and its next step, shared by both methods
* `State.step`, `run` — `Select` with `indexed := true`, `LabelValues` with `false`
* `selectResult`, `labelValuesResult` — what the call returns after `wg.Wait()`
* `newMergeQuerier` — the querier `NewMergeQuerier` returns

## Main results

* `Inv.step`, `run_inv` — the invariant `Inv` over every run
* `Inv.progress` — some goroutine can always step until all have returned
* `select_spec`, `labelValues_spec`
-/

namespace Baudtime.Backend.MergeQuerier

variable {ε α : Type*}

/-- Where the goroutine of one querier stands. -/
inductive Pc (ε α : Type*)
  /-- Before `q.Select` or `q.LabelValues`. -/
  | call
  /-- Before `mtx.Lock()`, with the querier's answer. -/
  | lock (r : Except ε α)
  /-- Holding `mtx`, before it reads `multiErr` (on an error) or `results`. -/
  | read (r : Except ε α)
  /-- Holding `mtx`, before it writes `multiErr` back with `e` appended to what it read. -/
  | writeErr (e : ε) (snap : List ε)
  /-- Holding `mtx`, before it writes `results` back with `v` appended to what it read. -/
  | writeResult (v : α) (snap : List α)
  /-- Before `mtx.Unlock()`. -/
  | unlock (r : Except ε α)
  /-- `Select`, before `seriesSets[idx] = set`. -/
  | store (v : α)
  /-- Returned after the mutex. -/
  | done (r : Except ε α)
  /-- `Select`, returned after writing its slot. -/
  | stored (v : α)

/-- The shared variables. -/
structure Shared (ε α : Type*) where
  locked : Bool
  multiErr : List ε
  results : List α

/-- A goroutine's write to a shared variable or to `mtx`. -/
inductive Effect (ε α : Type*)
  | none
  | lock
  | unlock
  | setErrs (errs : List ε)
  | setResults (results : List α)
  | store (v : α)

/-- Where a goroutine goes with its querier's answer: `Select` (`indexed`) stores a series
set without the mutex; an error, and each answer of `LabelValues`, go through it. -/
def Pc.afterCall (indexed : Bool) : Except ε α → Pc ε α
  | .ok v => if indexed then .store v else .lock (.ok v)
  | .error e => .lock (.error e)

/-- One step of a goroutine whose querier answers `answer`; `none` while it waits for
`mtx` or once it returned. -/
def Pc.step (indexed : Bool) (answer : Option (Except ε α)) (s : Shared ε α) :
    Pc ε α → Option (Pc ε α × Effect ε α)
  | .call => answer.map fun r => (Pc.afterCall indexed r, .none)
  | .lock r => if s.locked then none else some (.read r, .lock)
  | .read (.error e) => some (.writeErr e s.multiErr, .none)
  | .read (.ok v) => some (.writeResult v s.results, .none)
  | .writeErr e snap => some (.unlock (.error e), .setErrs (snap ++ [e]))
  | .writeResult v snap => some (.unlock (.ok v), .setResults (snap ++ [v]))
  | .unlock r => some (.done r, .unlock)
  | .store v => some (.stored v, .store v)
  | .done _ | .stored _ => none

/-- The goroutines, the shared variables, and the slots `seriesSets` of `Select`. -/
structure State (ε α : Type*) where
  pcs : List (Pc ε α)
  shared : Shared ε α
  slots : List (Option α)

/-- The process after goroutine `i` moved on to `pc'` making the write `eff`. -/
def State.after (s : State ε α) (i : Nat) (pc' : Pc ε α) : Effect ε α → State ε α
  | .none => { s with pcs := s.pcs.set i pc' }
  | .lock => ⟨s.pcs.set i pc', { s.shared with locked := true }, s.slots⟩
  | .unlock => ⟨s.pcs.set i pc', { s.shared with locked := false }, s.slots⟩
  | .setErrs errs => ⟨s.pcs.set i pc', { s.shared with multiErr := errs }, s.slots⟩
  | .setResults results => ⟨s.pcs.set i pc', { s.shared with results := results }, s.slots⟩
  | .store v => ⟨s.pcs.set i pc', s.shared, s.slots.set i (some v)⟩

/-- One step of goroutine `i`, whose querier answers `answers[i]`. -/
def State.step (indexed : Bool) (answers : List (Except ε α)) (s : State ε α) (i : Nat) :
    Option (State ε α) := do
  let pc ← s.pcs[i]?
  let (pc', eff) ← pc.step indexed answers[i]? s.shared
  some (s.after i pc' eff)

@[simp] theorem State.after_pcs (s : State ε α) (i : Nat) (pc' : Pc ε α) (eff : Effect ε α) :
    (s.after i pc' eff).pcs = s.pcs.set i pc' := by
  cases eff <;> rfl

/-- A run: the goroutines that step, in order; `none` when one of them cannot. -/
def run (indexed : Bool) (answers : List (Except ε α)) (s : State ε α) (order : List Nat) :
    Option (State ε α) :=
  order.foldlM (State.step indexed answers) s

/-- The call's start: `n` goroutines before their querier's call, `mtx` free, `multiErr`
and `results` nil, and `seriesSets = make([]SeriesSet, n)`. -/
def State.init (n : Nat) : State ε α :=
  ⟨List.replicate n .call, ⟨false, [], []⟩, List.replicate n none⟩

/-- Whether a goroutine has returned. -/
def Pc.finished : Pc ε α → Bool
  | .done _ | .stored _ => true
  | _ => false

/-- `Select` after `wg.Wait()`: `multiErr` if it is not nil, otherwise
`NewMergeSeriesSet(seriesSets)`; `none` if a slot is still nil. -/
def selectResult {κ σ ε' : Type*} [Inhabited κ] (s : State ε (SeriesSet σ ε')) :
    Option (Except (List ε) (MergedSet κ σ ε')) :=
  if s.shared.multiErr.isEmpty then (s.slots.mapM id).map fun sets => .ok (newMergeSeriesSet sets)
  else some (.error s.shared.multiErr)

/-- `LabelValues` after `wg.Wait()`: `multiErr` if it is not nil, otherwise
`mergeStringSlices(results)`. -/
def labelValuesResult {β : Type*} [LinearOrder β] (s : State ε (List β)) :
    Except (List ε) (List β) :=
  if s.shared.multiErr.isEmpty then .ok (mergeStringSlices s.shared.results)
  else .error s.shared.multiErr

/-! ## `NewMergeQuerier` -/

/-- A querier: `NoopQuerier()`, or one that asks a shard. -/
inductive Querier
  | noop
  | shard (shardID : String)
  deriving DecidableEq, Repr

/-- What `NewMergeQuerier` returns. -/
inductive Merged
  | noop
  | single (q : Querier)
  | merge (queriers : List Querier)
  deriving DecidableEq, Repr

/-- `NewMergeQuerier`: drop the `NoopQuerier`s, then return `NoopQuerier()` for none left,
the querier itself for one, and a `mergeQuerier` over them otherwise. -/
def newMergeQuerier (queriers : List Querier) : Merged :=
  match queriers.filter (· != .noop) with
  | [] => .noop
  | [q] => .single q
  | filtered => .merge filtered

/-- The queriers of `fanoutQuerier.Select` and `fanoutQuerier.LabelValues`: one per shard
ID, skipping the empty one. -/
def shardQueriers (shardIDs : List String) : List Querier :=
  (shardIDs.filter (· != "")).map .shard

/-! ## Views of the goroutines -/

/-- Whether a goroutine holds `mtx`. -/
def Pc.inCrit : Pc ε α → Bool
  | .read _ | .writeErr _ _ | .writeResult _ _ | .unlock _ => true
  | _ => false

/-- The error a goroutine has appended to `multiErr`. -/
def Pc.wroteErr : Pc ε α → Option ε
  | .unlock (.error e) | .done (.error e) => some e
  | _ => none

/-- The answer a goroutine has appended to `results`. -/
def Pc.wroteResult : Pc ε α → Option α
  | .unlock (.ok v) | .done (.ok v) => some v
  | _ => none

/-- The series set a goroutine of `Select` has written to its slot. -/
def Pc.stored? : Pc ε α → Option α
  | .stored v => some v
  | _ => none

/-- The querier's answer, once the goroutine has it. -/
def Pc.answer : Pc ε α → Option (Except ε α)
  | .call => none
  | .lock r | .read r | .unlock r | .done r => some r
  | .writeErr e _ => some (.error e)
  | .writeResult v _ | .store v | .stored v => some (.ok v)

/-- The path of the goroutine fits the method: `Select` (`indexed`) sends no successful
answer through the mutex, and `LabelValues` writes no slot. -/
def Pc.fits (indexed : Bool) : Pc ε α → Bool
  | .lock (.ok _) | .read (.ok _) | .writeResult _ _ | .unlock (.ok _) | .done (.ok _) => !indexed
  | .store _ | .stored _ => indexed
  | _ => true

/-- A goroutine about to write a shared variable back read it as it is now. -/
def Pc.Fresh (multiErr : List ε) (results : List α) : Pc ε α → Prop
  | .writeErr _ snap => snap = multiErr
  | .writeResult _ snap => snap = results
  | _ => True

/-- The error of an answer, if it is one. -/
def answerError : Except ε α → Option ε
  | .error e => some e
  | .ok _ => none

/-- Where a goroutine returns with its querier's answer. -/
def Pc.final (indexed : Bool) : Except ε α → Pc ε α
  | .ok v => if indexed then .stored v else .done (.ok v)
  | .error e => .done (.error e)

/-! ## Lists with one element replaced -/

section SetLemmas

variable {β γ : Type*}

theorem map_set_of_eq {l : List β} {i : Nat} {x a : β} (hx : l[i]? = some x)
    (f : β → γ) (hf : f a = f x) : (l.set i a).map f = l.map f := by
  rw [List.map_set, hf]
  refine List.ext_getElem? fun j => ?_
  rw [List.getElem?_set]
  split
  · subst j
    rw [List.length_map, if_pos (List.getElem?_eq_some_iff.mp hx).1, List.getElem?_map, hx]
    rfl
  · rfl

theorem filterMap_set_of_eq {l : List β} {i : Nat} {x a : β} (hx : l[i]? = some x)
    (f : β → Option γ) (hf : f a = f x) : (l.set i a).filterMap f = l.filterMap f := by
  simpa only [List.filterMap_map, Function.comp_id] using
    congrArg (List.filterMap id) (map_set_of_eq hx f hf)

theorem perm_filterMap_set_of_eq {L : List γ} {l : List β} {i : Nat} {x a : β}
    {f : β → Option γ} (hL : L.Perm (l.filterMap f)) (hx : l[i]? = some x) (hf : f a = f x) :
    L.Perm ((l.set i a).filterMap f) :=
  filterMap_set_of_eq hx f hf ▸ hL

theorem filterMap_set_perm {l : List β} {i : Nat} {x : β} (hx : l[i]? = some x)
    (f : β → Option γ) (a : β) {b : γ} (hfx : f x = none) (hfa : f a = some b) :
    ((l.set i a).filterMap f).Perm (l.filterMap f ++ [b]) := by
  induction l generalizing i with
  | nil => cases hx
  | cons y l ih =>
    cases i with
    | zero =>
      rw [List.getElem?_cons_zero, Option.some.injEq] at hx
      subst hx
      simpa [List.filterMap_cons, hfx, hfa] using (List.perm_append_singleton b (l.filterMap f)).symm
    | succ i =>
      rw [List.getElem?_cons_succ] at hx
      simp only [List.set_cons_succ, List.filterMap_cons]
      cases f y
      · exact ih hx
      · exact (ih hx).cons _

theorem foldr_set_add {l : List β} {i : Nat} {x : β} (hx : l[i]? = some x) (f : β → Nat)
    (a : β) : (l.set i a).foldr (fun b n => f b + n) 0 + f x =
      l.foldr (fun b n => f b + n) 0 + f a := by
  induction l generalizing i with
  | nil => cases hx
  | cons y l ih =>
    cases i with
    | zero =>
      rw [List.getElem?_cons_zero, Option.some.injEq] at hx
      subst hx
      simp only [List.set_cons_zero, List.foldr_cons]
      omega
    | succ i =>
      rw [List.getElem?_cons_succ] at hx
      have := ih hx
      simp only [List.set_cons_succ, List.foldr_cons]
      omega

theorem countP_eq_foldr (p : β → Bool) (l : List β) :
    l.countP p = l.foldr (fun b n => (p b).toNat + n) 0 := by
  induction l with
  | nil => rfl
  | cons y l ih => rw [List.countP_cons, List.foldr_cons, ih]; cases p y <;> simp [Nat.add_comm]

theorem countP_set_add {l : List β} {i : Nat} {x : β} (hx : l[i]? = some x) (p : β → Bool)
    (a : β) : (l.set i a).countP p + (p x).toNat = l.countP p + (p a).toNat := by
  simpa only [countP_eq_foldr] using foldr_set_add hx (fun b => (p b).toNat) a

/-- Two places of a list that satisfy `p` count twice. -/
theorem two_le_countP {p : β → Bool} {l : List β} {j k : Nat} {a b : β} (ha : l[j]? = some a)
    (hb : l[k]? = some b) (hjk : j ≠ k) (hpa : p a) (hpb : p b) : 2 ≤ l.countP p := by
  induction l generalizing j k with
  | nil => cases ha
  | cons y l ih =>
    rw [List.countP_cons]
    cases j with
    | zero =>
      cases k with
      | zero => exact absurd rfl hjk
      | succ k =>
        rw [List.getElem?_cons_zero, Option.some.injEq] at ha
        subst ha
        rw [List.getElem?_cons_succ] at hb
        have := List.countP_pos_iff.mpr ⟨b, List.getElem?_mem hb, hpb⟩
        simp only [hpa, if_true]
        omega
    | succ j =>
      rw [List.getElem?_cons_succ] at ha
      cases k with
      | zero =>
        rw [List.getElem?_cons_zero, Option.some.injEq] at hb
        subst hb
        have := List.countP_pos_iff.mpr ⟨a, List.getElem?_mem ha, hpa⟩
        simp only [hpb, if_true]
        omega
      | succ k =>
        rw [List.getElem?_cons_succ] at hb
        have := ih ha hb (fun h => hjk (congrArg (· + 1) h))
        omega

theorem eq_map_set_of_eq {L : List γ} {l : List β} {i : Nat} {x a : β} {f : β → γ}
    (hL : L = l.map f) (hx : l[i]? = some x) (hf : f a = f x) : L = (l.set i a).map f :=
  map_set_of_eq hx f hf ▸ hL

end SetLemmas

/-! ## What one step does -/

section StepFacts

variable {indexed : Bool} {answer : Option (Except ε α)} {sh : Shared ε α} {pc pc' : Pc ε α}
  {eff : Effect ε α}

/-- The ten things a goroutine's step can do. -/
theorem Pc.step_cases (h : pc.step indexed answer sh = some (pc', eff)) :
    (∃ e, pc = .call ∧ answer = some (.error e) ∧ pc' = .lock (.error e) ∧ eff = .none) ∨
    (∃ v, pc = .call ∧ answer = some (.ok v) ∧ indexed = true ∧ pc' = .store v ∧ eff = .none) ∨
    (∃ v, pc = .call ∧ answer = some (.ok v) ∧ indexed = false ∧ pc' = .lock (.ok v) ∧
      eff = .none) ∨
    (∃ r, pc = .lock r ∧ sh.locked = false ∧ pc' = .read r ∧ eff = .lock) ∨
    (∃ e, pc = .read (.error e) ∧ pc' = .writeErr e sh.multiErr ∧ eff = .none) ∨
    (∃ v, pc = .read (.ok v) ∧ pc' = .writeResult v sh.results ∧ eff = .none) ∨
    (∃ e snap, pc = .writeErr e snap ∧ pc' = .unlock (.error e) ∧
      eff = .setErrs (snap ++ [e])) ∨
    (∃ v snap, pc = .writeResult v snap ∧ pc' = .unlock (.ok v) ∧
      eff = .setResults (snap ++ [v])) ∨
    (∃ r, pc = .unlock r ∧ pc' = .done r ∧ eff = .unlock) ∨
    (∃ v, pc = .store v ∧ pc' = .stored v ∧ eff = .store v) := by
  cases pc with
  | call =>
    obtain ⟨r, hr, h⟩ := Option.map_eq_some'.mp h
    cases h
    rcases r with e | v
    · exact .inl ⟨e, rfl, hr, rfl, rfl⟩
    · cases indexed
      · exact .inr (.inr (.inl ⟨v, rfl, hr, rfl, rfl, rfl⟩))
      · exact .inr (.inl ⟨v, rfl, hr, rfl, rfl, rfl⟩)
  | lock r =>
    cases hl : sh.locked <;> simp only [Pc.step, hl] at h <;> cases h
    exact .inr (.inr (.inr (.inl ⟨r, rfl, rfl, rfl, rfl⟩)))
  | read r =>
    rcases r with e | v <;> cases h
    · exact .inr (.inr (.inr (.inr (.inl ⟨e, rfl, rfl, rfl⟩))))
    · exact .inr (.inr (.inr (.inr (.inr (.inl ⟨v, rfl, rfl, rfl⟩)))))
  | writeErr e snap =>
    cases h
    exact .inr (.inr (.inr (.inr (.inr (.inr (.inl ⟨e, snap, rfl, rfl, rfl⟩))))))
  | writeResult v snap =>
    cases h
    exact .inr (.inr (.inr (.inr (.inr (.inr (.inr (.inl ⟨v, snap, rfl, rfl, rfl⟩)))))))
  | unlock r =>
    cases h
    exact .inr (.inr (.inr (.inr (.inr (.inr (.inr (.inr (.inl ⟨r, rfl, rfl, rfl⟩))))))))
  | store v =>
    cases h
    exact .inr (.inr (.inr (.inr (.inr (.inr (.inr (.inr (.inr ⟨v, rfl, rfl, rfl⟩))))))))
  | done | stored => cases h

end StepFacts

/-! ## The invariant -/

/-- The invariant of every reachable state. -/
structure Inv (indexed : Bool) (answers : List (Except ε α)) (s : State ε α) : Prop where
  /-- One goroutine per querier. -/
  length : s.pcs.length = answers.length
  /-- A goroutine's answer is its querier's. -/
  answer : ∀ (i : Nat) (pc : Pc ε α), s.pcs[i]? = some pc → ∀ r ∈ pc.answer, answers[i]? = some r
  /-- Each goroutine is on a path of its method. -/
  fits : ∀ pc ∈ s.pcs, pc.fits indexed = true
  /-- `mtx` is locked exactly when a goroutine holds it, and two never hold it. -/
  mutex : s.pcs.countP Pc.inCrit = s.shared.locked.toNat
  /-- The goroutine holding `mtx` read what it writes back as it still is. -/
  fresh : ∀ (i : Nat) (pc : Pc ε α), s.pcs[i]? = some pc → pc.inCrit = true →
    pc.Fresh s.shared.multiErr s.shared.results
  /-- `multiErr` holds each error appended so far once: no append is lost or repeated. -/
  errs : s.shared.multiErr.Perm (s.pcs.filterMap Pc.wroteErr)
  /-- `results` holds each answer appended so far once. -/
  results : s.shared.results.Perm (s.pcs.filterMap Pc.wroteResult)
  /-- A slot holds what its goroutine stored, and is nil before. -/
  slots : s.slots = s.pcs.map Pc.stored?

section Step

variable {indexed : Bool} {answers : List (Except ε α)} {s : State ε α}

/-- No two goroutines hold `mtx`. -/
theorem Inv.eq_of_inCrit (hi : Inv indexed answers s) {j k : Nat} {p q : Pc ε α}
    (hj : s.pcs[j]? = some p) (hk : s.pcs[k]? = some q) (hp : p.inCrit = true)
    (hq : q.inCrit = true) : j = k := by
  by_contra hjk
  have h2 := two_le_countP hj hk hjk hp hq
  have := Bool.toNat_le s.shared.locked
  rw [hi.mutex] at h2
  omega

theorem State.step_eq_some {s' : State ε α} {i : Nat}
    (h : s.step indexed answers i = some s') :
    ∃ pc pc' eff, s.pcs[i]? = some pc ∧ pc.step indexed answers[i]? s.shared = some (pc', eff) ∧
      s' = s.after i pc' eff := by
  obtain ⟨pc, hpc, h⟩ := Option.bind_eq_some.mp h
  obtain ⟨⟨pc', eff⟩, hst, h⟩ := Option.bind_eq_some.mp h
  exact ⟨pc, pc', eff, hpc, hst, (Option.some.inj h).symm⟩

variable {i : Nat} {pc pc' : Pc ε α} {eff : Effect ε α} (hi : Inv indexed answers s)
  (hpc : s.pcs[i]? = some pc) (hst : pc.step indexed answers[i]? s.shared = some (pc', eff))
include hi hpc hst

theorem Inv.after_answer :
    ∀ (j : Nat) (q : Pc ε α), (s.after i pc' eff).pcs[j]? = some q →
      ∀ r ∈ q.answer, answers[j]? = some r := by
  intro j q hq
  rw [State.after_pcs, List.getElem?_set, if_pos (List.getElem?_eq_some_iff.mp hpc).1] at hq
  split at hq
  · subst j
    cases hq
    rcases Pc.step_cases hst with ⟨e, rfl, ha, rfl, rfl⟩ | ⟨v, rfl, ha, -, rfl, rfl⟩ |
        ⟨v, rfl, ha, -, rfl, rfl⟩ | ⟨r, rfl, -, rfl, rfl⟩ | ⟨e, rfl, rfl, rfl⟩ |
        ⟨v, rfl, rfl, rfl⟩ | ⟨e, snap, rfl, rfl, rfl⟩ | ⟨v, snap, rfl, rfl, rfl⟩ |
        ⟨r, rfl, rfl, rfl⟩ | ⟨v, rfl, rfl, rfl⟩
    all_goals first
      | exact fun r hr => by cases hr; exact ha
      | exact fun r hr => hi.answer i _ hpc r hr
  · exact hi.answer j q hq

theorem Inv.after_fits : ∀ q ∈ (s.after i pc' eff).pcs, q.fits indexed = true := by
  have hf := hi.fits pc (List.getElem?_mem hpc)
  intro q hq
  rw [State.after_pcs] at hq
  rcases List.mem_or_eq_of_mem_set hq with hq | rfl
  · exact hi.fits q hq
  rcases Pc.step_cases hst with ⟨e, rfl, ha, rfl, rfl⟩ | ⟨v, rfl, ha, hidx, rfl, rfl⟩ |
      ⟨v, rfl, ha, hidx, rfl, rfl⟩ | ⟨r, rfl, hl, rfl, rfl⟩ | ⟨e, rfl, rfl, rfl⟩ |
      ⟨v, rfl, rfl, rfl⟩ | ⟨e, snap, rfl, rfl, rfl⟩ | ⟨v, snap, rfl, rfl, rfl⟩ |
      ⟨r, rfl, rfl, rfl⟩ | ⟨v, rfl, rfl, rfl⟩
  all_goals first
    | rfl
    | exact hf
    | exact hidx
    | (rw [hidx]; rfl)
    | (cases r <;> exact hf)

theorem Inv.after_mutex :
    (s.after i pc' eff).pcs.countP Pc.inCrit = (s.after i pc' eff).shared.locked.toNat := by
  have hset := countP_set_add hpc Pc.inCrit pc'
  have hm := hi.mutex
  have hle := Bool.toNat_le s.shared.locked
  rw [State.after_pcs]
  rcases Pc.step_cases hst with ⟨e, rfl, ha, rfl, rfl⟩ | ⟨v, rfl, ha, hidx, rfl, rfl⟩ |
      ⟨v, rfl, ha, hidx, rfl, rfl⟩ | ⟨r, rfl, hl, rfl, rfl⟩ | ⟨e, rfl, rfl, rfl⟩ |
      ⟨v, rfl, rfl, rfl⟩ | ⟨e, snap, rfl, rfl, rfl⟩ | ⟨v, snap, rfl, rfl, rfl⟩ |
      ⟨r, rfl, rfl, rfl⟩ | ⟨v, rfl, rfl, rfl⟩
  all_goals
    simp only [State.after, Pc.inCrit, Bool.toNat_true, Bool.toNat_false] at hset ⊢
    first
    | omega
    | (rw [hl, Bool.toNat_false] at hm; omega)

theorem Inv.after_fresh : ∀ (j : Nat) (q : Pc ε α), (s.after i pc' eff).pcs[j]? = some q →
    q.inCrit = true → q.Fresh (s.after i pc' eff).shared.multiErr (s.after i pc' eff).shared.results := by
  intro j q hq hcrit
  rw [State.after_pcs, List.getElem?_set, if_pos (List.getElem?_eq_some_iff.mp hpc).1] at hq
  split at hq
  · subst j
    cases hq
    rcases Pc.step_cases hst with ⟨e, rfl, ha, rfl, rfl⟩ | ⟨v, rfl, ha, hidx, rfl, rfl⟩ |
        ⟨v, rfl, ha, hidx, rfl, rfl⟩ | ⟨r, rfl, hl, rfl, rfl⟩ | ⟨e, rfl, rfl, rfl⟩ |
        ⟨v, rfl, rfl, rfl⟩ | ⟨e, snap, rfl, rfl, rfl⟩ | ⟨v, snap, rfl, rfl, rfl⟩ |
        ⟨r, rfl, rfl, rfl⟩ | ⟨v, rfl, rfl, rfl⟩
    all_goals trivial
  · have hold := hi.fresh j q hq hcrit
    rcases Pc.step_cases hst with ⟨e, rfl, ha, rfl, rfl⟩ | ⟨v, rfl, ha, hidx, rfl, rfl⟩ |
        ⟨v, rfl, ha, hidx, rfl, rfl⟩ | ⟨r, rfl, hl, rfl, rfl⟩ | ⟨e, rfl, rfl, rfl⟩ |
        ⟨v, rfl, rfl, rfl⟩ | ⟨e, snap, rfl, rfl, rfl⟩ | ⟨v, snap, rfl, rfl, rfl⟩ |
        ⟨r, rfl, rfl, rfl⟩ | ⟨v, rfl, rfl, rfl⟩
    all_goals first
      | exact hold
      | exact absurd (hi.eq_of_inCrit hpc hq rfl hcrit) ‹_›

theorem Inv.after_errs :
    (s.after i pc' eff).shared.multiErr.Perm ((s.after i pc' eff).pcs.filterMap Pc.wroteErr) := by
  rw [State.after_pcs]
  rcases Pc.step_cases hst with ⟨e, rfl, ha, rfl, rfl⟩ | ⟨v, rfl, ha, hidx, rfl, rfl⟩ |
      ⟨v, rfl, ha, hidx, rfl, rfl⟩ | ⟨r, rfl, hl, rfl, rfl⟩ | ⟨e, rfl, rfl, rfl⟩ |
      ⟨v, rfl, rfl, rfl⟩ | ⟨e, snap, rfl, rfl, rfl⟩ | ⟨v, snap, rfl, rfl, rfl⟩ |
      ⟨r, rfl, rfl, rfl⟩ | ⟨v, rfl, rfl, rfl⟩
  all_goals first
    | exact perm_filterMap_set_of_eq hi.errs hpc rfl
    | (cases r <;> exact perm_filterMap_set_of_eq hi.errs hpc rfl)
    | (have hsnap : snap = s.shared.multiErr := hi.fresh i _ hpc rfl
       rw [hsnap]
       exact (hi.errs.append_right [e]).trans (filterMap_set_perm hpc Pc.wroteErr (.unlock (.error e)) rfl rfl).symm)

theorem Inv.after_results :
    (s.after i pc' eff).shared.results.Perm ((s.after i pc' eff).pcs.filterMap Pc.wroteResult) := by
  rw [State.after_pcs]
  rcases Pc.step_cases hst with ⟨e, rfl, ha, rfl, rfl⟩ | ⟨v, rfl, ha, hidx, rfl, rfl⟩ |
      ⟨v, rfl, ha, hidx, rfl, rfl⟩ | ⟨r, rfl, hl, rfl, rfl⟩ | ⟨e, rfl, rfl, rfl⟩ |
      ⟨v, rfl, rfl, rfl⟩ | ⟨e, snap, rfl, rfl, rfl⟩ | ⟨v, snap, rfl, rfl, rfl⟩ |
      ⟨r, rfl, rfl, rfl⟩ | ⟨v, rfl, rfl, rfl⟩
  all_goals first
    | exact perm_filterMap_set_of_eq hi.results hpc rfl
    | (cases r <;> exact perm_filterMap_set_of_eq hi.results hpc rfl)
    | (have hsnap : snap = s.shared.results := hi.fresh i _ hpc rfl
       rw [hsnap]
       exact (hi.results.append_right [v]).trans
         (filterMap_set_perm hpc Pc.wroteResult (.unlock (.ok v)) rfl rfl).symm)

theorem Inv.after_slots : (s.after i pc' eff).slots = (s.after i pc' eff).pcs.map Pc.stored? := by
  rw [State.after_pcs]
  rcases Pc.step_cases hst with ⟨e, rfl, ha, rfl, rfl⟩ | ⟨v, rfl, ha, hidx, rfl, rfl⟩ |
      ⟨v, rfl, ha, hidx, rfl, rfl⟩ | ⟨r, rfl, hl, rfl, rfl⟩ | ⟨e, rfl, rfl, rfl⟩ |
      ⟨v, rfl, rfl, rfl⟩ | ⟨e, snap, rfl, rfl, rfl⟩ | ⟨v, snap, rfl, rfl, rfl⟩ |
      ⟨r, rfl, rfl, rfl⟩ | ⟨v, rfl, rfl, rfl⟩
  all_goals first
    | exact eq_map_set_of_eq hi.slots hpc rfl
    | (rw [List.map_set, ← hi.slots]; rfl)

end Step

variable {indexed : Bool} {answers : List (Except ε α)}

/-- The invariant is kept by every step of every goroutine. -/
theorem Inv.step {s s' : State ε α} {i : Nat} (hi : Inv indexed answers s)
    (h : s.step indexed answers i = some s') : Inv indexed answers s' := by
  obtain ⟨pc, pc', eff, hpc, hst, rfl⟩ := State.step_eq_some h
  exact ⟨by rw [State.after_pcs, List.length_set, hi.length], hi.after_answer hpc hst,
    hi.after_fits hpc hst, hi.after_mutex hpc hst, hi.after_fresh hpc hst, hi.after_errs hpc hst,
    hi.after_results hpc hst, hi.after_slots hpc hst⟩

/-- The invariant holds when the goroutines start. -/
theorem init_inv (indexed : Bool) (answers : List (Except ε α)) :
    Inv indexed answers (State.init answers.length) where
  length := List.length_replicate _ _
  answer i pc h := by
    rw [List.eq_of_mem_replicate (List.getElem?_mem h)]
    nofun
  fits pc h := by
    rw [List.eq_of_mem_replicate h]
    rfl
  mutex := by simp [State.init, Pc.inCrit]
  fresh i pc h := by
    rw [List.eq_of_mem_replicate (List.getElem?_mem h)]
    nofun
  errs := by simp [State.init, Pc.wroteErr]
  results := by simp [State.init, Pc.wroteResult]
  slots := by simp [State.init, Pc.stored?]

theorem run_preserves {P : State ε α → Prop}
    (hstep : ∀ s i s', P s → s.step indexed answers i = some s' → P s') {s s' : State ε α}
    {order : List Nat} (hs : P s) (h : run indexed answers s order = some s') : P s' := by
  induction order generalizing s with
  | nil => cases h; exact hs
  | cons i order ih =>
    obtain ⟨s₁, h₁, h⟩ := Option.bind_eq_some.mp h
    exact ih (hstep s i s₁ hs h₁) h

/-- Every state a run reaches from the start satisfies the invariant. -/
theorem run_inv {order : List Nat} {s : State ε α}
    (h : run indexed answers (State.init answers.length) order = some s) :
    Inv indexed answers s :=
  run_preserves (fun _ _ _ hs h => hs.step h) (init_inv indexed answers) h

/-! ## No goroutine waits for ever -/

/-- A goroutine that has not returned can step if it holds `mtx` or `mtx` is free. -/
theorem Pc.step_isSome {answer : Option (Except ε α)} {sh : Shared ε α} {pc : Pc ε α}
    (hf : pc.finished = false) (hans : answer.isSome = true)
    (hl : pc.inCrit = true ∨ sh.locked = false) : (pc.step indexed answer sh).isSome = true := by
  cases pc with
  | call => simpa [Pc.step] using hans
  | lock r =>
    simp only [Pc.inCrit, Bool.false_eq_true, false_or] at hl
    simp [Pc.step, hl]
  | read r => cases r <;> rfl
  | writeErr | writeResult | unlock | store => rfl
  | done | stored => cases hf

theorem State.step_of_isSome {s : State ε α} {i : Nat} {pc : Pc ε α} (hpc : s.pcs[i]? = some pc)
    (h : (pc.step indexed answers[i]? s.shared).isSome = true) :
    ∃ s', s.step indexed answers i = some s' := by
  obtain ⟨⟨pc', eff⟩, hst⟩ := Option.isSome_iff_exists.mp h
  exact ⟨s.after i pc' eff, by simp [State.step, hpc, hst]⟩

/-- Until every goroutine has returned some goroutine can step: the one holding `mtx`, or,
while it is free, any that has not returned. So no interleaving leaves `wg.Wait()` blocked. -/
theorem Inv.progress {s : State ε α} (hi : Inv indexed answers s) {j : Nat} {pc : Pc ε α}
    (hj : s.pcs[j]? = some pc) (hf : pc.finished = false) :
    ∃ i s', s.step indexed answers i = some s' := by
  have hans : answers[j]?.isSome = true := by
    rw [Option.isSome_iff_exists]
    exact ⟨_, List.getElem?_eq_getElem
      (hi.length ▸ (List.getElem?_eq_some_iff.mp hj).1)⟩
  cases hl : s.shared.locked
  · exact ⟨j, State.step_of_isSome hj (Pc.step_isSome hf hans (.inr hl))⟩
  · obtain ⟨q, hq, hcrit⟩ : ∃ q ∈ s.pcs, q.inCrit = true := by
      refine List.countP_pos_iff.mp ?_
      rw [hi.mutex, hl]
      exact Nat.one_pos
    obtain ⟨k, hk⟩ := List.mem_iff_getElem?.mp hq
    have hansk : answers[k]?.isSome = true := by
      rw [Option.isSome_iff_exists]
      exact ⟨_, List.getElem?_eq_getElem
        (hi.length ▸ (List.getElem?_eq_some_iff.mp hk).1)⟩
    refine ⟨k, State.step_of_isSome hk (Pc.step_isSome ?_ hansk (.inl hcrit))⟩
    cases q <;> first | rfl | cases hcrit

/-- How many more steps a goroutine takes at most. -/
def Pc.rank : Pc ε α → Nat
  | .call => 5
  | .lock _ => 4
  | .read _ => 3
  | .writeErr _ _ | .writeResult _ _ => 2
  | .unlock _ | .store _ => 1
  | .done _ | .stored _ => 0

theorem Pc.rank_step {answer : Option (Except ε α)} {sh : Shared ε α} {pc pc' : Pc ε α}
    {eff : Effect ε α} (h : pc.step indexed answer sh = some (pc', eff)) : pc'.rank < pc.rank := by
  rcases Pc.step_cases h with ⟨e, rfl, -, rfl, rfl⟩ | ⟨v, rfl, -, -, rfl, rfl⟩ |
      ⟨v, rfl, -, -, rfl, rfl⟩ | ⟨r, rfl, -, rfl, rfl⟩ | ⟨e, rfl, rfl, rfl⟩ |
      ⟨v, rfl, rfl, rfl⟩ | ⟨e, snap, rfl, rfl, rfl⟩ | ⟨v, snap, rfl, rfl, rfl⟩ |
      ⟨r, rfl, rfl, rfl⟩ | ⟨v, rfl, rfl, rfl⟩ <;>
    exact Nat.le_of_ble_eq_true rfl

/-- The steps the goroutines have left in all. -/
def State.left (s : State ε α) : Nat := s.pcs.foldr (fun pc n => pc.rank + n) 0

/-- Each step lowers the steps the goroutines have left in all. -/
theorem State.left_step {s s' : State ε α} {i : Nat} (h : s.step indexed answers i = some s') :
    s'.left < s.left := by
  obtain ⟨pc, pc', eff, hpc, hst, rfl⟩ := State.step_eq_some h
  have := foldr_set_add hpc Pc.rank pc'
  have := Pc.rank_step hst
  unfold State.left
  rw [State.after_pcs]
  omega

/-- From every state a run reaches, the goroutines can be run on until every one has
returned: `wg.Wait()` is never left blocked. -/
theorem run_completes {order : List Nat} {s : State ε α}
    (h : run indexed answers (State.init answers.length) order = some s) :
    ∃ more s', run indexed answers s more = some s' ∧ ∀ pc ∈ s'.pcs, pc.finished = true := by
  have hi := run_inv h
  clear h
  obtain ⟨n, hn⟩ : ∃ n, s.left = n := ⟨_, rfl⟩
  induction n using Nat.strong_induction_on generalizing s with
  | _ n ih =>
    by_cases hall : ∀ pc ∈ s.pcs, pc.finished = true
    · exact ⟨[], s, rfl, hall⟩
    · push_neg at hall
      obtain ⟨pc, hmem, hf⟩ := hall
      obtain ⟨j, hj⟩ := List.mem_iff_getElem?.mp hmem
      obtain ⟨i, s₁, h₁⟩ := hi.progress hj (by simpa using hf)
      obtain ⟨more, s', h', hdone⟩ := ih _ (hn ▸ State.left_step h₁) (hi.step h₁) rfl
      exact ⟨i :: more, s', by simp [run, List.foldlM_cons, h₁]; exact h', hdone⟩

/-- Two goroutines of `LabelValues`: after both called their querier, the first is inside
the mutex; the run can be finished. -/
theorem run_completes_label_values :
    let answers : List (Except String (List String)) := [.ok ["api"], .ok ["db"]]
    ∃ s, run false answers (State.init answers.length) [0, 1, 0, 0] = some s ∧
      ∃ more s', run false answers s more = some s' ∧ ∀ pc ∈ s'.pcs, pc.finished = true := by
  intro answers
  obtain ⟨s, h⟩ : ∃ s, run false answers (State.init answers.length) [0, 1, 0, 0] = some s :=
    ⟨_, by dsimp only [answers]; rfl⟩
  exact ⟨s, h, run_completes h⟩

/-! ## After `wg.Wait()` -/

theorem Pc.eq_final {pc : Pc ε α} (hfin : pc.finished = true) (hfit : pc.fits indexed = true) :
    ∃ r, pc.answer = some r ∧ pc = Pc.final indexed r := by
  cases pc with
  | done r =>
    rcases r with e | v
    · exact ⟨_, rfl, rfl⟩
    · cases indexed
      · exact ⟨_, rfl, rfl⟩
      · cases hfit
  | stored v =>
    cases indexed
    · cases hfit
    · exact ⟨_, rfl, rfl⟩
  | _ => cases hfin

/-- Once every goroutine has returned, each has returned with its querier's answer, along
the path of its method. -/
theorem Inv.pcs_eq_final {s : State ε α} (hi : Inv indexed answers s)
    (hdone : ∀ pc ∈ s.pcs, pc.finished = true) : s.pcs = answers.map (Pc.final indexed) := by
  refine List.ext_getElem? fun i => ?_
  rw [List.getElem?_map]
  cases hpc : s.pcs[i]? with
  | none =>
    rw [List.getElem?_eq_none (hi.length ▸ List.getElem?_eq_none_iff.mp hpc)]
    rfl
  | some pc =>
    have hmem := List.getElem?_mem hpc
    obtain ⟨r, hr, rfl⟩ := Pc.eq_final (hdone pc hmem) (hi.fits pc hmem)
    rw [hi.answer i _ hpc r hr]
    rfl

theorem filterMap_wroteErr_final (answers : List (Except ε α)) :
    (answers.map (Pc.final indexed)).filterMap Pc.wroteErr = answers.filterMap answerError := by
  rw [List.filterMap_map]
  congr 1
  funext r
  rcases r with e | v
  · rfl
  · cases indexed <;> rfl

theorem filterMap_wroteResult_final (answers : List (Except ε α)) :
    (answers.map (Pc.final false)).filterMap Pc.wroteResult = answers.filterMap Except.toOption := by
  rw [List.filterMap_map]
  congr 1
  funext r
  rcases r with e | v <;> rfl

/-- With no error among the answers, the slots hold every series set, in querier order. -/
theorem mapM_stored_final {answers : List (Except ε α)}
    (h : answers.filterMap answerError = []) :
    List.mapM id ((answers.map (Pc.final true)).map Pc.stored?) =
      some (answers.filterMap Except.toOption) := by
  induction answers with
  | nil => rfl
  | cons r answers ih =>
    rcases r with e | v
    · cases h
    · simp only [List.filterMap_cons, answerError] at h
      rw [List.map_cons, List.map_cons, List.mapM_cons, ih h]
      rfl

/-- Over every interleaving of its goroutines, once all have returned, `Select` never hands a
nil series set on: it returns the queriers' errors, each once, when some querier failed, and
otherwise `NewMergeSeriesSet` of every querier's series set in querier order, whatever
order the goroutines ran in. -/
theorem select_spec {κ σ ε' : Type*} [Inhabited κ] {answers : List (Except ε (SeriesSet σ ε'))}
    {order : List Nat} {s : State ε (SeriesSet σ ε')}
    (h : run true answers (State.init answers.length) order = some s)
    (hdone : ∀ pc ∈ s.pcs, pc.finished = true) :
    ∃ errs : List ε, errs.Perm (answers.filterMap answerError) ∧
      (selectResult s : Option (Except (List ε) (MergedSet κ σ ε'))) =
        some (if errs.isEmpty then .ok (newMergeSeriesSet (answers.filterMap Except.toOption))
          else .error errs) := by
  have hi := run_inv h
  have hpcs := hi.pcs_eq_final hdone
  have herrs : s.shared.multiErr.Perm (answers.filterMap answerError) := by
    simpa only [hpcs, filterMap_wroteErr_final] using hi.errs
  refine ⟨s.shared.multiErr, herrs, ?_⟩
  unfold selectResult
  split
  · rename_i hnil
    have hnone : answers.filterMap answerError = [] := by
      rw [List.isEmpty_iff.mp hnil] at herrs
      exact herrs.nil_eq.symm
    rw [hi.slots, hpcs, mapM_stored_final hnone]
    rfl
  · rfl

/-- Over every interleaving of its goroutines, once all have returned, `LabelValues`
returns the queriers' errors, each once, when some querier failed, and otherwise
`mergeStringSlices` of the queriers' answers, each once, in the order the goroutines
appended them. -/
theorem labelValues_spec {β : Type*} [LinearOrder β] {answers : List (Except ε (List β))}
    {order : List Nat} {s : State ε (List β)}
    (h : run false answers (State.init answers.length) order = some s)
    (hdone : ∀ pc ∈ s.pcs, pc.finished = true) :
    ∃ errs results, errs.Perm (answers.filterMap answerError) ∧
      results.Perm (answers.filterMap Except.toOption) ∧
      labelValuesResult s = if errs.isEmpty then .ok (mergeStringSlices results)
        else .error errs := by
  have hi := run_inv h
  have hpcs := hi.pcs_eq_final hdone
  exact ⟨s.shared.multiErr, s.shared.results,
    by simpa only [hpcs, filterMap_wroteErr_final] using hi.errs,
    by simpa only [hpcs, filterMap_wroteResult_final] using hi.results, rfl⟩

/-- One shard answers while the other fails; the failing goroutine takes the mutex first.
`Select` returns the error. -/
theorem select_spec_failed_shard :
    let answers : List (Except String (SeriesSet Nat Unit)) := [.ok ⟨[1], none⟩, .error "down"]
    ∃ s, run true answers (State.init answers.length) [1, 0, 1, 1, 0, 1, 1] = some s ∧
      (∀ pc ∈ s.pcs, pc.finished = true) ∧
      ∃ errs : List String, errs.Perm (answers.filterMap answerError) ∧
        (selectResult s : Option (Except (List String) (MergedSet Nat Nat Unit))) =
          some (if errs.isEmpty then .ok (newMergeSeriesSet (answers.filterMap Except.toOption))
            else .error errs) := by
  intro answers
  obtain ⟨s, h⟩ : ∃ s, run true answers (State.init answers.length) [1, 0, 1, 1, 0, 1, 1] =
      some s := ⟨_, by dsimp only [answers]; rfl⟩
  have hdone : ∀ pc ∈ s.pcs, pc.finished = true := by
    dsimp only [answers] at h
    cases h
    decide
  exact ⟨s, h, hdone, select_spec h hdone⟩

/-- Two shards answer `LabelValues`; their goroutines take the mutex one after the other. -/
theorem labelValues_spec_two_shards :
    let answers : List (Except String (List String)) := [.ok ["api", "db"], .ok ["api", "web"]]
    ∃ s, run false answers (State.init answers.length) [0, 1, 0, 0, 0, 0, 1, 1, 1, 1] = some s ∧
      (∀ pc ∈ s.pcs, pc.finished = true) ∧
      ∃ errs results, errs.Perm (answers.filterMap answerError) ∧
        results.Perm (answers.filterMap Except.toOption) ∧
        labelValuesResult s = if errs.isEmpty then .ok (mergeStringSlices results)
          else .error errs := by
  intro answers
  obtain ⟨s, h⟩ : ∃ s, run false answers (State.init answers.length)
      [0, 1, 0, 0, 0, 0, 1, 1, 1, 1] = some s := ⟨_, by dsimp only [answers]; rfl⟩
  have hdone : ∀ pc ∈ s.pcs, pc.finished = true := by
    dsimp only [answers] at h
    cases h
    decide
  exact ⟨s, h, hdone, labelValues_spec h hdone⟩

end Baudtime.Backend.MergeQuerier
