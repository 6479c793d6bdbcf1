import Baudtime.Backend.MergeSeriesSet
import Mathlib.Data.Multiset.Basic

/-!
# The time merge of the series that share a label set

When several shards return a series with the same label set, `mergeSeries.Iterator` merges
their sample iterators with `newMergeIterator`, a second heap keyed by the timestamp under
each child's cursor. `Next` lazily pre-advances every child on its first call (while `h` is
still `nil`) and afterwards pops the child at the least timestamp, advances it and pushes it
back. `Seek` rebuilds the heap from scratch, seeking every child.

A child iterator is modelled by the samples it yields, in strictly increasing timestamp
order; `Seek t` moves it forward to its first not yet passed sample at or after `t`, never
backwards. A child that is exhausted takes no further part: `Next` and `Seek` on it return
false. So the merge is modelled by its children before the first call, and by the children
still under a cursor afterwards; `Seek` pushes them back in heap order, which only changes
which of several equally timed samples comes first.

The specification is a single iterator over the multiset of samples not yet passed:
`Next` passes the sample under the cursor, `Seek t` passes every sample before `t`, a call
returns false exactly when no sample remains, and `At` is a remaining sample of least
timestamp.

## Main definitions

* `MergeIterator`, `MergeIterator.next`, `MergeIterator.seek`, `MergeIterator.atSample`
* `Passes`, `Least`, `AbsRun` — the single-iterator specification

## Main results

* `MergeIterator.step_spec` — one call, from any state reached, refines the specification
* `newMergeIterator_spec` — over any sequence of `Next` and `Seek` calls
-/

namespace Baudtime.Backend

variable {α τ : Type*} [LinearOrder τ] (ts : α → τ)

/-- A call on a `SeriesIterator`. -/
inductive Op (τ : Type*)
  | next
  | seek (t : τ)

/-- `iter.Seek(t)` on a child that has not passed any sample of `xs` yet. -/
def seekFrom (t : τ) (xs : List α) : Option (Cursor α) := start (xs.dropWhile (ts · < t))

/-- `iter.Seek(t)` on a child under its cursor: it stays at a sample at or after `t`. -/
def seekCursor (t : τ) (c : Cursor α) : Option (Cursor α) :=
  if t ≤ ts c.1 then some c else seekFrom ts t c.2

/-- `mergeIterator`: before the first call (`h == nil`) its children, afterwards the
children still under a cursor, which are the heap. -/
inductive MergeIterator (α : Type*)
  | unstarted (iterators : List (List α))
  | started (h : List (Cursor α))

/-- `newMergeIterator`. -/
def newMergeIterator (iterators : List (List α)) : MergeIterator α := .unstarted iterators

namespace MergeIterator

/-- `mergeIterator.Next`. -/
def next : MergeIterator α → Bool × MergeIterator α
  | .unstarted its =>
    match its.filterMap start with
    | [] => (false, .unstarted its)
    | h => (true, .started h)
  | .started h =>
    match popMin (ts ·.1) h with
    | none => (false, .started h)
    | some (top, rest) =>
      let h' := match top.next with
        | some c => push rest c
        | none => rest
      (!h'.isEmpty, .started h')

/-- `mergeIterator.Seek`: a fresh heap of every child that seeks successfully. -/
def seek (t : τ) : MergeIterator α → Bool × MergeIterator α
  | .unstarted its =>
    let h := its.filterMap (seekFrom ts t)
    (!h.isEmpty, .started h)
  | .started h =>
    let h' := h.filterMap (seekCursor ts t)
    (!h'.isEmpty, .started h')

/-- `mergeIterator.At`; `none` where Go panics on an empty heap. -/
def atSample : MergeIterator α → Option α
  | .unstarted _ => none
  | .started h => (popMin (ts ·.1) h).map (·.1.1)

/-- One call, and `At()` when it returned true. -/
def step (s : MergeIterator α) : Op τ → Option α × MergeIterator α
  | .next => let (ok, s') := s.next ts; (if ok then s'.atSample ts else none, s')
  | .seek t => let (ok, s') := s.seek ts t; (if ok then s'.atSample ts else none, s')

theorem step_next (s : MergeIterator α) :
    s.step ts .next = (if (s.next ts).1 then (s.next ts).2.atSample ts else none, (s.next ts).2) :=
  rfl

theorem step_seek (s : MergeIterator α) (t : τ) :
    s.step ts (.seek t) =
      (if (s.seek ts t).1 then (s.seek ts t).2.atSample ts else none, (s.seek ts t).2) :=
  rfl

/-- What a caller sees over a sequence of calls. -/
def run : MergeIterator α → List (Op τ) → List (Option α)
  | _, [] => []
  | s, op :: ops => (s.step ts op).1 :: run (s.step ts op).2 ops

end MergeIterator

/-! ## The specification: one iterator over all the samples -/

/-- The samples not yet passed after a call, from those `R` not yet passed before it and
the sample `cur` under the cursor (`none` before the first call and after a `false`):
`Next` passes `cur`, `Seek t` passes every sample before `t`. -/
def Passes (R : Multiset α) (cur : Option α) : Op τ → Multiset α → Prop
  | .next, R' => match cur with
    | some c => R = c ::ₘ R'
    | none => R' = R
  | .seek t, R' => R' = R.filter (t ≤ ts ·)

/-- What a call returns: false when no sample remains, otherwise (through `At`) a remaining
sample of least timestamp. -/
def Least (R : Multiset α) : Option α → Prop
  | none => R = 0
  | some x => x ∈ R ∧ ∀ y ∈ R, ts x ≤ ts y

/-- The observations `obs` of the calls `ops` are those of a single iterator over the
samples `R`, with `cur` under its cursor. -/
def AbsRun : Multiset α → Option α → List (Op τ) → List (Option α) → Prop
  | _, _, [], obs => obs = []
  | R, cur, op :: ops, obs =>
    ∃ R' o rest, obs = o :: rest ∧ Passes ts R cur op R' ∧ Least ts R' o ∧ AbsRun R' o ops rest

/-! ## The samples not yet passed -/

/-- The samples a child under its cursor has not passed: `At()` and those after it. -/
def Cursor.samples (c : Cursor α) : List α := c.1 :: c.2

/-- The samples of a child after a call that may have exhausted it. -/
def Cursor.samplesOf : Option (Cursor α) → List α
  | none => []
  | some c => c.samples

@[simp] theorem samplesOf_start (xs : List α) : Cursor.samplesOf (start xs) = xs := by
  cases xs <;> rfl

theorem flatMap_filterMap_samples {β : Type*} (f : β → Option (Cursor α)) (l : List β) :
    (l.filterMap f).flatMap Cursor.samples = l.flatMap (Cursor.samplesOf ∘ f) := by
  induction l with
  | nil => rfl
  | cons x l ih => cases h : f x <;> simp [List.filterMap_cons, h, ih, Cursor.samplesOf]

/-- A strictly increasing child seeks by dropping exactly its samples before `t`. -/
theorem dropWhile_eq_filter {xs : List α} (hs : xs.Sorted (ts · < ts ·)) (t : τ) :
    xs.dropWhile (ts · < t) = xs.filter (t ≤ ts ·) := by
  induction xs with
  | nil => rfl
  | cons x xs ih =>
    rw [List.sorted_cons] at hs
    by_cases hx : ts x < t
    · simp [List.dropWhile_cons, List.filter_cons, hx, not_le.mpr hx, ih hs.2]
    · have hall : xs.filter (t ≤ ts ·) = xs := List.filter_eq_self.mpr fun y hy => by
        simpa using (not_lt.mp hx).trans (hs.1 y hy).le
      simp [List.dropWhile_cons, List.filter_cons, hx, not_lt.mp hx, hall]

theorem samplesOf_seekCursor {c : Cursor α} (hs : c.samples.Sorted (ts · < ts ·)) (t : τ) :
    Cursor.samplesOf (seekCursor ts t c) = c.samples.filter (t ≤ ts ·) := by
  obtain ⟨x, r⟩ := c
  simp only [Cursor.samples, List.sorted_cons] at hs
  by_cases hx : t ≤ ts x
  · have hr : r.filter (t ≤ ts ·) = r := List.filter_eq_self.mpr fun y hy => by
      simpa using hx.trans (hs.1 y hy).le
    simp [seekCursor, hx, Cursor.samplesOf, Cursor.samples, List.filter_cons, hr]
  · simp [seekCursor, seekFrom, hx, Cursor.samples, List.filter_cons,
      dropWhile_eq_filter ts hs.2]

namespace MergeIterator

/-- The samples not yet passed, over every child. -/
def remaining : MergeIterator α → Multiset α
  | .unstarted its => ↑its.flatten
  | .started h => ↑(h.flatMap Cursor.samples)

/-- Every child's samples strictly increase. -/
def Sorted : MergeIterator α → Prop
  | .unstarted its => ∀ xs ∈ its, xs.Sorted (ts · < ts ·)
  | .started h => ∀ c ∈ h, c.samples.Sorted (ts · < ts ·)

/-- The heap top is a remaining sample of least timestamp, since each child's samples
increase from its cursor on. -/
theorem least_atSample {h : List (Cursor α)} (hs : Sorted ts (.started h)) :
    Least ts (remaining (.started h)) (atSample ts (.started h)) := by
  rcases hp : popMin (ts ·.1) h with _ | ⟨top, rest⟩
  · simp [Least, atSample, remaining, hp, popMin_eq_none.mp hp]
  · simp only [Least, atSample, hp, Option.map_some', remaining, Multiset.mem_coe]
    refine ⟨List.mem_flatMap.mpr ⟨top, popMin_mem hp, List.mem_cons_self _ _⟩, fun y hy => ?_⟩
    obtain ⟨c, hc, hy⟩ := List.mem_flatMap.mp hy
    have hle := popMin_le hp c hc
    rcases List.mem_cons.mp hy with rfl | hy
    · exact hle
    · exact hle.trans ((List.sorted_cons.mp (hs c hc)).1 y hy).le

theorem atSample_started_of_isEmpty (h : List (Cursor α)) :
    (if !h.isEmpty then atSample ts (.started h) else none) = atSample ts (.started h) := by
  cases h <;> simp [atSample]

/-- A call refines the specification: it passes what the specification passes, it returns
a least remaining sample (or false when none remains), the sample it returns is the one
under the new cursor, and every child still strictly increases. -/
def StepSpec (s : MergeIterator α) (op : Op τ) : Prop :=
  Passes ts s.remaining (s.atSample ts) op (s.step ts op).2.remaining ∧
    Least ts (s.step ts op).2.remaining (s.step ts op).1 ∧
    (s.step ts op).1 = (s.step ts op).2.atSample ts ∧ Sorted ts (s.step ts op).2

/-- A call that leaves a heap `h` satisfies the specification once it passes what it
should: the heap top is the least remaining sample. -/
theorem stepSpec_of_started {s : MergeIterator α} {op : Op τ} (h : List (Cursor α))
    (hstep : s.step ts op = (if !h.isEmpty then atSample ts (.started h) else none, .started h))
    (hpass : Passes ts s.remaining (s.atSample ts) op (remaining (.started h)))
    (hs : Sorted ts (.started h)) : StepSpec ts s op := by
  rw [StepSpec, hstep, atSample_started_of_isEmpty]
  exact ⟨hpass, least_atSample ts hs, rfl, hs⟩

/-- The children a `filterMap` leaves under a cursor strictly increase when every
child's samples after the call do. -/
theorem sorted_filterMap {β : Type*} {f : β → Option (Cursor α)} {l : List β}
    (hf : ∀ x ∈ l, (Cursor.samplesOf (f x)).Sorted (ts · < ts ·)) :
    Sorted ts (.started (l.filterMap f)) := by
  intro c hc
  obtain ⟨x, hx, hfx⟩ := List.mem_filterMap.mp hc
  simpa [hfx, Cursor.samplesOf] using hf x hx

theorem stepSpec_next_unstarted {its : List (List α)} (hs : Sorted ts (.unstarted its)) :
    StepSpec ts (.unstarted its) .next := by
  rcases hh : its.filterMap start with _ | ⟨c, cs⟩
  · have hnil : its.flatten = [] := by
      simpa [List.flatten_eq_nil_iff, start_eq_none] using hh
    have hstep : (MergeIterator.unstarted its).step ts .next = (none, .unstarted its) := by
      simp [step, next, hh]
    rw [StepSpec, hstep]
    exact ⟨rfl, by simp [Least, remaining, hnil], rfl, hs⟩
  · refine stepSpec_of_started ts (c :: cs) (by simp [step, next, hh]) ?_ ?_
    · simp only [Passes, remaining, atSample, ← hh, flatMap_filterMap_samples]
      rw [show Cursor.samplesOf ∘ start = (id : List α → List α) from funext samplesOf_start,
        List.flatMap_id]
    · exact hh ▸ sorted_filterMap ts fun xs hxs => by simpa using hs xs hxs

theorem stepSpec_next_started {h : List (Cursor α)} (hs : Sorted ts (.started h)) :
    StepSpec ts (.started h) .next := by
  rcases hp : popMin (ts ·.1) h with _ | ⟨⟨x, r⟩, rest⟩
  · obtain rfl := popMin_eq_none.mp hp
    exact stepSpec_of_started ts [] (by simp [step, next]) (by simp [Passes, atSample]) nofun
  · have hperm : (h.flatMap Cursor.samples).Perm (x :: (r ++ rest.flatMap Cursor.samples)) := by
      simpa [Cursor.samples] using ((popMin_perm hp).flatMap_right Cursor.samples).symm
    have hsrest : Sorted ts (.started rest) := fun c hc =>
      hs c ((popMin_perm hp).subset (List.mem_cons_of_mem _ hc))
    have hsx : (x :: r).Sorted (ts · < ts ·) := hs _ (popMin_mem hp)
    cases r with
    | nil =>
      have hnext : next ts (.started h) = (!rest.isEmpty, .started rest) := by
        simp only [next, hp]; rfl
      refine stepSpec_of_started ts rest (by rw [step_next, hnext]) ?_ hsrest
      simpa [Passes, atSample, hp, remaining] using hperm
    | cons y r =>
      have hnext : next ts (.started h) =
          (!(rest ++ [(y, r)]).isEmpty, .started (rest ++ [(y, r)])) := by
        simp only [next, hp]; rfl
      refine stepSpec_of_started ts (rest ++ [(y, r)]) (by rw [step_next, hnext]) ?_ ?_
      · simp only [Passes, atSample, hp, Option.map_some', remaining, Multiset.cons_coe,
          Multiset.coe_eq_coe]
        have hcomm := @List.perm_append_comm _ (y :: r) (rest.flatMap Cursor.samples)
        exact hperm.trans (List.Perm.cons _ (by simpa [Cursor.samples] using hcomm))
      · intro c hc
        rcases List.mem_append.mp hc with hc | hc
        · exact hsrest c hc
        · obtain rfl := List.mem_singleton.mp hc
          exact (List.sorted_cons.mp hsx).2

theorem stepSpec_seek_unstarted {its : List (List α)} (hs : Sorted ts (.unstarted its)) (t : τ) :
    StepSpec ts (.unstarted its) (.seek t) := by
  have hseek : ∀ xs ∈ its, Cursor.samplesOf (seekFrom ts t xs) = xs.filter (t ≤ ts ·) :=
    fun xs hxs => (samplesOf_start _).trans (dropWhile_eq_filter ts (hs xs hxs) t)
  refine stepSpec_of_started ts (its.filterMap (seekFrom ts t)) rfl ?_
    (sorted_filterMap ts fun xs hxs => hseek xs hxs ▸ (hs xs hxs).filter _)
  simp only [Passes, remaining, flatMap_filterMap_samples, Multiset.filter_coe, List.filter_flatten]
  exact congrArg _ (List.flatMap_congr hseek)

theorem stepSpec_seek_started {h : List (Cursor α)} (hs : Sorted ts (.started h)) (t : τ) :
    StepSpec ts (.started h) (.seek t) := by
  have hseek : ∀ c ∈ h, Cursor.samplesOf (seekCursor ts t c) = c.samples.filter (t ≤ ts ·) :=
    fun c hc => samplesOf_seekCursor ts (hs c hc) t
  refine stepSpec_of_started ts (h.filterMap (seekCursor ts t)) rfl ?_
    (sorted_filterMap ts fun c hc => hseek c hc ▸ (hs c hc).filter _)
  simp only [Passes, remaining, flatMap_filterMap_samples, Multiset.filter_coe, List.filter_flatMap]
  exact congrArg _ (List.flatMap_congr hseek)

/-- Every call, from any state whose children strictly increase, refines the
specification. -/
theorem step_spec {s : MergeIterator α} (hs : Sorted ts s) (op : Op τ) : StepSpec ts s op := by
  cases s with
  | unstarted its =>
    cases op with
    | next => exact stepSpec_next_unstarted ts hs
    | seek t => exact stepSpec_seek_unstarted ts hs t
  | started h =>
    cases op with
    | next => exact stepSpec_next_started ts hs
    | seek t => exact stepSpec_seek_started ts hs t

end MergeIterator

/-! ## Every sequence of calls -/

/-- The run lemma: from a state whose children strictly increase, any sequence of calls is
observed as on a single iterator over the samples not yet passed. -/
theorem MergeIterator.run_spec {s : MergeIterator α} (hs : s.Sorted ts) (ops : List (Op τ)) :
    AbsRun ts s.remaining (s.atSample ts) ops (s.run ts ops) := by
  induction ops generalizing s with
  | nil => rfl
  | cons op ops ih =>
    obtain ⟨hpass, hleast, hobs, hs'⟩ := MergeIterator.step_spec ts hs op
    exact ⟨_, _, _, rfl, hpass, hleast, hobs ▸ ih hs'⟩

theorem Passes.le {R R' : Multiset α} {cur : Option α} {op : Op τ}
    (h : Passes ts R cur op R') : R' ≤ R := by
  cases op with
  | next =>
    cases cur with
    | none => exact (show R' = R from h).le
    | some c => exact (show R = c ::ₘ R' from h) ▸ Multiset.le_cons_self R' c
  | seek t => exact (show R' = _ from h) ▸ Multiset.filter_le _ R

/-- On a single iterator, the samples observed never go back in time: each is a least
remaining sample, and what remains only shrinks, so every lower bound of what remains
bounds every later observation. -/
theorem AbsRun.sorted {R : Multiset α} {cur : Option α} {ops : List (Op τ)}
    {obs : List (Option α)} (h : AbsRun ts R cur ops obs) :
    ((obs.filterMap id).map ts).Sorted (· ≤ ·) ∧
      ∀ b, (∀ y ∈ R, b ≤ ts y) → ∀ x ∈ obs.filterMap id, b ≤ ts x := by
  induction ops generalizing R cur obs with
  | nil => obtain rfl : obs = [] := h; simp
  | cons op ops ih =>
    obtain ⟨R', o, rest, rfl, hpass, hleast, hrun⟩ := h
    obtain ⟨hsorted, hbound⟩ := ih hrun
    have hle : ∀ b, (∀ y ∈ R, b ≤ ts y) → ∀ y ∈ R', b ≤ ts y :=
      fun b hb y hy => hb y (Multiset.mem_of_le (hpass.le ts) hy)
    cases o with
    | none => exact ⟨hsorted, fun b hb => hbound b (hle b hb)⟩
    | some x =>
      obtain ⟨hx, hmin⟩ := hleast
      have hafter := hbound (ts x) hmin
      refine ⟨List.sorted_cons.mpr ⟨?_, hsorted⟩, fun b hb y hy => ?_⟩
      · simpa using hafter
      · rcases List.mem_cons.mp hy with rfl | hy
        · exact hle b hb y hx
        · exact (hle b hb x hx).trans (hafter y hy)

/-- `newMergeIterator` over children whose timestamps strictly increase behaves, under any
sequence of `Next` and `Seek` calls, as a single iterator over all of their samples: `Next`
passes exactly the sample under the cursor, `Seek t` exactly the samples before `t`, every
other sample (equal timestamps from different children included) stays, a call returns
false only when none remains, and otherwise `At` is a remaining sample of least timestamp.
In particular the samples observed have non-decreasing timestamps. -/
theorem newMergeIterator_spec (iterators : List (List α))
    (hs : ∀ xs ∈ iterators, xs.Sorted (ts · < ts ·)) (ops : List (Op τ)) :
    AbsRun ts (↑iterators.flatten) none ops ((newMergeIterator iterators).run ts ops) ∧
      ((((newMergeIterator iterators).run ts ops).filterMap id).map ts).Sorted (· ≤ ·) := by
  have hrun := MergeIterator.run_spec ts
    (show MergeIterator.Sorted ts (newMergeIterator iterators) from hs) ops
  exact ⟨hrun, (hrun.sorted ts).1⟩

/-- Two shards hold the same series, both with a sample at time 1; samples are pairs of a
timestamp and a value. -/
theorem newMergeIterator_spec_two_shards :
    (∀ xs ∈ [[(1, 10), (3, 30)], [(1, 11), (2, 21)]], xs.Sorted (Prod.fst · < Prod.fst ·)) ∧
      AbsRun Prod.fst (↑[[(1, 10), (3, 30)], [(1, 11), (2, 21)]].flatten) none
        [.next, .next, .seek 3, .next, .next]
        ((newMergeIterator [[(1, 10), (3, 30)], [(1, 11), (2, 21)]]).run Prod.fst
          [.next, .next, .seek 3, .next, .next]) ∧
      ((((newMergeIterator [[(1, 10), (3, 30)], [(1, 11), (2, 21)]]).run Prod.fst
          [.next, .next, .seek 3, .next, .next]).filterMap id).map Prod.fst).Sorted (· ≤ ·) :=
  have h : ∀ xs ∈ [[((1 : ℕ), (10 : ℕ)), (3, 30)], [(1, 11), (2, 21)]],
      xs.Sorted (Prod.fst · < Prod.fst ·) := by decide
  ⟨h, newMergeIterator_spec Prod.fst _ h _⟩

end Baudtime.Backend
