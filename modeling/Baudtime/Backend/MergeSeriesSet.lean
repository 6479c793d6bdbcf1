import Baudtime.Backend.Heap
import Mathlib.Data.Finset.Sort
import Mathlib.Data.String.Basic

/-!
# The k-way merge of series sets

`mergeQuerier.Select` hands the series sets of every shard to `NewMergeSeriesSet`. Each
child yields its series in increasing order of their label sets; the merge keeps the
children that still have a series in `seriesSetHeap`, keyed by the label set under each
child's cursor. `Next` first advances the children that produced the previous series,
then pops every child whose current label set equals the least one. `At` returns that
child's series, or a `mergeSeries` of all of them when several children share the label
set.

A child is modelled by the list of series it yields and its `Err()`. Once advanced, it
is a `Cursor`: the series under the cursor and those after it. Label sets are any
linear order with a zero value (`default`, Go's `nil` labels): `labels.Compare` is the
lexicographic order of label lists and `labels.Equal` is equality.

## Main definitions

* `SeriesSet`, `Cursor`, `SeriesAt` — a child, a child under its cursor, what `At` returns
* `MergeSeriesSet.next`, `MergeSeriesSet.atSeries`, `MergeSeriesSet.err` — the Go methods
* `newMergeSeriesSet` — the only child itself, or a `mergeSeriesSet` over all of them
* `MergedSet.run` — what a caller sees over `n` successive `Next` calls

## Main results

* `next_inv` — one `Next` call from the invariant `Inv` at threshold `b` emits the least
  label set above `b`, with every child holding it, and restores `Inv` there
* `run_merge` — the run lemma: from `Inv` at `b`, the calls yield the label sets above `b`
* `newMergeSeriesSet_spec` — over any number of calls, the label sets yielded are the
  sorted union of the children's label sets, each `At` holds exactly the children's
  series with that label set, and `Err` reports a child's error
-/

namespace Baudtime.Backend

variable {κ σ ε : Type*} [LinearOrder κ] (labelsOf : σ → κ)

/-- A child series set as it is passed to `NewMergeSeriesSet`: the series its `Next`
calls will yield, in order, and its `Err()`. -/
structure SeriesSet (σ ε : Type*) where
  series : List σ
  err : Option ε

/-- A child after a `Next` that returned true: `At()`, and the series still to come. -/
abbrev Cursor (σ : Type*) := σ × List σ

/-- The first `Next()` of a child with the given series. -/
def start : List σ → Option (Cursor σ)
  | [] => none
  | x :: r => some (x, r)

@[simp] theorem start_nil : start ([] : List σ) = none := rfl

@[simp] theorem start_cons (x : σ) (r : List σ) : start (x :: r) = some (x, r) := rfl

/-- `Next()` on a child under its cursor. -/
def Cursor.next (c : Cursor σ) : Option (Cursor σ) := start c.2

/-- What `At()` returns: a child's own series, or a `mergeSeries` with its labels and
constituents. -/
inductive SeriesAt (κ σ : Type*)
  | single (s : σ)
  | mergeSeries (labels : κ) (series : List σ)
  deriving DecidableEq

/-- `At().Labels()`. -/
def SeriesAt.labels : SeriesAt κ σ → κ
  | .single s => labelsOf s
  | .mergeSeries l _ => l

/-- The fields of `mergeSeriesSet`. -/
structure MergeSeriesSet (κ σ ε : Type*) where
  currentLabels : κ
  currentSets : List (Cursor σ)
  heap : List (Cursor σ)
  sets : List (SeriesSet σ ε)

/-- The loop of `Next` that pops heap tops while their label set equals `currentLabels`,
appending them to `currentSets`. -/
def popEqual (l : κ) (acc h : List (Cursor σ)) : List (Cursor σ) × List (Cursor σ) :=
  match hp : popMin (labelsOf ·.1) h with
  | none => (acc, h)
  | some (x, h') => if labelsOf x.1 = l then popEqual l (acc ++ [x]) h' else (acc, h)
termination_by h.length
decreasing_by exact popMin_length hp

namespace MergeSeriesSet

/-- `mergeSeriesSet.Next`: push back the advanced `currentSets`; fail on an empty heap
(leaving `currentSets` as it was); otherwise pop the children at the least label set. -/
def next (c : MergeSeriesSet κ σ ε) : Bool × MergeSeriesSet κ σ ε :=
  let heap := c.heap ++ c.currentSets.filterMap Cursor.next
  match popMin (labelsOf ·.1) heap with
  | none => (false, { c with heap := heap })
  | some (top, _) =>
    let popped := popEqual labelsOf (labelsOf top.1) [] heap
    (true, { c with currentLabels := labelsOf top.1, currentSets := popped.1, heap := popped.2 })

/-- `mergeSeriesSet.At`. -/
def atSeries (c : MergeSeriesSet κ σ ε) : SeriesAt κ σ :=
  match c.currentSets with
  | [s] => .single s.1
  | sets => .mergeSeries c.currentLabels (sets.map (·.1))

omit [LinearOrder κ] in
theorem atSeries_of_eq_singleton {c : MergeSeriesSet κ σ ε} {s : Cursor σ}
    (h : c.currentSets = [s]) : c.atSeries = .single s.1 := by
  simp [atSeries, h]

omit [LinearOrder κ] in
theorem atSeries_of_length_ne_one {c : MergeSeriesSet κ σ ε} (h : c.currentSets.length ≠ 1) :
    c.atSeries = .mergeSeries c.currentLabels (c.currentSets.map (·.1)) := by
  unfold atSeries; split <;> simp_all

/-- `Next` never touches the children list that `Err` reads. -/
@[simp] theorem next_sets (c : MergeSeriesSet κ σ ε) : (c.next labelsOf).2.sets = c.sets := by
  simp only [next]; split <;> rfl

/-- `mergeSeriesSet.Err`: the first child error. -/
def err (c : MergeSeriesSet κ σ ε) : Option ε := c.sets.findSome? (·.err)

end MergeSeriesSet

/-- A lone child on its own: not yet advanced, under its cursor, or exhausted. -/
inductive ChildState (σ : Type*)
  | fresh (series : List σ)
  | cursor (c : Cursor σ)
  | done

/-- `Next()` of a lone child; an exhausted child stays exhausted. -/
def ChildState.next : ChildState σ → Bool × ChildState σ
  | .fresh xs => match start xs with
    | some c => (true, .cursor c)
    | none => (false, .done)
  | .cursor c => match c.next with
    | some c' => (true, .cursor c')
    | none => (false, .done)
  | .done => (false, .done)

/-- The `SeriesSet` that `NewMergeSeriesSet` returns. -/
inductive MergedSet (κ σ ε : Type*)
  | child (c : ChildState σ) (err : Option ε)
  | merge (m : MergeSeriesSet κ σ ε)

/-- `NewMergeSeriesSet`: a single child is returned as it is; otherwise every child is
advanced once and those with a series are pushed onto the heap. -/
def newMergeSeriesSet [Inhabited κ] : List (SeriesSet σ ε) → MergedSet κ σ ε
  | [c] => .child (.fresh c.series) c.err
  | sets => .merge
      { currentLabels := default, currentSets := [], heap := sets.filterMap (start ·.series),
        sets := sets }

namespace MergedSet

/-- One `Next()` call, and `At()` when it returned true. -/
def step : MergedSet κ σ ε → Option (SeriesAt κ σ) × MergedSet κ σ ε
  | .child c e => match c.next with
    | (true, .cursor (x, r)) => (some (.single x), .child (.cursor (x, r)) e)
    | (_, c') => (none, .child c' e)
  | .merge m =>
    let (ok, m') := m.next labelsOf
    (if ok then some m'.atSeries else none, .merge m')

/-- `Err()`. -/
def err : MergedSet κ σ ε → Option ε
  | .child _ e => e
  | .merge m => m.err

/-- What a caller sees over `n` successive `Next()` calls: `At()` after each call that
returned true, `none` after each that returned false. -/
def run : Nat → MergedSet κ σ ε → List (Option (SeriesAt κ σ))
  | 0, _ => []
  | n + 1, s => (step labelsOf s).1 :: run n (step labelsOf s).2

/-- The set after `n` calls. -/
def after : Nat → MergedSet κ σ ε → MergedSet κ σ ε
  | 0, s => s
  | n + 1, s => after n (step labelsOf s).2

end MergedSet

/-! ## Thresholds and the children's cursors

After some label sets were emitted, the state of the merge is determined by the last
one, the threshold `b`: a child holding `b` sits in `currentSets` at that series, and
every other child with a series above `b` waits in the heap at its first such series. -/

/-- Whether a label set lies above the threshold `b`; `none` lies below everything. -/
def above (b : Option κ) (l : κ) : Bool := b.all (· < l)

@[simp] theorem above_none (l : κ) : above none l = true := rfl

@[simp] theorem above_some (a l : κ) : above (some a) l = decide (a < l) := rfl

theorem above_of_le {b : Option κ} {a l : κ} (ha : above b a) (hl : a ≤ l) : above b l := by
  cases b <;> simp_all only [above_none, above_some, decide_eq_true_eq]
  exact lt_of_lt_of_le ha hl

/-- The series of `xs` above the threshold. -/
def seriesAbove (b : Option κ) (xs : List σ) : List σ := xs.filter (above b ∘ labelsOf)

@[simp] theorem seriesAbove_nil (b : Option κ) : seriesAbove labelsOf b [] = [] := rfl

@[simp] theorem seriesAbove_none (xs : List σ) : seriesAbove labelsOf none xs = xs :=
  List.filter_eq_self.mpr fun _ _ => rfl

@[simp] theorem filter_above_none (l : List κ) : l.filter (above none) = l :=
  List.filter_eq_self.mpr fun _ _ => rfl

@[simp] theorem mem_seriesAbove {b : Option κ} {s : σ} {xs : List σ} :
    s ∈ seriesAbove labelsOf b xs ↔ s ∈ xs ∧ above b (labelsOf s) := by
  simp [seriesAbove]

theorem seriesAbove_cons (b : Option κ) (x : σ) (xs : List σ) :
    seriesAbove labelsOf b (x :: xs) =
      if above b (labelsOf x) then x :: seriesAbove labelsOf b xs
      else seriesAbove labelsOf b xs := by
  simp only [seriesAbove, List.filter_cons, Function.comp]

/-- The cursor of a child holding the label set `b`: at that series. -/
def cursorAt (b : Option κ) (xs : List σ) : Option (Cursor σ) :=
  b.bind fun l => (xs.find? (labelsOf · = l)).map (·, seriesAbove labelsOf (some l) xs)

/-- A child waiting in the heap at threshold `b`: at its first series above `b`, unless it
holds `b` itself. -/
def heapCursor (b : Option κ) (xs : List σ) : Option (Cursor σ) :=
  if (cursorAt labelsOf b xs).isSome then none else start (seriesAbove labelsOf b xs)

variable {labelsOf}

theorem cursorAt_rest {b : Option κ} {xs : List σ} {c : Cursor σ}
    (h : cursorAt labelsOf b xs = some c) : c.2 = seriesAbove labelsOf b xs := by
  cases b with
  | none => simp [cursorAt] at h
  | some l =>
    simp only [cursorAt, Option.some_bind, Option.map_eq_some'] at h
    obtain ⟨_, -, rfl⟩ := h
    rfl

/-- One child, one `Next`: after the popping at `l`, a child's cursor is in `currentSets`
exactly when its first series above the old threshold has label set `l`, and it is in the
heap at the same cursor otherwise. -/
theorem start_seriesAbove_filter {xs : List σ} (hs : xs.Sorted (labelsOf · < labelsOf ·))
    {b : Option κ} {l : κ} (hb : above b l)
    (hl : ∀ y ∈ seriesAbove labelsOf b xs, l ≤ labelsOf y) :
    (start (seriesAbove labelsOf b xs)).filter (labelsOf ·.1 = l) =
        cursorAt labelsOf (some l) xs ∧
      (start (seriesAbove labelsOf b xs)).filter (labelsOf ·.1 ≠ l) =
        heapCursor labelsOf (some l) xs := by
  induction xs with
  | nil => simp [start, cursorAt, heapCursor]
  | cons x xs ih =>
    rw [List.sorted_cons] at hs
    by_cases hx : above b (labelsOf x)
    · have hlx : l ≤ labelsOf x := hl x (by simp [seriesAbove_cons, hx])
      have hb' : seriesAbove labelsOf b xs = xs := List.filter_eq_self.mpr fun y hy =>
        above_of_le hx (hs.1 y hy).le
      have hl' : seriesAbove labelsOf (some l) xs = xs := List.filter_eq_self.mpr fun y hy => by
        simpa using hlx.trans_lt (hs.1 y hy)
      rcases hlx.lt_or_eq with hlt | rfl
      · have hnone : xs.find? (labelsOf · = l) = none :=
          List.find?_eq_none.mpr fun y hy => by simpa using (hlt.trans (hs.1 y hy)).ne'
        simp [seriesAbove_cons, cursorAt, heapCursor, hx, start, hlt.ne', hlt, hnone, hb', hl']
      · simp [seriesAbove_cons, cursorAt, heapCursor, hx, start, hb', hl']
    · have hxl : labelsOf x < l := by
        cases b with
        | none => simp at hx
        | some a =>
          simp only [above_some, decide_eq_true_eq, not_lt] at hx hb
          exact hx.trans_lt hb
      have ih' := ih hs.2 fun y hy => hl y (by simp [seriesAbove_cons, hx, hy])
      simpa [seriesAbove_cons, cursorAt, heapCursor, hx, hxl.ne, not_lt.mpr hxl.le] using ih'

/-! ## The pop loop -/

theorem popEqual_of_eq_none {l : κ} {acc h : List (Cursor σ)}
    (hp : popMin (labelsOf ·.1) h = none) : popEqual labelsOf l acc h = (acc, h) := by
  rw [popEqual]; split <;> simp_all

theorem popEqual_of_eq_some {l : κ} {acc h h' : List (Cursor σ)} {x : Cursor σ}
    (hp : popMin (labelsOf ·.1) h = some (x, h')) :
    popEqual labelsOf l acc h =
      if labelsOf x.1 = l then popEqual labelsOf l (acc ++ [x]) h' else (acc, h) := by
  rw [popEqual]; split <;> simp_all

/-- Popping at the least label set `l` moves exactly the children at `l` to
`currentSets` and leaves the others in the heap. -/
theorem popEqual_perm {l : κ} (acc : List (Cursor σ)) {h : List (Cursor σ)} (hl : ∀ x ∈ h, l ≤ labelsOf x.1) :
    (popEqual labelsOf l acc h).1.Perm (acc ++ h.filter (labelsOf ·.1 = l)) ∧
      (popEqual labelsOf l acc h).2.Perm (h.filter (labelsOf ·.1 ≠ l)) := by
  induction acc, h using popEqual.induct labelsOf l with
  | case1 acc h hp =>
    rw [popEqual_of_eq_none hp, popMin_eq_none.mp hp]
    simp
  | case2 acc h x h' hp hx ih =>
    have hperm := popMin_perm hp
    obtain ⟨ih1, ih2⟩ := ih fun y hy => hl y (hperm.subset (List.mem_cons_of_mem _ hy))
    have h1 : (x :: h'.filter (labelsOf ·.1 = l)).Perm (h.filter (labelsOf ·.1 = l)) := by
      simpa [hx] using hperm.filter (labelsOf ·.1 = l)
    have h2 : (h'.filter (labelsOf ·.1 ≠ l)).Perm (h.filter (labelsOf ·.1 ≠ l)) := by
      simpa [hx] using hperm.filter (labelsOf ·.1 ≠ l)
    rw [popEqual_of_eq_some hp, if_pos hx]
    exact ⟨ih1.trans (by simpa using h1.append_left acc), ih2.trans h2⟩
  | case3 acc h x h' hp hx =>
    have hlt : l < labelsOf x.1 := lt_of_le_of_ne (hl x (popMin_mem hp)) (Ne.symm hx)
    have hgt : ∀ y ∈ h, l < labelsOf y.1 := fun y hy => hlt.trans_le (popMin_le hp y hy)
    have h1 : h.filter (labelsOf ·.1 = l) = [] :=
      List.filter_eq_nil_iff.mpr fun y hy => by simp [(hgt y hy).ne']
    have h2 : h.filter (labelsOf ·.1 ≠ l) = h :=
      List.filter_eq_self.mpr fun y hy => by simp [(hgt y hy).ne']
    rw [popEqual_of_eq_some hp, if_neg hx, h1, h2]
    simp

/-! ## One `Next` call -/

/-- Two `filterMap`s that split each element's image between them give, together, the
`filterMap` of the whole image. -/
private theorem filterMap_append_perm {α β : Type*} (f g h : α → Option β) (l : List α)
    (hfg : ∀ x ∈ l, (f x = h x ∧ g x = none) ∨ (f x = none ∧ g x = h x)) :
    (l.filterMap f ++ l.filterMap g).Perm (l.filterMap h) := by
  induction l with
  | nil => simp
  | cons a l ih =>
    have ih := ih fun x hx => hfg x (List.mem_cons_of_mem _ hx)
    rcases hfg a (List.mem_cons_self _ _) with ⟨hf, hg⟩ | ⟨hf, hg⟩ <;>
      cases hh : h a <;> simp_all [List.filterMap_cons, List.perm_middle.trans]

section Inv

variable (sets : List (SeriesSet σ ε))

variable (labelsOf) in
/-- The state of a `mergeSeriesSet` over `sets` whose last emitted label set is `b`
(`none` before the first): the children holding `b` in `currentSets`, every other child
with a series above `b` in the heap. -/
structure Inv (b : Option κ) (m : MergeSeriesSet κ σ ε) : Prop where
  sets_eq : m.sets = sets
  current : m.currentSets.Perm (sets.filterMap (cursorAt labelsOf b ·.series))
  heap : m.heap.Perm (sets.filterMap (heapCursor labelsOf b ·.series))
  labels_eq : ∀ l ∈ b, m.currentLabels = l

variable (labelsOf) in
/-- Every label set of every child. -/
def allLabels : List κ := sets.flatMap fun c => c.series.map labelsOf

variable (labelsOf) in
/-- What `At()` must return: the series of the one child holding its label set, or else a
`mergeSeries` at that label set of the series of every child holding it, one per child. -/
def AtSpec (a : SeriesAt κ σ) : Prop :=
  let group := sets.filterMap (·.series.find? (labelsOf · = a.labels labelsOf))
  (∃ s, group = [s] ∧ a = .single s) ∨
    (group.length ≠ 1 ∧ ∃ ss, a = .mergeSeries (a.labels labelsOf) ss ∧ ss.Perm group)

variable {sets}

/-- Advancing `currentSets` and pushing them back puts every child with a series above
`b` in the heap, at its first such series. -/
theorem readvance_perm {b : Option κ} {m : MergeSeriesSet κ σ ε} (hm : Inv labelsOf sets b m) :
    (m.heap ++ m.currentSets.filterMap Cursor.next).Perm
      (sets.filterMap (start ∘ seriesAbove labelsOf b ∘ SeriesSet.series)) := by
  refine (hm.heap.append ((hm.current.filterMap _).trans ?_)).trans
    (filterMap_append_perm _ (fun c => (cursorAt labelsOf b c.series).bind Cursor.next) _
      sets fun c _ => ?_)
  · rw [List.filterMap_filterMap]
  · rcases hcur : cursorAt labelsOf b c.series with _ | ⟨x, r⟩
    · simp [heapCursor, hcur]
    · obtain rfl : r = _ := cursorAt_rest hcur
      simp [heapCursor, hcur, Cursor.next]

theorem start_eq_none {xs : List σ} : start xs = none ↔ xs = [] := by
  cases xs <;> simp

theorem start_eq_some {xs : List σ} {c : Cursor σ} : start xs = some c ↔ xs = c.1 :: c.2 := by
  cases xs <;> cases c <;> simp [eq_comm]

omit [LinearOrder κ] in
theorem mem_allLabels {l : κ} :
    l ∈ allLabels labelsOf sets ↔ ∃ c ∈ sets, ∃ s ∈ c.series, labelsOf s = l := by
  simp [allLabels]

variable (hsorted : ∀ c ∈ sets, c.series.Sorted (labelsOf · < labelsOf ·))
include hsorted

omit hsorted in
/-- `Next` on an empty heap: no child has a label set above `b`, and `Next` returns false. -/
theorem next_inv_exhausted {b : Option κ} {m : MergeSeriesSet κ σ ε}
    (hm : Inv labelsOf sets b m)
    (hp : popMin (labelsOf ·.1) (m.heap ++ m.currentSets.filterMap Cursor.next) = none) :
    (m.next labelsOf).1 = false ∧ Inv labelsOf sets b (m.next labelsOf).2 ∧
      ∀ l ∈ allLabels labelsOf sets, above b l = false := by
  have hnil := popMin_eq_none.mp hp
  have hall : ∀ c ∈ sets, seriesAbove labelsOf b c.series = [] := by
    simpa [hnil, start_eq_none] using (readvance_perm hm).symm
  have hnext : m.next labelsOf = (false, { m with heap := [] }) := by
    simp [MergeSeriesSet.next, hp, hnil]
  refine ⟨by rw [hnext], ?_, ?_⟩
  · refine hnext ▸ ⟨hm.sets_eq, hm.current, ?_, hm.labels_eq⟩
    simpa [heapCursor] using fun c hc _ => by simp [hall c hc]
  · simp only [mem_allLabels]
    rintro l ⟨c, hc, s, hs, rfl⟩
    by_contra ha
    have hmem : s ∈ seriesAbove labelsOf b c.series :=
      (mem_seriesAbove labelsOf).mpr ⟨hs, by simpa using ha⟩
    simp [hall c hc] at hmem

/-- Every series of a child above `b` lies at or above the label set at the top of the
heap. -/
theorem le_of_popMin {b : Option κ} {m : MergeSeriesSet κ σ ε} (hm : Inv labelsOf sets b m)
    {top : Cursor σ} {rest : List (Cursor σ)}
    (hp : popMin (labelsOf ·.1) (m.heap ++ m.currentSets.filterMap Cursor.next) = some (top, rest))
    {c : SeriesSet σ ε} (hc : c ∈ sets) {y : σ} (hy : y ∈ seriesAbove labelsOf b c.series) :
    labelsOf top.1 ≤ labelsOf y := by
  obtain ⟨z, zs, hz⟩ := List.exists_cons_of_ne_nil (List.ne_nil_of_mem hy)
  have hzl : labelsOf top.1 ≤ labelsOf z :=
    popMin_le hp (z, zs)
      ((readvance_perm hm).mem_iff.mpr (List.mem_filterMap.mpr ⟨c, hc, by simp [hz]⟩))
  have hs : (z :: zs).Sorted (labelsOf · < labelsOf ·) := hz ▸ (hsorted c hc).filter _
  rcases List.mem_cons.mp (hz ▸ hy) with rfl | hy
  · exact hzl
  · exact hzl.trans ((List.sorted_cons.mp hs).1 y hy).le

/-- `Next` on a non-empty heap returns true at the label set `l` on top of the heap: the
least label set above `b`, at which the invariant holds. -/
theorem next_inv_top {b : Option κ} {m : MergeSeriesSet κ σ ε} (hm : Inv labelsOf sets b m)
    {top : Cursor σ} {rest : List (Cursor σ)}
    (hp : popMin (labelsOf ·.1) (m.heap ++ m.currentSets.filterMap Cursor.next) =
      some (top, rest)) :
    let l := labelsOf top.1
    (m.next labelsOf).1 = true ∧ Inv labelsOf sets (some l) (m.next labelsOf).2 ∧
      l ∈ allLabels labelsOf sets ∧ above b l ∧
      ∀ l' ∈ allLabels labelsOf sets, above b l' → l ≤ l' := by
  intro l
  have hperm := readvance_perm hm
  have hchild : ∀ c ∈ sets, ∀ y ∈ seriesAbove labelsOf b c.series, l ≤ labelsOf y :=
    fun _ hc _ hy => le_of_popMin hsorted hm hp hc hy
  obtain ⟨c₀, hc₀, hstart⟩ :
      ∃ c ∈ sets, start (seriesAbove labelsOf b c.series) = some top := by
    simpa using hperm.mem_iff.mp (popMin_mem hp)
  have htop : top.1 ∈ seriesAbove labelsOf b c₀.series := by
    rw [start_eq_some.mp hstart]; exact List.mem_cons_self _ _
  have habove : above b l := ((mem_seriesAbove labelsOf).mp htop).2
  have hpop := popEqual_perm [] (popMin_le hp)
  have hnext : m.next labelsOf = (true, { m with
      currentLabels := l
      currentSets := (popEqual labelsOf l [] (m.heap ++ m.currentSets.filterMap Cursor.next)).1
      heap := (popEqual labelsOf l [] (m.heap ++ m.currentSets.filterMap Cursor.next)).2 }) := by
    simp [MergeSeriesSet.next, hp, l]
  have hcur := fun c hc => start_seriesAbove_filter (hsorted c hc) habove (hchild c hc)
  refine ⟨by rw [hnext], ?_, ?_, habove, ?_⟩
  · rw [hnext]
    refine ⟨hm.sets_eq, ?_, ?_, by simp⟩
    · refine hpop.1.trans ?_
      rw [List.nil_append, ← List.filterMap_congr fun c hc => (hcur c hc).1,
        ← List.filter_filterMap]
      exact hperm.filter _
    · refine hpop.2.trans ?_
      rw [← List.filterMap_congr fun c hc => (hcur c hc).2, ← List.filter_filterMap]
      exact hperm.filter _
  · exact mem_allLabels.mpr ⟨c₀, hc₀, top.1, ((mem_seriesAbove labelsOf).mp htop).1, rfl⟩
  · intro l' hl' ha
    obtain ⟨c, hc, s, hs, rfl⟩ := mem_allLabels.mp hl'
    exact hchild c hc s ((mem_seriesAbove labelsOf).mpr ⟨hs, ha⟩)

/-- One `Next` call from the invariant at threshold `b`: either no child has a label set
above `b`, and `Next` returns false, or it returns true at the least label set above `b`,
and the invariant holds at that label set. -/
theorem next_inv {b : Option κ} {m : MergeSeriesSet κ σ ε} (hm : Inv labelsOf sets b m) :
    ((m.next labelsOf).1 = false ∧ Inv labelsOf sets b (m.next labelsOf).2 ∧
        ∀ l ∈ allLabels labelsOf sets, above b l = false) ∨
      ∃ l, (m.next labelsOf).1 = true ∧ Inv labelsOf sets (some l) (m.next labelsOf).2 ∧
        l ∈ allLabels labelsOf sets ∧ above b l ∧
        ∀ l' ∈ allLabels labelsOf sets, above b l' → l ≤ l' := by
  rcases hp : popMin (labelsOf ·.1) (m.heap ++ m.currentSets.filterMap Cursor.next)
    with _ | ⟨top, rest⟩
  · exact .inl (next_inv_exhausted hm hp)
  · exact .inr ⟨_, next_inv_top hsorted hm hp⟩

omit hsorted in
/-- At the label set `l`, `At()` holds the series of exactly the children holding `l`. -/
theorem atSeries_spec {l : κ} {m : MergeSeriesSet κ σ ε} (hm : Inv labelsOf sets (some l) m) :
    m.atSeries.labels labelsOf = l ∧ AtSpec labelsOf sets m.atSeries := by
  have hgroup : (m.currentSets.map (·.1)).Perm
      (sets.filterMap (·.series.find? (labelsOf · = l))) := by
    refine (hm.current.map _).trans ?_
    rw [List.map_filterMap]
    simp [cursorAt, Option.map_map, Function.comp_def]
  have hlab : ∀ s ∈ m.currentSets, labelsOf s.1 = l := by
    intro s hs
    obtain ⟨c, -, hc⟩ := List.mem_filterMap.mp (hm.current.subset hs)
    simp only [cursorAt, Option.some_bind, Option.map_eq_some'] at hc
    obtain ⟨x, hx, rfl⟩ := hc
    simpa using List.find?_some hx
  by_cases hone : m.currentSets.length = 1
  · obtain ⟨s, hs⟩ := List.length_eq_one.mp hone
    have hs' : labelsOf s.1 = l := hlab s (by simp [hs])
    rw [MergeSeriesSet.atSeries_of_eq_singleton hs]
    simp only [hs, List.map_cons, List.map_nil, List.singleton_perm] at hgroup
    exact ⟨hs', .inl ⟨s.1, by simpa [SeriesAt.labels, hs'] using hgroup.symm, rfl⟩⟩
  · have hl : m.currentLabels = l := hm.labels_eq l rfl
    rw [MergeSeriesSet.atSeries_of_length_ne_one hone]
    refine ⟨hl, .inr ⟨?_, _, rfl, ?_⟩⟩ <;> simp only [SeriesAt.labels, hl]
    · exact hgroup.length_eq ▸ (List.length_map _ _).symm ▸ hone
    · exact hgroup

omit hsorted in
/-- In a strictly increasing list, the entries above `b` start with the least of them,
followed by the entries above that one. -/
theorem filter_above_eq_cons {U : List κ} (hU : U.Sorted (· < ·)) {b : Option κ} {l : κ}
    (hl : l ∈ U) (hb : above b l) (hmin : ∀ l' ∈ U, above b l' → l ≤ l') :
    U.filter (above b) = l :: U.filter (above (some l)) := by
  induction U with
  | nil => simp at hl
  | cons u U ih =>
    rw [List.sorted_cons] at hU
    rcases List.mem_cons.mp hl with rfl | hl
    · have h1 : U.filter (above b) = U :=
        List.filter_eq_self.mpr fun x hx => above_of_le hb (hU.1 x hx).le
      have h2 : U.filter (above (some l)) = U := List.filter_eq_self.mpr fun x hx => by
        simpa using hU.1 x hx
      simp [List.filter_cons, hb, h1, h2]
    · have hul : u < l := hU.1 l hl
      have hu : above b u = false := by
        by_contra h
        exact absurd (hmin u (List.mem_cons_self _ _) (by simpa using h)) (not_le.mpr hul)
      simp only [List.filter_cons, hu, above_some, decide_eq_true_eq, not_lt.mpr hul.le,
        decide_False, Bool.false_eq_true, ite_false]
      exact ih hU.2 hl fun l' hl' => hmin l' (List.mem_cons_of_mem _ hl')

variable (labelsOf sets) in
/-- The label sets the merge must yield: every child's label sets, sorted, once each. -/
def mergedLabels : List κ := (allLabels labelsOf sets).toFinset.sort (· ≤ ·)

omit hsorted in
theorem mergedLabels_sorted : (mergedLabels labelsOf sets).Sorted (· < ·) :=
  Finset.sort_sorted_lt _

omit hsorted in
@[simp] theorem mem_mergedLabels {l : κ} :
    l ∈ mergedLabels labelsOf sets ↔ l ∈ allLabels labelsOf sets := by
  simp [mergedLabels]

/-- The run lemma: from the invariant at threshold `b`, the calls yield the label sets of
the children above `b` in increasing order, each `At` holding exactly the children's
series with that label set, and then only `false`. -/
theorem run_merge {b : Option κ} {m : MergeSeriesSet κ σ ε} (hm : Inv labelsOf sets b m)
    (n : Nat) :
    ((MergedSet.merge m).run labelsOf n).map (Option.map (SeriesAt.labels labelsOf)) =
        (List.range n).map (((mergedLabels labelsOf sets).filter (above b))[·]?) ∧
      ∀ a, some a ∈ (MergedSet.merge m).run labelsOf n → AtSpec labelsOf sets a := by
  induction n generalizing b m with
  | zero => simp [MergedSet.run]
  | succ n ih =>
    have hstep : (MergedSet.merge m).step labelsOf =
        (if (m.next labelsOf).1 then some (m.next labelsOf).2.atSeries else none,
          .merge (m.next labelsOf).2) := rfl
    rw [MergedSet.run, hstep, List.range_succ_eq_map]
    rcases next_inv hsorted hm with ⟨hf, hm', hnone⟩ | ⟨l, ht, hm', hl, hb, hmin⟩
    · have hU : (mergedLabels labelsOf sets).filter (above b) = [] :=
        List.filter_eq_nil_iff.mpr fun l hl => by simp [hnone l (mem_mergedLabels.mp hl)]
      obtain ⟨ih1, ih2⟩ := ih hm'
      simp only [hf, hU] at ih1 ⊢
      simpa [ih1, Function.comp_def] using ih2
    · have hU := filter_above_eq_cons mergedLabels_sorted (mem_mergedLabels.mpr hl) hb
        fun l' hl' => hmin l' (mem_mergedLabels.mp hl')
      obtain ⟨ih1, ih2⟩ := ih hm'
      obtain ⟨hlab, hspec⟩ := atSeries_spec hm'
      simp only [ht, ite_true, hU] at ih1 ⊢
      refine ⟨by simp [hlab, ih1, Function.comp_def], ?_⟩
      simpa [hspec] using ih2

end Inv

/-! ## A lone child -/

@[simp] theorem MergedSet.err_after (s : MergedSet κ σ ε) (n : Nat) :
    (s.after labelsOf n).err = s.err := by
  induction n generalizing s with
  | zero => rfl
  | succ n ih =>
    rw [MergedSet.after, ih]
    cases s with
    | child c e =>
      simp only [MergedSet.step]
      split <;> rfl
    | merge m => simp [MergedSet.step, MergedSet.err, MergeSeriesSet.err]

/-- In a strictly increasing list, the series with a given label set is the only one. -/
theorem find?_labelsOf_eq {xs : List σ} (hs : xs.Sorted (labelsOf · < labelsOf ·)) {x : σ}
    (hx : x ∈ xs) : xs.find? (labelsOf · = labelsOf x) = some x := by
  induction xs with
  | nil => simp at hx
  | cons y ys ih =>
    rw [List.sorted_cons] at hs
    rcases List.mem_cons.mp hx with rfl | hx
    · simp
    · simp [List.find?_cons, (hs.1 x hx).ne, ih hs.2 hx]

theorem run_done (e : Option ε) (n : Nat) :
    (MergedSet.child .done e : MergedSet κ σ ε).run labelsOf n = List.replicate n none := by
  induction n with
  | zero => rfl
  | succ n ih => simpa [MergedSet.run, MergedSet.step, ChildState.next, List.replicate_succ] using ih

theorem run_cursor (e : Option ε) (x : σ) (r : List σ) (n : Nat) :
    (MergedSet.child (.cursor (x, r)) e : MergedSet κ σ ε).run labelsOf n =
      (List.range n).map fun i => r[i]?.map .single := by
  induction r generalizing x n with
  | nil =>
    cases n with
    | zero => rfl
    | succ n =>
      simp [MergedSet.run, MergedSet.step, ChildState.next, Cursor.next, run_done,
        List.replicate_succ, List.range_succ_eq_map, Function.comp_def]
  | cons y r ih =>
    cases n with
    | zero => rfl
    | succ n =>
      simp [MergedSet.run, MergedSet.step, ChildState.next, Cursor.next, ih,
        List.range_succ_eq_map, Function.comp_def]

theorem run_fresh (e : Option ε) (xs : List σ) (n : Nat) :
    (MergedSet.child (.fresh xs) e : MergedSet κ σ ε).run labelsOf n =
      (List.range n).map fun i => xs[i]?.map .single := by
  cases n with
  | zero => rfl
  | succ n =>
    cases xs with
    | nil => simp [MergedSet.run, MergedSet.step, ChildState.next, run_done, List.replicate_succ,
        Function.comp_def]
    | cons x r =>
      simp [MergedSet.run, MergedSet.step, ChildState.next, run_cursor, List.range_succ_eq_map,
        Function.comp_def]

/-! ## The merge of any children -/

variable (labelsOf) in
/-- The `SeriesSet` that `NewMergeSeriesSet` returns over children whose label sets
strictly increase. `mergedLabels` strictly increases and holds exactly the children's
label sets; the `i`-th `Next` call yields its `i`-th entry, and `false` once all are
yielded; each `At` holds the series of exactly the children with that label set, one per
child; `Err` is non-nil exactly when a child's is. -/
theorem newMergeSeriesSet_spec [Inhabited κ] (sets : List (SeriesSet σ ε))
    (hsorted : ∀ c ∈ sets, c.series.Sorted (labelsOf · < labelsOf ·)) (n : Nat) :
    (mergedLabels labelsOf sets).Sorted (· < ·) ∧
      (∀ l, l ∈ mergedLabels labelsOf sets ↔ ∃ c ∈ sets, ∃ s ∈ c.series, labelsOf s = l) ∧
      ((newMergeSeriesSet sets).run labelsOf n).map (Option.map (SeriesAt.labels labelsOf)) =
        (List.range n).map ((mergedLabels labelsOf sets)[·]?) ∧
      (∀ a, some a ∈ (newMergeSeriesSet sets).run labelsOf n → AtSpec labelsOf sets a) ∧
      (((newMergeSeriesSet sets).after labelsOf n).err.isSome ↔ ∃ c ∈ sets, c.err.isSome) := by
  refine ⟨mergedLabels_sorted, fun l => mem_mergedLabels.trans mem_allLabels, ?_⟩
  rw [MergedSet.err_after]
  by_cases hone : ∃ c, sets = [c]
  · obtain ⟨c, rfl⟩ := hone
    have hs := hsorted c (List.mem_singleton_self c)
    have hU : mergedLabels labelsOf [c] = c.series.map labelsOf := by
      have hs' : (c.series.map labelsOf).Sorted (· < ·) := List.pairwise_map.mpr hs
      refine List.eq_of_perm_of_sorted ?_ mergedLabels_sorted hs'
      rw [List.perm_ext_iff_of_nodup mergedLabels_sorted.nodup hs'.nodup]
      simp [mem_allLabels]
    simp only [newMergeSeriesSet, run_fresh, hU]
    refine ⟨by simp [Function.comp_def, SeriesAt.labels], ?_, by simp [MergedSet.err]⟩
    simp only [List.mem_map, List.mem_range, Option.map_eq_some', forall_exists_index, and_imp]
    rintro a i - x hx rfl
    have hmem : x ∈ c.series := List.getElem?_mem hx
    exact .inl ⟨x, by simp [SeriesAt.labels, find?_labelsOf_eq hs hmem], rfl⟩
  · have hnew : (newMergeSeriesSet sets : MergedSet κ σ ε) =
        .merge ⟨default, [], sets.filterMap (start ·.series), sets⟩ := by
      unfold newMergeSeriesSet
      split
      · exact absurd ⟨_, rfl⟩ hone
      · rfl
    have hinv : Inv labelsOf sets none ⟨default, [], sets.filterMap (start ·.series), sets⟩ :=
      ⟨rfl, by simp [cursorAt], by simp [heapCursor, cursorAt], by simp⟩
    obtain ⟨h1, h2⟩ := run_merge hsorted hinv n
    rw [hnew]
    exact ⟨by simpa using h1, h2, by simp [MergedSet.err, MergeSeriesSet.err]⟩

/-- The three children of the merge scenario, each series standing for its label set:
`{a, b, d}`, `{a, c}` and `{b, c, d}`, over five calls. -/
theorem newMergeSeriesSet_spec_three_children :
    let sets : List (SeriesSet String String) :=
      [⟨["a", "b", "d"], none⟩, ⟨["a", "c"], none⟩, ⟨["b", "c", "d"], none⟩]
    (∀ c ∈ sets, c.series.Sorted (id · < id ·)) ∧
      (mergedLabels id sets).Sorted (· < ·) ∧
      (∀ l, l ∈ mergedLabels id sets ↔ ∃ c ∈ sets, ∃ s ∈ c.series, id s = l) ∧
      ((newMergeSeriesSet sets).run id 5).map (Option.map (SeriesAt.labels id)) =
        (List.range 5).map ((mergedLabels id sets)[·]?) ∧
      (∀ a, some a ∈ (newMergeSeriesSet sets).run id 5 → AtSpec id sets a) ∧
      (((newMergeSeriesSet sets).after id 5).err.isSome ↔ ∃ c ∈ sets, c.err.isSome) :=
  have h : ∀ c ∈ ([⟨["a", "b", "d"], none⟩, ⟨["a", "c"], none⟩, ⟨["b", "c", "d"], none⟩] :
      List (SeriesSet String String)), c.series.Sorted (id · < id ·) := by
    simp [String.lt_iff_toList_lt]; decide
  ⟨h, newMergeSeriesSet_spec id _ h 5⟩

end Baudtime.Backend
