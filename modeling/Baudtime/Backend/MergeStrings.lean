import Mathlib.Data.List.Sort
import Mathlib.Data.String.Basic

/-!
# Merging the label values of every shard

`mergeQuerier.LabelValues` asks every shard for the values of one label name and
appends the sorted answers in the order its goroutines finish. `mergeStringSlices`
combines them by divide and conquer: it halves the list of answers, merges each half,
and joins the two results with the two-pointer merge `mergeTwoStringSlices`, which
keeps a single copy of a value that both sides hold.

Go compares the values with `strings.Compare`, the byte-wise lexicographic order. The
merge only ever asks `compare`, so it is modelled over any linear order.

## Main definitions

* `mergeTwoStringSlices` — the two-pointer merge of two sorted slices
* `mergeStringSlices` — the divide-and-conquer merge of a list of sorted slices

## Main results

* `mem_mergeTwoStringSlices`, `mergeTwoStringSlices_sorted` — the two-pointer merge
  keeps exactly the values of both sides, strictly increasing
* `mem_mergeStringSlices`, `mergeStringSlices_sorted` — the same for every split shape
  of the recursion
* `mergeStringSlices_spec` — the merged answer is strictly increasing, holds exactly
  the union, and does not depend on the goroutines' completion order
-/

namespace Baudtime.Backend

variable {α : Type*} [LinearOrder α]

/-- `mergeTwoStringSlices a b`: walk both slices, emit the smaller head (one copy when
the heads compare equal), and append what is left of either slice once the other runs
out. -/
def mergeTwoStringSlices : List α → List α → List α
  | [], b => b
  | x :: a, [] => x :: a
  | x :: a, y :: b =>
    match compare x y with
    | .eq => x :: mergeTwoStringSlices a b
    | .lt => x :: mergeTwoStringSlices a (y :: b)
    | .gt => y :: mergeTwoStringSlices (x :: a) b

/-- `mergeStringSlices ss`: no slices give `nil`, one is returned as it is, two are
merged, and more are split at `len(ss) / 2` and the merged halves merged. -/
def mergeStringSlices : List (List α) → List α
  | [] => []
  | [s] => s
  | [a, b] => mergeTwoStringSlices a b
  | a :: b :: c :: rest =>
    let ss := a :: b :: c :: rest
    mergeTwoStringSlices (mergeStringSlices (ss.take (ss.length / 2)))
      (mergeStringSlices (ss.drop (ss.length / 2)))
termination_by ss => ss.length
decreasing_by all_goals simp only [List.length_take, List.length_drop, List.length_cons]; omega

/-! ## The two-pointer merge -/

theorem mem_mergeTwoStringSlices {z : α} (a b : List α) :
    z ∈ mergeTwoStringSlices a b ↔ z ∈ a ∨ z ∈ b := by
  induction a, b using mergeTwoStringSlices.induct with
  | case1 b => simp [mergeTwoStringSlices]
  | case2 x a => simp [mergeTwoStringSlices]
  | case3 x a y b hxy ih =>
    obtain rfl := compare_eq_iff_eq.mp hxy
    simp only [mergeTwoStringSlices, hxy, List.mem_cons, ih]
    exact or_or_distrib_left
  | case4 x a y b hxy ih =>
    simp only [mergeTwoStringSlices, hxy, List.mem_cons, ih]
    exact or_assoc.symm
  | case5 x a y b hxy ih =>
    simp only [mergeTwoStringSlices, hxy, List.mem_cons, ih]
    exact or_left_comm

/-- Merging two strictly increasing slices gives a strictly increasing slice: the
emitted head is below everything either side still holds. -/
theorem mergeTwoStringSlices_sorted {a b : List α} (ha : a.Sorted (· < ·))
    (hb : b.Sorted (· < ·)) : (mergeTwoStringSlices a b).Sorted (· < ·) := by
  induction a, b using mergeTwoStringSlices.induct with
  | case1 b => simpa [mergeTwoStringSlices] using hb
  | case2 x a => simpa [mergeTwoStringSlices] using ha
  | case3 x a y b hxy ih =>
    obtain rfl := compare_eq_iff_eq.mp hxy
    rw [List.sorted_cons] at ha hb
    simp only [mergeTwoStringSlices, hxy, List.sorted_cons, mem_mergeTwoStringSlices]
    exact ⟨fun z hz => hz.elim (ha.1 z) (hb.1 z), ih ha.2 hb.2⟩
  | case4 x a y b hxy ih =>
    have hlt := compare_lt_iff_lt.mp hxy
    have hb' := List.sorted_cons.mp hb
    rw [List.sorted_cons] at ha
    simp only [mergeTwoStringSlices, hxy, List.sorted_cons, mem_mergeTwoStringSlices,
      List.mem_cons]
    exact ⟨fun z hz => hz.elim (ha.1 z) fun h => h.elim (· ▸ hlt)
      fun hz => hlt.trans (hb'.1 z hz), ih ha.2 hb⟩
  | case5 x a y b hxy ih =>
    have hgt := compare_gt_iff_gt.mp hxy
    have ha' := List.sorted_cons.mp ha
    rw [List.sorted_cons] at hb
    simp only [mergeTwoStringSlices, hxy, List.sorted_cons, mem_mergeTwoStringSlices,
      List.mem_cons]
    exact ⟨fun z hz => hz.elim (fun h => h.elim (· ▸ hgt)
      fun hz => hgt.trans (ha'.1 z hz)) (hb.1 z), ih ha hb.2⟩

/-! ## The divide-and-conquer merge -/

theorem mem_mergeStringSlices {z : α} (ss : List (List α)) :
    z ∈ mergeStringSlices ss ↔ ∃ s ∈ ss, z ∈ s := by
  induction ss using mergeStringSlices.induct with
  | case1 => simp [mergeStringSlices]
  | case2 s => simp [mergeStringSlices]
  | case3 a b => simp [mergeStringSlices, mem_mergeTwoStringSlices]
  | case4 a b c rest ss ihl ihr =>
    rw [mergeStringSlices]
    change z ∈ mergeTwoStringSlices (mergeStringSlices (ss.take (ss.length / 2)))
      (mergeStringSlices (ss.drop (ss.length / 2))) ↔ ∃ s ∈ ss, z ∈ s
    rw [mem_mergeTwoStringSlices, ihl, ihr]
    conv_rhs => rw [← List.take_append_drop (ss.length / 2) ss]
    simp only [List.mem_append, or_and_right, exists_or]

theorem mergeStringSlices_sorted {ss : List (List α)} (h : ∀ s ∈ ss, s.Sorted (· < ·)) :
    (mergeStringSlices ss).Sorted (· < ·) := by
  induction ss using mergeStringSlices.induct with
  | case1 => simp [mergeStringSlices]
  | case2 s => simpa [mergeStringSlices] using h
  | case3 a b =>
    simp only [List.mem_cons, List.mem_singleton, forall_eq_or_imp, forall_eq] at h
    rw [mergeStringSlices]
    exact mergeTwoStringSlices_sorted h.1 h.2.1
  | case4 a b c rest ss ihl ihr =>
    rw [mergeStringSlices]
    exact mergeTwoStringSlices_sorted (ihl fun s hs => h s (List.mem_of_mem_take hs))
      (ihr fun s hs => h s (List.mem_of_mem_drop hs))

/-- Given strictly increasing answers, `mergeStringSlices` returns a strictly increasing
list holding exactly the union of the answers, and any reordering of the answers (such
as another completion order of the shards' goroutines) gives the same list. -/
theorem mergeStringSlices_spec (ss : List (List α)) (h : ∀ s ∈ ss, s.Sorted (· < ·)) :
    (mergeStringSlices ss).Sorted (· < ·) ∧
      (∀ z, z ∈ mergeStringSlices ss ↔ ∃ s ∈ ss, z ∈ s) ∧
      ∀ ss', ss'.Perm ss → mergeStringSlices ss' = mergeStringSlices ss := by
  refine ⟨mergeStringSlices_sorted h, fun z => mem_mergeStringSlices ss, fun ss' hp => ?_⟩
  have h' : ∀ s ∈ ss', s.Sorted (· < ·) := fun s hs => h s (hp.subset hs)
  refine List.eq_of_perm_of_sorted ?_ (mergeStringSlices_sorted h') (mergeStringSlices_sorted h)
  rw [List.perm_ext_iff_of_nodup (mergeStringSlices_sorted h').nodup
    (mergeStringSlices_sorted h).nodup]
  intro z
  simp only [mem_mergeStringSlices]
  exact ⟨fun ⟨s, hs, hz⟩ => ⟨s, hp.subset hs, hz⟩, fun ⟨s, hs, hz⟩ => ⟨s, hp.symm.subset hs, hz⟩⟩

/-- Three shards answer for the label `job`; two of them share the value `"api"`. -/
theorem mergeStringSlices_spec_three_shards :
    (∀ s ∈ [["api", "db"], ["api", "web"], ["cache"]], s.Sorted (· < ·)) ∧
      (mergeStringSlices [["api", "db"], ["api", "web"], ["cache"]]).Sorted (· < ·) ∧
      (∀ z, z ∈ mergeStringSlices [["api", "db"], ["api", "web"], ["cache"]] ↔
        ∃ s ∈ [["api", "db"], ["api", "web"], ["cache"]], z ∈ s) ∧
      ∀ ss', ss'.Perm [["api", "db"], ["api", "web"], ["cache"]] →
        mergeStringSlices ss' = mergeStringSlices [["api", "db"], ["api", "web"], ["cache"]] :=
  have h : ∀ s ∈ [["api", "db"], ["api", "web"], ["cache"]], s.Sorted (· < ·) := by
    simp [String.lt_iff_toList_lt]; decide
  ⟨h, mergeStringSlices_spec _ h⟩

end Baudtime.Backend
