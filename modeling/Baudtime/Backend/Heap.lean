import Mathlib.Data.List.Basic
import Mathlib.Order.Lattice

/-!
# The binary heaps of the fan-out merges

`seriesSetHeap` and `seriesIteratorHeap` are driven through Go's `container/heap`, whose
contract is all the merges rely on: `heap.Push` adds an element and `heap.Pop` (like
`h[0]`) yields an element that is least under the heap's `Less`. The array layout only
decides which of several equally keyed elements comes first.

A heap is modelled as the list of its elements in insertion order. `push` appends, as
`seriesSetHeap.Push` does before `container/heap` sifts up; `popMin` takes the first
element of least key. The lemmas below are the contract and nothing more: the merges'
proofs use only `popMin_eq_none`, `popMin_perm` and `popMin_le`.
-/

namespace Baudtime.Backend

variable {α κ : Type*} [LinearOrder κ] (key : α → κ)

/-- `heap.Push(&h, x)`. -/
def push (h : List α) (x : α) : List α := h ++ [x]

/-- `heap.Pop(&h)`: an element of least key, and the heap without it. -/
def popMin : List α → Option (α × List α)
  | [] => none
  | x :: xs =>
    match popMin xs with
    | none => some (x, [])
    | some (y, ys) => if key y < key x then some (y, x :: ys) else some (x, xs)

variable {key}

@[simp] theorem popMin_nil : popMin key ([] : List α) = none := rfl

theorem popMin_eq_none {h : List α} : popMin key h = none ↔ h = [] := by
  cases h with
  | nil => simp
  | cons x xs =>
    simp only [popMin, reduceCtorEq, iff_false]
    split <;> [simp; split <;> simp]

theorem popMin_perm {h : List α} {x : α} {r : List α} (hp : popMin key h = some (x, r)) :
    (x :: r).Perm h := by
  induction h generalizing x r with
  | nil => simp at hp
  | cons y ys ih =>
    simp only [popMin] at hp
    split at hp
    · rename_i hn
      obtain ⟨rfl, rfl⟩ := Prod.mk.inj (Option.some.inj hp)
      simp [popMin_eq_none.mp hn]
    · rename_i z zs hz
      split at hp <;> obtain ⟨rfl, rfl⟩ := Prod.mk.inj (Option.some.inj hp)
      · exact (List.Perm.swap _ _ _).trans ((ih hz).cons y)
      · exact List.Perm.refl _

theorem popMin_le {h : List α} {x : α} {r : List α} (hp : popMin key h = some (x, r)) :
    ∀ y ∈ h, key x ≤ key y := by
  induction h generalizing x r with
  | nil => simp at hp
  | cons y ys ih =>
    simp only [popMin] at hp
    split at hp
    · rename_i hn
      obtain ⟨rfl, rfl⟩ := Prod.mk.inj (Option.some.inj hp)
      simp [popMin_eq_none.mp hn]
    · rename_i z zs hz
      have hmin := ih hz
      have hzmem : z ∈ ys := (popMin_perm hz).subset (List.mem_cons_self _ _)
      split at hp <;> obtain ⟨rfl, rfl⟩ := Prod.mk.inj (Option.some.inj hp)
      · rename_i hlt
        simpa [hlt.le] using hmin
      · rename_i hge
        simpa using fun w hw => (not_lt.mp hge).trans (hmin w hw)

theorem popMin_mem {h : List α} {x : α} {r : List α} (hp : popMin key h = some (x, r)) :
    x ∈ h :=
  (popMin_perm hp).subset (List.mem_cons_self _ _)

theorem popMin_length {h : List α} {x : α} {r : List α} (hp : popMin key h = some (x, r)) :
    r.length < h.length := by
  have := (popMin_perm hp).length_eq
  simp only [List.length_cons] at this
  omega

end Baudtime.Backend
