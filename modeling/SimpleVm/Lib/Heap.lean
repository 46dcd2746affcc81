import Mathlib.Data.List.Perm.Subperm
import Mathlib.Data.Nat.Basic
import Mathlib.Logic.Function.Basic

/-!
# Heaps

A heap has the objects in use at their addresses, and finitely many of them.
An allocator finds an address that is not in use.
-/

universe u

structure Heap (β : Type u) where
  cells : ℕ → Option β
  bound : ℕ
  unused : ∀ a, bound ≤ a → cells a = none

/-- What an allocator returns is not in use, but may have been in use before. -/
structure Heap.Allocator (β : Type u) where
  pick : Heap β → ℕ
  unused : ∀ heap : Heap β, heap.cells (pick heap) = none

namespace Heap

variable {β : Type u}

def empty : Heap β := ⟨fun _ => none, 0, fun _ _ => rfl⟩

/-- The bound grows with every change, so no heap comes twice in a run. -/
def put (heap : Heap β) (a : ℕ) (cell : Option β) : Heap β where
  cells := Function.update heap.cells a cell
  bound := max heap.bound a + 1
  unused := by
    intro b hb
    have hne : b ≠ a := by omega
    rw [Function.update_of_ne hne]
    exact heap.unused b (by omega)

/-- The lowest address behind everything that was ever allocated. -/
def Allocator.bump : Allocator β where
  pick heap := heap.bound
  unused heap := heap.unused heap.bound le_rfl

def Allocated (heap : Heap β) (a : ℕ) : Prop := (heap.cells a).isSome

variable {heap : Heap β} {a b : ℕ} {cell : β}

theorem Allocated.exists_cell (h : heap.Allocated a) : ∃ cell, heap.cells a = some cell :=
  Option.isSome_iff_exists.mp h

theorem allocated_of_cell (h : heap.cells a = some cell) : heap.Allocated a :=
  Option.isSome_iff_exists.mpr ⟨cell, h⟩

@[simp] theorem cells_put_self (cell : Option β) : (heap.put a cell).cells a = cell := by
  simp [put]

theorem cells_put_of_ne (hb : b ≠ a) (cell : Option β) :
    (heap.put a cell).cells b = heap.cells b := by
  simp [put, hb]

theorem allocated_put_iff (h : heap.Allocated a) (cell : β) (b : ℕ) :
    (heap.put a (some cell)).Allocated b ↔ heap.Allocated b := by
  by_cases hb : b = a
  · subst hb
    simp only [Allocated, cells_put_self, Option.isSome_some, true_iff]
    exact h
  · rw [Allocated, Allocated, cells_put_of_ne hb]

theorem Allocated.ne (hb : heap.Allocated b) (ha : heap.cells a = none) : b ≠ a := by
  rintro rfl
  simp [Allocated, ha] at hb

theorem length_le_bound {l : List ℕ} (hnodup : l.Nodup) (halloc : ∀ a ∈ l, heap.Allocated a) :
    l.length ≤ heap.bound := by
  have hsub : l ⊆ List.range heap.bound := by
    intro a ha
    rw [List.mem_range]
    by_contra hlarge
    exact (halloc a ha).ne (heap.unused a (Nat.le_of_not_lt hlarge)) rfl
  simpa using (hnodup.subperm hsub).length_le

/-! ## Frames -/

/-- Nothing was written but at the addresses `l`. -/
def AgreesOff (l : List ℕ) (heap heap' : Heap β) : Prop :=
  ∀ a ∉ l, heap'.cells a = heap.cells a

theorem AgreesOff.refl (l : List ℕ) (heap : Heap β) : AgreesOff l heap heap := fun _ _ => rfl

theorem AgreesOff.trans {l : List ℕ} {heap heap' heap'' : Heap β} (h : AgreesOff l heap heap')
    (h' : AgreesOff l heap' heap'') : AgreesOff l heap heap'' :=
  fun a ha => (h' a ha).trans (h a ha)

theorem agreesOff_put {l : List ℕ} (ha : a ∈ l) (heap : Heap β) (cell : Option β) :
    AgreesOff l heap (heap.put a cell) :=
  fun _ hb => cells_put_of_ne (ne_of_mem_of_not_mem ha hb).symm cell

end Heap
