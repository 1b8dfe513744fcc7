import Mathlib

/-!
# A heap of shared objects

Objects are reached through references, so that two variables may name the same object and see
each other's updates. Cells at or above `size` are not yet in use.
-/

namespace Kit

structure Heap (α : Type) where
  size : ℕ
  cell : ℕ → α

namespace Heap

variable {α : Type} (h : Heap α)

/-- A new object in the first unused cell, and its reference. -/
def alloc (a : α) : ℕ × Heap α := (h.size, ⟨h.size + 1, Function.update h.cell h.size a⟩)

/-- The object behind a reference is replaced for every holder of the reference. -/
def put (r : ℕ) (a : α) : Heap α := ⟨h.size, Function.update h.cell r a⟩

@[simp] theorem size_alloc (a : α) : (h.alloc a).2.size = h.size + 1 := rfl

@[simp] theorem cell_alloc_self (a : α) : (h.alloc a).2.cell h.size = a := by
  simp [alloc]

theorem cell_alloc_of_lt {r : ℕ} (hr : r < h.size) (a : α) : (h.alloc a).2.cell r = h.cell r := by
  simp [alloc, hr.ne]

@[simp] theorem size_put (r : ℕ) (a : α) : (h.put r a).size = h.size := rfl

@[simp] theorem cell_put_self (r : ℕ) (a : α) : (h.put r a).cell r = a := by
  simp [put]

theorem cell_put_of_ne {r s : ℕ} (hrs : r ≠ s) (a : α) : (h.put s a).cell r = h.cell r := by
  simp [put, hrs]

end Heap
end Kit
