import Mathlib

/-!
# Writing cells

A memory is a function on cells, and a list of writes is carried out in order. A cell then holds
the last value written to it, or what it held before if no write reached it; so two memories agree
afterwards on every cell that was written.
-/

namespace Kit

variable {ι α : Type} [DecidableEq ι]

def writeAll (F : ι → α) (ws : List (ι × α)) : ι → α :=
  ws.foldl (fun F w => Function.update F w.1 w.2) F

def lastWrite : List (ι × α) → ι → Option α
  | [], _ => none
  | w :: ws, i => (lastWrite ws i).or (if i = w.1 then some w.2 else none)

@[simp] theorem writeAll_nil (F : ι → α) : writeAll F [] = F := rfl

@[simp] theorem writeAll_cons (F : ι → α) (w : ι × α) (ws : List (ι × α)) :
    writeAll F (w :: ws) = writeAll (Function.update F w.1 w.2) ws := rfl

theorem writeAll_apply (F : ι → α) (ws : List (ι × α)) (i : ι) :
    writeAll F ws i = (lastWrite ws i).getD (F i) := by
  induction ws generalizing F with
  | nil => rfl
  | cons w ws ih =>
      rw [writeAll_cons, ih, lastWrite]
      cases lastWrite ws i with
      | some v => rfl
      | none => by_cases h : i = w.1 <;> simp [h]

theorem lastWrite_eq_none_iff {ws : List (ι × α)} {i : ι} :
    lastWrite ws i = none ↔ ∀ w ∈ ws, i ≠ w.1 := by
  induction ws with
  | nil => simp [lastWrite]
  | cons w ws ih => by_cases h : i = w.1 <;> simp [lastWrite, ih, h]

theorem lastWrite_mem {ws : List (ι × α)} {i : ι} {v : α} (h : lastWrite ws i = some v) :
    (i, v) ∈ ws := by
  induction ws with
  | nil => simp [lastWrite] at h
  | cons w ws ih =>
      rw [lastWrite, Option.or_eq_some_iff] at h
      rcases h with h | ⟨-, h⟩
      · exact List.mem_cons_of_mem w (ih h)
      · obtain ⟨rfl, rfl⟩ : i = w.1 ∧ w.2 = v := by simpa using h
        exact List.mem_cons_self

theorem writeAll_of_not_mem (F : ι → α) {ws : List (ι × α)} {i : ι} (h : ∀ w ∈ ws, i ≠ w.1) :
    writeAll F ws i = F i := by
  rw [writeAll_apply, lastWrite_eq_none_iff.mpr h, Option.getD_none]

/-- Where two memories agree before the writes, they agree after them. -/
theorem writeAll_congr {F G : ι → α} (ws : List (ι × α)) {i : ι} (h : F i = G i) :
    writeAll F ws i = writeAll G ws i := by
  rw [writeAll_apply, writeAll_apply, h]

end Kit
