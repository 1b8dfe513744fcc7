import SoftRenderer.Kit.Cells

/-!
# The order of writes

Two lists of writes can be exchanged exactly when they leave the same value in every cell that both
of them reach. If no cell gets two values, then neither the order nor the number of the writes
counts.
-/

namespace Kit

variable {ι α : Type} [DecidableEq ι]

theorem lastWrite_append (ws ws' : List (ι × α)) (i : ι) :
    lastWrite (ws ++ ws') i = (lastWrite ws' i).or (lastWrite ws i) := by
  induction ws with
  | nil => exact (Option.or_none).symm
  | cons w ws ih => rw [List.cons_append, lastWrite, lastWrite, ih, Option.or_assoc]

theorem lastWrite_isSome_iff {ws : List (ι × α)} {i : ι} :
    (lastWrite ws i).isSome ↔ ∃ w ∈ ws, i = w.1 := by
  rw [Option.isSome_iff_ne_none, ne_eq, lastWrite_eq_none_iff]
  push Not
  rfl

theorem writeAll_append_comm_iff [Nonempty α] (ws ws' : List (ι × α)) :
    (∀ F, writeAll F (ws ++ ws') = writeAll F (ws' ++ ws)) ↔
      ∀ i v v', lastWrite ws i = some v → lastWrite ws' i = some v' → v = v' := by
  constructor
  · intro h i v v' hv hv'
    obtain ⟨a⟩ := ‹Nonempty α›
    have hcell := congrFun (h fun _ => a) i
    rw [writeAll_apply, writeAll_apply, lastWrite_append, lastWrite_append, hv, hv'] at hcell
    exact hcell.symm
  · intro h F
    funext i
    rw [writeAll_apply, writeAll_apply, lastWrite_append, lastWrite_append]
    cases hv : lastWrite ws i with
    | none => rw [Option.or_none, Option.none_or]
    | some v =>
        cases hv' : lastWrite ws' i with
        | none => rfl
        | some v' => rw [h i v v' hv hv']

/-- No cell is written with two values. -/
def Consistent (ws : List (ι × α)) : Prop := ∀ v ∈ ws, ∀ w ∈ ws, v.1 = w.1 → v.2 = w.2

omit [DecidableEq ι] in
theorem Consistent.of_mem_iff {ws ws' : List (ι × α)} (h : Consistent ws)
    (hmem : ∀ w, w ∈ ws' ↔ w ∈ ws) : Consistent ws' := fun v hv w hw =>
  h v ((hmem v).mp hv) w ((hmem w).mp hw)

theorem Consistent.lastWrite_eq_some_iff {ws : List (ι × α)} (h : Consistent ws) {i : ι} {v : α} :
    lastWrite ws i = some v ↔ (i, v) ∈ ws := by
  refine ⟨lastWrite_mem, fun hmem => ?_⟩
  cases hlast : lastWrite ws i with
  | none => exact absurd rfl (lastWrite_eq_none_iff.mp hlast _ hmem)
  | some v' => exact congrArg some (h _ (lastWrite_mem hlast) _ hmem rfl)

theorem Consistent.writeAll_eq {ws ws' : List (ι × α)} (h : Consistent ws)
    (hmem : ∀ w, w ∈ ws' ↔ w ∈ ws) (F : ι → α) : writeAll F ws' = writeAll F ws := by
  funext i
  have hlast : lastWrite ws' i = lastWrite ws i := by
    ext v
    rw [h.lastWrite_eq_some_iff, (h.of_mem_iff hmem).lastWrite_eq_some_iff, hmem]
  rw [writeAll_apply, writeAll_apply, hlast]

end Kit
