import SoftRenderer.Kit.Inheritance
import SoftRenderer.Kit.Overlap

/-!
# The chain of a class as a list

A class followed by its superclasses, nearest first. The chain has no repetitions, and a lookup is a
search through it. What is done to a record along the chain from the far end leaves, in each cell,
what the nearest class wrote there.
-/

namespace Kit.Hierarchy

variable {C V : Type} [Preorder C] (h : Hierarchy C)

def chain [WellFoundedLT C] (c : C) : List C :=
  match _hs : h.super c with
  | none => [c]
  | some d => c :: chain d
termination_by wellFounded_lt.wrap c
decreasing_by exact h.super_lt _hs

variable [WellFoundedLT C] {h} {c d : C}

theorem chain_of_root (hs : h.super c = none) : h.chain c = [c] := by
  rw [chain]
  split
  · rfl
  · rename_i d hd
    simp [hs] at hd

theorem chain_of_super (hs : h.super c = some d) : h.chain c = c :: h.chain d := by
  rw [chain]
  split
  · rename_i hd
    simp [hs] at hd
  · rename_i d' hd
    obtain rfl : d = d' := Option.some.inj (hs.symm.trans hd)
    rfl

variable (h) in
/-- Induction along the chain from its end. -/
theorem chain_induction {P : C → Prop} (root : ∀ c, h.super c = none → P c)
    (step : ∀ c d, h.super c = some d → P d → P c) (c : C) : P c := by
  induction c using WellFoundedLT.induction with
  | _ c ih =>
      cases hs : h.super c with
      | none => exact root c hs
      | some d => exact step c d hs (ih d (h.super_lt hs))

theorem mem_chain_iff : d ∈ h.chain c ↔ h.Inherits c d := by
  induction c using h.chain_induction with
  | root c hs =>
      rw [chain_of_root hs, List.mem_singleton]
      refine ⟨fun heq => heq ▸ Relation.ReflTransGen.refl, fun hi => ?_⟩
      by_contra hne
      exact h.not_inherits_of_root hs (Ne.symm hne) hi
  | step c b hs ih =>
      rw [chain_of_super hs, List.mem_cons, ih]
      constructor
      · rintro (rfl | hb)
        · exact Relation.ReflTransGen.refl
        · exact Relation.ReflTransGen.head hs hb
      · intro hi
        by_cases hc : d = c
        · exact .inl hc
        · exact .inr ((h.inherits_iff_of_super hs (Ne.symm hc)).mp hi)

theorem pairwise_chain (c : C) : (h.chain c).Pairwise fun a b => h.Inherits a b ∧ a ≠ b := by
  induction c using h.chain_induction with
  | root c hs =>
      rw [chain_of_root hs]
      exact List.pairwise_singleton _ _
  | step c d hs ih =>
      rw [chain_of_super hs, List.pairwise_cons]
      refine ⟨fun b hb => ?_, ih⟩
      have hdb := mem_chain_iff.mp hb
      refine ⟨Relation.ReflTransGen.head hs hdb, ?_⟩
      exact ((Inherits.le hdb).trans_lt (h.super_lt hs)).ne'

theorem find_eq_findSome (own : C → Option V) (c : C) :
    h.find own c = (h.chain c).findSome? fun d => (own d).map fun v => (d, v) := by
  induction c using h.chain_induction with
  | root c hs =>
      rw [chain_of_root hs]
      cases hn : own c with
      | none => simp [find_of_root hn hs, hn]
      | some v => simp [find_of_own hn, hn]
  | step c d hs ih =>
      rw [chain_of_super hs, List.findSome?_cons]
      cases hn : own c with
      | none => simpa [hn, find_of_super hn hs] using ih
      | some v => simp [find_of_own hn]

end Kit.Hierarchy

namespace Kit

variable {ι α C : Type} [DecidableEq ι]

theorem lastWrite_reverse_flatMap (ws : C → List (ι × α)) (cs : List C) (i : ι) :
    lastWrite (cs.reverse.flatMap ws) i = cs.findSome? fun c => lastWrite (ws c) i := by
  induction cs with
  | nil => rfl
  | cons c cs ih =>
      rw [List.reverse_cons, List.flatMap_append, List.flatMap_singleton, lastWrite_append, ih,
        List.findSome?_cons]
      cases lastWrite (ws c) i <;> rfl

/-- The nearest class of the chain that writes the cell decides it. -/
theorem Hierarchy.lastWrite_chain [Preorder C] [WellFoundedLT C] (h : Hierarchy C)
    (ws : C → List (ι × α)) (c : C) (i : ι) :
    lastWrite ((h.chain c).reverse.flatMap ws) i =
      (h.find (fun d => lastWrite (ws d) i) c).map Prod.snd := by
  rw [lastWrite_reverse_flatMap, Hierarchy.find_eq_findSome, List.map_findSome?]
  congr 1
  funext d
  rw [Function.comp_apply, Option.map_map]
  exact (Option.map_id' (x := lastWrite (ws d) i)).symm

end Kit
