import Mathlib

/-!
# Oriented planes

Three points of space span a plane, and the order in which they are given orients it. `normal` does
not depend on which of the three points comes first, it vanishes exactly for collinear points, and
otherwise the plane is the set where the product with it is constant.
-/

section

open scoped Matrix

namespace Kit.Plane

def normal {R : Type} [CommRing R] (a b c : Fin 3 → R) : Fin 3 → R := (b - a) ⨯₃ (c - b)

variable {K : Type} [Field K]

theorem normal_eq (a b c : Fin 3 → K) : normal a b c = (b - a) ⨯₃ (c - a) := by
  have hsplit : c - b = c - a - (b - a) := by abel
  rw [normal, hsplit, map_sub, cross_self, sub_zero]

theorem normal_rotate (a b c : Fin 3 → K) : normal b c a = normal a b c := by
  have hback : a - b = -(b - a) := by abel
  rw [normal_eq b c a, normal, hback, map_neg, cross_anticomm]

theorem normal_reverse (a b c : Fin 3 → K) : normal a c b = -normal a b c := by
  rw [normal_eq, normal_eq, cross_anticomm]

theorem normal_eq_zero_iff (a b c : Fin 3 → K) :
    normal a b c = 0 ↔ Collinear K ({a, b, c} : Set (Fin 3 → K)) := by
  have ha : a ∈ ({a, b, c} : Set (Fin 3 → K)) := Set.mem_insert a _
  rw [collinear_iff_of_mem ha]
  constructor
  · intro h
    by_cases hba : b - a = 0
    · refine ⟨c - a, ?_⟩
      rintro p (rfl | rfl | rfl)
      · exact ⟨0, by simp⟩
      · exact ⟨0, by simpa using sub_eq_zero.mp hba⟩
      · exact ⟨1, by simp⟩
    · have hdependent : ¬ LinearIndependent K ![b - a, c - a] := by
        rw [← crossProduct_ne_zero_iff_linearIndependent, ← normal_eq, not_not]
        exact h
      rw [LinearIndependent.pair_iff' hba] at hdependent
      push Not at hdependent
      obtain ⟨r, hr⟩ := hdependent
      refine ⟨b - a, ?_⟩
      rintro p (rfl | rfl | rfl)
      · exact ⟨0, by simp⟩
      · exact ⟨1, by simp⟩
      · exact ⟨r, by simp [hr]⟩
  · rintro ⟨v, hv⟩
    obtain ⟨r, hr⟩ := hv b (by simp)
    obtain ⟨s, hs⟩ := hv c (by simp)
    rw [normal_eq, hr, hs, vadd_eq_add, vadd_eq_add, add_sub_cancel_right, add_sub_cancel_right,
      map_smul, map_smul, LinearMap.smul_apply, cross_self, smul_zero, smul_zero]

theorem normal_dotProduct_sub {a b c q : Fin 3 → K} (hq : q ∈ affineSpan K {a, b, c}) :
    normal a b c ⬝ᵥ (q - a) = 0 := by
  have ha : a ∈ ({a, b, c} : Set (Fin 3 → K)) := Set.mem_insert a _
  have hspan : q - a ∈ vectorSpan K ({a, b, c} : Set (Fin 3 → K)) := by
    rw [← direction_affineSpan]
    exact AffineSubspace.vsub_mem_direction hq (mem_affineSpan K ha)
  rw [vectorSpan_eq_span_vsub_set_right K ha] at hspan
  generalize q - a = x at hspan ⊢
  induction hspan using Submodule.span_induction with
  | mem x hx =>
      obtain ⟨p, hp, rfl⟩ := hx
      rcases hp with rfl | rfl | rfl
      · simp
      · rw [normal_eq, dotProduct_comm]
        exact dot_self_cross _ _
      · rw [normal_eq, dotProduct_comm]
        exact dot_cross_self _ _
  | zero => exact dotProduct_zero _
  | add x y _ _ hx hy => rw [dotProduct_add, hx, hy, add_zero]
  | smul r x _ hx => rw [dotProduct_smul, hx, smul_zero]

theorem dotProduct_self_smul (u v w : Fin 3 → K) :
    ((u ⨯₃ v) ⬝ᵥ (u ⨯₃ v)) • w = ((w ⨯₃ v) ⬝ᵥ (u ⨯₃ v)) • u + ((u ⨯₃ w) ⬝ᵥ (u ⨯₃ v)) • v +
      ((u ⨯₃ v) ⬝ᵥ w) • (u ⨯₃ v) := by
  ext i
  fin_cases i <;> simp [cross_apply, dotProduct, Fin.sum_univ_three] <;> ring

variable [LinearOrder K] [IsStrictOrderedRing K]

theorem mem_affineSpan_iff {a b c : Fin 3 → K} (h : normal a b c ≠ 0) (q : Fin 3 → K) :
    q ∈ affineSpan K {a, b, c} ↔ normal a b c ⬝ᵥ (q - a) = 0 := by
  refine ⟨normal_dotProduct_sub, ?_⟩
  intro hq
  have hN : normal a b c ⬝ᵥ normal a b c ≠ 0 := mt dotProduct_self_eq_zero.mp h
  have hsplit := dotProduct_self_smul (b - a) (c - a) (q - a)
  rw [← normal_eq, hq, zero_smul, add_zero] at hsplit
  have hb : b - a ∈ vectorSpan K ({a, b, c} : Set (Fin 3 → K)) :=
    vsub_mem_vectorSpan K (by simp) (by simp)
  have hc : c - a ∈ vectorSpan K ({a, b, c} : Set (Fin 3 → K)) :=
    vsub_mem_vectorSpan K (by simp) (by simp)
  have hspan : q - a ∈ vectorSpan K ({a, b, c} : Set (Fin 3 → K)) := by
    rw [← Submodule.smul_mem_iff _ hN, hsplit]
    exact Submodule.add_mem _ (Submodule.smul_mem _ _ hb) (Submodule.smul_mem _ _ hc)
  have ha : a ∈ affineSpan K ({a, b, c} : Set (Fin 3 → K)) := mem_affineSpan K (by simp)
  rw [← direction_affineSpan] at hspan
  exact (AffineSubspace.vsub_right_mem_direction_iff_mem ha q).mp hspan

/-- The point lies off the plane, on the side that the normal points to. -/
def StrictlyAbove (a b c p : Fin 3 → K) : Prop :=
  ∀ q ∈ affineSpan K {a, b, c}, 0 < normal a b c ⬝ᵥ (p - q)

omit [IsStrictOrderedRing K] in
theorem strictlyAbove_iff (a b c p : Fin 3 → K) :
    StrictlyAbove a b c p ↔ 0 < normal a b c ⬝ᵥ (p - a) := by
  constructor
  · intro h
    exact h a (mem_affineSpan K (Set.mem_insert a _))
  · intro h q hq
    have hsplit : p - q = p - a - (q - a) := by abel
    rw [hsplit, dotProduct_sub, normal_dotProduct_sub hq, sub_zero]
    exact h

omit [IsStrictOrderedRing K] in
theorem strictlyAbove_rotate (a b c p : Fin 3 → K) :
    StrictlyAbove b c a p ↔ StrictlyAbove a b c p := by
  have hset : ({b, c, a} : Set (Fin 3 → K)) = {a, b, c} := by
    rw [Set.pair_comm c a, Set.insert_comm b a]
  rw [StrictlyAbove, StrictlyAbove, hset, normal_rotate]

/-- The point lies off the plane, on the other side. -/
def StrictlyBelow (a b c p : Fin 3 → K) : Prop :=
  ∀ q ∈ affineSpan K {a, b, c}, normal a b c ⬝ᵥ (p - q) < 0

theorem strictlyBelow_iff (a b c p : Fin 3 → K) :
    StrictlyBelow a b c p ↔ StrictlyAbove a c b p := by
  have hset : ({a, c, b} : Set (Fin 3 → K)) = {a, b, c} := by
    rw [Set.pair_comm]
  rw [StrictlyBelow, StrictlyAbove, hset, normal_reverse a b c]
  refine forall₂_congr fun q _ => ?_
  rw [neg_dotProduct, neg_pos]

theorem strictlyBelow_iff_neg (a b c p : Fin 3 → K) :
    StrictlyBelow a b c p ↔ normal a b c ⬝ᵥ (p - a) < 0 := by
  rw [strictlyBelow_iff, strictlyAbove_iff, normal_reverse, neg_dotProduct, neg_pos]

/-- A point is on neither side of the plane when it lies on it, or when there is no plane. -/
theorem normal_dotProduct_sub_eq_zero_iff (a b c p : Fin 3 → K) :
    normal a b c ⬝ᵥ (p - a) = 0 ↔
      Collinear K ({a, b, c} : Set (Fin 3 → K)) ∨ p ∈ affineSpan K {a, b, c} := by
  rw [← normal_eq_zero_iff]
  constructor
  · intro h
    by_cases hzero : normal a b c = 0
    · exact Or.inl hzero
    · exact Or.inr ((mem_affineSpan_iff hzero p).mpr h)
  · rintro (h | h)
    · rw [h, zero_dotProduct]
    · exact normal_dotProduct_sub h

end Kit.Plane
end
