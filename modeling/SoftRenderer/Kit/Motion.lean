import SoftRenderer.Kit.Frame

/-!
# Rigid motions of space

A rotation followed by a translation. Rotations keep dot products and cross products, so they carry
frames to frames, and a carried vector has the old coordinates in the carried frame.
-/

namespace Kit

open Matrix

abbrev LinearPart (K : Type) := Matrix (Fin 3) (Fin 3) K

/-- A linear map multiplies every volume by its determinant. -/
theorem mulVec_triple {K : Type} [Field K] (A : LinearPart K) (u v w : Fin 3 → K) :
    (A *ᵥ u) ⬝ᵥ (A *ᵥ v) ⨯₃ (A *ᵥ w) = A.det * (u ⬝ᵥ v ⨯₃ w) := by
  have hrows : of ![A *ᵥ u, A *ᵥ v, A *ᵥ w] = of ![u, v, w] * Aᵀ := by
    ext i j
    rw [mul_apply_eq_vecMul, vecMul_transpose]
    fin_cases i <;> rfl
  calc
    (A *ᵥ u) ⬝ᵥ (A *ᵥ v) ⨯₃ (A *ᵥ w) = (of ![A *ᵥ u, A *ᵥ v, A *ᵥ w]).det :=
      triple_product_eq_det ..
    _ = A.det * (of ![u, v, w]).det := by rw [hrows, det_mul, det_transpose, mul_comm]
    _ = A.det * (u ⬝ᵥ v ⨯₃ w) := congrArg _ (triple_product_eq_det ..).symm

/-- The fields keep the linear part a rotation. -/
structure Motion (K : Type) [Field K] where
  linear : LinearPart K
  shift : Fin 3 → K
  transpose_mul : linearᵀ * linear = 1
  det_linear : linear.det = 1

namespace Motion

variable {K : Type} [Field K] (M : Motion K)

def turn (v : Fin 3 → K) : Fin 3 → K := M.linear *ᵥ v

theorem turn_sub (v w : Fin 3 → K) : M.turn (v - w) = M.turn v - M.turn w :=
  mulVec_sub M.linear v w

theorem turn_zero : M.turn 0 = 0 := mulVec_zero M.linear

theorem turn_smul (a : K) (v : Fin 3 → K) : M.turn (a • v) = a • M.turn v :=
  mulVec_smul M.linear a v

theorem turn_dot (v w : Fin 3 → K) : M.turn v ⬝ᵥ M.turn w = v ⬝ᵥ w := by
  calc
    M.turn v ⬝ᵥ M.turn w = v ⬝ᵥ (M.linearᵀ * M.linear) *ᵥ w := by
      rw [turn, turn, dotProduct_mulVec, ← vecMul_transpose, vecMul_vecMul, ← dotProduct_mulVec]
    _ = v ⬝ᵥ w := by rw [M.transpose_mul, one_mulVec]

theorem turn_surjective : Function.Surjective M.turn := by
  intro v
  refine ⟨M.linearᵀ *ᵥ v, ?_⟩
  rw [turn, mulVec_mulVec, mul_eq_one_comm.mp M.transpose_mul, one_mulVec]

theorem turn_cross (v w : Fin 3 → K) : M.turn v ⨯₃ M.turn w = M.turn (v ⨯₃ w) := by
  apply dotProduct_eq
  intro x
  obtain ⟨u, rfl⟩ := M.turn_surjective x
  rw [dotProduct_comm, turn, turn, turn, mulVec_triple, M.det_linear, one_mul, dotProduct_comm,
    ← M.turn_dot]
  rfl

end Motion

namespace Frame

variable {K : Type} [Field K] (F : Frame K) (M : Motion K)

def turn : Frame K where
  xaxis := M.turn F.xaxis
  zaxis := M.turn F.zaxis
  xaxis_unit := by rw [M.turn_dot, F.xaxis_unit]
  zaxis_unit := by rw [M.turn_dot, F.zaxis_unit]
  xaxis_zaxis := by rw [M.turn_dot, F.xaxis_zaxis]

theorem yaxis_turn : (F.turn M).yaxis = M.turn F.yaxis := M.turn_cross F.zaxis F.xaxis

theorem coords_eq (v : Fin 3 → K) :
    F.coords v = ![F.xaxis ⬝ᵥ v, F.yaxis ⬝ᵥ v, F.zaxis ⬝ᵥ v] := by
  ext i
  fin_cases i <;> rfl

theorem coords_turn (v : Fin 3 → K) : (F.turn M).coords (M.turn v) = F.coords v := by
  rw [coords_eq, coords_eq, yaxis_turn, turn, M.turn_dot, M.turn_dot, M.turn_dot]

theorem coords_injective : Function.Injective F.coords := by
  intro v w h
  have hback := congrArg (fun u => F.axesᵀ *ᵥ u) h
  simpa only [coords, mulVec_mulVec, mul_eq_one_comm.mp F.axes_mul_transpose, one_mulVec]
    using hback

theorem eq_of_axes {F G : Frame K} (hx : F.xaxis = G.xaxis) (hz : F.zaxis = G.zaxis) : F = G := by
  cases F
  cases G
  cases hx
  cases hz
  rfl

/-- Unit vectors on one ray are equal. -/
theorem eq_of_ray [LinearOrder K] [IsStrictOrderedRing K] {u v : Fin 3 → K} (hu : u ⬝ᵥ u = 1)
    (hv : v ⬝ᵥ v = 1) {a b : K} (ha : 0 < a) (hb : 0 < b) (h : a • u = b • v) : u = v := by
  have hsq : a * a = b * b := by
    have hdot := congrArg (fun w => w ⬝ᵥ w) h
    simpa [smul_dotProduct, dotProduct_smul, hu, hv] using hdot
  obtain rfl : a = b := (mul_self_inj_of_nonneg ha.le hb.le).mp hsq
  exact smul_right_injective _ ha.ne' h

/-- Vectors ahead are on one ray exactly when their sideways coordinates are equal in proportion to
the one ahead. -/
theorem onRay_iff [LinearOrder K] [IsStrictOrderedRing K] {u v : Fin 3 → K}
    (hu : 0 < F.zaxis ⬝ᵥ u) (hv : 0 < F.zaxis ⬝ᵥ v) :
    (F.xaxis ⬝ᵥ u / F.zaxis ⬝ᵥ u = F.xaxis ⬝ᵥ v / F.zaxis ⬝ᵥ v ∧
        F.yaxis ⬝ᵥ u / F.zaxis ⬝ᵥ u = F.yaxis ⬝ᵥ v / F.zaxis ⬝ᵥ v) ↔
      ∃ c : K, 0 < c ∧ v = c • u := by
  constructor
  · rintro ⟨hx, hy⟩
    have hscaled {a b : K} (h : a / F.zaxis ⬝ᵥ u = b / F.zaxis ⬝ᵥ v) :
        b = F.zaxis ⬝ᵥ v / F.zaxis ⬝ᵥ u * a := by
      rw [div_mul_eq_mul_div, mul_div_assoc, h, mul_div_cancel₀ _ hv.ne']
    refine ⟨_, div_pos hv hu, F.coords_injective ?_⟩
    rw [F.coords_smul, F.coords_eq, F.coords_eq]
    ext i
    fin_cases i
    · exact hscaled hx
    · exact hscaled hy
    · exact (div_mul_cancel₀ _ hu.ne').symm
  · rintro ⟨c, hc, rfl⟩
    simp only [dotProduct_smul, smul_eq_mul, mul_div_mul_left _ _ hc.ne', and_self]

theorem eq_smul_of_cross_eq_zero {w : Fin 3 → K} (h : w ⨯₃ F.zaxis = 0) :
    w = (F.zaxis ⬝ᵥ w) • F.zaxis := by
  have hdouble := cross_cross_eq_smul_sub_smul' F.zaxis w F.zaxis
  rw [h, map_zero, F.zaxis_unit, one_smul, dotProduct_comm w] at hdouble
  exact sub_eq_zero.mp hdouble.symm

end Frame
end Kit
