import Mathlib

/-!
# Right-handed orthonormal frames

Three axes of length one, pairwise orthogonal, with the second the cross product of the third and
the first. Reading a vector's coordinates along the axes changes no dot product, and the axes in
order have determinant one.
-/

namespace Kit

open Matrix

/-- The fields keep a frame orthonormal and right-handed. -/
structure Frame (K : Type) [Field K] where
  xaxis : Fin 3 → K
  zaxis : Fin 3 → K
  xaxis_unit : xaxis ⬝ᵥ xaxis = 1
  zaxis_unit : zaxis ⬝ᵥ zaxis = 1
  xaxis_zaxis : xaxis ⬝ᵥ zaxis = 0

namespace Frame

variable {K : Type} [Field K] (F : Frame K)

def yaxis : Fin 3 → K := F.zaxis ⨯₃ F.xaxis

theorem xaxis_yaxis : F.xaxis ⬝ᵥ F.yaxis = 0 := dot_cross_self F.zaxis F.xaxis

theorem zaxis_yaxis : F.zaxis ⬝ᵥ F.yaxis = 0 := dot_self_cross F.zaxis F.xaxis

theorem yaxis_unit : F.yaxis ⬝ᵥ F.yaxis = 1 := by
  rw [yaxis, cross_dot_cross, F.zaxis_unit, F.xaxis_unit, dotProduct_comm F.zaxis F.xaxis,
    F.xaxis_zaxis]
  ring

def axes : Matrix (Fin 3) (Fin 3) K := of ![F.xaxis, F.yaxis, F.zaxis]

theorem axes_mul_transpose : F.axes * F.axesᵀ = 1 := by
  have hentry : ∀ i j, (F.axes * F.axesᵀ) i j =
      (![F.xaxis, F.yaxis, F.zaxis] i) ⬝ᵥ (![F.xaxis, F.yaxis, F.zaxis] j) := fun _ _ => rfl
  ext i j
  rw [hentry]
  fin_cases i <;> fin_cases j <;>
    simp [F.xaxis_unit, F.yaxis_unit, F.zaxis_unit, F.xaxis_yaxis, F.xaxis_zaxis, F.zaxis_yaxis,
      dotProduct_comm F.yaxis, dotProduct_comm F.zaxis F.xaxis]

theorem det_axes : F.axes.det = 1 := by
  have htriple := triple_product_eq_det F.xaxis F.yaxis F.zaxis
  rw [triple_product_permutation] at htriple
  exact htriple.symm.trans F.yaxis_unit

def coords (v : Fin 3 → K) : Fin 3 → K := F.axes *ᵥ v

theorem coords_sub (v w : Fin 3 → K) : F.coords (v - w) = F.coords v - F.coords w :=
  mulVec_sub F.axes v w

theorem coords_smul (a : K) (v : Fin 3 → K) : F.coords (a • v) = a • F.coords v :=
  mulVec_smul F.axes a v

theorem coords_zero : F.coords 0 = 0 := mulVec_zero F.axes

theorem coords_zaxis : F.coords F.zaxis = ![0, 0, 1] := by
  have hentry : F.coords F.zaxis =
      ![F.xaxis ⬝ᵥ F.zaxis, F.yaxis ⬝ᵥ F.zaxis, F.zaxis ⬝ᵥ F.zaxis] := by
    ext i
    fin_cases i <;> rfl
  rw [hentry, F.xaxis_zaxis, dotProduct_comm, F.zaxis_yaxis, F.zaxis_unit]

theorem coords_dot (v w : Fin 3 → K) : F.coords v ⬝ᵥ F.coords w = v ⬝ᵥ w := by
  have horth : F.axesᵀ * F.axes = 1 := mul_eq_one_comm.mp F.axes_mul_transpose
  calc
    F.coords v ⬝ᵥ F.coords w = v ⬝ᵥ (F.axesᵀ * F.axes) *ᵥ w := by
      rw [coords, coords, dotProduct_mulVec, ← vecMul_transpose, vecMul_vecMul, ← dotProduct_mulVec]
    _ = v ⬝ᵥ w := by rw [horth, one_mulVec]

end Frame
end Kit
