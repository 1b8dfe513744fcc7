import SoftRenderer.Matrix
import SoftRenderer.Kit.Frame

/-!
# The look-at matrix is a rigid change of frame

When the square roots are exact, the axes that `matrixLookAtLh` computes form a right-handed
orthonormal frame, and the matrix takes a point to its coordinates in that frame relative to the
camera. A camera that looks along `up` has no such frame, and the function fails.
-/

section

open scoped Matrix

namespace SoftRenderer

open Kit

variable {K : Type} [Field K]

def Vector4.xyz (v : Vector4 K) : Fin 3 → K := ![v.x, v.y, v.z]

theorem Vector4.dot_eq_dotProduct (v w : Vector4 K) : v.dot w = v.xyz ⬝ᵥ w.xyz := by
  simp [Vector4.dot, Vector4.xyz, dotProduct, Fin.sum_univ_three]

theorem Vector4.xyz_cross (v w : Vector4 K) : (v.cross w).xyz = v.xyz ⨯₃ w.xyz := by
  simp [Vector4.xyz, cross_apply]

theorem Vector4.length_eq (math : LuaMath K) (v : Vector4 K) :
    v.length math = math.sqrt (v.xyz ⬝ᵥ v.xyz) := by
  rw [← Vector4.dot_eq_dotProduct]
  rfl

omit [Field K] in
theorem Vector4.ext_xyz {v w : Vector4 K} (h : v.xyz = w.xyz) (hw : v.w = w.w) : v = w := by
  ext
  · exact congrFun h 0
  · exact congrFun h 1
  · exact congrFun h 2
  · exact hw

theorem Vector4.xyz_zero (w : K) : (⟨0, 0, 0, w⟩ : Vector4 K).xyz = 0 := by
  ext i
  fin_cases i <;> rfl

theorem xyz_vector4Sub (p q : Vector4 K) : (vector4Sub p q).xyz = p.xyz - q.xyz := by
  simp [Vector4.xyz]

def viewMatrix (F : Frame K) (eye : Fin 3 → K) : Matrix K :=
  Matrix.new
    (F.xaxis 0) (F.yaxis 0) (F.zaxis 0) 0
    (F.xaxis 1) (F.yaxis 1) (F.zaxis 1) 0
    (F.xaxis 2) (F.yaxis 2) (F.zaxis 2) 0
    (-(F.xaxis ⬝ᵥ eye)) (-(F.yaxis ⬝ᵥ eye)) (-(F.zaxis ⬝ᵥ eye)) 1

theorem vector4Apply_viewMatrix_w (F : Frame K) (eye : Fin 3 → K) (p : Vector4 K) :
    (vector4Apply p (viewMatrix F eye)).w = p.w := by
  simp [viewMatrix]

theorem xyz_vector4Apply_viewMatrix (F : Frame K) (eye : Fin 3 → K) {p : Vector4 K}
    (hp : p.w = 1) : (vector4Apply p (viewMatrix F eye)).xyz = F.coords (p.xyz - eye) := by
  have hcoords : F.coords (p.xyz - eye) =
      ![F.xaxis ⬝ᵥ (p.xyz - eye), F.yaxis ⬝ᵥ (p.xyz - eye), F.zaxis ⬝ᵥ (p.xyz - eye)] := by
    ext i
    fin_cases i <;> rfl
  rw [hcoords]
  ext i
  fin_cases i <;>
    simp [viewMatrix, Vector4.xyz, hp, dotProduct, Fin.sum_univ_three] <;> ring

theorem det_viewMatrix (F : Frame K) (eye : Fin 3 → K) : (viewMatrix F eye).det = 1 := by
  rw [← F.det_axes, Matrix.det_fin_three]
  simp [viewMatrix, Matrix.det, Frame.axes]
  ring

variable [LinearOrder K] [IsStrictOrderedRing K]

theorem dotProduct_self_pos {v : Fin 3 → K} (hv : v ≠ 0) : 0 < v ⬝ᵥ v := by
  have hnonneg : 0 ≤ v ⬝ᵥ v := by
    rw [dotProduct]
    exact Finset.sum_nonneg fun i _ => mul_self_nonneg (v i)
  exact hnonneg.lt_of_ne' (mt dotProduct_self_eq_zero.mp hv)

variable {math : LuaMath K} (hm : math.ExactSqrt)

include hm

theorem Vector4.length_pos {v : Vector4 K} (hv : v.xyz ≠ 0) : 0 < v.length math := by
  rw [Vector4.length_eq]
  exact hm.pos (dotProduct_self_pos hv)

theorem Vector4.length_mul_self {v : Vector4 K} (hv : v.xyz ≠ 0) :
    v.length math * v.length math = v.xyz ⬝ᵥ v.xyz := by
  rw [Vector4.length_eq]
  exact hm.mul_self (dotProduct_self_pos hv).le

theorem Vector4.normalize_spec {v : Vector4 K} (hv : v.xyz ≠ 0) :
    ∃ u : Vector4 K, v.normalize math = (u, some u) ∧
      u.xyz = (1 / v.length math) • v.xyz ∧ u.xyz ⬝ᵥ u.xyz = 1 := by
  have hpos := Vector4.length_pos hm hv
  have hsq := Vector4.length_mul_self hm hv
  have hxyz : (v.normalize math).1.xyz = (1 / v.length math) • v.xyz := by
    rw [Vector4.normalize, if_pos hpos.ne']
    ext i
    fin_cases i <;> simp [Vector4.xyz, mul_comm]
  refine ⟨(v.normalize math).1, ?_, hxyz, ?_⟩
  · rw [Vector4.normalize, if_pos hpos.ne']
  · rw [hxyz, smul_dotProduct, dotProduct_smul, ← hsq, smul_eq_mul, smul_eq_mul]
    field_simp

theorem matrixLookAtLh_eq_viewMatrix {eyePos lookAt up : Vector4 K}
    (hup : (up.cross (vector4Sub lookAt eyePos)).xyz ≠ 0) :
    ∃ F : Frame K, matrixLookAtLh math eyePos lookAt up = .ok (viewMatrix F eyePos.xyz) ∧
      0 < (vector4Sub lookAt eyePos).length math ∧
      (vector4Sub lookAt eyePos).xyz = (vector4Sub lookAt eyePos).length math • F.zaxis := by
  set dir := vector4Sub lookAt eyePos with hdir
  have hcross : up.xyz ⨯₃ dir.xyz ≠ 0 := by rwa [Vector4.xyz_cross] at hup
  have hne : dir.xyz ≠ 0 := by
    intro h
    rw [h, map_zero] at hcross
    exact hcross rfl
  obtain ⟨zaxis, hz, hzxyz, hzunit⟩ := Vector4.normalize_spec hm hne
  have hlen := Vector4.length_pos hm hne
  have hscale : dir.xyz = dir.length math • zaxis.xyz := by
    rw [hzxyz, smul_smul, mul_one_div_cancel hlen.ne', one_smul]
  -- the second vector that is normalised is a multiple of the given cross product
  have hxne : (up.cross zaxis).xyz ≠ 0 := by
    rw [Vector4.xyz_cross, hzxyz, map_smul]
    exact smul_ne_zero (one_div_pos.mpr hlen).ne' hcross
  obtain ⟨xaxis, hx, hxxyz, hxunit⟩ := Vector4.normalize_spec hm hxne
  have horth : xaxis.xyz ⬝ᵥ zaxis.xyz = 0 := by
    rw [hxxyz, smul_dotProduct, Vector4.xyz_cross, dotProduct_comm, dot_cross_self, smul_zero]
  refine ⟨⟨xaxis.xyz, zaxis.xyz, hxunit, hzunit, horth⟩, ?_, hlen, hscale⟩
  simp only [matrixLookAtLh, ← hdir, hz, hx, viewMatrix, Frame.yaxis, ← Vector4.xyz_cross,
    ← Vector4.dot_eq_dotProduct]
  rfl

/-- The look-at matrix takes the camera to the origin and the point looked at to the third axis,
keeps all distances and does not mirror. -/
theorem matrixLookAtLh_rigid {eyePos lookAt up : Vector4 K} (heye : eyePos.w = 1)
    (hlookAt : lookAt.w = 1) (hup : (up.cross (vector4Sub lookAt eyePos)).xyz ≠ 0) :
    ∃ V, matrixLookAtLh math eyePos lookAt up = .ok V ∧
      vector4Apply eyePos V = ⟨0, 0, 0, 1⟩ ∧
      vector4Apply lookAt V = ⟨0, 0, (vector4Sub lookAt eyePos).length math, 1⟩ ∧
      0 < (vector4Sub lookAt eyePos).length math ∧
      (∀ p q : Vector4 K, p.w = 1 → q.w = 1 →
        (vector4Sub (vector4Apply p V) (vector4Apply q V)).length math =
          (vector4Sub p q).length math) ∧
      V.det = 1 := by
  obtain ⟨F, hV, hlen, hscale⟩ := matrixLookAtLh_eq_viewMatrix hm hup
  rw [xyz_vector4Sub] at hscale
  refine ⟨viewMatrix F eyePos.xyz, hV, ?_, ?_, hlen, ?_, det_viewMatrix F eyePos.xyz⟩
  · apply Vector4.ext_xyz
    · rw [xyz_vector4Apply_viewMatrix F _ heye, sub_self, F.coords_zero]
      exact (Vector4.xyz_zero 1).symm
    · rw [vector4Apply_viewMatrix_w, heye]
  · apply Vector4.ext_xyz
    · rw [xyz_vector4Apply_viewMatrix F _ hlookAt, hscale, F.coords_smul, F.coords_zaxis]
      simp [Vector4.xyz]
    · rw [vector4Apply_viewMatrix_w, hlookAt]
  · intro p q hp hq
    rw [Vector4.length_eq, Vector4.length_eq, xyz_vector4Sub, xyz_vector4Sub,
      xyz_vector4Apply_viewMatrix F _ hp, xyz_vector4Apply_viewMatrix F _ hq, ← F.coords_sub,
      F.coords_dot, sub_sub_sub_cancel_right]

omit hm in
theorem matrixLookAtLh_rigid_origin :
    ∃ V, matrixLookAtLh LuaMath.real ⟨0, 0, 0, 1⟩ ⟨0, 0, 2, 1⟩ ⟨0, 1, 1, 0⟩ = .ok V ∧
      vector4Apply ⟨0, 0, 0, 1⟩ V = ⟨0, 0, 0, 1⟩ ∧ V.det = 1 := by
  have hup : ((⟨0, 1, 1, 0⟩ : Vector4 ℝ).cross (vector4Sub ⟨0, 0, 2, 1⟩ ⟨0, 0, 0, 1⟩)).xyz ≠ 0 := by
    intro h
    have hx := congrFun h 0
    norm_num [Vector4.xyz] at hx
  obtain ⟨V, hV, heye, -, -, -, hdet⟩ := matrixLookAtLh_rigid LuaMath.exactSqrt_real
    (rfl : (⟨0, 0, 0, 1⟩ : Vector4 ℝ).w = 1) (rfl : (⟨0, 0, 2, 1⟩ : Vector4 ℝ).w = 1) hup
  exact ⟨V, hV, heye, hdet⟩

theorem Vector4.normalize_of_xyz_eq_zero {v : Vector4 K} (hv : v.xyz = 0) :
    v.normalize math = (v, none) := by
  have hlength : v.length math = 0 := by
    have hsq := hm.mul_self (le_refl (0 : K))
    rw [Vector4.length_eq, hv, dotProduct_zero]
    exact mul_self_eq_zero.mp hsq
  rw [Vector4.normalize, if_neg (not_not_intro hlength)]

theorem Vector4.exists_smul_normalize (v : Vector4 K) :
    ∃ c : K, (v.normalize math).1.xyz = c • v.xyz := by
  by_cases hv : v.xyz = 0
  · refine ⟨0, ?_⟩
    rw [Vector4.normalize_of_xyz_eq_zero hm hv, hv, smul_zero]
  · obtain ⟨u, hu, hxyz, -⟩ := Vector4.normalize_spec hm hv
    exact ⟨1 / v.length math, by rw [hu, hxyz]⟩

/-- The second `normalize` gets a vector of length zero and returns nothing, and `cross` then reads
the fields of its parameter. -/
theorem matrixLookAtLh_of_cross_eq_zero {eyePos lookAt up : Vector4 K}
    (hup : (up.cross (vector4Sub lookAt eyePos)).xyz = 0) :
    matrixLookAtLh math eyePos lookAt up = .error (.index .localVar "v" .nil) := by
  obtain ⟨c, hc⟩ := Vector4.exists_smul_normalize hm (vector4Sub lookAt eyePos)
  have hzero : (up.cross ((vector4Sub lookAt eyePos).normalize math).1).xyz = 0 := by
    rw [Vector4.xyz_cross] at hup ⊢
    rw [hc, map_smul, hup, smul_zero]
  simp only [matrixLookAtLh, Vector4.normalize_of_xyz_eq_zero hm hzero]

/-- A camera has a matrix exactly when `up` is not along the viewing direction and neither of them
is zero. -/
theorem matrixLookAtLh_ok_iff (eyePos lookAt up : Vector4 K) :
    ((∃ V, matrixLookAtLh math eyePos lookAt up = .ok V) ↔
        LinearIndependent K ![up.xyz, lookAt.xyz - eyePos.xyz]) ∧
      (¬ LinearIndependent K ![up.xyz, lookAt.xyz - eyePos.xyz] →
        matrixLookAtLh math eyePos lookAt up = .error (.index .localVar "v" .nil)) := by
  rw [← crossProduct_ne_zero_iff_linearIndependent, ← xyz_vector4Sub, ← Vector4.xyz_cross]
  refine ⟨⟨?_, ?_⟩, ?_⟩
  · intro hok hup
    obtain ⟨V, hV⟩ := hok
    rw [matrixLookAtLh_of_cross_eq_zero hm hup] at hV
    cases hV
  · intro hup
    obtain ⟨F, hV, -⟩ := matrixLookAtLh_eq_viewMatrix hm hup
    exact ⟨_, hV⟩
  · intro hup
    exact matrixLookAtLh_of_cross_eq_zero hm (not_not.mp hup)

omit hm in
theorem matrixLookAtLh_ok_iff_sideways :
    ∃ V, matrixLookAtLh LuaMath.real ⟨0, 0, 0, 1⟩ ⟨0, 0, 2, 1⟩ ⟨0, 1, 0, 0⟩ = .ok V := by
  refine (matrixLookAtLh_ok_iff LuaMath.exactSqrt_real ⟨0, 0, 0, 1⟩ ⟨0, 0, 2, 1⟩ ⟨0, 1, 0, 0⟩).1.mpr
    (crossProduct_ne_zero_iff_linearIndependent.mp fun h => ?_)
  rw [← xyz_vector4Sub, ← Vector4.xyz_cross] at h
  have hx := congrFun h 0
  norm_num [Vector4.xyz] at hx

omit hm in
theorem matrixLookAtLh_straight_up :
    (⟨0, 1, 0, 1⟩ : Vector4 ℝ) ≠ ⟨0, 0, 0, 1⟩ ∧
      matrixLookAtLh LuaMath.real ⟨0, 0, 0, 1⟩ ⟨0, 1, 0, 1⟩ ⟨0, 1, 0, 0⟩ =
        .error (.index .localVar "v" .nil) := by
  refine ⟨by simp, matrixLookAtLh_of_cross_eq_zero LuaMath.exactSqrt_real ?_⟩
  ext i
  fin_cases i <;> simp [Vector4.xyz]

end SoftRenderer
end
