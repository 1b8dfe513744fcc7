import SoftRenderer.CubeTick

/-!
# The matrix for normals

`tick` drops the transpose that it computes, so the shader gets the inverse of the world matrix for
its normals. Products of normals with directions survive this only if the linear part of the world
matrix equals its own transpose.
-/

namespace SoftRenderer

open Kit

variable {K : Type} [Field K]

namespace Matrix

def IsSymmetric (A : Matrix K) : Prop := A.m12 = A.m21 ∧ A.m13 = A.m31 ∧ A.m23 = A.m32

theorem isSymmetric_iff (A : Matrix K) :
    A.IsSymmetric ↔ ∀ p v : Vector4 K, p.w = 0 → v.w = 0 →
      p.dot (vector4Apply v A) = (vector4Apply p A).dot v := by
  constructor
  · rintro ⟨h12, h13, h23⟩ p v hp hv
    simp only [Vector4.dot, vector4Apply, h12, h13, h23, hp, hv]
    ring
  · intro h
    have h12 := h ⟨0, 1, 0, 0⟩ ⟨1, 0, 0, 0⟩ rfl rfl
    have h13 := h ⟨0, 0, 1, 0⟩ ⟨1, 0, 0, 0⟩ rfl rfl
    have h23 := h ⟨0, 0, 1, 0⟩ ⟨0, 1, 0, 0⟩ rfl rfl
    simp only [Vector4.dot, vector4Apply, zero_mul, one_mul, mul_zero, mul_one, add_zero,
      zero_add] at h12 h13 h23
    exact ⟨h12, h13, h23⟩

theorem dot_invert_iff {A : Matrix K} (ha : A.IsAffine) (hd : A.det ≠ 0) :
    (∀ n v : Vector4 K, n.w = 0 → v.w = 0 →
      (vector4Apply n A.invert).dot (vector4Apply v A) = n.dot v) ↔ A.IsSymmetric := by
  rw [isSymmetric_iff]
  constructor
  · intro h p v hp hv
    have hw : (vector4Apply p A).w = 0 := by rw [vector4Apply_w_of_isAffine ha, hp]
    have hdot := h (vector4Apply p A) v hw hv
    rwa [vector4Apply_invert_right ha hd] at hdot
  · intro h n v hn hv
    have hw : (vector4Apply n A.invert).w = 0 := by rw [vector4Apply_w_of_isAffine ha.invert, hn]
    rw [h _ v hw hv, vector4Apply_invert_left ha hd]

end Matrix

/-- Normals taken through the matrix of the shader keep their products with directions taken
through the world matrix. -/
def CubeShader.TransformsNormals (s : CubeShader (Matrix K)) (W : Matrix K) : Prop :=
  ∀ n v : Vector4 K, n.w = 0 → v.w = 0 →
    (vector4Apply n s.worldInvTranspose).dot (vector4Apply v W) = n.dot v

namespace Cube

variable [LinearOrder K]

theorem Ticked.transformsNormals_iff {math : LuaMath K} {V : Matrix K} {cube cube' : Cube K}
    {objs objs' : Objects K} (h : Ticked math V cube cube' objs objs') (hwf : cube.WellFormed objs)
    (ha : (objs.matrix cube.world).IsAffine) (hd : (objs.matrix cube.world).det ≠ 0) :
    (objs'.shader cube'.shader).TransformsNormals (objs.matrix cube.world) ↔
      (objs.matrix cube.world).IsSymmetric := by
  rw [h.shader_eq hwf, Matrix.inverse_of_det_ne_zero hd]
  exact Matrix.dot_invert_iff ha hd

variable [IsStrictOrderedRing K]

/-- A tick sets a correct normal matrix exactly when the linear part of the world matrix is its own
transpose. -/
theorem tick_transformsNormals_iff {math : LuaMath K} (hm : math.ExactSqrt) {cube : Cube K}
    {objs : Objects K} (hwf : cube.WellFormed objs) (ha : (objs.matrix cube.world).IsAffine)
    (hd : (objs.matrix cube.world).det ≠ 0) (dt : K) :
    ∃ cube' objs', cube.tick math dt objs = (.ok cube', objs') ∧
      ((objs'.shader cube'.shader).TransformsNormals (objs.matrix cube.world) ↔
        (objs.matrix cube.world).IsSymmetric) := by
  obtain ⟨F, l, hV, -⟩ := view_eq hm
  obtain ⟨cube', objs', hrun, hticked⟩ := tick_ticked hV hwf.world_lt dt
  exact ⟨cube', objs', hrun, hticked.transformsNormals_iff hwf ha hd⟩

theorem tick_transformsNormals_stretched :
    ∃ (cube cube' : Cube ℝ) (objs objs' : Objects ℝ),
      objs.matrix cube.world = .new 2 1 0 0 1 2 0 0 0 0 1 0 3 4 5 1 ∧
      cube.tick LuaMath.real 0 objs = (.ok cube', objs') ∧
      (objs'.shader cube'.shader).TransformsNormals (.new 2 1 0 0 1 2 0 0 0 0 1 0 3 4 5 1) := by
  let W : Matrix ℝ := .new 2 1 0 0 1 2 0 0 0 0 1 0 3 4 5 1
  obtain ⟨cube, objs, hwf, hW⟩ := exists_placed W
  have ha : (objs.matrix cube.world).IsAffine := hW ▸ ⟨rfl, rfl, rfl, rfl⟩
  have hd : (objs.matrix cube.world).det ≠ 0 := by
    rw [hW]
    norm_num [W, Matrix.det]
  obtain ⟨cube', objs', hrun, hiff⟩ := tick_transformsNormals_iff LuaMath.exactSqrt_real hwf ha hd 0
  rw [hW] at hiff
  exact ⟨cube, cube', objs, objs', hW, hrun, hiff.mpr ⟨rfl, rfl, rfl⟩⟩

/-- A cube turned by a right angle about the third axis. -/
theorem tick_not_transformsNormals :
    ¬ ∀ (cube cube' : Cube ℝ) (objs objs' : Objects ℝ),
      cube.WellFormed objs → (objs.matrix cube.world).IsAffine →
      (objs.matrix cube.world).det ≠ 0 →
      cube.tick LuaMath.real 0 objs = (.ok cube', objs') →
      (objs'.shader cube'.shader).TransformsNormals (objs.matrix cube.world) := by
  intro h
  let W : Matrix ℝ := .new 0 1 0 0 (-1) 0 0 0 0 0 1 0 0 0 0 1
  obtain ⟨cube, objs, hwf, hW⟩ := exists_placed W
  have ha : (objs.matrix cube.world).IsAffine := hW ▸ ⟨rfl, rfl, rfl, rfl⟩
  have hd : (objs.matrix cube.world).det ≠ 0 := by
    rw [hW]
    norm_num [W, Matrix.det]
  obtain ⟨F, l, hV, -⟩ := view_eq LuaMath.exactSqrt_real
  obtain ⟨cube', objs', hrun, hticked⟩ := tick_ticked hV hwf.world_lt 0
  have hnormals := h cube cube' objs objs' hwf ha hd hrun
  rw [hticked.transformsNormals_iff hwf ha hd, hW] at hnormals
  norm_num [W, Matrix.IsSymmetric] at hnormals

end Cube
end SoftRenderer
