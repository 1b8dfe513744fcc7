import SoftRenderer.Perspective
import SoftRenderer.SceneSymmetry

/-!
# The camera in the world

A look-at matrix followed by a perspective matrix is a pinhole camera. It sees a truncated pyramid
behind its eye, it shows two points at one place exactly when one ray from the eye meets both, and
the nearer of two points gets the smaller depth.
-/

section

open scoped Matrix

namespace SoftRenderer

open Kit

variable {K : Type} [Field K]

/-- What the camera makes of a point of the world. -/
def LuaMath.picture (math : LuaMath K) (fov aspect near far : K) (V : Matrix K) (p : Vector4 K) :
    Vector4 K :=
  vector4Apply (vector4Apply p V) (matrixPerspectiveFovLh math fov aspect near far)

def Vector4.image (q : Vector4 K) : Vector2 K := ⟨q.x / q.w, q.y / q.w⟩

theorem picture_viewMatrix (math : LuaMath K) (fov aspect near far : K) (F : Frame K)
    (eye : Fin 3 → K) {p : Vector4 K} (hp : p.w = 1) :
    math.picture fov aspect near far (viewMatrix F eye) p =
      math.project fov aspect near far (F.xaxis ⬝ᵥ (p.xyz - eye)) (F.yaxis ⬝ᵥ (p.xyz - eye))
        (F.zaxis ⬝ᵥ (p.xyz - eye)) := by
  have hview : vector4Apply p (viewMatrix F eye) = ⟨F.xaxis ⬝ᵥ (p.xyz - eye),
      F.yaxis ⬝ᵥ (p.xyz - eye), F.zaxis ⬝ᵥ (p.xyz - eye), 1⟩ := by
    apply Vector4.ext_xyz
    · rw [xyz_vector4Apply_viewMatrix F eye hp, F.coords_eq]
      rfl
    · rw [vector4Apply_viewMatrix_w, hp]
  rw [LuaMath.picture, hview, LuaMath.project]

variable [LinearOrder K] [IsStrictOrderedRing K]

/-- A camera at `eye` with the axes `F`, as its pictures show it. -/
structure IsPinhole (F : Frame K) (eye : Fin 3 → K) (h aspect near far : K)
    (picture : Vector4 K → Vector4 K) : Prop where
  depth : ∀ p, p.w = 1 → (picture p).w = F.zaxis ⬝ᵥ (p.xyz - eye)
  visible_iff : ∀ p, p.w = 1 → (InCanonicalVolume (picture p) ↔
    (near ≤ F.zaxis ⬝ᵥ (p.xyz - eye) ∧ F.zaxis ⬝ᵥ (p.xyz - eye) ≤ far) ∧
      |F.xaxis ⬝ᵥ (p.xyz - eye)| * h / aspect ≤ F.zaxis ⬝ᵥ (p.xyz - eye) ∧
      |F.yaxis ⬝ᵥ (p.xyz - eye)| * h ≤ F.zaxis ⬝ᵥ (p.xyz - eye))
  image_eq_iff : ∀ p q, p.w = 1 → q.w = 1 → 0 < (picture p).w → 0 < (picture q).w →
    ((picture p).image = (picture q).image ↔ ∃ c : K, 0 < c ∧ q.xyz - eye = c • (p.xyz - eye))
  nearer : ∀ p q, p.w = 1 → q.w = 1 → 0 < (picture p).w → (picture p).w < (picture q).w →
    (picture p).z / (picture p).w < (picture q).z / (picture q).w

theorem isPinhole_viewMatrix {math : LuaMath K} {fov aspect near far : K} (hnear : 0 < near)
    (hfar : near < far) (haspect : 0 < aspect) (hh : 0 < math.cotHalf fov) (F : Frame K)
    (eye : Fin 3 → K) :
    IsPinhole F eye (math.cotHalf fov) aspect near far
      (math.picture fov aspect near far (viewMatrix F eye)) := by
  have hpicture {p : Vector4 K} (hp : p.w = 1) :=
    picture_viewMatrix math fov aspect near far F eye hp
  have hdepth {p : Vector4 K} (hp : p.w = 1) :
      (math.picture fov aspect near far (viewMatrix F eye) p).w = F.zaxis ⬝ᵥ (p.xyz - eye) := by
    rw [hpicture hp, project_w]
  refine ⟨fun p hp => hdepth hp, fun p hp => ?_, fun p q hp hq hpw hqw => ?_,
    fun p q hp hq hpw hlt => ?_⟩
  · rw [hpicture hp]
    exact project_inCanonicalVolume_iff hnear hfar haspect hh _ _ _
  · rw [hdepth hp] at hpw
    rw [hdepth hq] at hqw
    have hscale : math.cotHalf fov / aspect ≠ 0 := (div_pos hh haspect).ne'
    rw [← F.onRay_iff hpw hqw, hpicture hp, hpicture hq, Vector4.image, Vector4.image]
    simp only [project_x, project_y, project_w, Vector2.mk.injEq, mul_div_right_comm,
      mul_left_inj' hscale, mul_left_inj' hh.ne']
  · rw [hdepth hp] at hpw hlt
    rw [hdepth hq] at hlt
    rw [hpicture hp, hpicture hq, project_depth hfar hpw.ne',
      project_depth hfar (hpw.trans hlt).ne']
    exact perspective_depth_lt hnear hfar hpw hlt

/-- Every camera that has a look-at matrix is a pinhole camera with its perspective matrix. -/
theorem matrixLookAtLh_isPinhole {math : LuaMath K} (hm : math.ExactSqrt)
    {eyePos lookAt up : Vector4 K} (hup : (up.cross (vector4Sub lookAt eyePos)).xyz ≠ 0)
    {fov aspect near far : K} (hnear : 0 < near) (hfar : near < far) (haspect : 0 < aspect)
    (hh : 0 < math.cotHalf fov) :
    ∃ V F, matrixLookAtLh math eyePos lookAt up = .ok V ∧
      CameraFrame F (vector4Sub lookAt eyePos).xyz up.xyz ∧
      IsPinhole F eyePos.xyz (math.cotHalf fov) aspect near far
        (math.picture fov aspect near far V) := by
  obtain ⟨F, hF, hV⟩ := matrixLookAtLh_cameraFrame hm hup
  exact ⟨_, F, hV, hF, isPinhole_viewMatrix hnear hfar haspect hh F eyePos.xyz⟩

theorem matrixLookAtLh_isPinhole_forward :
    ∃ V F, matrixLookAtLh LuaMath.real ⟨0, 0, 0, 1⟩ ⟨0, 0, 2, 1⟩ ⟨0, 1, 0, 0⟩ = .ok V ∧
      CameraFrame F (vector4Sub (⟨0, 0, 2, 1⟩ : Vector4 ℝ) ⟨0, 0, 0, 1⟩).xyz
        (⟨0, 1, 0, 0⟩ : Vector4 ℝ).xyz ∧
      IsPinhole F (⟨0, 0, 0, 1⟩ : Vector4 ℝ).xyz (LuaMath.real.cotHalf 1) 1 1 100
        (LuaMath.real.picture 1 1 1 100 V) := by
  have hcos : 0 < Real.cos (1 * 0.5) := Real.cos_pos_of_le_one (by norm_num [abs_of_pos])
  have hsin : 0 < Real.sin (1 * 0.5) := Real.sin_pos_of_pos_of_le_one (by norm_num) (by norm_num)
  refine matrixLookAtLh_isPinhole LuaMath.exactSqrt_real ?_ one_pos (by norm_num) one_pos
    (div_pos hcos hsin)
  intro h
  have hx := congrFun h 0
  norm_num [Vector4.xyz] at hx

end SoftRenderer
end
