import SoftRenderer.Cube
import SoftRenderer.LookAt
import SoftRenderer.Perspective
import SoftRenderer.Transform

/-!
# The matrices that a tick leaves in the shader

`tick` calls `setWVP` a second time, with the world matrix, where `setWorld` would be expected, and
inverts that matrix in place. The vertex shader therefore projects with the inverse of the world
matrix, and transforms to world space with whatever its own slot held before.
-/

namespace SoftRenderer

open Kit

variable {K : Type} [Field K]

def CubeShader.Transforms (s : CubeShader (Matrix K)) (W V P : Matrix K) (v : VertexIn K) : Prop :=
  (s.vs v).posWorld = vector4Apply v.pos W ∧
    (s.vs v).posProj = vector4Apply (vector4Apply (vector4Apply v.pos W) V) P

namespace Cube

theorem viewDepth (F : Frame K) (t : K) :
    (vector4Apply ⟨0, 0, t, 1⟩ (viewMatrix F pos.xyz)).z =
      F.zaxis 2 * t - F.zaxis ⬝ᵥ (pos : Vector4 K).xyz := by
  simp [viewMatrix]
  ring

/-- The condition on the cube, before the tick, and on a vertex under which the shader is right. -/
def KeepsVertex (math : LuaMath K) (cube : Cube K) (objs : Objects K) (V : Matrix K)
    (p : Vector4 K) : Prop :=
  let W := objs.matrix cube.world
  let slot := (objs.shaders.cell cube.shader).world
  (if slot = cube.world then p = vector4Apply (vector4Apply p W) W
    else vector4Apply p (objs.matrix slot) = vector4Apply p W) ∧
  p = vector4Apply (vector4Apply (vector4Apply (vector4Apply p W) V) (cube.proj math)) W

theorem KeepsVertex.depth {math : LuaMath K} {cube : Cube K} {objs : Objects K} {V : Matrix K}
    {p : Vector4 K} (h : cube.KeepsVertex math objs V p)
    (ha : (objs.matrix cube.world).IsAffine) :
    p.w = (vector4Apply (vector4Apply p (objs.matrix cube.world)) V).z := by
  have hp := congrArg Vector4.w h.2
  rwa [vector4Apply_w_of_isAffine ha, proj, vector4Apply_matrixPerspectiveFovLh_w] at hp

theorem exists_not_keepsVertex (math : LuaMath K) {cube : Cube K} {objs : Objects K} {F : Frame K}
    (hz : F.zaxis 2 ≠ 0) (ha : (objs.matrix cube.world).IsAffine)
    (hd : (objs.matrix cube.world).det ≠ 0) :
    ∃ p : Vector4 K, p.w = 1 ∧ ¬ cube.KeepsVertex math objs (viewMatrix F pos.xyz) p := by
  have hw (t : K) : (vector4Apply ⟨0, 0, t, 1⟩ (objs.matrix cube.world).invert).w = 1 :=
    vector4Apply_w_of_isAffine ha.invert _
  have hdepth (t : K) (h : cube.KeepsVertex math objs (viewMatrix F pos.xyz)
      (vector4Apply ⟨0, 0, t, 1⟩ (objs.matrix cube.world).invert)) :
      1 = F.zaxis 2 * t - F.zaxis ⬝ᵥ (pos : Vector4 K).xyz := by
    have hp := h.depth ha
    rwa [Matrix.vector4Apply_invert_left ha hd, hw, viewDepth] at hp
  by_cases h0 : cube.KeepsVertex math objs (viewMatrix F pos.xyz)
      (vector4Apply ⟨0, 0, 0, 1⟩ (objs.matrix cube.world).invert)
  · refine ⟨_, hw 1, ?_⟩
    intro h1
    have hdiff := (hdepth 1 h1).symm.trans (hdepth 0 h0)
    rw [sub_left_inj, mul_one, mul_zero] at hdiff
    exact hz hdiff
  · exact ⟨_, hw 0, h0⟩

variable [LinearOrder K]

theorem Ticked.transforms_iff {math : LuaMath K} {V : Matrix K} {cube cube' : Cube K}
    {objs objs' : Objects K} (h : Ticked math V cube cube' objs objs') (hwf : cube.WellFormed objs)
    (ha : (objs.matrix cube.world).IsAffine) (hd : (objs.matrix cube.world).det ≠ 0)
    (v : VertexIn K) :
    (objs'.shader cube'.shader).Transforms (objs.matrix cube.world) V (cube.proj math) v ↔
      cube.KeepsVertex math objs V v.pos := by
  rw [h.shader_eq hwf, Matrix.inverse_of_det_ne_zero hd]
  unfold CubeShader.Transforms KeepsVertex CubeShader.vs
  apply and_congr
  · split_ifs with hslot
    · exact vector4Apply_invert_eq_iff ha hd _ _
    · exact Iff.rfl
  · exact vector4Apply_invert_eq_iff ha hd _ _

variable [IsStrictOrderedRing K]

theorem view_eq {math : LuaMath K} (hm : math.ExactSqrt) :
    ∃ (F : Frame K) (l : K), view math = .ok (viewMatrix F pos.xyz) ∧
      (vector4Sub target pos : Vector4 K).xyz = l • F.zaxis := by
  have hup : ((up : Vector4 K).cross (vector4Sub target pos)).xyz ≠ 0 := by
    intro h
    have hx := congrFun h 0
    norm_num [Vector4.xyz, up, target, pos] at hx
  obtain ⟨F, hV, -, hdir⟩ := matrixLookAtLh_eq_viewMatrix hm hup
  exact ⟨F, _, hV, hdir⟩

theorem zaxis_ne_zero {F : Frame K} {l : K}
    (hdir : (vector4Sub target pos : Vector4 K).xyz = l • F.zaxis) : F.zaxis 2 ≠ 0 := by
  intro hz
  have hdirz : (vector4Sub target pos : Vector4 K).z = l * F.zaxis 2 := congrFun hdir 2
  rw [hz, mul_zero] at hdirz
  norm_num [target, pos] at hdirz

/-- After a tick the shader transforms a vertex as the matrices of the tick say exactly when the
vertex meets the condition `KeepsVertex`, which every cube fails on some point. -/
theorem tick_transforms_iff {math : LuaMath K} (hm : math.ExactSqrt) {cube : Cube K}
    {objs : Objects K} (hwf : cube.WellFormed objs) (ha : (objs.matrix cube.world).IsAffine)
    (hd : (objs.matrix cube.world).det ≠ 0) (dt : K) :
    ∃ V cube' objs', view math = .ok V ∧ cube.tick math dt objs = (.ok cube', objs') ∧
      (∀ v, (objs'.shader cube'.shader).Transforms (objs.matrix cube.world) V (cube.proj math) v ↔
        cube.KeepsVertex math objs V v.pos) ∧
      ∃ v : VertexIn K, v.pos.w = 1 ∧
        ¬ (objs'.shader cube'.shader).Transforms (objs.matrix cube.world) V (cube.proj math) v := by
  obtain ⟨F, l, hV, hdir⟩ := view_eq hm
  obtain ⟨cube', objs', hrun, hticked⟩ := tick_ticked hV hwf.world_lt dt
  obtain ⟨p, hp, hlost⟩ := exists_not_keepsVertex math (zaxis_ne_zero hdir) ha hd
  refine ⟨_, cube', objs', hV, hrun, hticked.transforms_iff hwf ha hd, ?_⟩
  refine ⟨⟨p, .nil, ⟨0, 0⟩, .nil⟩, hp, ?_⟩
  rw [hticked.transforms_iff hwf ha hd]
  exact hlost

theorem tick_transforms_source :
    ∃ (cube cube' : Cube ℝ) (objs objs' : Objects ℝ) (V : Matrix ℝ) (v : VertexIn ℝ),
      Cube.new .source .empty = (.ok cube, objs) ∧ view LuaMath.real = .ok V ∧
      cube.tick LuaMath.real 0 objs = (.ok cube', objs') ∧ v.pos.w = 1 ∧
      ¬ (objs'.shader cube'.shader).Transforms (objs.matrix cube.world) V
        (cube.proj LuaMath.real) v := by
  obtain ⟨cube, objs, hnew, hwf, hW⟩ := new_source ℝ
  have ha : (objs.matrix cube.world).IsAffine := hW ▸ Matrix.isAffine_newIdentity
  have hd : (objs.matrix cube.world).det ≠ 0 := hW ▸ Matrix.det_newIdentity_ne_zero
  obtain ⟨V, cube', objs', hV, hrun, -, v, hv, hlost⟩ :=
    tick_transforms_iff LuaMath.exactSqrt_real hwf ha hd 0
  exact ⟨cube, cube', objs, objs', V, v, hnew, hV, hrun, hv, hlost⟩

/-- The origin under the first tick of the cube that the scripts construct: its distance from the
camera is not one. -/
theorem tick_not_transforms :
    ¬ ∀ (cube cube' : Cube ℝ) (objs objs' : Objects ℝ) (V : Matrix ℝ) (v : VertexIn ℝ),
      cube.WellFormed objs → (objs.matrix cube.world).IsAffine →
      (objs.matrix cube.world).det ≠ 0 → view LuaMath.real = .ok V →
      cube.tick LuaMath.real 0 objs = (.ok cube', objs') →
      (objs'.shader cube'.shader).Transforms (objs.matrix cube.world) V
        (cube.proj LuaMath.real) v := by
  intro h
  obtain ⟨cube, objs, hnew, hwf, hW⟩ := new_source ℝ
  have ha : (objs.matrix cube.world).IsAffine := hW ▸ Matrix.isAffine_newIdentity
  have hd : (objs.matrix cube.world).det ≠ 0 := hW ▸ Matrix.det_newIdentity_ne_zero
  obtain ⟨F, l, hV, hdir⟩ := view_eq LuaMath.exactSqrt_real
  obtain ⟨cube', objs', hrun, hticked⟩ := tick_ticked hV hwf.world_lt 0
  have hkeeps := h cube cube' objs objs' _ ⟨⟨0, 0, 0, 1⟩, .nil, ⟨0, 0⟩, .nil⟩ hwf ha hd hV hrun
  rw [hticked.transforms_iff hwf ha hd] at hkeeps
  have hdepth := hkeeps.depth ha
  rw [hW, vector4Apply_newIdentity, viewDepth, mul_zero, zero_sub] at hdepth
  have hl : l = 1 := by
    calc
      l = F.zaxis ⬝ᵥ (l • F.zaxis) := by rw [dotProduct_smul, F.zaxis_unit, smul_eq_mul, mul_one]
      _ = F.zaxis ⬝ᵥ (vector4Sub target pos : Vector4 ℝ).xyz := by rw [hdir]
      _ = -(F.zaxis ⬝ᵥ (pos : Vector4 ℝ).xyz) := by
        rw [xyz_vector4Sub, target, Vector4.xyz_zero, zero_sub, dotProduct_neg]
      _ = 1 := hdepth.symm
  have hunit := F.zaxis_unit
  rw [hl, one_smul] at hdir
  rw [← hdir, ← Vector4.dot_eq_dotProduct] at hunit
  norm_num [Vector4.dot, target, pos] at hunit

end Cube
end SoftRenderer
