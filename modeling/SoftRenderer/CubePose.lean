import SoftRenderer.CubeTick
import Mathlib.Algebra.Ring.Parity

/-!
# The pose of the cube

`tick` inverts the world matrix itself, where a copy would be expected, and inverting twice gives
the matrix back. So the pose is kept by an even number of ticks, and by an odd number only if the
world matrix is its own inverse.
-/

namespace SoftRenderer

open Kit Kit.Procedure

variable {K : Type} [Field K] [LinearOrder K]

namespace Cube

def ticks (math : LuaMath K) (self : Cube K) (dts : List K) : ObjectM K (Cube K) :=
  forFold dts self fun dt self => self.tick math dt

theorem ticks_run {math : LuaMath K} {V : Matrix K} (hV : view math = .ok V) (dts : List K)
    {cube : Cube K} {objs : Objects K} (hworld : cube.world < objs.matrices.size) :
    ∃ cube' objs', cube.ticks math dts objs = (.ok cube', objs') ∧
      objs'.matrix cube'.world =
        (fun A : Matrix K => A.inverse.2)^[dts.length] (objs.matrix cube.world) := by
  induction dts generalizing cube objs with
  | nil => exact ⟨cube, objs, rfl, rfl⟩
  | cons dt dts ih =>
      obtain ⟨cube1, objs1, hrun1, hticked⟩ := tick_ticked hV hworld dt
      have hworld1 : cube1.world < objs1.matrices.size := by
        rw [hticked.world, hticked.matrices_size]
        omega
      obtain ⟨cube2, objs2, hrun2, hmatrix⟩ := ih hworld1
      refine ⟨cube2, objs2, ?_, ?_⟩
      · rw [ticks, forFold_cons, bind_ok hrun1]
        exact hrun2
      · rw [hmatrix, hticked.world, hticked.matrix_world, List.length_cons,
          Function.iterate_succ_apply]

theorem inverse_iterate_eq_iff {A : Matrix K} (ha : A.IsAffine) (hd : A.det ≠ 0) (n : ℕ) :
    (fun A : Matrix K => A.inverse.2)^[n] A = A ↔
      Even n ∨ ∀ p, vector4Apply (vector4Apply p A) A = p := by
  rw [Matrix.inverse_iterate_eq_iff, Matrix.inverse_of_det_ne_zero hd, ha.invert_eq_iff hd]

variable [IsStrictOrderedRing K]

/-- The ticks leave the world matrix as it was exactly when their number is even or applying the
matrix twice changes nothing. -/
theorem ticks_keep_world_iff {math : LuaMath K} (hm : math.ExactSqrt) {cube : Cube K}
    {objs : Objects K} (hworld : cube.world < objs.matrices.size)
    (ha : (objs.matrix cube.world).IsAffine) (hd : (objs.matrix cube.world).det ≠ 0)
    (dts : List K) :
    ∃ cube' objs', cube.ticks math dts objs = (.ok cube', objs') ∧
      (objs'.matrix cube'.world = objs.matrix cube.world ↔
        Even dts.length ∨ ∀ p, vector4Apply (vector4Apply p (objs.matrix cube.world))
          (objs.matrix cube.world) = p) := by
  obtain ⟨F, l, hV, -⟩ := view_eq hm
  obtain ⟨cube', objs', hrun, hmatrix⟩ := ticks_run hV dts hworld
  refine ⟨cube', objs', hrun, ?_⟩
  rw [hmatrix, inverse_iterate_eq_iff ha hd]

theorem ticks_keep_world_turned :
    ∃ (cube cube' cube'' : Cube ℝ) (objs objs' objs'' : Objects ℝ),
      objs.matrix cube.world = turned ∧
      cube.ticks LuaMath.real [1, 2] objs = (.ok cube', objs') ∧
      objs'.matrix cube'.world = turned ∧
      cube.ticks LuaMath.real [1, 2, 3] objs = (.ok cube'', objs'') ∧
      objs''.matrix cube''.world ≠ turned := by
  obtain ⟨cube, objs, hwf, hW⟩ := exists_placed (turned : Matrix ℝ)
  have ha : (objs.matrix cube.world).IsAffine := hW ▸ ⟨rfl, rfl, rfl, rfl⟩
  have hd : (objs.matrix cube.world).det ≠ 0 := by
    rw [hW]
    norm_num [turned, Matrix.det]
  obtain ⟨cube', objs', hrun, hiff⟩ :=
    ticks_keep_world_iff LuaMath.exactSqrt_real hwf.world_lt ha hd [1, 2]
  obtain ⟨cube'', objs'', hrun', hiff'⟩ :=
    ticks_keep_world_iff LuaMath.exactSqrt_real hwf.world_lt ha hd [1, 2, 3]
  rw [hW] at hiff hiff'
  refine ⟨cube, cube', cube'', objs, objs', objs'', hW, hrun, hiff.mpr (.inl (by decide)), hrun',
    fun hkeep => ?_⟩
  rcases hiff'.mp hkeep with heven | htwice
  · exact absurd heven (by decide)
  · have hx := congrArg Vector4.x (htwice ⟨0, 0, 0, 1⟩)
    norm_num [turned] at hx

/-- One tick of a cube that is moved along the first axis. -/
theorem not_ticks_keep_world :
    ¬ ∀ (cube cube' : Cube ℝ) (objs objs' : Objects ℝ) (dts : List ℝ),
      cube.world < objs.matrices.size → (objs.matrix cube.world).IsAffine →
      (objs.matrix cube.world).det ≠ 0 →
      cube.ticks LuaMath.real dts objs = (.ok cube', objs') →
      objs'.matrix cube'.world = objs.matrix cube.world := by
  intro h
  let W : Matrix ℝ := .new 1 0 0 0 0 1 0 0 0 0 1 0 1 0 0 1
  obtain ⟨cube, objs, hwf, hW⟩ := exists_placed W
  have ha : W.IsAffine := ⟨rfl, rfl, rfl, rfl⟩
  have hd : W.det ≠ 0 := by
    norm_num [W, Matrix.det]
  obtain ⟨F, l, hV, -⟩ := view_eq LuaMath.exactSqrt_real
  obtain ⟨cube', objs', hrun, hmatrix⟩ := ticks_run hV [0] hwf.world_lt
  have hkeep := h cube cube' objs objs' [0] hwf.world_lt (hW ▸ ha) (hW ▸ hd) hrun
  rw [hmatrix, hW, inverse_iterate_eq_iff ha hd] at hkeep
  rcases hkeep with heven | htwice
  · exact absurd heven (by decide)
  · have hx := congrArg Vector4.x (htwice ⟨0, 0, 0, 1⟩)
    norm_num [W] at hx

end Cube
end SoftRenderer
