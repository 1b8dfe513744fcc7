import SoftRenderer.CubePose

/-!
# The shader after a run of ticks

A run of ticks changes one matrix that existed before it, the world matrix, and the shader projects
with that matrix. So of everything a tick computes, the view, the projection, the window and the
elapsed time, nothing reaches the vertices: they depend on the number of ticks, and on whether it is
even.
-/

namespace SoftRenderer

open Kit Kit.Procedure

variable {K : Type} [Field K] [LinearOrder K]

namespace Cube

theorem tick_keeps {math : LuaMath K} {V : Matrix K} (hV : view math = .ok V)
    {cube cube' : Cube K} {objs objs' : Objects K} {dt : K}
    (hrun : cube.tick math dt objs = (.ok cube', objs')) :
    cube'.mesh = cube.mesh ∧ cube'.deviceContext.shader = some cube'.shader := by
  rw [tick, hV] at hrun
  cases hrun
  exact ⟨rfl, rfl⟩

def worldAfter (n : ℕ) (W : Matrix K) : Matrix K := (fun A : Matrix K => A.inverse.2)^[n] W

theorem worldAfter_eq (n : ℕ) (W : Matrix K) :
    worldAfter n W = if Even n then W else W.inverse.2 := by
  split_ifs with hn
  · exact congrFun (Matrix.inverse_involutive.iterate_even hn) W
  · exact congrFun (Matrix.inverse_involutive.iterate_odd (Nat.not_even_iff_odd.mp hn)) W

/-- What `n` ticks of a cube do to what belongs to it, whatever else happens. -/
structure OwnTicked (n : ℕ) (cube cube' : Cube K) (objs objs' : Objects K) : Prop where
  world : cube'.world = cube.world
  shader : cube'.shader = cube.shader
  device : cube'.device = cube.device
  mesh : cube'.mesh = cube.mesh
  wellFormed : cube'.WellFormed objs'
  matrix_world : objs'.matrix cube.world = worldAfter n (objs.matrix cube.world)
  matrix_slot : (objs.shaders.cell cube.shader).world ≠ cube.world →
    objs'.matrix (objs.shaders.cell cube.shader).world =
      objs.matrix (objs.shaders.cell cube.shader).world
  slots : objs'.shaders.cell cube.shader =
    if n = 0 then objs.shaders.cell cube.shader
    else ⟨cube.world, (objs.shaders.cell cube.shader).world, cube.world⟩

namespace OwnTicked

variable {n : ℕ} {cube cube1 : Cube K} {objs objs1 : Objects K}

theorem zero (hwf : cube.WellFormed objs) : OwnTicked 0 cube cube objs objs :=
  ⟨rfl, rfl, rfl, rfl, hwf, rfl, fun _ => rfl, rfl⟩

theorem slot_world (h : OwnTicked n cube cube1 objs objs1) :
    (objs1.shaders.cell cube.shader).world = (objs.shaders.cell cube.shader).world := by
  rw [h.slots]
  split_ifs <;> rfl

theorem world_lt (h : OwnTicked n cube cube1 objs objs1) : cube.world < objs1.matrices.size :=
  h.world ▸ h.wellFormed.world_lt

theorem slot_lt (h : OwnTicked n cube cube1 objs objs1) :
    (objs.shaders.cell cube.shader).world < objs1.matrices.size := by
  have hlt := h.wellFormed.shaderWorld_lt
  rwa [h.shader, h.slot_world] at hlt

theorem tick (h : OwnTicked n cube cube1 objs objs1) {math : LuaMath K} {V : Matrix K}
    {cube2 : Cube K} {objs2 : Objects K} (hticked : Ticked math V cube1 cube2 objs1 objs2)
    (hmesh : cube2.mesh = cube1.mesh) : OwnTicked (n + 1) cube cube2 objs objs2 := by
  constructor
  · rw [hticked.world, h.world]
  · rw [hticked.shader, h.shader]
  · rw [hticked.device, h.device]
  · rw [hmesh, h.mesh]
  · exact hticked.wellFormed h.wellFormed
  · have hworld := hticked.matrix_world
    rw [h.world, h.matrix_world] at hworld
    rw [hworld, worldAfter, worldAfter, Function.iterate_succ_apply']
  · intro hne
    rw [hticked.matrix_frame _ h.slot_lt (h.world.symm ▸ hne), h.matrix_slot hne]
  · have hslots := hticked.slots
    rw [h.shader, h.world, h.slot_world] at hslots
    rw [hslots, if_neg n.succ_ne_zero]

end OwnTicked

/-- What `n` ticks do to the shared objects, if nothing else happens. -/
structure TickedTimes (n : ℕ) (cube cube' : Cube K) (objs objs' : Objects K) : Prop
    extends OwnTicked n cube cube' objs objs' where
  matrix_frame : ∀ r < objs.matrices.size, r ≠ cube.world → objs'.matrix r = objs.matrix r
  matrices_size : objs'.matrices.size = objs.matrices.size + 2 * n

theorem TickedTimes.tick {math : LuaMath K} {V : Matrix K} {n : ℕ} {cube cube1 cube2 : Cube K}
    {objs objs1 objs2 : Objects K} (h : TickedTimes n cube cube1 objs objs1)
    (hticked : Ticked math V cube1 cube2 objs1 objs2) (hmesh : cube2.mesh = cube1.mesh) :
    TickedTimes (n + 1) cube cube2 objs objs2 := by
  have hsize := h.matrices_size
  refine ⟨h.toOwnTicked.tick hticked hmesh, ?_, ?_⟩
  · intro r hr hne
    rw [hticked.matrix_frame r (by omega) (h.world.symm ▸ hne), h.matrix_frame r hr hne]
  · rw [hticked.matrices_size]
    omega

theorem TickedTimes.ticks {math : LuaMath K} {V : Matrix K} (hV : view math = .ok V)
    (dts : List K) {n : ℕ} {cube cube1 : Cube K} {objs objs1 : Objects K}
    (h : TickedTimes n cube cube1 objs objs1) :
    ∃ cube' objs', cube1.ticks math dts objs1 = (.ok cube', objs') ∧
      TickedTimes (n + dts.length) cube cube' objs objs' := by
  induction dts generalizing n cube1 objs1 with
  | nil => exact ⟨cube1, objs1, rfl, h⟩
  | cons dt dts ih =>
      obtain ⟨cube2, objs2, hrun2, hticked⟩ := tick_ticked hV h.wellFormed.world_lt dt
      obtain ⟨cube', objs', hrun, hrest⟩ := ih (h.tick hticked (tick_keeps hV hrun2).1)
      refine ⟨cube', objs', ?_, ?_⟩
      · rw [Cube.ticks, forFold_cons, bind_ok hrun2]
        exact hrun
      · rwa [List.length_cons, Nat.add_comm dts.length, ← Nat.add_assoc]

theorem ticks_tickedTimes {math : LuaMath K} {V : Matrix K} (hV : view math = .ok V)
    (dts : List K) {cube : Cube K} {objs : Objects K} (hwf : cube.WellFormed objs) :
    ∃ cube' objs', cube.ticks math dts objs = (.ok cube', objs') ∧
      TickedTimes dts.length cube cube' objs objs' := by
  have hzero : TickedTimes 0 cube cube objs objs := ⟨.zero hwf, fun _ _ _ => rfl, rfl⟩
  have hticks := hzero.ticks hV dts
  rwa [Nat.zero_add] at hticks

def slotAfter (n : ℕ) (cube : Cube K) (objs : Objects K) : Matrix K :=
  if (objs.shaders.cell cube.shader).world = cube.world
    then worldAfter n (objs.matrix cube.world)
    else objs.matrix (objs.shaders.cell cube.shader).world

theorem OwnTicked.shader_eq {n : ℕ} (hn : n ≠ 0) {cube cube' : Cube K} {objs objs' : Objects K}
    (h : OwnTicked n cube cube' objs objs') :
    objs'.shader cube'.shader =
      { wvp := worldAfter n (objs.matrix cube.world)
        world := slotAfter n cube objs
        worldInvTranspose := worldAfter n (objs.matrix cube.world) } := by
  have hslot : objs'.matrix (objs.shaders.cell cube.shader).world = slotAfter n cube objs := by
    unfold slotAfter
    split_ifs with heq
    · rw [heq, h.matrix_world]
    · exact h.matrix_slot heq
  rw [Objects.shader, h.shader, h.slots, if_neg hn, CubeShader.map, hslot, h.matrix_world]

variable [IsStrictOrderedRing K]

/-- A run of ticks changes no matrix but the world matrix, which an odd number of ticks inverts. The
shader refers to that one matrix in the two slots that a tick sets, and to what it was constructed
with in the third. -/
theorem ticks_shader {math : LuaMath K} (hm : math.ExactSqrt) {cube : Cube K} {objs : Objects K}
    (hwf : cube.WellFormed objs) {dts : List K} (hdts : dts ≠ []) :
    ∃ cube' objs', cube.ticks math dts objs = (.ok cube', objs') ∧
      cube'.world = cube.world ∧ cube'.shader = cube.shader ∧
      objs'.matrix cube.world =
        (if Even dts.length then objs.matrix cube.world else (objs.matrix cube.world).inverse.2) ∧
      (∀ r < objs.matrices.size, r ≠ cube.world → objs'.matrix r = objs.matrix r) ∧
      objs'.shaders.cell cube.shader =
        ⟨cube.world, (objs.shaders.cell cube.shader).world, cube.world⟩ ∧
      objs'.shader cube'.shader =
        { wvp := objs'.matrix cube.world
          world := slotAfter dts.length cube objs
          worldInvTranspose := objs'.matrix cube.world } := by
  obtain ⟨F, l, hV, -⟩ := view_eq hm
  obtain ⟨cube', objs', hrun, hticked⟩ := ticks_tickedTimes hV dts hwf
  have hlength : dts.length ≠ 0 := (List.length_pos_iff.mpr hdts).ne'
  refine ⟨cube', objs', hrun, hticked.world, hticked.shader, ?_, hticked.matrix_frame, ?_, ?_⟩
  · rw [hticked.matrix_world, worldAfter_eq]
  · rw [hticked.slots, if_neg hlength]
  · rw [hticked.shader_eq hlength, hticked.matrix_world]

theorem ticks_shader_turned :
    ∃ (cube cube' : Cube ℝ) (objs objs' : Objects ℝ), objs.matrix cube.world = turned ∧
      cube.ticks LuaMath.real [1, 2, 3] objs = (.ok cube', objs') ∧
      objs'.matrix cube'.world = turned.inverse.2 ∧
      (objs'.shader cube'.shader).wvp = turned.inverse.2 := by
  obtain ⟨cube, objs, hwf, hW⟩ := exists_placed (turned : Matrix ℝ)
  obtain ⟨cube', objs', hrun, hsame, -, hworld, -, -, hshader⟩ :=
    ticks_shader LuaMath.exactSqrt_real hwf (List.cons_ne_nil 1 [2, 3])
  rw [if_neg (by decide), hW] at hworld
  refine ⟨cube, cube', objs, objs', hW, hrun, hsame ▸ hworld, ?_⟩
  rw [hshader]
  exact hworld

/-- Two runs of ticks that start from the same world matrix and the same slot of the shader, and
whose lengths are both even or both odd, transform every vertex alike, whatever their mathematical
library, their windows and their elapsed times. -/
theorem ticks_vs_eq {math1 math2 : LuaMath K} (hm1 : math1.ExactSqrt) (hm2 : math2.ExactSqrt)
    {cube1 cube2 : Cube K} {objs1 objs2 : Objects K} (hwf1 : cube1.WellFormed objs1)
    (hwf2 : cube2.WellFormed objs2) (hworld : objs1.matrix cube1.world = objs2.matrix cube2.world)
    (hslot : (objs1.shader cube1.shader).world = (objs2.shader cube2.shader).world)
    (hown : (objs1.shaders.cell cube1.shader).world = cube1.world ↔
      (objs2.shaders.cell cube2.shader).world = cube2.world) {dts1 dts2 : List K}
    (hdts1 : dts1 ≠ []) (hdts2 : dts2 ≠ []) (heven : Even dts1.length ↔ Even dts2.length) :
    ∃ cube1' objs1' cube2' objs2', cube1.ticks math1 dts1 objs1 = (.ok cube1', objs1') ∧
      cube2.ticks math2 dts2 objs2 = (.ok cube2', objs2') ∧
      ∀ v, (objs1'.shader cube1'.shader).vs v = (objs2'.shader cube2'.shader).vs v := by
  obtain ⟨F1, l1, hV1, -⟩ := view_eq hm1
  obtain ⟨F2, l2, hV2, -⟩ := view_eq hm2
  obtain ⟨cube1', objs1', hrun1, hticked1⟩ := ticks_tickedTimes hV1 dts1 hwf1
  obtain ⟨cube2', objs2', hrun2, hticked2⟩ := ticks_tickedTimes hV2 dts2 hwf2
  refine ⟨cube1', objs1', cube2', objs2', hrun1, hrun2, ?_⟩
  have hmatrix : objs1.matrix (objs1.shaders.cell cube1.shader).world =
      objs2.matrix (objs2.shaders.cell cube2.shader).world := hslot
  have hshader : objs1'.shader cube1'.shader = objs2'.shader cube2'.shader := by
    rw [hticked1.shader_eq (List.length_pos_iff.mpr hdts1).ne',
      hticked2.shader_eq (List.length_pos_iff.mpr hdts2).ne', worldAfter_eq, worldAfter_eq,
      slotAfter, slotAfter, worldAfter_eq, worldAfter_eq, hworld, hmatrix]
    simp only [heven, hown]
  intro v
  rw [hshader]

/-- Two windows, two libraries that agree on square roots only, and three ticks against one. -/
theorem ticks_vs_eq_windows :
    ∃ (cube1 cube2 cube1' cube2' : Cube ℝ) (objs1 objs2 objs1' objs2' : Objects ℝ),
      Cube.new ⟨800, 600⟩ .empty = (.ok cube1, objs1) ∧
      Cube.new ⟨640, 480⟩ .empty = (.ok cube2, objs2) ∧
      cube1.ticks LuaMath.real [1, 2, 3] objs1 = (.ok cube1', objs1') ∧
      cube2.ticks ⟨Real.sqrt, fun _ => 1, fun _ => 1⟩ [5] objs2 = (.ok cube2', objs2') ∧
      ∀ v, (objs1'.shader cube1'.shader).vs v = (objs2'.shader cube2'.shader).vs v := by
  have hm2 : LuaMath.ExactSqrt ⟨Real.sqrt, fun _ => 1, fun _ => 1⟩ := LuaMath.exactSqrt_real
  obtain ⟨cube1, objs1, hnew1, hwf1, hW1, hS1, hne1⟩ :=
    new_wellFormed (show 0 < (⟨800, 600⟩ : Config ℝ).winWidth by norm_num)
      (show 0 < (⟨800, 600⟩ : Config ℝ).winHeight by norm_num) .empty
  obtain ⟨cube2, objs2, hnew2, hwf2, hW2, hS2, hne2⟩ :=
    new_wellFormed (show 0 < (⟨640, 480⟩ : Config ℝ).winWidth by norm_num)
      (show 0 < (⟨640, 480⟩ : Config ℝ).winHeight by norm_num) .empty
  obtain ⟨cube1', objs1', cube2', objs2', hrun1, hrun2, hvs⟩ :=
    ticks_vs_eq LuaMath.exactSqrt_real hm2 hwf1 hwf2 (hW1.trans hW2.symm) (hS1.trans hS2.symm)
      (iff_of_false hne1 hne2) (List.cons_ne_nil 1 [2, 3]) (List.cons_ne_nil 5 []) (by decide)
  exact ⟨cube1, cube2, cube1', cube2', objs1, objs2, objs1', objs2', hnew1, hnew2, hrun1, hrun2,
    hvs⟩

end Cube
end SoftRenderer
