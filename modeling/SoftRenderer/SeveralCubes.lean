import SoftRenderer.CubeRuns

/-!
# Several cubes

Cubes share one heap, but each of them changes its own world matrix and its own shader only. So
while their references are apart, their ticks can be interleaved in any way: every cube ends up as
if it had taken its ticks alone.
-/

namespace SoftRenderer

open Kit Kit.Procedure Objects

variable {K : Type} [Field K] [LinearOrder K]

namespace Cube

theorem tick_shaders_frame {math : LuaMath K} {V : Matrix K} (hV : view math = .ok V)
    {cube cube' : Cube K} {objs objs' : Objects K} {dt : K}
    (hrun : cube.tick math dt objs = (.ok cube', objs')) {r : ℕ} (hr : r ≠ cube.shader) :
    objs'.shaders.cell r = objs.shaders.cell r := by
  rw [tick, hV] at hrun
  cases hrun
  simp only [Heap.cell_put_of_ne _ hr]

/-- A tick of the one cube leaves alone what belongs to the other. -/
structure Apart (cube other : Cube K) (objs : Objects K) : Prop where
  world : cube.world ≠ other.world
  shader : cube.shader ≠ other.shader
  slot : (objs.shaders.cell cube.shader).world ≠ other.world

theorem OwnTicked.other {n : ℕ} {cube cube1 : Cube K} {objs objs1 : Objects K}
    (h : OwnTicked n cube cube1 objs objs1) {math : LuaMath K} {V : Matrix K}
    {other other' : Cube K} {objs2 : Objects K} (hticked : Ticked math V other other' objs1 objs2)
    (hframe : ∀ r ≠ other.shader, objs2.shaders.cell r = objs1.shaders.cell r)
    (hapart : Apart cube other objs) : OwnTicked n cube cube1 objs objs2 := by
  have hsize := hticked.matrices_size
  have hworldLt := h.world_lt
  have hslotLt := h.slot_lt
  have hcell := hframe cube.shader hapart.shader
  refine ⟨h.world, h.shader, h.device, h.mesh, ⟨?_, ?_, ?_, h.wellFormed.width_pos,
    h.wellFormed.height_pos⟩, ?_, ?_, ?_⟩
  · rw [h.world]
    omega
  · rw [hticked.shaders_size]
    exact h.wellFormed.shader_lt
  · rw [h.shader, hcell, h.slot_world]
    omega
  · rw [hticked.matrix_frame _ hworldLt hapart.world, h.matrix_world]
  · intro hne
    rw [hticked.matrix_frame _ hslotLt hapart.slot, h.matrix_slot hne]
  · rw [hcell, h.slots]

section Interleaved

variable {ι : Type} [DecidableEq ι]

/-- `cubes[i]:tick(dt)` for every pair of the schedule, in order. -/
def tickEach (math : LuaMath K) (cubes : ι → Cube K) (schedule : List (ι × K)) :
    ObjectM K (ι → Cube K) :=
  forFold schedule cubes fun call cubes => do
    let cube ← (cubes call.1).tick math call.2
    return Function.update cubes call.1 cube

def own (i : ι) (schedule : List (ι × K)) : List K :=
  (schedule.filter fun call => call.1 = i).map Prod.snd

structure Separate (cubes : ι → Cube K) (objs : Objects K) : Prop where
  wellFormed : ∀ i, (cubes i).WellFormed objs
  apart : ∀ i j, i ≠ j → Apart (cubes i) (cubes j) objs

def AllTicked (n : ι → ℕ) (cubes cubes' : ι → Cube K) (objs objs' : Objects K) : Prop :=
  ∀ i, OwnTicked (n i) (cubes i) (cubes' i) objs objs'

theorem AllTicked.tick {n : ι → ℕ} {cubes cubes1 : ι → Cube K} {objs objs1 : Objects K}
    (h : AllTicked n cubes cubes1 objs objs1) (hsep : Separate cubes objs) {math : LuaMath K}
    {V : Matrix K} (hV : view math = .ok V) (j : ι) (dt : K) :
    ∃ cube objs2, (cubes1 j).tick math dt objs1 = (.ok cube, objs2) ∧
      AllTicked (Function.update n j (n j + 1)) cubes (Function.update cubes1 j cube) objs
        objs2 := by
  obtain ⟨cube, objs2, hrun, hticked⟩ := tick_ticked hV (h j).wellFormed.world_lt dt
  refine ⟨cube, objs2, hrun, fun i => ?_⟩
  by_cases hij : i = j
  · subst hij
    rw [Function.update_self, Function.update_self]
    exact (h i).tick hticked (tick_keeps hV hrun).1
  · rw [Function.update_of_ne hij, Function.update_of_ne hij]
    have hapart := hsep.apart i j hij
    have hown : Apart (cubes i) (cubes1 j) objs :=
      ⟨(h j).world ▸ hapart.world, (h j).shader ▸ hapart.shader, (h j).world ▸ hapart.slot⟩
    exact (h i).other hticked (fun r hr => tick_shaders_frame hV hrun hr) hown

theorem AllTicked.tickEach {math : LuaMath K} {V : Matrix K} (hV : view math = .ok V)
    {cubes : ι → Cube K} {objs : Objects K} (hsep : Separate cubes objs)
    (schedule : List (ι × K)) {n : ι → ℕ} {cubes1 : ι → Cube K} {objs1 : Objects K}
    (h : AllTicked n cubes cubes1 objs objs1) :
    ∃ cubes' objs', tickEach math cubes1 schedule objs1 = (.ok cubes', objs') ∧
      AllTicked (fun i => n i + (own i schedule).length) cubes cubes' objs objs' := by
  induction schedule generalizing n cubes1 objs1 with
  | nil => exact ⟨cubes1, objs1, rfl, h⟩
  | cons call schedule ih =>
      obtain ⟨cube, objs2, hrun2, hticked⟩ := h.tick hsep hV call.1 call.2
      obtain ⟨cubes', objs', hrun, hrest⟩ := ih hticked
      refine ⟨cubes', objs', ?_, fun i => ?_⟩
      · rw [Cube.tickEach, forFold_cons, bind_assoc, bind_ok hrun2]
        exact hrun
      · have hown := hrest i
        by_cases hi : call.1 = i
        · subst hi
          simp only [Function.update_self, Nat.add_assoc, Nat.add_comm 1] at hown
          simpa [own] using hown
        · simp only [Function.update_of_ne (Ne.symm hi)] at hown
          simpa [own, hi] using hown

variable [IsStrictOrderedRing K]

/-- However the ticks of separate cubes are interleaved, each cube has the world matrix and, once it
has ticked, the shader that its own ticks alone would have given it. -/
theorem tickEach_alone {math : LuaMath K} (hm : math.ExactSqrt) {cubes : ι → Cube K}
    {objs : Objects K} (hsep : Separate cubes objs) (schedule : List (ι × K)) :
    ∃ cubes' objs', tickEach math cubes schedule objs = (.ok cubes', objs') ∧
      Separate cubes' objs' ∧
      ∀ i, ∃ alone objsAlone, (cubes i).ticks math (own i schedule) objs = (.ok alone, objsAlone) ∧
        objs'.matrix (cubes' i).world = objsAlone.matrix alone.world ∧
        (own i schedule ≠ [] →
          objs'.shader (cubes' i).shader = objsAlone.shader alone.shader) := by
  obtain ⟨F, l, hV, -⟩ := view_eq hm
  have hstart : AllTicked (fun _ => 0) cubes cubes objs objs := fun i => .zero (hsep.wellFormed i)
  obtain ⟨cubes', objs', hrun, hticked⟩ := hstart.tickEach hV hsep schedule
  simp only [Nat.zero_add] at hticked
  refine ⟨cubes', objs', hrun, ⟨fun i => (hticked i).wellFormed, fun i j hij => ?_⟩, fun i => ?_⟩
  · obtain ⟨hworld, hshader, hslot⟩ := hsep.apart i j hij
    refine ⟨?_, ?_, ?_⟩
    · rwa [(hticked i).world, (hticked j).world]
    · rwa [(hticked i).shader, (hticked j).shader]
    · rwa [(hticked i).shader, (hticked i).slot_world, (hticked j).world]
  · obtain ⟨alone, objsAlone, halone, hticks⟩ :=
      ticks_tickedTimes hV (own i schedule) (hsep.wellFormed i)
    refine ⟨alone, objsAlone, halone, ?_, fun hne => ?_⟩
    · rw [(hticked i).world, hticks.world, (hticked i).matrix_world, hticks.matrix_world]
    · have hlength := (List.length_pos_iff.mpr hne).ne'
      rw [(hticked i).shader_eq hlength, hticks.shader_eq hlength]

end Interleaved

theorem Separate.new [FloorRing K] {ι : Type} {cubes : ι → Cube K} {objs : Objects K}
    (h : Separate cubes objs) {cfg : Config K} (hwidth : 0 < cfg.winWidth)
    (hheight : 0 < cfg.winHeight) :
    ∃ cube objs', Cube.new cfg objs = (.ok cube, objs') ∧
      Separate (fun i : Option ι => i.elim cube cubes) objs' := by
  obtain ⟨cube, objs', hnew, hwf, -, -, hslot⟩ := new_wellFormed hwidth hheight objs
  have hfresh : cube.world = objs.matrices.size ∧ cube.shader = objs.shaders.size ∧
      objs.matrices.size ≤ (objs'.shaders.cell cube.shader).world ∧
      objs.matrices.size ≤ objs'.matrices.size ∧ objs.shaders.size ≤ objs'.shaders.size ∧
      ∀ r < objs.shaders.size, objs'.shaders.cell r = objs.shaders.cell r := by
    cases hnew
    refine ⟨rfl, rfl, ?_, ?_, ?_, ?_⟩
    · simp [Heap.alloc]
      omega
    · simp only [Heap.size_alloc]
      omega
    · simp only [Heap.size_alloc]
      omega
    · intro r hr
      exact Heap.cell_alloc_of_lt _ hr _
  obtain ⟨hworld, hshader, hslotLe, hmatrices, hshaders, hframe⟩ := hfresh
  refine ⟨cube, objs', hnew, ?_, ?_⟩
  · rintro (_ | i)
    · exact hwf
    · have hold := h.wellFormed i
      exact ⟨hold.world_lt.trans_le hmatrices, hold.shader_lt.trans_le hshaders,
        hframe _ hold.shader_lt ▸ hold.shaderWorld_lt.trans_le hmatrices, hold.width_pos,
        hold.height_pos⟩
  · rintro (_ | i) (_ | j) hij
    · exact absurd rfl hij
    · have hold := h.wellFormed j
      have hlt := hold.world_lt
      have hlt' := hold.shader_lt
      refine ⟨?_, ?_, ?_⟩ <;> simp only [Option.elim] <;> omega
    · have hold := h.wellFormed i
      have hlt := hold.world_lt
      have hlt' := hold.shader_lt
      have hslotLt := hold.shaderWorld_lt
      refine ⟨?_, ?_, ?_⟩ <;> simp only [Option.elim, hframe _ hlt'] <;> omega
    · have hne : i ≠ j := fun heq => hij (congrArg some heq)
      obtain ⟨hw, hs, hslot'⟩ := h.apart i j hne
      exact ⟨hw, hs, hframe _ (h.wellFormed i).shader_lt ▸ hslot'⟩

theorem tickEach_alone_source :
    ∃ (cubes cubes' : Option (Option Empty) → Cube ℝ) (objs0 objs objs' : Objects ℝ),
      Cube.new .source .empty = (.ok (cubes (some none)), objs0) ∧
      Cube.new .source objs0 = (.ok (cubes none), objs) ∧
      tickEach LuaMath.real cubes [(none, 1), (some none, 2), (none, 3)] objs =
        (.ok cubes', objs') ∧
      ∃ alone objsAlone, (cubes none).ticks LuaMath.real [1, 3] objs = (.ok alone, objsAlone) ∧
        objs'.shader (cubes' none).shader = objsAlone.shader alone.shader := by
  have hwidth : 0 < (Config.source : Config ℝ).winWidth := by norm_num [Config.source]
  have hheight : 0 < (Config.source : Config ℝ).winHeight := by norm_num [Config.source]
  have hempty : Separate (Empty.elim : Empty → Cube ℝ) .empty :=
    ⟨fun i => i.elim, fun i => i.elim⟩
  obtain ⟨cube1, objs0, hnew1, hsep1⟩ := hempty.new hwidth hheight
  obtain ⟨cube2, objs, hnew2, hsep2⟩ := hsep1.new hwidth hheight
  obtain ⟨cubes', objs', hrun, -, halone⟩ :=
    tickEach_alone LuaMath.exactSqrt_real hsep2 [(none, 1), (some none, 2), (none, 3)]
  obtain ⟨alone, objsAlone, hticks, -, hshader⟩ := halone none
  have hown : own none [(none, (1 : ℝ)), (some (none : Option Empty), 2), (none, 3)] = [1, 3] := by
    simp [own]
  rw [hown] at hticks hshader
  exact ⟨_, cubes', objs0, objs, objs', hnew1, hnew2, hrun, alone, objsAlone, hticks,
    hshader (by simp)⟩

end Cube
end SoftRenderer
