import SoftRenderer.Kit.Heap
import SoftRenderer.ColourCodec
import SoftRenderer.DeviceContext

/-!
# The cube

The class `Cube`, whose constructor builds the matrices, the mesh and the shader, and whose `tick`
prepares a frame. Matrices and shaders are shared objects: a setter stores a reference, and a method
that changes a matrix in place changes it for every holder.
-/

namespace SoftRenderer

open Kit Kit.Procedure

structure Objects (K : Type) where
  matrices : Heap (Matrix K)
  shaders : Heap (CubeShader ℕ)

abbrev ObjectM K α := Kit.Procedure LuaError (Objects K) α

namespace Objects

variable {K : Type}

def matrix (objs : Objects K) (r : ℕ) : Matrix K := objs.matrices.cell r

def shader (objs : Objects K) (r : ℕ) : CubeShader (Matrix K) :=
  (objs.shaders.cell r).map objs.matrix

def empty [Field K] : Objects K := ⟨⟨0, fun _ => .newIdentity⟩, ⟨0, fun _ => ⟨0, 0, 0⟩⟩⟩

def newMatrix (A : Matrix K) : ObjectM K ℕ := fun objs =>
  (.ok objs.matrices.size, { objs with matrices := (objs.matrices.alloc A).2 })

def newShader (s : CubeShader ℕ) : ObjectM K ℕ := fun objs =>
  (.ok objs.shaders.size, { objs with shaders := (objs.shaders.alloc s).2 })

def getMatrix (r : ℕ) : ObjectM K (Matrix K) := fun objs => (.ok (objs.matrix r), objs)

def changeMatrix (r : ℕ) (f : Matrix K → Matrix K) : ObjectM K Unit :=
  change fun objs => { objs with matrices := objs.matrices.put r (f (objs.matrices.cell r)) }

def changeShader (r : ℕ) (f : CubeShader ℕ → CubeShader ℕ) : ObjectM K Unit :=
  change fun objs => { objs with shaders := objs.shaders.put r (f (objs.shaders.cell r)) }

end Objects

open Objects

structure Cube (K : Type) where
  world : ℕ
  worldViewProj : ℕ
  worldInvTranspose : ℕ
  device : Device K
  deviceContext : DeviceContext K ℕ
  mesh : List (VertexIn K)
  shader : ℕ

variable {K : Type} [Field K]

def CubeShader.new : ObjectM K ℕ := do
  let wvp ← newMatrix .newIdentity
  let world ← newMatrix .newIdentity
  let worldInvTranspose ← newMatrix .newIdentity
  newShader ⟨wvp, world, worldInvTranspose⟩

def halfPi : K := 1.5707963268

namespace Cube

section Mesh

variable [LinearOrder K] [FloorRing K]

/-- The host function, which hands the colour to the scripts as a number. -/
def colorRgba2hex (r g b a : K) : Value K := .number ((rgba2hex r g b a).toNat : K)

def mesh0 : List (VertexIn K) :=
  [⟨⟨1, -1, 1, 1⟩, colorRgba2hex 1.0 0.2 0.2 1.0, ⟨0, 0⟩, .vector4 ⟨0, 1, 0, 0⟩⟩,
    ⟨⟨-1, -1, 1, 1⟩, colorRgba2hex 0.2 1.0 0.2 1.0, ⟨0, 0⟩, .vector4 ⟨0, 1, 0, 0⟩⟩,
    ⟨⟨-1, 1, 1, 1⟩, colorRgba2hex 0.2 0.2 1.0 1.0, ⟨1, 1⟩, .vector4 ⟨0, 1, 0, 0⟩⟩,
    ⟨⟨1, 1, 1, 1⟩, colorRgba2hex 1.0 0.2 1.0 1.0, ⟨1, 0⟩, .vector4 ⟨0, 1, 0, 0⟩⟩,
    ⟨⟨1, -1, -1, 1⟩, colorRgba2hex 1.0 1.0 0.2 1.0, ⟨0, 0⟩, .vector4 ⟨0, -1, 0, 0⟩⟩,
    ⟨⟨-1, -1, -1, 1⟩, colorRgba2hex 0.2 1.0 1.0 1.0, ⟨0, 1⟩, .vector4 ⟨0, -1, 0, 0⟩⟩,
    ⟨⟨-1, 1, -1, 1⟩, colorRgba2hex 1.0 0.3 0.3 1.0, ⟨1, 1⟩, .vector4 ⟨0, -1, 0, 0⟩⟩,
    ⟨⟨1, 1, -1, 1⟩, colorRgba2hex 0.2 1.0 0.3 1.0, ⟨1, 0⟩, .vector4 ⟨0, -1, 0, 0⟩⟩]

def new (cfg : Config K) : ObjectM K (Cube K) := do
  let world ← newMatrix .newIdentity
  let worldViewProj ← newMatrix .newIdentity
  let worldInvTranspose ← newMatrix .newIdentity
  let device := Device.new cfg.winWidth cfg.winHeight
  let deviceContext := DeviceContext.new device
  let shader ← CubeShader.new
  return ⟨world, worldViewProj, worldInvTranspose, device, deviceContext.setShader shader, mesh0,
    shader⟩

end Mesh

variable [LinearOrder K]

def pos : Vector4 K := ⟨0, 1.54508531, -4.75528240, 1⟩

def target : Vector4 K := ⟨0, 0, 0, 1⟩

def up : Vector4 K := ⟨0, 1, 0, 0⟩

def view (math : LuaMath K) : Except LuaError (Matrix K) := matrixLookAtLh math pos target up

def proj (math : LuaMath K) (self : Cube K) : Matrix K :=
  matrixPerspectiveFovLh math halfPi (self.device.width / self.device.height) 1 100

/-- `tmp` is the world matrix itself, and the matrix that `tmp:transpose()` returns is dropped. -/
def tick (math : LuaMath K) (self : Cube K) (_dt : K) : ObjectM K (Cube K) := do
  let view ← lift (view math)
  let proj := self.proj math
  let world ← getMatrix self.world
  let worldViewProj ← newMatrix (matrixMul (matrixMul world view) proj)
  let self := { self with worldViewProj := worldViewProj }
  let tmp := self.world
  changeMatrix tmp fun A => A.inverse.2
  let inverted ← getMatrix tmp
  let _transposed ← newMatrix inverted.transpose
  let self := { self with worldInvTranspose := tmp }
  changeShader self.shader fun s => s.setWVP self.worldViewProj
  changeShader self.shader fun s => s.setWVP self.world
  changeShader self.shader fun s => s.setWorldInvTranspose self.worldInvTranspose
  let deviceContext := (self.deviceContext.setShader self.shader).setCameraPos pos
  return { self with deviceContext := deviceContext }

/-- What the constructor establishes: the references name objects, and the window has an area. -/
structure WellFormed (cube : Cube K) (objs : Objects K) : Prop where
  world_lt : cube.world < objs.matrices.size
  shader_lt : cube.shader < objs.shaders.size
  shaderWorld_lt : (objs.shaders.cell cube.shader).world < objs.matrices.size
  width_pos : 0 < cube.device.width
  height_pos : 0 < cube.device.height

/-- What a tick with the view matrix `V` does. -/
structure Ticked (math : LuaMath K) (V : Matrix K) (cube cube' : Cube K) (objs objs' : Objects K) :
    Prop where
  world : cube'.world = cube.world
  shader : cube'.shader = cube.shader
  device : cube'.device = cube.device
  worldInvTranspose : cube'.worldInvTranspose = cube.world
  matrix_world : objs'.matrix cube.world = (objs.matrix cube.world).inverse.2
  matrix_worldViewProj : objs'.matrix cube'.worldViewProj =
    matrixMul (matrixMul (objs.matrix cube.world) V) (cube.proj math)
  matrix_frame : ∀ r < objs.matrices.size, r ≠ cube.world → objs'.matrix r = objs.matrix r
  matrices_size : objs'.matrices.size = objs.matrices.size + 2
  slots : objs'.shaders.cell cube.shader =
    ⟨cube.world, (objs.shaders.cell cube.shader).world, cube.world⟩
  shaders_size : objs'.shaders.size = objs.shaders.size

theorem tick_ticked {math : LuaMath K} {V : Matrix K} (hV : view math = .ok V) {cube : Cube K}
    {objs : Objects K} (hworld : cube.world < objs.matrices.size) (dt : K) :
    ∃ cube' objs', cube.tick math dt objs = (.ok cube', objs') ∧
      Ticked math V cube cube' objs objs' := by
  refine ⟨?cube', ?objs', ?run, ?ticked⟩
  case run =>
    rw [tick, hV]
    rfl
  case ticked =>
    have hsize {A B : Matrix K} {r : ℕ} (hr : r ≤ objs.matrices.size) :
        r < ((objs.matrices.alloc A).2.put cube.world B).size := by
      simp only [Heap.size_put, Heap.size_alloc]
      omega
    refine ⟨rfl, rfl, rfl, rfl, ?_, ?_, ?_, rfl, ?_, rfl⟩
    · simp only [Objects.matrix]
      rw [Heap.cell_alloc_of_lt _ (hsize hworld.le), Heap.cell_put_self,
        Heap.cell_alloc_of_lt _ hworld]
    · simp only [Objects.matrix]
      rw [Heap.cell_alloc_of_lt _ (hsize le_rfl), Heap.cell_put_of_ne _ hworld.ne',
        Heap.cell_alloc_self]
    · intro r hr hne
      simp only [Objects.matrix]
      rw [Heap.cell_alloc_of_lt _ (hsize hr.le), Heap.cell_put_of_ne _ hne,
        Heap.cell_alloc_of_lt _ hr]
    · simp only [Heap.cell_put_self]
      rfl

theorem Ticked.wellFormed {math : LuaMath K} {V : Matrix K} {cube cube' : Cube K}
    {objs objs' : Objects K} (h : Ticked math V cube cube' objs objs')
    (hwf : cube.WellFormed objs) :
    cube'.WellFormed objs' := by
  have hworld := hwf.world_lt
  have hslot := hwf.shaderWorld_lt
  have hsize := h.matrices_size
  constructor
  · rw [h.world]
    omega
  · rw [h.shader, h.shaders_size]
    exact hwf.shader_lt
  · rw [h.shader, h.slots]
    show (objs.shaders.cell cube.shader).world < objs'.matrices.size
    omega
  · rw [h.device]
    exact hwf.width_pos
  · rw [h.device]
    exact hwf.height_pos

/-- The shader after a tick: two slots name the world matrix, which is inverted, and the third keeps
what it named. -/
theorem Ticked.shader_eq {math : LuaMath K} {V : Matrix K} {cube cube' : Cube K}
    {objs objs' : Objects K} (h : Ticked math V cube cube' objs objs')
    (hwf : cube.WellFormed objs) :
    objs'.shader cube'.shader =
      { wvp := (objs.matrix cube.world).inverse.2
        world := if (objs.shaders.cell cube.shader).world = cube.world
          then (objs.matrix cube.world).inverse.2
          else objs.matrix (objs.shaders.cell cube.shader).world
        worldInvTranspose := (objs.matrix cube.world).inverse.2 } := by
  have hslot : objs'.matrix (objs.shaders.cell cube.shader).world =
      if (objs.shaders.cell cube.shader).world = cube.world
        then (objs.matrix cube.world).inverse.2
        else objs.matrix (objs.shaders.cell cube.shader).world := by
    split_ifs with heq
    · rw [heq, h.matrix_world]
    · exact h.matrix_frame _ hwf.shaderWorld_lt heq
  rw [Objects.shader, h.shader, h.slots, CubeShader.map, hslot, h.matrix_world]

theorem new_wellFormed [FloorRing K] {cfg : Config K} (hwidth : 0 < cfg.winWidth)
    (hheight : 0 < cfg.winHeight) (objs : Objects K) :
    ∃ cube objs', Cube.new cfg objs = (.ok cube, objs') ∧ cube.WellFormed objs' ∧
      objs'.matrix cube.world = .newIdentity ∧
      objs'.matrix (objs'.shaders.cell cube.shader).world = .newIdentity ∧
      (objs'.shaders.cell cube.shader).world ≠ cube.world := by
  refine ⟨?cube, ?objs', ?run, ?wellFormed, ?fields⟩
  case run => rfl
  case wellFormed =>
    refine ⟨?_, ?_, ?_, hwidth, hheight⟩
    · simp only [Heap.size_alloc]
      omega
    · simp only [Heap.size_alloc]
      omega
    · simp [Heap.alloc]
  case fields =>
    simp only [Objects.matrix, Heap.alloc, Function.update_apply]
    refine ⟨?_, ?_, ?_⟩
    all_goals simp
    omega

variable (K) in
theorem new_source [FloorRing K] [IsStrictOrderedRing K] :
    ∃ (cube : Cube K) (objs : Objects K), Cube.new .source .empty = (.ok cube, objs) ∧
      cube.WellFormed objs ∧ objs.matrix cube.world = .newIdentity := by
  have hwidth : 0 < (Config.source : Config K).winWidth := by norm_num [Config.source]
  have hheight : 0 < (Config.source : Config K).winHeight := by norm_num [Config.source]
  obtain ⟨cube, objs, hnew, hwf, hW, -, -⟩ := new_wellFormed hwidth hheight .empty
  exact ⟨cube, objs, hnew, hwf, hW⟩

/-- The cube that the scripts construct, after its world matrix has been set to `W`. -/
theorem exists_placed [FloorRing K] [IsStrictOrderedRing K] (W : Matrix K) :
    ∃ (cube : Cube K) (objs : Objects K), cube.WellFormed objs ∧ objs.matrix cube.world = W := by
  obtain ⟨cube, objs, -, hwf, -⟩ := new_source K
  refine ⟨cube, { objs with matrices := objs.matrices.put cube.world W }, ?_,
    Heap.cell_put_self _ _ _⟩
  exact ⟨hwf.world_lt, hwf.shader_lt, hwf.shaderWorld_lt, hwf.width_pos, hwf.height_pos⟩

/-- A right angle about the third axis, and three steps along the first. -/
def turned : Matrix K := .new 0 1 0 0 (-1) 0 0 0 0 0 1 0 3 0 0 1

end Cube
end SoftRenderer
