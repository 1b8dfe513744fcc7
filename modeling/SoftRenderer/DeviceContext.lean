import SoftRenderer.Device
import SoftRenderer.Shader

/-!
# The device context

The pipeline of a triangle: culling, the vertex shader, the clip test, the perspective divide, the
viewport, and the device. `clipStage` is `drawPrimitive` up to the clip test, and returns nothing
where the source returns early.
-/

namespace SoftRenderer

open Kit Kit.Procedure

/-- The shader is `nil` until it is set; `S` is what the field holds. -/
structure DeviceContext (K S : Type) where
  device : Device K
  renderMode : ℕ
  shader : Option S
  cameraPos : Vector4 K

variable {K : Type} [Field K]

namespace DeviceContext

section Fields

variable {S : Type}

def new (device : Device K) : DeviceContext K S :=
  ⟨device, renderStateWireframe, none, ⟨0, 0, 0, 0⟩⟩

def setRenderMode (self : DeviceContext K S) (mode : ℕ) : DeviceContext K S :=
  { self with renderMode := mode }

def setCameraPos (self : DeviceContext K S) (pos : Vector4 K) : DeviceContext K S :=
  { self with cameraPos := pos }

def setShader (self : DeviceContext K S) (shader : S) : DeviceContext K S :=
  { self with shader := some shader }

variable [LinearOrder K]

def backFaceCulling (self : DeviceContext K S) (p1 p2 p3 : VertexIn K) : Bool :=
  if self.renderMode = renderStateWireframe then true
  else
    let vec1 := vector4Sub p2.pos p1.pos
    let vec2 := vector4Sub p3.pos p2.pos
    let normal := vec1.cross vec2
    let viewDir := vector4Sub p1.pos self.cameraPos
    normal.dot viewDir < 0

end Fields

def transform2proj (self : DeviceContext K (CubeShader (Matrix K))) (vertex : VertexIn K) :
    LuaM K (VertexOut K) := do
  match self.shader with
  | none => raise (.index .field "shader" .nil)
  | some shader =>
      let out := shader.vs vertex
      let oneDivZ ← divide 1 out.posProj.w
      let color ← lift (Value.mul out.color (.number oneDivZ))
      let normal ← lift (out.normal.toVector4 "p1")
      return { out with
        oneDivZ := .number oneDivZ
        color := color
        normal := .vector4 (vector4Scl normal oneDivZ)
        tex := vector2Scl out.tex oneDivZ }

/-- The global `w` that `CVV` reads; no script assigns it. -/
def globalW : Option (VertexOut K) := none

def readGlobalW : LuaM K (VertexOut K) :=
  match globalW with
  | some w => pure w
  | none => raise (.index .globalVar "w" .nil)

def CVV (v : VertexOut K) : LuaM K (VertexOut K) := do
  let w ← readGlobalW
  let x ← divide v.posProj.x w.posProj.w
  let w ← readGlobalW
  let y ← divide v.posProj.y w.posProj.w
  let w ← readGlobalW
  let z ← divide v.posProj.z w.posProj.w
  return { v with posProj := ⟨x, y, z, 1⟩ }

/-- The position is multiplied by the matrix as if both were numbers. -/
def transform2screen (mat : Matrix K) (v : VertexOut K) : LuaM K (VertexOut K) := do
  let pos ← lift (Value.mul (.vector4 v.posProj) (.matrix mat))
  let posProj ← lift (pos.toVector4 "pos_proj")
  return { v with posProj := posProj }

variable [LinearOrder K]

def clip (v : VertexOut K) : Bool :=
  v.posProj.x ≥ v.posProj.w ∧ v.posProj.x ≤ v.posProj.w ∧
    v.posProj.y ≥ v.posProj.w ∧ v.posProj.y < v.posProj.w ∧
    v.posProj.z ≥ 0 ∧ v.posProj.z < v.posProj.w

def clipStage (self : DeviceContext K (CubeShader (Matrix K))) (p1 p2 p3 : VertexIn K) :
    LuaM K (Option (VertexOut K × VertexOut K × VertexOut K)) := do
  if self.backFaceCulling p1 p2 p3 then
    let v1 ← self.transform2proj p1
    let v2 ← self.transform2proj p2
    let v3 ← self.transform2proj p3
    if !clip v1 || !clip v2 || !clip v3 then
      return none
    else
      return some (v1, v2, v3)
  else
    return none

def drawPrimitive [FloorRing K] (cfg : Config K) (calls : RasterCalls K)
    (self : DeviceContext K (CubeShader (Matrix K))) (p1 p2 p3 : VertexIn K) : LuaM K Unit := do
  let screenMat := screenTransform self.device.width self.device.height
  match ← self.clipStage p1 p2 p3 with
  | none => pure ()
  | some (v1, v2, v3) =>
      let v1 ← CVV v1
      let v2 ← CVV v2
      let v3 ← CVV v3
      let v1 ← transform2screen screenMat v1
      let v2 ← transform2screen screenMat v2
      let v3 ← transform2screen screenMat v3
      self.device.drawTriangleOut cfg calls v1 v2 v3

end DeviceContext
end SoftRenderer
