import SoftRenderer.Clipping

/-!
# The two copies of the render mode

The context culls by its own mode and the device draws by the mode it was constructed with, which
no method changes. The copies differ after every mode but wireframe. With the clip test as it is no
triangle is handed to the device, so no two copies are ever used for one triangle; the stages
between culling and the device are parameters here, to say what happens with others.
-/

namespace SoftRenderer

open Kit Kit.Procedure

/-- The methods that `drawPrimitive` finds by their names. -/
structure Stages (K : Type) where
  clip : VertexOut K → Bool
  CVV : VertexOut K → LuaM K (VertexOut K)
  transform2screen : Matrix K → VertexOut K → LuaM K (VertexOut K)

inductive ContextCall (K : Type)
  | setRenderMode (mode : ℕ)
  | drawPrimitive (p1 p2 p3 : VertexIn K)

variable {K : Type} [Field K] [LinearOrder K]

def Stages.source : Stages K :=
  ⟨DeviceContext.clip, DeviceContext.CVV, DeviceContext.transform2screen⟩

namespace DeviceContext

/-- `drawPrimitive` up to the call of `draw_triangle_out`: the three vertices that it passes on, or
nothing where it returns early. -/
def preparePrimitive (stages : Stages K) (self : DeviceContext K (CubeShader (Matrix K)))
    (p1 p2 p3 : VertexIn K) : LuaM K (Option (VertexOut K × VertexOut K × VertexOut K)) := do
  let screenMat := screenTransform self.device.width self.device.height
  if self.backFaceCulling p1 p2 p3 then
    let v1 ← self.transform2proj p1
    let v2 ← self.transform2proj p2
    let v3 ← self.transform2proj p3
    if !stages.clip v1 || !stages.clip v2 || !stages.clip v3 then
      return none
    else
      let v1 ← stages.CVV v1
      let v2 ← stages.CVV v2
      let v3 ← stages.CVV v3
      let v1 ← stages.transform2screen screenMat v1
      let v2 ← stages.transform2screen screenMat v2
      let v3 ← stages.transform2screen screenMat v3
      return some (v1, v2, v3)
  else
    return none

def drawPrimitiveWith [FloorRing K] (stages : Stages K) (cfg : Config K) (calls : RasterCalls K)
    (self : DeviceContext K (CubeShader (Matrix K))) (p1 p2 p3 : VertexIn K) : LuaM K Unit := do
  match ← self.preparePrimitive stages p1 p2 p3 with
  | none => pure ()
  | some (v1, v2, v3) => self.device.drawTriangleOut cfg calls v1 v2 v3

theorem drawPrimitive_eq [FloorRing K] (cfg : Config K) (calls : RasterCalls K)
    (self : DeviceContext K (CubeShader (Matrix K))) (p1 p2 p3 : VertexIn K) :
    self.drawPrimitive cfg calls p1 p2 p3 =
      self.drawPrimitiveWith .source cfg calls p1 p2 p3 := by
  unfold drawPrimitive drawPrimitiveWith preparePrimitive clipStage
  split_ifs
  · simp only [bind_assoc]
    congr 1
    funext v1
    congr 1
    funext v2
    congr 1
    funext v3
    change (if (!clip v1 || !clip v2 || !clip v3) = true then _ else _) >>= _ =
      (if (!clip v1 || !clip v2 || !clip v3) = true then _ else _) >>= _
    split_ifs
    · rfl
    · simp only [pure_bind, bind_assoc, Stages.source]
  · rfl

variable [FloorRing K]

def step (stages : Stages K) (cfg : Config K) (calls : RasterCalls K) :
    DeviceContext K (CubeShader (Matrix K)) × World K → ContextCall K →
      DeviceContext K (CubeShader (Matrix K)) × World K
  | (self, world), .setRenderMode mode => (self.setRenderMode mode, world)
  | (self, world), .drawPrimitive p1 p2 p3 =>
      (self, (self.drawPrimitiveWith stages cfg calls p1 p2 p3 world).2)

/-- A call that fails leaves the context to the next one. -/
def run (stages : Stages K) (cfg : Config K) (calls : RasterCalls K)
    (self : DeviceContext K (CubeShader (Matrix K))) (cs : List (ContextCall K)) (world : World K) :
    DeviceContext K (CubeShader (Matrix K)) × World K :=
  cs.foldl (step stages cfg calls) (self, world)

variable (stages : Stages K) (cfg : Config K) (calls : RasterCalls K)

omit [FloorRing K] in
/-- The clip test rejects every vertex, so the source's stages end before the device. -/
theorem preparePrimitive_source (self : DeviceContext K (CubeShader (Matrix K)))
    (p1 p2 p3 : VertexIn K) : Returns (· = none) (self.preparePrimitive .source p1 p2 p3) := by
  unfold preparePrimitive
  simp only [Stages.source, clip_eq_false]
  split_ifs with hcull hclip
  · apply Returns.bind_right
    intro v1
    apply Returns.bind_right
    intro v2
    apply Returns.bind_right
    intro v3
    exact Returns.pure rfl
  · exact absurd rfl hclip
  · exact Returns.pure rfl

def start (w h : K) (shader : Option (CubeShader (Matrix K))) (cameraPos : Vector4 K) :
    DeviceContext K (CubeShader (Matrix K)) :=
  { (new (Device.new w h) : DeviceContext K (CubeShader (Matrix K))) with
    shader := shader, cameraPos := cameraPos }

end DeviceContext
end SoftRenderer
