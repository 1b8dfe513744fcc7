import SoftRenderer.World

/-!
# The device

The drawing methods of the class `Device`. A method is found by its name at run time, so a call
under a name that the class does not define fails; a class is a table and cannot be called. The
class has methods `drawTriangle` and `draw_triangle`, and the names here keep them apart.
-/

namespace SoftRenderer

open Kit Kit.Procedure

def renderStateWireframe : ℕ := 1

def renderStateColor : ℕ := 4

/-- The fields of a device; its `z_buff` is part of the `World`. -/
structure Device (K : Type) where
  width : K
  height : K
  renderMode : ℕ

variable {K : Type} [Field K] [LinearOrder K]

def Device.new (width height : K) : Device K := ⟨width, height, renderStateWireframe⟩

/-- The clip test of `drawLine` reads the globals, not the device. -/
def Config.InWindow (cfg : Config K) (x y : K) : Prop :=
  0 ≤ x ∧ x < cfg.winWidth ∧ 0 ≤ y ∧ y < cfg.winHeight

instance (cfg : Config K) (x y : K) : Decidable (cfg.InWindow x y) := by
  unfold Config.InWindow
  infer_instance

structure LineSetup (K : Type) where
  dx : K
  dy : K
  stepx : K
  stepy : K

structure LineCursor (K : Type) where
  x1 : K
  y1 : K
  err : K

namespace LineSetup

variable (s : LineSetup K)

def beginX (pos : Vector2 K) : LineCursor K := ⟨pos.x, pos.y, 2 * s.dy - s.dx⟩

def nextX (c : LineCursor K) : LineCursor K :=
  let c := if c.err ≥ 0 then { c with err := c.err - 2 * s.dx, y1 := c.y1 + s.stepy } else c
  { c with err := c.err + 2 * s.dy, x1 := c.x1 + s.stepx }

def beginY (pos : Vector2 K) : LineCursor K := ⟨pos.x, pos.y, 2 * s.dx - s.dy⟩

def nextY (c : LineCursor K) : LineCursor K :=
  let c := if c.err ≥ 0 then { c with err := c.err - 2 * s.dy, x1 := c.x1 + s.stepx } else c
  { c with err := c.err + 2 * s.dx, y1 := c.y1 + s.stepy }

end LineSetup

def lineSetup (posBgn posEnd : Vector2 K) : LineSetup K :=
  let dx := posEnd.x - posBgn.x
  let dy := posEnd.y - posBgn.y
  { dx := if dx ≥ 0 then dx else |dx|
    dy := if dy ≥ 0 then dy else |dy|
    stepx := if dx ≥ 0 then 1 else -1
    stepy := if dy ≥ 0 then 1 else -1 }

namespace Device

def drawPixel (_self : Device K) (x y : K) (color : Value K) : LuaM K Unit :=
  SoftRenderer.drawPixel x y color

def plot (cfg : Config K) (self : Device K) (color : Value K) (c : LineCursor K) : LuaM K Unit :=
  if cfg.InWindow c.x1 c.y1 then self.drawPixel c.x1 c.y1 color else pure ()

variable [FloorRing K]

def drawLine (cfg : Config K) (self : Device K) (posBgn posEnd : Vector2 K) (color : Value K) :
    LuaM K Unit := do
  let s := lineSetup posBgn posEnd
  if s.dx > s.dy then
    let _ ← forFold (forValues 0 s.dx) (s.beginX posBgn) fun _ c => do
      self.plot cfg color c
      return s.nextX c
  else
    let _ ← forFold (forValues 0 s.dy) (s.beginY posBgn) fun _ c => do
      self.plot cfg color c
      return s.nextY c

/-- The attributes of a fragment are multiplied by `w` as if they were numbers, which the texture
coordinate, a table, is not. -/
def scanlineFill (self : Device K) (left right : VertexOut K) (yIndex : K) : LuaM K Unit := do
  let dx := right.posProj.x - left.posProj.x
  forEach (forValues left.posProj.x right.posProj.x) fun x => do
    let xIndex := x + 0.5
    if 0 ≤ xIndex ∧ xIndex < self.width then
      let lerpFactor ← if dx ≠ 0 then divide (x - left.posProj.x) dx else pure 0
      let oneDivZ ← lift (Value.lerp left.oneDivZ right.oneDivZ lerpFactor)
      let world ← read
      match world.zBuff xIndex with
      | none => raise (.index .field "?" .nil)
      | some row =>
          let visible ← lift (oneDivZ.ge (row yIndex))
          if visible then
            change fun world => { world with
              zBuff := Function.update world.zBuff xIndex
                (some (Function.update row yIndex oneDivZ)) }
            let w ← divideBy 1 oneDivZ
            let out ← lift (vertexoutLerp left right lerpFactor)
            let out := { out with posProj := { out.posProj with y := yIndex } }
            let tex ← lift (Value.mul (.vector2 out.tex) (.number w))
            -- the second argument of `vector4_mul` is the number `w`
            let p ← lift (Value.toVector4s "p1" "p2" out.normal (.number w))
            let _normal := vector4Mul p.1 p.2
            let color ← lift (Value.mul out.color (.number w))
            change fun world => { world with
              fragments := world.fragments ++ [⟨xIndex, yIndex, oneDivZ, tex⟩] }
            self.drawPixel xIndex yIndex color

def spanMethod (self : Device K) : String → Option (VertexOut K → VertexOut K → K → LuaM K Unit)
  | "scanlineFill" => some self.scanlineFill
  | _ => none

end Device

variable [FloorRing K]

/-- The functions that the triangle methods call, as they find them at run time. -/
structure RasterCalls (K : Type) where
  vertexoutLerp : VertexOut K → VertexOut K → K → LuaM K (VertexOut K)
  scanlineFill : Device K → VertexOut K → VertexOut K → K → LuaM K Unit

def RasterCalls.source : RasterCalls K where
  vertexoutLerp v1 v2 t := lift (SoftRenderer.vertexoutLerp v1 v2 t)
  scanlineFill self left right yIndex :=
    match self.spanMethod "scanline_fill" with
    | some fill => fill left right yIndex
    | none => raise (.call .method "scanline_fill" .nil)

namespace Device

/-- The loop that both flat cases run, between the edges from `a1` to `b1` and from `a2` to `b2`. -/
def flatRows (calls : RasterCalls K) (self : Device K) (ytop ybot : K)
    (a1 b1 a2 b2 : VertexOut K) : LuaM K Unit := do
  let dy : K := 0
  forEach (forValues ytop ybot) fun y => do
    let yIndex := y + 0.5
    if 0 ≤ yIndex ∧ yIndex < self.height then
      let t ← divide dy (ybot - ytop)
      let new1 ← calls.vertexoutLerp a1 b1 t
      let new2 ← calls.vertexoutLerp a2 b2 t
      -- `local dy = dy + 1.0` declares a variable of the block, and the counter keeps its value
      if new1.posProj.x < new2.posProj.x then
        calls.scanlineFill self new1 new2 yIndex
      else
        calls.scanlineFill self new2 new1 yIndex

def drawTriangleFlatBottom (calls : RasterCalls K) (self : Device K) (v1 v2 v3 : VertexOut K) :
    LuaM K Unit :=
  flatRows calls self v1.posProj.y v2.posProj.y v1 v2 v1 v3

def drawTriangleFlatTop (calls : RasterCalls K) (self : Device K) (v1 v2 v3 : VertexOut K) :
    LuaM K Unit :=
  flatRows calls self v1.posProj.y v3.posProj.y v1 v3 v2 v3

def triangleCases (vertexoutLerp : VertexOut K → VertexOut K → K → LuaM K (VertexOut K))
    (flatBottom flatTop : VertexOut K → VertexOut K → VertexOut K → LuaM K Unit)
    (v1 v2 v3 : VertexOut K) : LuaM K Unit := do
  if v1.posProj.y = v2.posProj.y then
    if v3.posProj.y ≤ v1.posProj.y then flatBottom v3 v1 v2 else flatTop v1 v2 v3
  else if v1.posProj.y = v3.posProj.y then
    if v2.posProj.y ≤ v1.posProj.y then flatBottom v2 v1 v3 else flatTop v1 v3 v2
  else if v2.posProj.y = v3.posProj.y then
    if v1.posProj.y ≤ v2.posProj.y then flatBottom v1 v2 v3 else flatTop v2 v3 v1
  else
    match [v1, v2, v3].insertionSort (fun x y => x.posProj.y ≤ y.posProj.y) with
    | [top, mid, bot] =>
        let slope ← divide
          ((mid.posProj.y - top.posProj.y) * (bot.posProj.x - top.posProj.x))
          (bot.posProj.y - top.posProj.y)
        let midX := slope + top.posProj.x
        let dy := mid.posProj.y - top.posProj.y
        let t ← divide dy (bot.posProj.y - top.posProj.y)
        let midNeo ← vertexoutLerp top bot t
        let midNeo := { midNeo with
          posProj := { midNeo.posProj with x := midX, y := mid.posProj.y } }
        flatTop mid midNeo bot
        flatBottom top mid midNeo
    | _ => pure ()

/-- The third vertex is `nil` when a caller passes two; it is read first in every case. -/
def draw_triangle (calls : RasterCalls K) (self : Device K) (v1 v2 : VertexOut K)
    (v3 : Option (VertexOut K)) : LuaM K Unit :=
  match v3 with
  | some v3 =>
      triangleCases calls.vertexoutLerp (self.drawTriangleFlatBottom calls)
        (self.drawTriangleFlatTop calls) v1 v2 v3
  | none => raise (.index .localVar "v3" .nil)

def lineMethod (cfg : Config K) (self : Device K) :
    String → Option (Vector2 K → Vector2 K → LuaM K Unit)
  | "drawLine" => some fun posBgn posEnd => self.drawLine cfg posBgn posEnd .nil
  | _ => none

/-- `Vector2(x, y)`: the table that `class` returns has no `__call`. -/
def callVector2 (_x _y : K) : LuaM K (Vector2 K) := raise (.call .globalVar "Vector2" .table)

def drawEdge (cfg : Config K) (self : Device K) (v1 v2 : VertexOut K) : LuaM K Unit := do
  let posBgn ← callVector2 v1.posProj.x v1.posProj.y
  let posEnd ← callVector2 v2.posProj.x v2.posProj.y
  match self.lineMethod cfg "draw_line" with
  | some line => line posBgn posEnd
  | none => raise (.call .method "draw_line" .nil)

/-- `self.draw_triangle(v1, v2, v3)` with a dot passes `v1` as the receiver and leaves the last
parameter `nil`. -/
def drawTriangleOut (cfg : Config K) (calls : RasterCalls K) (self : Device K)
    (v1 v2 v3 : VertexOut K) : LuaM K Unit := do
  if self.renderMode = renderStateWireframe then
    self.drawEdge cfg v1 v2
    self.drawEdge cfg v1 v3
    self.drawEdge cfg v2 v3
  else if self.renderMode = renderStateColor then
    self.draw_triangle calls v2 v3 none

end Device
end SoftRenderer
