import SoftRenderer.Device

/-!
# Triangles of one colour

The methods of `Device` that fill a triangle with segments of `drawLine`, one for each row, and
`clear`. The two flat cases run the same row on other edges.
-/

namespace SoftRenderer

open Kit Kit.Procedure

variable {K : Type} [Field K]

/-- The abscissa at height `y` on the edge from `a` to `b`, moved by one half. -/
def edgeX (y : K) (a b : Vector2 K) : LuaM K K := do
  let slope ← divide ((y - a.y) * (b.x - a.x)) (b.y - a.y)
  return slope + a.x + 0.5

def edgeAt (y : K) (a b : Vector2 K) : K := (y - a.y) * (b.x - a.x) / (b.y - a.y) + a.x + 0.5

theorem edgeX_apply (y : K) (a b : Vector2 K) (world : World K) :
    edgeX y a b world =
      (.ok (edgeAt y a b), { world with divisors := world.divisors ++ [b.y - a.y] }) := rfl

variable [LinearOrder K]

/-- `xtop` to `ybot` as three points. In its first case the source exchanges the heights of the
middle and the last point. -/
def orderedPoints (pa pb pc : Vector2 K) : Option (Vector2 K × Vector2 K × Vector2 K) :=
  if pa.y < pb.y ∧ pb.y < pc.y then some (pa, ⟨pb.x, pc.y⟩, ⟨pb.x, pb.y⟩)
  else if pa.y < pc.y ∧ pc.y < pb.y then some (pa, pc, pb)
  else if pb.y < pa.y ∧ pa.y < pc.y then some (pb, pa, pc)
  else if pb.y < pc.y ∧ pc.y < pa.y then some (pb, pc, pa)
  else if pc.y < pa.y ∧ pa.y < pb.y then some (pc, pa, pb)
  else if pc.y < pb.y ∧ pb.y < pa.y then some (pc, pb, pa)
  else none

/-- The cascade of `drawTriangle`, with the calls that it makes as parameters. -/
def pointCases (fillBottom fillTop : Vector2 K → Vector2 K → Vector2 K → LuaM K Unit)
    (pa pb pc : Vector2 K) : LuaM K Unit := do
  if pa.y = pb.y then
    if pc.y ≤ pa.y then fillBottom pc pa pb else fillTop pa pb pc
  else if pa.y = pc.y then
    if pb.y ≤ pa.y then fillBottom pb pa pc else fillTop pa pc pb
  else if pb.y = pc.y then
    if pa.y ≤ pb.y then fillBottom pa pb pc else fillTop pb pc pa
  else
    match orderedPoints pa pb pc with
    | none => raise (.arith .nil)
    | some (top, mid, bot) =>
        let slope ← divide ((mid.y - top.y) * (top.x - top.x)) (bot.y - top.y)
        let xl := slope + top.x + 0.5
        if pa.x < mid.x then
          fillBottom top ⟨xl, mid.y⟩ mid
          fillTop ⟨xl, mid.y⟩ mid bot
        else
          fillBottom top mid ⟨xl, mid.y⟩
          fillTop mid ⟨xl, mid.y⟩ bot

namespace Device

variable [FloorRing K]

def edgeRow (cfg : Config K) (self : Device K) (a1 b1 a2 b2 : Vector2 K) (color : Value K) (y : K) :
    LuaM K Unit := do
  let xs ← edgeX y a1 b1
  let xe ← edgeX y a2 b2
  self.drawLine cfg ⟨xs, y⟩ ⟨xe, y⟩ color

def drawTriangleTop (cfg : Config K) (self : Device K) (pa pb pc : Vector2 K) (color : Value K) :
    LuaM K Unit :=
  forEach (forValues pa.y pc.y) (self.edgeRow cfg pa pc pb pc color)

def drawTriangleBottom (cfg : Config K) (self : Device K) (pa pb pc : Vector2 K)
    (color : Value K) : LuaM K Unit :=
  forEach (forValues pa.y pb.y) (self.edgeRow cfg pa pb pa pc color)

def drawTriangle (cfg : Config K) (self : Device K) (pa pb pc : Vector2 K) (color : Value K) :
    LuaM K Unit :=
  pointCases (fun a b c => self.drawTriangleBottom cfg a b c color)
    (fun a b c => self.drawTriangleTop cfg a b c color) pa pb pc

/-- Both loops run to the size itself, one past the last column and row. -/
def clear (self : Device K) (color : Value K) : LuaM K Unit :=
  forEach (forValues 0 self.width) fun i =>
    forEach (forValues 0 self.height) fun j => self.drawPixel i j color

end Device
end SoftRenderer
