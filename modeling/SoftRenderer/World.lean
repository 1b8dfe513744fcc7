import SoftRenderer.Kit.Trace
import SoftRenderer.Kit.NumericFor
import SoftRenderer.Vertex

/-!
# What a run of the renderer leaves behind

The state of the drawing code: the calls of the host function `draw_pixel` in order, the depth
buffer, and two records of the run itself, the fragments that passed the depth test and the
divisors of the quotients that the drawing code evaluated. The quotients in the computation of a
matrix are not among them. Numbers are exact, so a quotient means something only where its divisor
is not zero. Output to the console is left out.
-/

namespace SoftRenderer

structure Pixel (K : Type) where
  x : K
  y : K
  color : Value K

structure Fragment (K : Type) where
  x : K
  y : K
  oneDivZ : Value K
  tex : Value K

/-- `z_buff[x][y]`: a table of rows, where a row that was never stored is `nil`. -/
abbrev ZBuffer (K : Type) := K → Option (K → Value K)

structure World (K : Type) where
  pixels : List (Pixel K)
  fragments : List (Fragment K)
  divisors : List K
  zBuff : ZBuffer K

/-- Nothing drawn and no row stored, as `Device:ctor` leaves it. -/
def World.initial (K : Type) : World K := ⟨[], [], [], fun _ => none⟩

instance (K : Type) : Nonempty (World K) := ⟨.initial K⟩

abbrev LuaM (K α : Type) := Kit.Procedure LuaError (World K) α

structure Config (K : Type) where
  winWidth : K
  winHeight : K

variable {K : Type} [Field K]

def Config.source : Config K := ⟨800, 600⟩

def divide (a b : K) : LuaM K K := do
  Kit.Procedure.change fun world => { world with divisors := world.divisors ++ [b] }
  return a / b

/-- The run returns, and no quotient in it has the divisor zero. -/
def DividesSafely {α : Type} (m : LuaM K α) : Prop :=
  Kit.Procedure.AppendsOnly World.divisors (· ≠ 0) m

theorem divide_safely {a b : K} (h : b ≠ 0) : DividesSafely (divide a b) :=
  fun _ => ⟨_, _, [b], rfl, rfl, by simpa using h⟩

def divideBy (a : K) : Value K → LuaM K K
  | .number b => divide a b
  | b => Kit.Procedure.raise (.arith b.type)

def drawPixel (x y : K) (color : Value K) : LuaM K Unit :=
  Kit.Procedure.change fun world => { world with pixels := world.pixels ++ [⟨x, y, color⟩] }

end SoftRenderer
