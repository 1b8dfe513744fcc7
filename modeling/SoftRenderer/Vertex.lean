import SoftRenderer.Matrix

/-!
# Values and vertices

A field of a vertex that the scripts always fill with the same kind of object has that type here.
The others hold a `Value`, whose operations fail as Lua's do: no class defines arithmetic on its
objects, and only tables can be indexed.
-/

namespace SoftRenderer

variable {K : Type} [Field K]

inductive Value (K : Type)
  | nil
  | number (n : K)
  | vector2 (v : Vector2 K)
  | vector4 (v : Vector4 K)
  | matrix (A : Matrix K)

namespace Value

def type : Value K → LuaType
  | nil => .nil
  | number _ => .number
  | vector2 _ | vector4 _ | matrix _ => .table

/-- The error reports the first operand that is not a number. -/
def arith (op : K → K → K) : Value K → Value K → Except LuaError (Value K)
  | number a, number b => .ok (number (op a b))
  | number _, b => .error (.arith b.type)
  | a, _ => .error (.arith a.type)

def add (a b : Value K) : Except LuaError (Value K) := arith (· + ·) a b

def sub (a b : Value K) : Except LuaError (Value K) := arith (· - ·) a b

def mul (a b : Value K) : Except LuaError (Value K) := arith (· * ·) a b

def lerp (v1 v2 : Value K) (t : K) : Except LuaError (Value K) := do
  let d ← sub v2 v1
  let s ← mul d (number t)
  add v1 s

/-- `a >= b`, which Lua runs as `b <= a`. -/
def ge [LinearOrder K] : Value K → Value K → Except LuaError Bool
  | number a, number b => .ok (a ≥ b)
  | a, b => .error (.compare b.type a.type)

def index (name : String) : Value K → Except LuaError Unit
  | nil => .error (.index .localVar name .nil)
  | number _ => .error (.index .localVar name .number)
  | _ => .ok ()

/-- Reading `x`, `y`, `z` and `w` of the parameter `name` for arithmetic. A table of another class
lacks some of these fields, and the arithmetic then meets `nil`. -/
def toVector4 (name : String) (a : Value K) : Except LuaError (Vector4 K) := do
  index name a
  match a with
  | vector4 v => .ok v
  | _ => .error (.arith .nil)

/-- Two parameters that are read side by side: both are indexed before any arithmetic. -/
def toVector4s (name1 name2 : String) (a b : Value K) :
    Except LuaError (Vector4 K × Vector4 K) := do
  index name1 a
  index name2 b
  let v ← toVector4 name1 a
  let w ← toVector4 name2 b
  return (v, w)

end Value

structure VertexIn (K : Type) where
  pos : Vector4 K
  color : Value K
  tex : Vector2 K
  normal : Value K

structure VertexOut (K : Type) where
  posWorld : Vector4 K
  posProj : Vector4 K
  tex : Vector2 K
  color : Value K
  normal : Value K
  oneDivZ : Value K

/-- The last three arguments of the constructor: the interpolated normal comes where `color` is
expected, and `pos_world` is interpolated as a number for `normal` and `oneDivZ`. -/
def vertexoutLerp (v1 v2 : VertexOut K) (t : K) : Except LuaError (VertexOut K) := do
  let posWorld := vector4Lerp v1.posWorld v2.posWorld t
  let posProj := vector4Lerp v1.posProj v2.posProj t
  let tex := vector2Lerp v1.tex v2.tex t
  let normals ← Value.toVector4s "v1" "v2" v1.normal v2.normal
  let color := Value.vector4 (vector4Lerp normals.1 normals.2 t)
  let normal ← Value.lerp (.vector4 v1.posWorld) (.vector4 v2.posWorld) t
  let oneDivZ ← Value.lerp (.vector4 v1.posWorld) (.vector4 v2.posWorld) t
  return ⟨posWorld, posProj, tex, color, normal, oneDivZ⟩

theorem vertexoutLerp_error (v1 v2 : VertexOut K) (t : K) :
    ∃ e, vertexoutLerp v1 v2 t = .error e := by
  unfold vertexoutLerp
  cases h : Value.toVector4s "v1" "v2" v1.normal v2.normal with
  | error e => exact ⟨e, rfl⟩
  | ok normals => exact ⟨_, rfl⟩

end SoftRenderer
