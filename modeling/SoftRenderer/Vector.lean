import SoftRenderer.Lua

/-!
# Vectors

The classes `Vector2` and `Vector4` with their operations, and the numeric `lerp`. `normalize`
changes its receiver and returns it, except that a vector of length zero is left alone and nothing
is returned.
-/

namespace SoftRenderer

variable {K : Type} [Field K]

def lerp (v1 v2 t : K) : K := v1 + (v2 - v1) * t

@[ext] structure Vector2 (K : Type) where
  x : K
  y : K
  deriving DecidableEq

@[simps] def vector2Scl (p1 : Vector2 K) (p : K) : Vector2 K := ⟨p1.x * p, p1.y * p⟩

@[simps] def vector2Lerp (v1 v2 : Vector2 K) (t : K) : Vector2 K :=
  ⟨lerp v1.x v2.x t, lerp v1.y v2.y t⟩

@[ext] structure Vector4 (K : Type) where
  x : K
  y : K
  z : K
  w : K
  deriving DecidableEq

namespace Vector4

def length (math : LuaMath K) (self : Vector4 K) : K :=
  math.sqrt (self.x * self.x + self.y * self.y + self.z * self.z)

def dot (self v : Vector4 K) : K := self.x * v.x + self.y * v.y + self.z * v.z

@[simps] def cross (self v : Vector4 K) : Vector4 K :=
  ⟨self.y * v.z - self.z * v.y, self.z * v.x - self.x * v.z, self.x * v.y - self.y * v.x, 0⟩

/-- The receiver after the call, and what the call returns. -/
def normalize [LinearOrder K] (math : LuaMath K) (self : Vector4 K) :
    Vector4 K × Option (Vector4 K) :=
  let l := self.length math
  if l ≠ 0 then
    let inv := 1 / l
    let self' := { self with x := self.x * inv, y := self.y * inv, z := self.z * inv }
    (self', some self')
  else
    (self, none)

end Vector4

@[simps] def vector4Sub (p1 p2 : Vector4 K) : Vector4 K :=
  ⟨p1.x - p2.x, p1.y - p2.y, p1.z - p2.z, p1.w - p2.w⟩

@[simps] def vector4Mul (p1 p2 : Vector4 K) : Vector4 K :=
  ⟨p1.x * p2.x, p1.y * p2.y, p1.z * p2.z, p1.w * p2.w⟩

@[simps] def vector4Scl (p1 : Vector4 K) (p : K) : Vector4 K :=
  ⟨p1.x * p, p1.y * p, p1.z * p, p1.w * p⟩

@[simps] def vector4Lerp (v1 v2 : Vector4 K) (t : K) : Vector4 K :=
  ⟨lerp v1.x v2.x t, lerp v1.y v2.y t, lerp v1.z v2.z t, lerp v1.w v2.w t⟩

end SoftRenderer
