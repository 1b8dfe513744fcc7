import SoftRenderer.Vector

/-!
# Matrices

The class `Matrix` keeps every entry twice, in the table `m` of four rows and in sixteen fields
`m11` to `m44`. The constructor fills both; the methods that change a matrix in place write the
fields only. A row vector is multiplied from the left, so translations stand in the fourth row.
-/

namespace SoftRenderer

variable {K : Type} [Field K]

/-- The rows of `m` may hold `nil`: the scripts also call the constructor without arguments. -/
structure Matrix (K : Type) where
  m : List (List (Option K))
  (m11 m12 m13 m14 : K)
  (m21 m22 m23 m24 : K)
  (m31 m32 m33 m34 : K)
  (m41 m42 m43 m44 : K)
  deriving DecidableEq

namespace Matrix

@[simps] def new (m11 m12 m13 m14 m21 m22 m23 m24 m31 m32 m33 m34 m41 m42 m43 m44 : K) :
    Matrix K where
  m := [[some m11, some m12, some m13, some m14], [some m21, some m22, some m23, some m24],
    [some m31, some m32, some m33, some m34], [some m41, some m42, some m43, some m44]]
  m11 := m11
  m12 := m12
  m13 := m13
  m14 := m14
  m21 := m21
  m22 := m22
  m23 := m23
  m24 := m24
  m31 := m31
  m32 := m32
  m33 := m33
  m34 := m34
  m41 := m41
  m42 := m42
  m43 := m43
  m44 := m44

@[simps] def identity (self : Matrix K) : Matrix K :=
  { self with
    m11 := 1, m12 := 0, m13 := 0, m14 := 0
    m21 := 0, m22 := 1, m23 := 0, m24 := 0
    m31 := 0, m32 := 0, m33 := 1, m34 := 0
    m41 := 0, m42 := 0, m43 := 0, m44 := 1 }

/-- `Matrix.new()` followed by `:identity()`, which is how the classes set up their matrices. The
constructor gets no arguments, so the rows of `m` stay empty; the fields are all written by
`identity` before anything reads them. -/
@[simps!] def newIdentity : Matrix K :=
  identity { (new 0 0 0 0 0 0 0 0 0 0 0 0 0 0 0 0 : Matrix K) with
    m := List.replicate 4 (List.replicate 4 none) }

def transpose (self : Matrix K) : Matrix K :=
  new self.m11 self.m21 self.m31 self.m41 self.m12 self.m22 self.m32 self.m42
    self.m13 self.m23 self.m33 self.m43 self.m14 self.m24 self.m34 self.m44

def det (self : Matrix K) : K :=
  let ret : K := 0
  let ret := ret + self.m11 * (self.m22 * self.m33 - self.m23 * self.m32)
  let ret := ret - self.m12 * (self.m21 * self.m33 - self.m23 * self.m31)
  let ret := ret + self.m13 * (self.m21 * self.m32 - self.m22 * self.m31)
  ret

/-- The fields of the receiver after `inverse` has run past its test. -/
def invert (self : Matrix K) : Matrix K :=
  let matrix := self
  let rcp := 1 / matrix.det
  let self := { self with
    m11 := matrix.m22 * matrix.m33 - matrix.m23 * matrix.m32
    m12 := matrix.m13 * matrix.m32 - matrix.m12 * matrix.m33
    m13 := matrix.m12 * matrix.m23 - matrix.m13 * matrix.m22
    m21 := matrix.m23 * matrix.m31 - matrix.m21 * matrix.m33
    m22 := matrix.m11 * matrix.m33 - matrix.m13 * matrix.m31
    m23 := matrix.m13 * matrix.m21 - matrix.m11 * matrix.m23
    m31 := matrix.m21 * matrix.m32 - matrix.m22 * matrix.m31
    m32 := matrix.m12 * matrix.m31 - matrix.m11 * matrix.m32
    m33 := matrix.m11 * matrix.m22 - matrix.m12 * matrix.m21 }
  let self := { self with
    m11 := self.m11 * rcp, m12 := self.m12 * rcp, m13 := self.m13 * rcp
    m21 := self.m21 * rcp, m22 := self.m22 * rcp, m23 := self.m23 * rcp
    m31 := self.m31 * rcp, m32 := self.m32 * rcp, m33 := self.m33 * rcp }
  { self with
    m41 := -(matrix.m41 * self.m11 + matrix.m42 * self.m21 + matrix.m43 * self.m31)
    m42 := -(matrix.m41 * self.m12 + matrix.m42 * self.m22 + matrix.m43 * self.m32)
    m43 := -(matrix.m41 * self.m13 + matrix.m42 * self.m23 + matrix.m43 * self.m33) }

/-- What the call returns, and the receiver after it. The second test of the determinant, which
would reset the receiver to the identity, repeats the first one and is never taken. -/
def inverse [LinearOrder K] (self : Matrix K) : Bool × Matrix K :=
  let determinant := self.det
  if determinant = 0 then
    (false, self)
  else
    let self := self.invert
    if determinant = 0 then (true, self.identity) else (true, self)

end Matrix

@[simps] def vector4Apply (p : Vector4 K) (mat : Matrix K) : Vector4 K where
  x := p.x * mat.m11 + p.y * mat.m21 + p.z * mat.m31 + p.w * mat.m41
  y := p.x * mat.m12 + p.y * mat.m22 + p.z * mat.m32 + p.w * mat.m42
  z := p.x * mat.m13 + p.y * mat.m23 + p.z * mat.m33 + p.w * mat.m43
  w := p.x * mat.m14 + p.y * mat.m24 + p.z * mat.m34 + p.w * mat.m44

def matrixAdd (v1 v2 : Matrix K) : Matrix K :=
  Matrix.new
    (v1.m11 + v2.m11) (v1.m12 + v2.m12) (v1.m13 + v2.m13) (v1.m14 + v2.m14)
    (v1.m21 + v2.m21) (v1.m22 + v2.m22) (v1.m23 + v2.m23) (v1.m24 + v2.m24)
    (v1.m31 + v2.m31) (v1.m32 + v2.m32) (v1.m33 + v2.m33) (v1.m34 + v2.m34)
    (v1.m41 + v2.m41) (v1.m42 + v2.m42) (v1.m43 + v2.m43) (v1.m44 + v2.m44)

def matrixSub (v1 v2 : Matrix K) : Matrix K :=
  Matrix.new
    (v1.m11 - v2.m11) (v1.m12 - v2.m12) (v1.m13 - v2.m13) (v1.m14 - v2.m14)
    (v1.m21 - v2.m21) (v1.m22 - v2.m22) (v1.m23 - v2.m23) (v1.m24 - v2.m24)
    (v1.m31 - v2.m31) (v1.m32 - v2.m32) (v1.m33 - v2.m33) (v1.m34 - v2.m34)
    (v1.m41 - v2.m41) (v1.m42 - v2.m42) (v1.m43 - v2.m43) (v1.m44 - v2.m44)

@[simps!] def matrixMul (v1 v2 : Matrix K) : Matrix K :=
  Matrix.new
    (v1.m11 * v2.m11 + v1.m12 * v2.m21 + v1.m13 * v2.m31 + v1.m14 * v2.m41)
    (v1.m11 * v2.m12 + v1.m12 * v2.m22 + v1.m13 * v2.m33 + v1.m14 * v2.m42)
    (v1.m11 * v2.m13 + v1.m12 * v2.m23 + v1.m13 * v2.m33 + v1.m14 * v2.m43)
    (v1.m11 * v2.m14 + v1.m12 * v2.m24 + v1.m13 * v2.m34 + v1.m14 * v2.m44)
    (v1.m21 * v2.m11 + v1.m22 * v2.m21 + v1.m23 * v2.m31 + v1.m24 * v2.m41)
    (v1.m21 * v2.m12 + v1.m22 * v2.m22 + v1.m23 * v2.m33 + v1.m24 * v2.m42)
    (v1.m21 * v2.m13 + v1.m22 * v2.m23 + v1.m23 * v2.m33 + v1.m24 * v2.m43)
    (v1.m21 * v2.m14 + v1.m22 * v2.m24 + v1.m23 * v2.m34 + v1.m24 * v2.m44)
    (v1.m31 * v2.m11 + v1.m32 * v2.m21 + v1.m33 * v2.m31 + v1.m34 * v2.m41)
    (v1.m31 * v2.m12 + v1.m32 * v2.m22 + v1.m33 * v2.m33 + v1.m34 * v2.m42)
    (v1.m31 * v2.m13 + v1.m32 * v2.m23 + v1.m33 * v2.m33 + v1.m34 * v2.m43)
    (v1.m31 * v2.m14 + v1.m32 * v2.m24 + v1.m33 * v2.m34 + v1.m34 * v2.m44)
    (v1.m41 * v2.m11 + v1.m42 * v2.m21 + v1.m43 * v2.m31 + v1.m44 * v2.m41)
    (v1.m41 * v2.m12 + v1.m42 * v2.m22 + v1.m43 * v2.m33 + v1.m44 * v2.m42)
    (v1.m41 * v2.m13 + v1.m42 * v2.m23 + v1.m43 * v2.m33 + v1.m44 * v2.m43)
    (v1.m41 * v2.m14 + v1.m42 * v2.m24 + v1.m43 * v2.m34 + v1.m44 * v2.m44)

/-- `normalize` returns nothing for a zero vector, and `cross` then indexes its argument `v`. -/
def matrixLookAtLh [LinearOrder K] (math : LuaMath K) (eyePos lookAt up : Vector4 K) :
    Except LuaError (Matrix K) :=
  let zaxis := ((vector4Sub lookAt eyePos).normalize math).1
  match ((up.cross zaxis).normalize math).2 with
  | none => .error (.index .localVar "v" .nil)
  | some xaxis =>
      let yaxis := zaxis.cross xaxis
      .ok (Matrix.new
        xaxis.x yaxis.x zaxis.x 0
        xaxis.y yaxis.y zaxis.y 0
        xaxis.z yaxis.z zaxis.z 0
        (-xaxis.dot eyePos) (-yaxis.dot eyePos) (-zaxis.dot eyePos) 1)

def matrixPerspectiveFovLh (math : LuaMath K) (fov aspect near far : K) : Matrix K :=
  let height := math.cos (fov * 0.5) / math.sin (fov * 0.5)
  Matrix.new
    (height / aspect) 0 0 0
    0 height 0 0
    0 0 (far / (far - near)) 1
    0 0 (near * far / (near - far)) 0

def screenTransform (width height : K) : Matrix K :=
  Matrix.new
    (width * 0.5) 0 0 0
    0 (height * 0.5) 0 0
    0 0 1 0
    (width * 0.5) (height * 0.5) 0 1

end SoftRenderer
