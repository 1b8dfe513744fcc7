import Mathlib

/-!
# What the Lua runtime contributes

The scripts compute with Lua numbers, taken here as an arbitrary ordered field, and with the
functions of the library `math`. An operation on a value of the wrong type raises an error that
names the attempt and the type.
-/

namespace SoftRenderer

inductive LuaType
  | nil
  | number
  | table
  deriving DecidableEq

/-- How a message refers to the value that has the wrong type. -/
inductive NameKind
  | globalVar
  | localVar
  | field
  | method
  deriving DecidableEq

/-- Run-time errors, by the operation that was attempted. -/
inductive LuaError
  | index (kind : NameKind) (name : String) (type : LuaType)
  | call (kind : NameKind) (name : String) (type : LuaType)
  | arith (type : LuaType)
  | compare (left right : LuaType)
  deriving DecidableEq

structure LuaMath (K : Type) where
  sqrt : K → K
  cos : K → K
  sin : K → K

variable {K : Type} [Field K] [LinearOrder K]

def LuaMath.ExactSqrt (math : LuaMath K) : Prop :=
  ∀ a, 0 ≤ a → 0 ≤ math.sqrt a ∧ math.sqrt a * math.sqrt a = a

namespace LuaMath

variable {math : LuaMath K} (hm : math.ExactSqrt)

include hm

theorem ExactSqrt.nonneg {a : K} (ha : 0 ≤ a) : 0 ≤ math.sqrt a := (hm a ha).1

theorem ExactSqrt.mul_self {a : K} (ha : 0 ≤ a) : math.sqrt a * math.sqrt a = a := (hm a ha).2

theorem ExactSqrt.pos [IsStrictOrderedRing K] {a : K} (ha : 0 < a) : 0 < math.sqrt a := by
  rcases (hm.nonneg ha.le).lt_or_eq with h | h
  · exact h
  · have hs := hm.mul_self ha.le
    rw [← h, mul_zero] at hs
    exact absurd hs ha.ne

end LuaMath

noncomputable def LuaMath.real : LuaMath ℝ := ⟨Real.sqrt, Real.cos, Real.sin⟩

theorem LuaMath.exactSqrt_real : LuaMath.real.ExactSqrt :=
  fun a ha => ⟨Real.sqrt_nonneg a, Real.mul_self_sqrt ha⟩

end SoftRenderer
