import Mathlib

/-!
# The message loop of the host

Each message makes the loop push the global `tick` and call it if it is a function. The stack is a
list with its top first. Nothing pops the global when it is not a function, nor the message that
`lua_pcall` leaves behind when the call fails.
-/

namespace SoftRenderer

inductive CallOutcome
  | returns
  | raises
  deriving DecidableEq

/-- What a stack slot holds, as far as the loop can tell. -/
inductive StackSlot
  | function (outcome : CallOutcome)
  | errorMessage
  | other
  deriving DecidableEq

abbrev LuaStack := List StackSlot

def luaGetglobal (value : StackSlot) (stack : LuaStack) : LuaStack := value :: stack

def luaIsfunction : LuaStack → Bool
  | .function _ :: _ => true
  | _ => false

/-- `lua_pcall(L, 0, 0, 0)`. A value that cannot be called is also an error. -/
def luaPcall : LuaStack → LuaStack
  | .function .returns :: stack => stack
  | _ :: stack => .errorMessage :: stack
  | [] => []

/-- One iteration, where `tick` is the value of the global at that time. -/
def loopBody (tick : StackSlot) (stack : LuaStack) : LuaStack :=
  let stack := luaGetglobal tick stack
  if !luaIsfunction stack then stack else luaPcall stack

def iterationStarts : List StackSlot → LuaStack → List LuaStack
  | [], _ => []
  | tick :: ticks, stack => stack :: iterationStarts ticks (loopBody tick stack)

theorem length_loopBody (tick : StackSlot) (stack : LuaStack) :
    (loopBody tick stack).length =
      stack.length + if tick = .function .returns then 0 else 1 := by
  cases tick with
  | function outcome => cases outcome <;> simp [loopBody, luaGetglobal, luaIsfunction, luaPcall]
  | errorMessage => simp [loopBody, luaGetglobal, luaIsfunction]
  | other => simp [loopBody, luaGetglobal, luaIsfunction]

/-- The height of the stack is the same at the start of every iteration exactly when every message
but the last finds a function `tick` that returns. -/
theorem iterationStarts_balanced_iff (ticks : List StackSlot) (stack : LuaStack) :
    (∀ s ∈ iterationStarts ticks stack, s.length = stack.length) ↔
      ∀ tick ∈ ticks.dropLast, tick = .function .returns := by
  induction ticks generalizing stack with
  | nil => simp [iterationStarts]
  | cons tick ticks ih =>
      cases ticks with
      | nil => simp [iterationStarts]
      | cons next ticks =>
          have hbody := length_loopBody tick stack
          rw [List.dropLast_cons_of_ne_nil (List.cons_ne_nil next ticks), List.forall_mem_cons,
            ← ih (loopBody tick stack), iterationStarts, List.forall_mem_cons]
          constructor
          · rintro ⟨-, h⟩
            have hnext := h (loopBody tick stack) List.mem_cons_self
            have htick : tick = .function .returns := by
              by_contra hne
              rw [if_neg hne] at hbody
              omega
            refine ⟨htick, ?_⟩
            intro s hs
            rw [h s hs, hnext]
          · rintro ⟨htick, h⟩
            rw [if_pos htick, Nat.add_zero] at hbody
            refine ⟨rfl, ?_⟩
            intro s hs
            rw [h s hs, hbody]

theorem iterationStarts_not_balanced :
    ¬ ∀ (ticks : List StackSlot) (stack : LuaStack),
      ∀ s ∈ iterationStarts ticks stack, s.length = stack.length := by
  intro h
  have hs := h [.other, .other] [] [.other] (by decide)
  revert hs
  decide

end SoftRenderer
