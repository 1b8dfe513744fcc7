import SoftRenderer.Class
import SoftRenderer.Kit.Chain
import SoftRenderer.Kit.Performs
import SoftRenderer.Lua

/-!
# The construction of an instance

`new` runs the constructors of a class and of its superclasses on one empty object and then turns
the object into an instance. A field that several constructors assign belongs to the nearest class,
as a method would, and hides the methods of that name.
-/

namespace SoftRenderer.Class

open Kit Kit.Hierarchy Kit.Procedure

abbrev Fields (V : Type) := String → Option V

/-- `ctor` with the arguments of `new`. It is `false` until a script assigns it. -/
abbrev Ctor (A V : Type) := A → Procedure LuaError (Fields V) Unit

variable {A V : Type}

/-- The local function of `new`, where `ctor c` is nothing for a class without a constructor. -/
def create (h : Hierarchy ℕ) (ctor : ℕ → Option (Ctor A V)) (c : ℕ) (args : A) :
    Procedure LuaError (Fields V) Unit := do
  match _hs : h.super c with
  | none => pure ()
  | some super => create h ctor super args
  match ctor c with
  | none => pure ()
  | some f => f args
termination_by c
decreasing_by exact h.super_lt _hs

structure Instance (V : Type) where
  class_type : ℕ
  fields : Fields V

def new (h : Hierarchy ℕ) (ctor : ℕ → Option (Ctor A V)) (class_type : ℕ) (args : A) :
    Except LuaError (Instance V) :=
  match create h ctor class_type args fun _ => none with
  | (.ok _, fields) => .ok ⟨class_type, fields⟩
  | (.error e, _) => .error e

def Instance.get (h : Hierarchy ℕ) (_class : MethodTables V) (obj : Instance V) (k : MethodName) :
    Option V :=
  (obj.fields k).or (index h _class obj.class_type k).1

/-- `if c.ctor then c.ctor(obj, ...) end` -/
def runCtor (ctor : ℕ → Option (Ctor A V)) (args : A) (c : ℕ) :
    Procedure LuaError (Fields V) Unit :=
  match ctor c with
  | none => pure ()
  | some f => f args

theorem create_of_root {h : Hierarchy ℕ} {c : ℕ} (hs : h.super c = none)
    (ctor : ℕ → Option (Ctor A V)) (args : A) : create h ctor c args = runCtor ctor args c := by
  rw [create]
  split
  · rfl
  · rename_i d hd
    simp [hs] at hd

theorem create_of_super {h : Hierarchy ℕ} {c d : ℕ} (hs : h.super c = some d)
    (ctor : ℕ → Option (Ctor A V)) (args : A) :
    create h ctor c args = create h ctor d args >>= fun _ => runCtor ctor args c := by
  rw [create]
  split
  · rename_i hd
    simp [hs] at hd
  · rename_i d' hd
    obtain rfl : d = d' := Option.some.inj (hs.symm.trans hd)
    rfl

theorem create_eq_forEach (h : Hierarchy ℕ) (ctor : ℕ → Option (Ctor A V)) (c : ℕ) (args : A) :
    create h ctor c args = forEach (h.chain c).reverse (runCtor ctor args) := by
  induction c using h.chain_induction with
  | root c hs =>
      rw [create_of_root hs, chain_of_root hs]
      exact (bind_pure _).symm
  | step c d hs ih =>
      rw [create_of_super hs, ih, chain_of_super hs, List.reverse_cons, forEach_append]
      congr 1
      funext _
      exact (bind_pure _).symm

/-- `new` calls the constructor of the class and of each of its superclasses once, on one object and
with the same arguments, and a superclass before every class below it. -/
theorem create_runs_chain (h : Hierarchy ℕ) (ctor : ℕ → Option (Ctor A V)) (c : ℕ) (args : A) :
    ∃ order : List ℕ, create h ctor c args = forEach order (runCtor ctor args) ∧
      (∀ d, d ∈ order ↔ h.Inherits c d) ∧ order.Pairwise (fun a b => h.Inherits b a ∧ b ≠ a) := by
  refine ⟨(h.chain c).reverse, create_eq_forEach h ctor c args, ?_, ?_⟩
  · intro d
    rw [List.mem_reverse, mem_chain_iff]
  · rw [List.pairwise_reverse]
    exact pairwise_chain c

/-- What a constructor assigns, in order; to assign `nil` takes a field away. -/
abbrev Assignments (A V : Type) := A → List (String × Option V)

def assign (ws : Assignments A V) : Ctor A V := fun args => change fun fields =>
  writeAll fields (ws args)

def written (ws : ℕ → Option (Assignments A V)) (args : A) (d : ℕ) : List (String × Option V) :=
  ((ws d).map fun f => f args).getD []

theorem runCtor_assign (ws : ℕ → Option (Assignments A V)) (args : A) (d : ℕ) (fields : Fields V) :
    runCtor (fun d => (ws d).map assign) args d fields =
      (.ok (), writeAll fields (written ws args d)) := by
  rw [runCtor, written]
  cases ws d with
  | none => rfl
  | some f => rfl

theorem forEach_runCtor_assign (ws : ℕ → Option (Assignments A V)) (args : A) (order : List ℕ)
    (fields : Fields V) :
    forEach order (runCtor (fun d => (ws d).map assign) args) fields =
      (.ok (), writeAll fields (order.flatMap (written ws args))) := by
  induction order generalizing fields with
  | nil => rfl
  | cons d order ih =>
      rw [forEach_cons, bind_ok (runCtor_assign ws args d fields), ih, List.flatMap_cons]
      simp only [writeAll, List.foldl_append]

/-- A name of a new instance is the field that the nearest class with such an assignment gives it,
and otherwise the method that the class finds. -/
theorem new_get (h : Hierarchy ℕ) (ws : ℕ → Option (Assignments A V)) (_class : MethodTables V)
    (c : ℕ) (args : A) (k : MethodName) :
    ∃ obj, new h (fun d => (ws d).map assign) c args = .ok obj ∧ obj.class_type = c ∧
      obj.get h _class k =
        ((h.find (fun d => lastWrite (written ws args d) k) c).bind Prod.snd).or
          (index h _class c k).1 := by
  have hrun : create h (fun d => (ws d).map assign) c args (fun _ => none) =
      (.ok (), writeAll (fun _ => none) ((h.chain c).reverse.flatMap (written ws args))) := by
    rw [create_eq_forEach, forEach_runCtor_assign]
  refine ⟨⟨c, writeAll (fun _ => none) ((h.chain c).reverse.flatMap (written ws args))⟩, ?_, rfl,
    ?_⟩
  · rw [new, hrun]
  · simp only [Instance.get]
    rw [writeAll_apply, h.lastWrite_chain]
    cases h.find (fun d => lastWrite (written ws args d) (k : String)) c <;> rfl

end SoftRenderer.Class
