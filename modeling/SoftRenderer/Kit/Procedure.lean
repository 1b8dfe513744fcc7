import Mathlib

/-!
# Procedures over a state that may fail

A procedure returns a value or raises an error, and the state it reached is kept in both cases:
an error does not undo what was done before it. `Raises` says that a procedure fails from every
state, `Preserves` that an observation of the state is the same after every run, failed or not.
-/

namespace Kit

/-- A computation over the state `σ` that returns an `α` or raises an `ε`. -/
def Procedure (ε σ α : Type) : Type := σ → Except ε α × σ

namespace Procedure

variable {ε σ τ α β ι : Type}

instance : Monad (Procedure ε σ) where
  pure a := fun s => (.ok a, s)
  bind m f := fun s => match m s with
    | (.ok a, s') => f a s'
    | (.error e, s') => (.error e, s')

def read : Procedure ε σ σ := fun s => (.ok s, s)

def change (f : σ → σ) : Procedure ε σ Unit := fun s => (.ok (), f s)

def lift (r : Except ε α) : Procedure ε σ α := fun s => (r, s)

def raise (e : ε) : Procedure ε σ α := fun s => (.error e, s)

@[simp] theorem pure_apply (a : α) (s : σ) : (pure a : Procedure ε σ α) s = (.ok a, s) := rfl

theorem bind_apply (m : Procedure ε σ α) (f : α → Procedure ε σ β) (s : σ) :
    (m >>= f) s = match m s with
      | (.ok a, s') => f a s'
      | (.error e, s') => (.error e, s') := rfl

@[simp] theorem read_apply (s : σ) : (read : Procedure ε σ σ) s = (.ok s, s) := rfl

@[simp] theorem change_apply (f : σ → σ) (s : σ) :
    (change f : Procedure ε σ Unit) s = (.ok (), f s) := rfl

@[simp] theorem lift_apply (r : Except ε α) (s : σ) : (lift r : Procedure ε σ α) s = (r, s) := rfl

@[simp] theorem raise_apply (e : ε) (s : σ) :
    (raise e : Procedure ε σ α) s = (.error e, s) := rfl

theorem bind_ok {m : Procedure ε σ α} {f : α → Procedure ε σ β} {s s' : σ} {a : α}
    (h : m s = (.ok a, s')) : (m >>= f) s = f a s' := by
  rw [bind_apply, h]

theorem bind_error {m : Procedure ε σ α} {f : α → Procedure ε σ β} {s s' : σ} {e : ε}
    (h : m s = (.error e, s')) : (m >>= f) s = (.error e, s') := by
  rw [bind_apply, h]

instance : LawfulMonad (Procedure ε σ) :=
  LawfulMonad.mk' _
    (by
      intro α m
      funext s
      change (m >>= fun a => pure a) s = m s
      rw [bind_apply]
      rcases m s with ⟨_ | a, s'⟩ <;> rfl)
    (by intro α β a f; rfl)
    (by
      intro α β γ m f g
      funext s
      simp only [bind_apply]
      rcases m s with ⟨_ | a, s'⟩ <;> rfl)

/-- One call of the body for each element, from left to right. -/
def forEach (xs : List ι) (body : ι → Procedure ε σ Unit) : Procedure ε σ Unit :=
  xs.foldlM (fun _ x => body x) ()

/-- The loop of `forEach` with loop variables `β` that each iteration updates. -/
def forFold (xs : List ι) (init : β) (body : ι → β → Procedure ε σ β) : Procedure ε σ β :=
  xs.foldlM (fun b x => body x b) init

@[simp] theorem forEach_nil (body : ι → Procedure ε σ Unit) : forEach [] body = pure () := rfl

@[simp] theorem forEach_cons (x : ι) (xs : List ι) (body : ι → Procedure ε σ Unit) :
    forEach (x :: xs) body = body x >>= fun _ => forEach xs body := rfl

@[simp] theorem forFold_nil (b : β) (body : ι → β → Procedure ε σ β) :
    forFold [] b body = pure b := rfl

@[simp] theorem forFold_cons (x : ι) (xs : List ι) (b : β) (body : ι → β → Procedure ε σ β) :
    forFold (x :: xs) b body = body x b >>= fun b' => forFold xs b' body := rfl

/-- A loop that shows its variables to `emit` and then advances them by `next` shows the iterates
of `next`, in order. -/
theorem forFold_iterate (emit : β → Procedure ε σ Unit) (next : β → β) (xs : List ι) (b : β) :
    forFold xs b (fun _ c => emit c >>= fun _ => pure (next c)) =
      forEach ((List.range xs.length).map (fun i => next^[i] b)) emit >>= fun _ =>
        pure (next^[xs.length] b) := by
  induction xs generalizing b with
  | nil => rfl
  | cons x xs ih =>
      rw [forFold_cons, bind_assoc, List.length_cons, List.range_succ_eq_map, List.map_cons,
        forEach_cons, bind_assoc]
      congr 1
      funext _
      rw [pure_bind, ih, List.map_map]
      rfl

theorem forEach_map (g : ι → β) (xs : List ι) (body : β → Procedure ε σ Unit) :
    forEach (xs.map g) body = forEach xs fun x => body (g x) := by
  induction xs with
  | nil => rfl
  | cons x xs ih => rw [List.map_cons, forEach_cons, forEach_cons, ih]

def Raises (m : Procedure ε σ α) : Prop := ∀ s, ∃ e s', m s = (.error e, s')

theorem Raises.bind {m : Procedure ε σ α} (h : Raises m) (f : α → Procedure ε σ β) :
    Raises (m >>= f) := by
  intro s
  obtain ⟨e, s', hs⟩ := h s
  exact ⟨e, s', bind_error hs⟩

theorem Raises.bind_right {m : Procedure ε σ α} {f : α → Procedure ε σ β}
    (h : ∀ a, Raises (f a)) : Raises (m >>= f) := by
  intro s
  cases hm : m s with
  | mk r s' =>
      cases r with
      | error e => exact ⟨e, s', bind_error hm⟩
      | ok a =>
          rw [bind_ok hm]
          exact h a s'

theorem Raises.ne_ok {m : Procedure ε σ α} (h : Raises m) (s s' : σ) (a : α) :
    m s ≠ (.ok a, s') := by
  obtain ⟨e, t, ht⟩ := h s
  simp [ht]

theorem forEach_congr {xs : List ι} {body body' : ι → Procedure ε σ Unit}
    (h : ∀ x ∈ xs, body x = body' x) : forEach xs body = forEach xs body' := by
  induction xs with
  | nil => rfl
  | cons x xs ih =>
      rw [forEach_cons, forEach_cons, h x List.mem_cons_self,
        ih fun y hy => h y (List.mem_cons_of_mem x hy)]

theorem forEach_eq_pure {xs : List ι} {body : ι → Procedure ε σ Unit}
    (h : ∀ x ∈ xs, body x = pure ()) : forEach xs body = pure () := by
  induction xs with
  | nil => rfl
  | cons x xs ih =>
      rw [forEach_cons, h x List.mem_cons_self, pure_bind]
      exact ih (fun y hy => h y (List.mem_cons_of_mem x hy))

/-- A loop fails as soon as one of its iterations does. -/
theorem Raises.forEach {xs : List ι} {body : ι → Procedure ε σ Unit} {x : ι} (hx : x ∈ xs)
    (h : Raises (body x)) : Raises (forEach xs body) := by
  induction xs with
  | nil => cases hx
  | cons y xs ih =>
      rw [forEach_cons]
      rcases List.mem_cons.mp hx with rfl | hx
      · exact h.bind _
      · exact Raises.bind_right (fun _ => ih hx)

/-- Whatever the procedure returns, if it returns, has the property `P`. -/
def Returns (P : α → Prop) (m : Procedure ε σ α) : Prop := ∀ s a s', m s = (.ok a, s') → P a

theorem Returns.pure {P : α → Prop} {a : α} (h : P a) : Returns P (pure a : Procedure ε σ α) := by
  intro s b s' hrun
  cases hrun
  exact h

theorem Returns.bind_right {P : β → Prop} {m : Procedure ε σ α} {f : α → Procedure ε σ β}
    (h : ∀ a, Returns P (f a)) : Returns P (m >>= f) := by
  intro s b s' hrun
  cases hm : m s with
  | mk r s1 =>
      cases r with
      | error e =>
          rw [bind_error hm] at hrun
          cases hrun
      | ok a =>
          rw [bind_ok hm] at hrun
          exact h a s1 b s' hrun

/-- From the state `s` the procedure fails if `p` holds, and otherwise does nothing. -/
def FailsIf (m : Procedure ε σ Unit) (s : σ) (p : Prop) : Prop :=
  (p → ∃ e s', m s = (.error e, s')) ∧ (¬ p → m s = (.ok (), s))

theorem FailsIf.ite {m : Procedure ε σ Unit} {s : σ} {p : Prop} [Decidable p]
    (h : ∃ e s', m s = (.error e, s')) : FailsIf (if p then m else pure ()) s p := by
  constructor
  · intro hp
    rwa [if_pos hp]
  · intro hp
    rw [if_neg hp, pure_apply]

theorem FailsIf.congr {m : Procedure ε σ Unit} {s : σ} {p q : Prop} (h : FailsIf m s p)
    (hpq : p ↔ q) : FailsIf m s q := by
  rwa [← hpq]

/-- The iterations before the first one that fails leave the state alone, so that one fails in the
loop as it would at the start. -/
theorem FailsIf.forEach {xs : List ι} {body : ι → Procedure ε σ Unit} {s : σ} {P : ι → Prop}
    (h : ∀ x ∈ xs, FailsIf (body x) s (P x)) : FailsIf (forEach xs body) s (∃ x ∈ xs, P x) := by
  induction xs with
  | nil => simp [FailsIf]
  | cons y xs ih =>
      have hy := h y List.mem_cons_self
      have hxs := ih fun x hx => h x (List.mem_cons_of_mem y hx)
      rw [forEach_cons]
      by_cases hp : P y
      · obtain ⟨e, s', hrun⟩ := hy.1 hp
        refine ⟨fun _ => ⟨e, s', bind_error hrun⟩, fun hnone => ?_⟩
        exact absurd ⟨y, List.mem_cons_self, hp⟩ hnone
      · have hiff : (∃ x ∈ y :: xs, P x) ↔ ∃ x ∈ xs, P x := by
          simp [hp]
        rw [FailsIf, bind_ok (hy.2 hp), hiff]
        exact hxs

def Preserves (f : σ → τ) (m : Procedure ε σ α) : Prop := ∀ s, f (m s).2 = f s

theorem Preserves.pure (f : σ → τ) (a : α) : Preserves f (pure a : Procedure ε σ α) :=
  fun _ => rfl

theorem Preserves.lift (f : σ → τ) (r : Except ε α) : Preserves f (lift r : Procedure ε σ α) :=
  fun _ => rfl

theorem Preserves.bind {f : σ → τ} {m : Procedure ε σ α} {k : α → Procedure ε σ β}
    (hm : Preserves f m) (hk : ∀ a, Preserves f (k a)) : Preserves f (m >>= k) := by
  intro s
  have hs := hm s
  cases h : m s with
  | mk r s' =>
      rw [h] at hs
      cases r with
      | error e => rw [bind_error h]; exact hs
      | ok a => rw [bind_ok h, hk a s']; exact hs

theorem Preserves.forEach {f : σ → τ} {xs : List ι} {body : ι → Procedure ε σ Unit}
    (h : ∀ x ∈ xs, Preserves f (body x)) : Preserves f (forEach xs body) := by
  induction xs with
  | nil => exact Preserves.pure f ()
  | cons x xs ih =>
      rw [forEach_cons]
      exact (h x List.mem_cons_self).bind
        (fun _ => ih (fun y hy => h y (List.mem_cons_of_mem x hy)))

end Procedure
end Kit
