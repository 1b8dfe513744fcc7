import SoftRenderer.Kit.Procedure

/-!
# Runs that are known exactly

`Performs act m a out` says that `m` returns `a` from every state, and that the state it leaves is
the one it found with the actions `out` carried out on it, in order. A procedure on a part of the
state runs in the whole state by `zoom`, which leaves the other parts alone.
-/

namespace Kit.Procedure

variable {ε σ τ υ α β γ ι : Type}

def Performs (act : σ → υ → σ) (m : Procedure ε σ α) (a : α) (out : List υ) : Prop :=
  ∀ s, m s = (.ok a, out.foldl act s)

namespace Performs

variable {act : σ → υ → σ}

theorem pure (a : α) : Performs act (pure a : Procedure ε σ α) a [] := fun _ => rfl

theorem action (u : υ) : Performs act (change fun s => act s u : Procedure ε σ Unit) () [u] :=
  fun _ => rfl

theorem bind {m : Procedure ε σ α} {k : α → Procedure ε σ β} {a : α} {b : β} {xs ys : List υ}
    (hm : Performs act m a xs) (hk : Performs act (k a) b ys) :
    Performs act (m >>= k) b (xs ++ ys) := by
  intro s
  rw [bind_ok (hm s), hk, List.foldl_append]

theorem forEach {xs : List ι} {body : ι → Procedure ε σ Unit} {out : ι → List υ}
    (h : ∀ x ∈ xs, Performs act (body x) () (out x)) :
    Performs act (forEach xs body) () (xs.flatMap out) := by
  induction xs with
  | nil => exact Performs.pure ()
  | cons x xs ih =>
      rw [forEach_cons, List.flatMap_cons]
      exact (h x List.mem_cons_self).bind (ih fun y hy => h y (List.mem_cons_of_mem x hy))

/-- A loop whose variable has the form `f c`, where `c` runs through values with a property. -/
theorem forFold {f : γ → β} {P : γ → Prop} {next : ι → γ → γ} {out : ι → List υ} {xs : List ι}
    {body : ι → β → Procedure ε σ β}
    (h : ∀ x ∈ xs, ∀ c, P c → P (next x c) ∧ Performs act (body x (f c)) (f (next x c)) (out x))
    {c : γ} (hc : P c) :
    Performs act (forFold xs (f c) body) (f (xs.foldl (fun c x => next x c) c))
      (xs.flatMap out) := by
  induction xs generalizing c with
  | nil => exact Performs.pure _
  | cons x xs ih =>
      obtain ⟨hnext, hbody⟩ := h x List.mem_cons_self c hc
      rw [forFold_cons, List.flatMap_cons, List.foldl_cons]
      exact hbody.bind (ih (fun y hy => h y (List.mem_cons_of_mem x hy)) hnext)

end Performs

theorem bind_pure_apply (m : Procedure ε σ α) (b : β) (s : σ) :
    (m >>= fun _ => pure b) s = ((m s).1.map fun _ => b, (m s).2) := by
  rw [bind_apply]
  rcases m s with ⟨_ | a, s'⟩ <;> rfl

theorem forEach_append (xs ys : List ι) (body : ι → Procedure ε σ Unit) :
    forEach (xs ++ ys) body = forEach xs body >>= fun _ => forEach ys body := by
  induction xs with
  | nil => rfl
  | cons x xs ih => rw [List.cons_append, forEach_cons, forEach_cons, ih, bind_assoc]

/-- The part `get` of the state is what `m` runs on, and `set` puts its new value back. -/
def zoom (get : σ → τ) (set : τ → σ → σ) (m : Procedure ε τ α) : Procedure ε σ α := fun s =>
  ((m (get s)).1, set (m (get s)).2 s)

theorem zoom_apply {get : σ → τ} {set : τ → σ → σ} {m : Procedure ε τ α} {s : σ} {r : Except ε α}
    {t : τ} (h : m (get s) = (r, t)) : zoom get set m s = (r, set t s) := by
  rw [zoom, h]

end Kit.Procedure
