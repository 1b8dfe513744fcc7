import SoftRenderer.Kit.Procedure

/-!
# Runs that append to a record

Part of a state is often a record of what was done, which every step extends. `Appends f m a out`
says that `m` returns `a` from every state and extends the record `f` by `out`, which does not
depend on the state. `AppendsOnly f P m` says less: `m` returns, and what it adds has the property
`P`.
-/

namespace Kit.Procedure

variable {ε σ τ α β ι : Type}

def Appends (f : σ → List τ) (m : Procedure ε σ α) (a : α) (out : List τ) : Prop :=
  ∀ s, ∃ s', m s = (.ok a, s') ∧ f s' = f s ++ out

namespace Appends

variable {f : σ → List τ}

theorem pure (a : α) : Appends f (pure a : Procedure ε σ α) a [] :=
  fun s => ⟨s, rfl, (List.append_nil _).symm⟩

theorem bind {m : Procedure ε σ α} {k : α → Procedure ε σ β} {a : α} {b : β} {xs ys : List τ}
    (hm : Appends f m a xs) (hk : Appends f (k a) b ys) : Appends f (m >>= k) b (xs ++ ys) := by
  intro s
  obtain ⟨s1, hrun1, hout1⟩ := hm s
  obtain ⟨s2, hrun2, hout2⟩ := hk s1
  refine ⟨s2, ?_, ?_⟩
  · rw [bind_ok hrun1, hrun2]
  · rw [hout2, hout1, List.append_assoc]

theorem forEach {xs : List ι} {body : ι → Procedure ε σ Unit} {out : ι → List τ}
    (h : ∀ x ∈ xs, Appends f (body x) () (out x)) :
    Appends f (forEach xs body) () (xs.flatMap out) := by
  induction xs with
  | nil => exact Appends.pure ()
  | cons x xs ih =>
      rw [forEach_cons, List.flatMap_cons]
      exact (h x List.mem_cons_self).bind (ih fun y hy => h y (List.mem_cons_of_mem x hy))

theorem run {m : Procedure ε σ α} {a : α} {out : List τ} (h : Appends f m a out) (s : σ) :
    (m s).1 = .ok a ∧ f (m s).2 = f s ++ out := by
  obtain ⟨s', hrun, hout⟩ := h s
  rw [hrun]
  exact ⟨rfl, hout⟩

end Appends

def AppendsOnly (f : σ → List τ) (P : τ → Prop) (m : Procedure ε σ α) : Prop :=
  ∀ s, ∃ a s' out, m s = (.ok a, s') ∧ f s' = f s ++ out ∧ ∀ x ∈ out, P x

namespace AppendsOnly

variable {f : σ → List τ} {P : τ → Prop}

theorem pure (a : α) : AppendsOnly f P (pure a : Procedure ε σ α) :=
  fun s => ⟨a, s, [], rfl, (List.append_nil _).symm, by simp⟩

theorem bind {m : Procedure ε σ α} {k : α → Procedure ε σ β} (hm : AppendsOnly f P m)
    (hk : ∀ a, AppendsOnly f P (k a)) : AppendsOnly f P (m >>= k) := by
  intro s
  obtain ⟨a, s1, xs, hrun1, hout1, hxs⟩ := hm s
  obtain ⟨b, s2, ys, hrun2, hout2, hys⟩ := hk a s1
  refine ⟨b, s2, xs ++ ys, ?_, ?_, ?_⟩
  · rw [bind_ok hrun1, hrun2]
  · rw [hout2, hout1, List.append_assoc]
  · intro x hx
    rcases List.mem_append.mp hx with hx | hx
    · exact hxs x hx
    · exact hys x hx

/-- What the first of two procedures adds is part of what both add, whatever the second one adds. -/
theorem of_bind {Q : τ → Prop} {m : Procedure ε σ α} {k : α → Procedure ε σ β} {a : α}
    {xs : List τ} [Nonempty σ] (h : AppendsOnly f P (m >>= k)) (hm : Appends f m a xs)
    (hk : AppendsOnly f Q (k a)) : ∀ x ∈ xs, P x := by
  obtain ⟨s⟩ := ‹Nonempty σ›
  obtain ⟨b, s', out, hrun, hout, hP⟩ := h s
  obtain ⟨s1, hrun1, hout1⟩ := hm s
  obtain ⟨c, s2, ys, hrun2, hout2, -⟩ := hk s1
  rw [bind_ok hrun1, hrun2] at hrun
  cases hrun
  rw [hout2, hout1, List.append_assoc] at hout
  intro x hx
  exact hP x (List.append_cancel_left hout ▸ List.mem_append_left ys hx)

theorem forEach {xs : List ι} {body : ι → Procedure ε σ Unit}
    (h : ∀ x ∈ xs, AppendsOnly f P (body x)) : AppendsOnly f P (forEach xs body) := by
  induction xs with
  | nil => exact AppendsOnly.pure ()
  | cons x xs ih =>
      rw [forEach_cons]
      exact (h x List.mem_cons_self).bind fun _ => ih fun y hy => h y (List.mem_cons_of_mem x hy)

end AppendsOnly

/-- The procedure may also fail, and what it added until then has the property `P`. -/
def Adds (f : σ → List τ) (P : τ → Prop) (m : Procedure ε σ α) : Prop :=
  ∀ s, ∃ out, f (m s).2 = f s ++ out ∧ ∀ x ∈ out, P x

namespace Adds

variable {f : σ → List τ} {P : τ → Prop}

theorem of_preserves {m : Procedure ε σ α} (h : Preserves f m) : Adds f P m :=
  fun s => ⟨[], by rw [h s, List.append_nil], by simp⟩

theorem bind {m : Procedure ε σ α} {k : α → Procedure ε σ β} (hm : Adds f P m)
    (hk : ∀ a s s', m s = (.ok a, s') → Adds f P (k a)) : Adds f P (m >>= k) := by
  intro s
  obtain ⟨xs, hout1, hxs⟩ := hm s
  cases hrun : m s with
  | mk r s1 =>
      rw [hrun] at hout1
      cases r with
      | error e =>
          rw [bind_error hrun]
          exact ⟨xs, hout1, hxs⟩
      | ok a =>
          obtain ⟨ys, hout2, hys⟩ := hk a s s1 hrun s1
          refine ⟨xs ++ ys, ?_, ?_⟩
          · rw [bind_ok hrun, hout2, hout1, List.append_assoc]
          · intro x hx
            rcases List.mem_append.mp hx with hx | hx
            · exact hxs x hx
            · exact hys x hx

theorem mono {Q : τ → Prop} {m : Procedure ε σ α} (hm : Adds f P m) (h : ∀ x, P x → Q x) :
    Adds f Q m := by
  intro s
  obtain ⟨out, hout, hP⟩ := hm s
  exact ⟨out, hout, fun x hx => h x (hP x hx)⟩

theorem preserves {m : Procedure ε σ α} (hm : Adds f P m) (h : ∀ x, ¬ P x) : Preserves f m := by
  intro s
  obtain ⟨out, hout, hP⟩ := hm s
  obtain rfl : out = [] := List.eq_nil_iff_forall_not_mem.mpr fun x hx => h x (hP x hx)
  rw [hout, List.append_nil]

theorem lift_bind {r : Except ε α} {k : α → Procedure ε σ β}
    (h : ∀ a, r = .ok a → Adds f P (k a)) : Adds f P (lift r >>= k) := by
  refine bind (of_preserves (Preserves.lift f r)) fun a s s' hrun => h a ?_
  rw [lift_apply] at hrun
  exact congrArg Prod.fst hrun

theorem forEach {xs : List ι} {body : ι → Procedure ε σ Unit}
    (h : ∀ x ∈ xs, Adds f P (body x)) : Adds f P (forEach xs body) := by
  induction xs with
  | nil => exact of_preserves (Preserves.pure f ())
  | cons x xs ih =>
      rw [forEach_cons]
      exact (h x List.mem_cons_self).bind fun _ _ _ _ =>
        ih fun y hy => h y (List.mem_cons_of_mem x hy)

end Adds

theorem Appends.appendsOnly_iff {f : σ → List τ} {P : τ → Prop} {m : Procedure ε σ α} {a : α}
    {out : List τ} (h : Appends f m a out) [Nonempty σ] : AppendsOnly f P m ↔ ∀ x ∈ out, P x := by
  constructor
  · intro hm
    obtain ⟨s⟩ := ‹Nonempty σ›
    obtain ⟨b, s', out', hrun, hout, hP⟩ := hm s
    obtain ⟨s1, hrun1, hout1⟩ := h s
    rw [hrun] at hrun1
    cases hrun1
    rw [hout] at hout1
    exact List.append_cancel_left hout1 ▸ hP
  · intro hP s
    obtain ⟨s', hrun, hout⟩ := h s
    exact ⟨a, s', out, hrun, hout, hP⟩

end Kit.Procedure
