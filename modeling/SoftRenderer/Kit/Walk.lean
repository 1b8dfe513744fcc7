import Mathlib

/-!
# Named walks

A walk along labelled edges, named by its labels. Where labels tell the edges of a node apart, two
walks with the same labels end at one node. A name is written with a separator before each label,
and can be taken apart again if the separator is in none of them.
-/

namespace Kit

inductive Walk {τ κ : Type} (edge : τ → κ → τ → Prop) (root : τ) : List κ → τ → Prop
  | nil : Walk edge root [] root
  | snoc {ks : List κ} {t u : τ} {k : κ} :
      Walk edge root ks t → edge t k u → Walk edge root (ks ++ [k]) u

theorem Walk.unique {τ κ ν : Type} {edge : τ → κ → τ → Prop} {root : τ} {label : κ → ν}
    (hedge : ∀ ks t, Walk edge root ks t → ∀ k u k' u', edge t k u → edge t k' u' →
      label k = label k' → u = u')
    {ks ks' : List κ} {u u' : τ} (h : Walk edge root ks u) (h' : Walk edge root ks' u')
    (hlabels : ks.map label = ks'.map label) : u = u' := by
  induction h generalizing ks' u' with
  | nil =>
      cases h' with
      | nil => rfl
      | snoc _ _ => simp at hlabels
  | snoc hwalk hstep ih =>
      cases h' with
      | nil => simp at hlabels
      | snoc hwalk' hstep' =>
          rw [List.map_append, List.map_append] at hlabels
          obtain ⟨hbefore, hlast⟩ := List.append_inj' hlabels rfl
          obtain rfl := ih hwalk' hbefore
          exact hedge _ _ hwalk _ _ _ _ hstep hstep' (List.singleton_injective hlast)

variable {α : Type}

def joined (sep : α) (words : List (List α)) : List α := words.flatMap fun w => sep :: w

theorem eq_sep_of_joined_eq {sep x : α} {words : List (List α)} {l : List α}
    (h : joined sep words = x :: l) : x = sep := by
  cases words with
  | nil => cases h
  | cons w words =>
      rw [joined, List.flatMap_cons, List.cons_append] at h
      exact (List.cons.inj h).1.symm

/-- The first word ends where the next separator stands. -/
theorem word_eq_of_append_joined {sep : α} {v w : List α} {vs ws : List (List α)} (hw : sep ∉ w)
    {rest : List α} (hrest : w = v ++ rest) (h : joined sep vs = rest ++ joined sep ws) :
    w = v := by
  cases rest with
  | nil => rw [hrest, List.append_nil]
  | cons x rest =>
      obtain rfl := eq_sep_of_joined_eq h
      rw [hrest] at hw
      exact absurd (List.mem_append_right v List.mem_cons_self) hw

theorem joined_inj {sep : α} {vs ws : List (List α)} (hvs : ∀ v ∈ vs, sep ∉ v)
    (hws : ∀ w ∈ ws, sep ∉ w) (h : joined sep vs = joined sep ws) : vs = ws := by
  induction vs generalizing ws with
  | nil =>
      cases ws with
      | nil => rfl
      | cons w ws => cases h
  | cons v vs ih =>
      cases ws with
      | nil => cases h
      | cons w ws =>
          simp only [joined, List.flatMap_cons, List.cons_append, List.cons.injEq, true_and] at h
          have hword : v = w := by
            rcases List.append_eq_append_iff.mp h with ⟨rest, hrest, hjoin⟩ | ⟨rest, hrest, hjoin⟩
            · exact (word_eq_of_append_joined (hws w List.mem_cons_self) hrest hjoin).symm
            · exact word_eq_of_append_joined (hvs v List.mem_cons_self) hrest hjoin
          subst hword
          rw [ih (fun u hu => hvs u (List.mem_cons_of_mem v hu))
            (fun u hu => hws u (List.mem_cons_of_mem v hu)) (List.append_cancel_left h)]

end Kit
