import Mathlib

/-!
# Linked nodes

Numbered nodes, each of which may have a successor. Where the links go up in some order, a walk from
a node ends before it has made as many steps as there are nodes. A new node can be put behind a
linked one or in its place, and the walks are the same but for the new node.
-/

namespace Kit

abbrev Links := ℕ → Option ℕ

/-- A walk from `i` comes to `j`. -/
def Visits (next : Links) : ℕ → ℕ → Prop := Relation.ReflTransGen fun i j => next i = some j

/-- The nodes of a walk of at most `n` nodes. -/
def visited (next : Links) : ℕ → ℕ → List ℕ
  | 0, _ => []
  | n + 1, i => i :: match next i with
      | none => []
      | some j => visited next n j

/-- Links between the nodes below `size`. The links go up in some order, so that no walk comes back,
and no two nodes have the same successor. -/
structure Linked (size : ℕ) (next : Links) : Prop where
  lt : ∀ i j, next i = some j → i < size ∧ j < size
  inj : ∀ i j k, next i = some k → next j = some k → i = j
  ascends : ∃ pos : ℕ → ℚ, ∀ i j, next i = some j → pos i < pos j

variable {next : Links} {size i j m n p : ℕ}

theorem visits_of_mem_visited (h : j ∈ visited next n i) : Visits next i j := by
  induction n generalizing i with
  | zero => cases h
  | succ n ih =>
      rw [visited] at h
      rcases List.mem_cons.mp h with rfl | h
      · exact Relation.ReflTransGen.refl
      · cases hnext : next i with
        | none => simp [hnext] at h
        | some k =>
            simp only [hnext] at h
            exact (ih h).head hnext

namespace Linked

theorem ne_self (h : Linked size next) : next i ≠ some i := by
  obtain ⟨pos, hpos⟩ := h.ascends
  exact fun hi => (hpos i i hi).false

theorem visited_succ (h : Linked size next) (hi : i < size) :
    visited next (size + 1) i = visited next size i := by
  obtain ⟨pos, hpos⟩ := h.ascends
  -- the nodes above `i`, which a walk from `i` can still come to
  have hsteps : ∀ n i, ((Finset.range size).filter fun a => pos i < pos a).card < n →
      visited next (n + 1) i = visited next n i := by
    intro n
    induction n with
    | zero => intro i hi; exact absurd hi (Nat.not_lt_zero _)
    | succ n ih =>
        intro i hi
        rw [visited, visited]
        cases hnext : next i with
        | none => rfl
        | some j =>
            have hj : ((Finset.range size).filter fun a => pos j < pos a).card <
                ((Finset.range size).filter fun a => pos i < pos a).card := by
              apply Finset.card_lt_card
              constructor
              · intro a ha
                simp only [Finset.mem_filter] at ha ⊢
                exact ⟨ha.1, (hpos i j hnext).trans ha.2⟩
              · intro hsub
                have hmem : j ∈ (Finset.range size).filter fun a => pos i < pos a := by
                  simp [(h.lt i j hnext).2, hpos i j hnext]
                exact absurd (Finset.mem_filter.mp (hsub hmem)).2 (lt_irrefl _)
            simp only [ih j (by omega)]
  apply hsteps
  have hsub : ((Finset.range size).filter fun a => pos i < pos a) ⊂ Finset.range size :=
    Finset.filter_ssubset.mpr ⟨i, Finset.mem_range.mpr hi, lt_irrefl _⟩
  simpa using Finset.card_lt_card hsub

theorem mem_visited_iff (h : Linked size next) (hi : i < size) :
    j ∈ visited next size i ↔ Visits next i j := by
  refine ⟨visits_of_mem_visited, fun hv => ?_⟩
  induction hv using Relation.ReflTransGen.head_induction_on with
  | refl =>
      obtain ⟨s, rfl⟩ := Nat.exists_eq_add_of_lt hi
      rw [visited]
      exact List.mem_cons_self
  | @head a b hab hbj ih =>
      have hb := ih (h.lt a b hab).2
      rw [← h.visited_succ hi, visited, hab]
      exact List.mem_cons_of_mem a hb

end Linked

def insertAfter (next : Links) (m n : ℕ) : Links :=
  Function.update (Function.update next n (next m)) m (some n)

section InsertAfter

variable (hmn : m ≠ n)

include hmn

theorem insertAfter_eq_some_iff :
    insertAfter next m n i = some j ↔
      i = m ∧ j = n ∨ i = n ∧ next m = some j ∨ i ≠ m ∧ i ≠ n ∧ next i = some j := by
  unfold insertAfter
  by_cases him : i = m
  · subst him
    simp [hmn, eq_comm]
  · by_cases hin : i = n
    · subst hin
      simp [him]
    · simp [him, hin]

theorem Linked.insertAfter (h : Linked size next) (hm : m < size) (hn : n < size)
    (hnext : next n = none) (hfresh : ∀ i, next i ≠ some n) :
    Linked size (insertAfter next m n) := by
  refine ⟨?_, ?_, ?_⟩
  · intro i j hij
    rcases (insertAfter_eq_some_iff hmn).mp hij with ⟨rfl, rfl⟩ | ⟨rfl, hj⟩ | ⟨-, -, hj⟩
    · exact ⟨hm, hn⟩
    · exact ⟨hn, (h.lt m j hj).2⟩
    · exact h.lt i j hj
  · intro i j k hi hj
    rcases (insertAfter_eq_some_iff hmn).mp hi with ⟨rfl, rfl⟩ | ⟨rfl, hi'⟩ | ⟨him, hin, hi'⟩
    · rcases (insertAfter_eq_some_iff hmn).mp hj with ⟨rfl, -⟩ | ⟨-, hj'⟩ | ⟨-, -, hj'⟩
      · rfl
      · exact absurd hj' (hfresh _)
      · exact absurd hj' (hfresh _)
    · rcases (insertAfter_eq_some_iff hmn).mp hj with ⟨-, rfl⟩ | ⟨rfl, -⟩ | ⟨hjm, -, hj'⟩
      · exact absurd hi' (hfresh _)
      · rfl
      · exact absurd (h.inj _ _ _ hj' hi') hjm
    · rcases (insertAfter_eq_some_iff hmn).mp hj with ⟨-, rfl⟩ | ⟨-, hj'⟩ | ⟨-, -, hj'⟩
      · exact absurd hi' (hfresh _)
      · exact absurd (h.inj _ _ _ hi' hj') him
      · exact h.inj _ _ _ hi' hj'
  · obtain ⟨pos, hpos⟩ := h.ascends
    -- the new node stands between `m` and what followed it
    obtain ⟨q, hmq, hqn⟩ : ∃ q, pos m < q ∧ ∀ k, next m = some k → q < pos k := by
      cases hk : next m with
      | none => exact ⟨pos m + 1, lt_add_one _, by simp⟩
      | some k =>
          obtain ⟨q, h1, h2⟩ := exists_between (hpos m k hk)
          refine ⟨q, h1, ?_⟩
          rintro _ ⟨⟩
          exact h2
    refine ⟨Function.update pos n q, ?_⟩
    intro i j hij
    rcases (insertAfter_eq_some_iff hmn).mp hij with ⟨rfl, rfl⟩ | ⟨rfl, hj⟩ | ⟨-, hin, hj⟩
    · simpa [hmn] using hmq
    · have hjn : j ≠ i := fun heq => hfresh m (heq ▸ hj)
      simpa [hjn] using hqn j hj
    · have hjn : j ≠ n := fun heq => hfresh i (heq ▸ hj)
      simpa [hin, hjn] using hpos i j hj

theorem Visits.insertAfter (hnext : next n = none) (h : Visits next i j) :
    Visits (insertAfter next m n) i j := by
  induction h with
  | refl => exact Relation.ReflTransGen.refl
  | @tail a b hia hab ih =>
      by_cases ham : a = m
      · have hn : Kit.insertAfter next m n a = some n :=
          (insertAfter_eq_some_iff hmn).mpr (.inl ⟨ham, rfl⟩)
        have hb : Kit.insertAfter next m n n = some b :=
          (insertAfter_eq_some_iff hmn).mpr (.inr (.inl ⟨rfl, ham ▸ hab⟩))
        exact (ih.tail hn).tail hb
      · have han : a ≠ n := by
          rintro rfl
          rw [hnext] at hab
          cases hab
        exact ih.tail ((insertAfter_eq_some_iff hmn).mpr (.inr (.inr ⟨ham, han, hab⟩)))

end InsertAfter

/-- `n` takes the place of `m`, which `p` leads to. -/
def replace (next : Links) (p m n : ℕ) : Links :=
  Function.update (Function.update (Function.update next p (some n)) n (next m)) m none

section Replace

variable (h : Linked size next) (hp : next p = some m) (hnext : next n = none)

include h hp hnext

theorem replace_eq_some_iff :
    replace next p m n i = some j ↔
      i = p ∧ j = n ∨ i = n ∧ next m = some j ∨ i ≠ p ∧ i ≠ n ∧ i ≠ m ∧ next i = some j := by
  have hpm : p ≠ m := by
    rintro rfl
    exact h.ne_self hp
  have hpn : p ≠ n := by
    rintro rfl
    rw [hp] at hnext
    cases hnext
  unfold replace
  by_cases him : i = m
  · subst him
    by_cases hin : i = n
    · subst hin
      simp [hnext, hpm.symm]
    · simp [hin, hpm.symm]
  · by_cases hin : i = n
    · subst hin
      simp [him, hpn.symm]
    · by_cases hip : i = p
      · subst hip
        simp [him, hin, eq_comm]
      · simp [him, hin, hip]

theorem Linked.replace (hn : n < size) (hfresh : ∀ i, next i ≠ some n) :
    Linked size (replace next p m n) := by
  have hiff {i j : ℕ} := replace_eq_some_iff (i := i) (j := j) h hp hnext
  refine ⟨?_, ?_, ?_⟩
  · intro i j hij
    rcases hiff.mp hij with ⟨rfl, rfl⟩ | ⟨rfl, hj⟩ | ⟨-, -, -, hj⟩
    · exact ⟨(h.lt _ _ hp).1, hn⟩
    · exact ⟨hn, (h.lt _ _ hj).2⟩
    · exact h.lt i j hj
  · intro i j k hi hj
    rcases hiff.mp hi with ⟨rfl, rfl⟩ | ⟨rfl, hi'⟩ | ⟨hip, hin, him, hi'⟩
    · rcases hiff.mp hj with ⟨rfl, -⟩ | ⟨-, hj'⟩ | ⟨-, -, -, hj'⟩
      · rfl
      · exact absurd hj' (hfresh _)
      · exact absurd hj' (hfresh _)
    · rcases hiff.mp hj with ⟨-, rfl⟩ | ⟨rfl, -⟩ | ⟨-, -, hjm, hj'⟩
      · exact absurd hi' (hfresh _)
      · rfl
      · exact absurd (h.inj _ _ _ hj' hi') hjm
    · rcases hiff.mp hj with ⟨-, rfl⟩ | ⟨-, hj'⟩ | ⟨-, -, -, hj'⟩
      · exact absurd hi' (hfresh _)
      · exact absurd (h.inj _ _ _ hi' hj') him
      · exact h.inj _ _ _ hi' hj'
  · obtain ⟨pos, hpos⟩ := h.ascends
    refine ⟨Function.update pos n (pos m), ?_⟩
    intro i j hij
    rcases hiff.mp hij with ⟨rfl, rfl⟩ | ⟨rfl, hj⟩ | ⟨-, hin, -, hj⟩
    · have hpn : i ≠ j := by
        rintro rfl
        rw [hp] at hnext
        cases hnext
      simpa [hpn] using hpos i m hp
    · have hjn : j ≠ i := fun heq => hfresh m (heq ▸ hj)
      simpa [hjn] using hpos m j hj
    · have hjn : j ≠ n := fun heq => hfresh i (heq ▸ hj)
      simpa [hin, hjn] using hpos i j hj

/-- Walks stay, with `n` for `m`. -/
theorem Visits.replace (hv : Visits next i j) :
    Visits (replace next p m n) (if i = m then n else i) (if j = m then n else j) := by
  have hiff {i j : ℕ} := replace_eq_some_iff (i := i) (j := j) h hp hnext
  induction hv with
  | refl => exact Relation.ReflTransGen.refl
  | @tail a b hia hab ih =>
      refine ih.tail (hiff.mpr ?_)
      have han : a ≠ n := by
        rintro rfl
        rw [hnext] at hab
        cases hab
      by_cases ham : a = m
      · subst ham
        have hba : b ≠ a := by
          rintro rfl
          exact h.ne_self hab
        rw [if_pos rfl, if_neg hba]
        exact .inr (.inl ⟨rfl, hab⟩)
      · rw [if_neg ham]
        by_cases hbm : b = m
        · subst hbm
          rw [if_pos rfl]
          exact .inl ⟨h.inj _ _ _ hab hp, rfl⟩
        · have hap : a ≠ p := by
            rintro rfl
            rw [hp] at hab
            exact hbm (Option.some.inj hab).symm
          rw [if_neg hbm]
          exact .inr (.inr ⟨hap, han, ham, hab⟩)

end Replace

end Kit
