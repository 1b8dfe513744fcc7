import SoftRenderer.Kit.Links

/-!
# Chained scatter tables

Keys in numbered nodes. Every key has a home, and is found on the walk from its home. A new key goes
into its home. Where another key stands there, the one that is not at home gives way to a free node:
the new key, which is linked behind its home, or the other one, which is linked in its old place.
-/

namespace Kit

variable {κ : Type}

theorem update_eq_some_iff {key : ℕ → Option κ} {n i : ℕ} {k k' : κ} :
    Function.update key n (some k) i = some k' ↔ i = n ∧ k' = k ∨ i ≠ n ∧ key i = some k' := by
  by_cases hin : i = n
  · subst hin
    simp [eq_comm]
  · simp [hin]

/-- A key that is not in its home shares it with a key that is. -/
structure Scattered (size : ℕ) (home : κ → ℕ) (key : ℕ → Option κ) (next : Links) : Prop where
  linked : Linked size next
  key_lt : ∀ i k, key i = some k → i < size
  inj : ∀ i j k, key i = some k → key j = some k → i = j
  unlinked : ∀ i, key i = none → next i = none ∧ ∀ j, next j ≠ some i
  visits : ∀ i k, key i = some k → Visits next (home k) i
  collides : ∀ i k, key i = some k → ∃ k', key (home k) = some k' ∧ home k' = home k

namespace Scattered

variable {size : ℕ} {home : κ → ℕ} {key : ℕ → Option κ} {next : Links} {k k' : κ} {i m n p : ℕ}

theorem empty (size : ℕ) (home : κ → ℕ) : Scattered size home (fun _ => none) fun _ => none where
  linked := ⟨by simp, by simp, ⟨fun _ => 0, by simp⟩⟩
  key_lt := by simp
  inj := by simp
  unlinked := by simp
  visits := by simp
  collides := by simp

theorem find_eq_some_iff [DecidableEq κ] (h : Scattered size home key next)
    (hk : home k < size) :
    ((visited next size (home k)).find? fun i => key i = some k) = some i ↔ key i = some k := by
  constructor
  · intro hfind
    simpa using List.find?_some hfind
  · intro hi
    have hmem := (h.linked.mem_visited_iff hk).mpr (h.visits i k hi)
    cases hfind : (visited next size (home k)).find? fun i => key i = some k with
    | none =>
        rw [List.find?_eq_none] at hfind
        exact absurd hi (by simpa using hfind i hmem)
    | some j =>
        have hj : key j = some k := by simpa using List.find?_some hfind
        rw [h.inj i j k hi hj]

theorem exists_prev (h : Scattered size home key next) (hm : key m = some k) (hk : home k ≠ m) :
    ∃ p, next p = some m ∧ Visits next (home k) p := by
  rcases (Relation.ReflTransGen.cases_tail_iff _ _ _).mp (h.visits m k hm) with heq | hprev
  · exact absurd heq.symm hk
  · obtain ⟨p, hp, hpm⟩ := hprev
    exact ⟨p, hpm, hp⟩

theorem key_ne_none_of_next (h : Scattered size home key next) (hp : next p = some m) :
    key p ≠ none ∧ key m ≠ none := by
  refine ⟨fun hnone => ?_, fun hnone => (h.unlinked m hnone).2 p hp⟩
  rw [(h.unlinked p hnone).1] at hp
  cases hp

theorem inj_update (h : Scattered size home key next) (hnew : ∀ i, key i ≠ some k) (i j : ℕ)
    (k' : κ) (hi : Function.update key n (some k) i = some k')
    (hj : Function.update key n (some k) j = some k') : i = j := by
  rcases update_eq_some_iff.mp hi with ⟨rfl, rfl⟩ | ⟨-, hi'⟩
  · rcases update_eq_some_iff.mp hj with ⟨rfl, -⟩ | ⟨-, hj'⟩
    · rfl
    · exact absurd hj' (hnew j)
  · rcases update_eq_some_iff.mp hj with ⟨-, rfl⟩ | ⟨-, hj'⟩
    · exact absurd hi' (hnew i)
    · exact h.inj i j k' hi' hj'

theorem fill (h : Scattered size home key next) (hk : home k < size)
    (hnew : ∀ i, key i ≠ some k) :
    Scattered size home (Function.update key (home k) (some k)) next := by
  refine ⟨h.linked, ?_, ?_, ?_, ?_, ?_⟩
  · intro i k' hi
    rcases update_eq_some_iff.mp hi with ⟨rfl, -⟩ | ⟨-, hi'⟩
    · exact hk
    · exact h.key_lt i k' hi'
  · exact h.inj_update hnew
  · intro i hi
    have him : i ≠ home k := by
      rintro rfl
      simp at hi
    rw [Function.update_of_ne him] at hi
    exact h.unlinked i hi
  · intro i k' hi
    rcases update_eq_some_iff.mp hi with ⟨rfl, rfl⟩ | ⟨-, hi'⟩
    · exact Relation.ReflTransGen.refl
    · exact h.visits i k' hi'
  · intro i k' hi
    by_cases hhome : home k' = home k
    · exact ⟨k, by rw [hhome, Function.update_self], hhome.symm⟩
    · rcases update_eq_some_iff.mp hi with ⟨-, rfl⟩ | ⟨-, hi'⟩
      · exact absurd rfl hhome
      · obtain ⟨k₀, hk₀, hsame⟩ := h.collides i k' hi'
        exact ⟨k₀, by rw [Function.update_of_ne hhome, hk₀], hsame⟩

/-- A key in a free node behind its home, where another key is at home. -/
theorem behind (h : Scattered size home key next) (hk' : key (home k) = some k')
    (hhome : home k' = home k) (hn : n < size) (hfree : key n = none)
    (hnew : ∀ i, key i ≠ some k) :
    Scattered size home (Function.update key n (some k)) (insertAfter next (home k) n) := by
  obtain ⟨hnext, hfresh⟩ := h.unlinked n hfree
  have hmn : home k ≠ n := by
    intro heq
    rw [heq, hfree] at hk'
    cases hk'
  have hm := h.key_lt _ _ hk'
  refine ⟨h.linked.insertAfter hmn hm hn hnext hfresh, ?_, ?_, ?_, ?_, ?_⟩
  · intro i k' hi
    rcases update_eq_some_iff.mp hi with ⟨rfl, -⟩ | ⟨-, hi'⟩
    · exact hn
    · exact h.key_lt i k' hi'
  · exact h.inj_update hnew
  · intro i hi
    have hin : i ≠ n := by
      rintro rfl
      simp at hi
    rw [Function.update_of_ne hin] at hi
    obtain ⟨hnone, hlinks⟩ := h.unlinked i hi
    have him : i ≠ home k := by
      rintro rfl
      rw [hk'] at hi
      cases hi
    refine ⟨?_, fun j hj => ?_⟩
    · rw [insertAfter, Function.update_of_ne him, Function.update_of_ne hin, hnone]
    · rcases (insertAfter_eq_some_iff hmn).mp hj with ⟨-, rfl⟩ | ⟨-, hj⟩ | ⟨-, -, hj⟩
      · exact hin rfl
      · exact hlinks _ hj
      · exact hlinks _ hj
  · intro i k' hi
    rcases update_eq_some_iff.mp hi with ⟨rfl, rfl⟩ | ⟨-, hi'⟩
    · exact .single ((insertAfter_eq_some_iff hmn).mpr (.inl ⟨rfl, rfl⟩))
    · exact (h.visits i k' hi').insertAfter hmn hnext
  · intro i k₁ hi
    have hold : ∃ k₀, key (home k₁) = some k₀ ∧ home k₀ = home k₁ := by
      rcases update_eq_some_iff.mp hi with ⟨-, rfl⟩ | ⟨-, hi'⟩
      · exact ⟨k', hk', hhome⟩
      · exact h.collides i k₁ hi'
    obtain ⟨k₀, hk₀, hsame⟩ := hold
    have hne : home k₁ ≠ n := by
      intro heq
      rw [heq, hfree] at hk₀
      cases hk₀
    exact ⟨k₀, by rw [Function.update_of_ne hne, hk₀], hsame⟩

theorem home_ne (h : Scattered size home key next) (hm : key m = some k') (hhome : home k' ≠ m)
    (hi : key i = some k) : home k ≠ m := by
  intro heq
  obtain ⟨k₀, hk₀, hsame⟩ := h.collides i k hi
  rw [heq, hm] at hk₀
  obtain rfl := Option.some.inj hk₀
  exact hhome (hsame.trans heq)

theorem move (h : Scattered size home key next) (hm : key m = some k') (hhome : home k' ≠ m)
    (hp : next p = some m) (hn : n < size) (hfree : key n = none) :
    Scattered size home (Function.update (Function.update key n (some k')) m none)
      (replace next p m n) := by
  obtain ⟨hnext, hfresh⟩ := h.unlinked n hfree
  have hiff {i j : ℕ} := replace_eq_some_iff (i := i) (j := j) h.linked hp hnext
  have hkey {i : ℕ} {k₁ : κ}
      (hi : Function.update (Function.update key n (some k')) m none i = some k₁) :
      i ≠ m ∧ (i = n ∧ k₁ = k' ∨ i ≠ n ∧ key i = some k₁) := by
    have him : i ≠ m := by
      rintro rfl
      simp at hi
    rw [Function.update_of_ne him] at hi
    exact ⟨him, update_eq_some_iff.mp hi⟩
  have hold {i : ℕ} {k₁ : κ}
      (hi : Function.update (Function.update key n (some k')) m none i = some k₁) :
      ∃ j, key j = some k₁ := by
    rcases hkey hi with ⟨-, ⟨-, rfl⟩ | ⟨-, hi'⟩⟩
    · exact ⟨m, hm⟩
    · exact ⟨i, hi'⟩
  refine ⟨h.linked.replace hp hnext hn hfresh, ?_, ?_, ?_, ?_, ?_⟩
  · intro i k₁ hi
    rcases hkey hi with ⟨-, ⟨rfl, -⟩ | ⟨-, hi'⟩⟩
    · exact hn
    · exact h.key_lt i k₁ hi'
  · intro i j k₁ hi hj
    rcases hkey hi with ⟨him, ⟨rfl, rfl⟩ | ⟨-, hi'⟩⟩
    · rcases hkey hj with ⟨hjm, ⟨rfl, -⟩ | ⟨-, hj'⟩⟩
      · rfl
      · exact absurd (h.inj _ _ _ hj' hm) hjm
    · rcases hkey hj with ⟨-, ⟨-, rfl⟩ | ⟨-, hj'⟩⟩
      · exact absurd (h.inj _ _ _ hi' hm) him
      · exact h.inj i j k₁ hi' hj'
  · intro i hi
    by_cases him : i = m
    · subst him
      refine ⟨by rw [replace, Function.update_self], fun j hj => ?_⟩
      -- only `p` led to `m`, and it leads to `n` now
      rcases hiff.mp hj with ⟨-, rfl⟩ | ⟨-, hj⟩ | ⟨hjp, -, -, hj⟩
      · rw [hfree] at hm
        cases hm
      · exact h.linked.ne_self hj
      · exact hjp (h.linked.inj _ _ _ hj hp)
    · rw [Function.update_of_ne him] at hi
      have hin : i ≠ n := by
        rintro rfl
        simp at hi
      rw [Function.update_of_ne hin] at hi
      obtain ⟨hnone, hlinks⟩ := h.unlinked i hi
      have hip : i ≠ p := fun heq => (h.key_ne_none_of_next hp).1 (heq ▸ hi)
      refine ⟨?_, fun j hj => ?_⟩
      · rw [replace, Function.update_of_ne him, Function.update_of_ne hin,
          Function.update_of_ne hip, hnone]
      · rcases hiff.mp hj with ⟨-, rfl⟩ | ⟨-, hj⟩ | ⟨-, -, -, hj⟩
        · exact hin rfl
        · exact hlinks _ hj
        · exact hlinks _ hj
  · intro i k₁ hi
    rcases hkey hi with ⟨him, ⟨rfl, rfl⟩ | ⟨-, hi'⟩⟩
    · have hv := (h.visits _ _ hm).replace h.linked hp hnext
      rwa [if_neg hhome, if_pos rfl] at hv
    · have hv := (h.visits i k₁ hi').replace h.linked hp hnext
      rwa [if_neg (h.home_ne hm hhome hi'), if_neg him] at hv
  · intro i k₁ hi
    obtain ⟨j, hj⟩ := hold hi
    obtain ⟨k₀, hk₀, hsame⟩ := h.collides j k₁ hj
    have hne : home k₁ ≠ n := by
      intro heq
      rw [heq, hfree] at hk₀
      cases hk₀
    have hne' : home k₁ ≠ m := h.home_ne hm hhome hj
    exact ⟨k₀, by rw [Function.update_of_ne hne', Function.update_of_ne hne, hk₀], hsame⟩

/-- A key in its home, where another key stood that was not at home and gives way to a free node. -/
theorem displace (h : Scattered size home key next) (hk' : key (home k) = some k')
    (hhome : home k' ≠ home k) (hp : next p = some (home k)) (hn : n < size)
    (hfree : key n = none) (hnew : ∀ i, key i ≠ some k) :
    Scattered size home (Function.update (Function.update key n (some k')) (home k) (some k))
      (replace next p (home k) n) := by
  have hmove := h.move hk' hhome hp hn hfree
  have hnew' : ∀ i, Function.update (Function.update key n (some k')) (home k) none i ≠
      some k := by
    intro i hi
    have him : i ≠ home k := by
      rintro rfl
      simp at hi
    rw [Function.update_of_ne him] at hi
    rcases update_eq_some_iff.mp hi with ⟨-, rfl⟩ | ⟨-, hi'⟩
    · exact hhome rfl
    · exact hnew i hi'
  have hfill := hmove.fill (h.key_lt _ _ hk') hnew'
  rwa [Function.update_idem] at hfill

end Scattered

end Kit
