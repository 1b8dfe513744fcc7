import SoftRenderer.Kit.Inheritance

/-!
# Series of cached lookups

A cached lookup fills the classes that it passes with what it finds there anyway. So a series of
lookups changes the answer of no later one, and the cache it leaves is known from the set of the
classes asked: neither their order nor repetitions matter.
-/

namespace Kit.Hierarchy

variable {C V : Type} [Preorder C] {h : Hierarchy C} [WellFoundedLT C] {cache : C → Option V}
  {b c d e : C} {w : V}

def answer (h : Hierarchy C) (cache : C → Option V) (b : C) : Option V :=
  (h.find cache b).map Prod.snd

theorem find_of_nothing_between (hcb : h.Inherits c b)
    (hn : ∀ a, h.Inherits c a → h.Inherits a b → a ≠ b → cache a = none) :
    h.find cache c = h.find cache b := by
  induction hcb using Relation.ReflTransGen.head_induction_on with
  | refl => rfl
  | @head a d hs hdb ih =>
      have hne : a ≠ b := by
        rintro rfl
        exact (h.super_lt hs).not_ge (Inherits.le hdb)
      have ha := hn a Relation.ReflTransGen.refl (Relation.ReflTransGen.head hs hdb) hne
      rw [find_of_super ha hs]
      exact ih fun x hx hxb => hn x (Relation.ReflTransGen.head hs hx) hxb

theorem Passes.eq_none (hp : h.Passes cache c b) : cache b = none := by
  obtain ⟨e, w, hf, hcb, hbe, hne⟩ := hp
  exact own_eq_none_of_find (find_between hf hcb hbe) hne

theorem Passes.answer_eq (hp : h.Passes cache c b) : h.answer cache c = h.answer cache b := by
  obtain ⟨e, w, hf, hcb, hbe, -⟩ := hp
  rw [answer, answer, hf, find_between hf hcb hbe]

theorem Passes.answer_ne_none (hp : h.Passes cache c b) : h.answer cache b ≠ none := by
  rw [← hp.answer_eq]
  obtain ⟨e, w, hf, -⟩ := hp
  simp [answer, hf]

theorem Passes.between {a : C} (hp : h.Passes cache c b) (hca : h.Inherits c a)
    (hab : h.Inherits a b) : h.Passes cache c a := by
  obtain ⟨e, w, hf, hcb, hbe, hne⟩ := hp
  refine ⟨e, w, hf, hca, hab.trans hbe, ?_⟩
  rintro rfl
  exact hne (Inherits.antisymm hbe hab)

theorem passes_of_nothing_between (hcb : h.Inherits c b)
    (hn : ∀ a, h.Inherits c a → h.Inherits a b → cache a = none) (ha : h.answer cache b ≠ none) :
    h.Passes cache c b := by
  have hf := find_of_nothing_between hcb fun a hca hab _ => hn a hca hab
  cases hb : h.find cache b with
  | none => simp [answer, hb] at ha
  | some x =>
      obtain ⟨hbe, hx⟩ := find_spec hb
      refine ⟨x.1, x.2, hf.trans hb, hcb, hbe, ?_⟩
      intro he
      rw [← he, hn b hcb Relation.ReflTransGen.refl] at hx
      cases hx

/-- Every class that a lookup from one of `cs` passes holds its answer, and the others what they
held. -/
structure Filled (h : Hierarchy C) (cache : C → Option V) (cs : List C) (cache' : C → Option V) :
    Prop where
  passed : ∀ c ∈ cs, ∀ b, h.Passes cache c b → cache' b = h.answer cache b
  untouched : ∀ b, (∀ c ∈ cs, ¬ h.Passes cache c b) → cache' b = cache b

namespace Filled

variable {cs ds : List C} {cache' cache'' : C → Option V}

theorem nil : h.Filled cache [] cache := ⟨fun _ hc => absurd hc List.not_mem_nil, fun _ _ => rfl⟩

/-- The cache depends on the set of the classes only. -/
theorem unique (h1 : h.Filled cache cs cache') (h2 : h.Filled cache ds cache'')
    (hset : ∀ c, c ∈ cs ↔ c ∈ ds) : cache' = cache'' := by
  funext b
  by_cases hb : ∃ c ∈ cs, h.Passes cache c b
  · obtain ⟨c, hc, hp⟩ := hb
    rw [h1.passed c hc b hp, h2.passed c ((hset c).mp hc) b hp]
  · have hnone : ∀ c ∈ cs, ¬ h.Passes cache c b := fun c hc hp => hb ⟨c, hc, hp⟩
    rw [h1.untouched b hnone, h2.untouched b fun c hc => hnone c ((hset c).mpr hc)]

theorem eq_none (hf : h.Filled cache cs cache') (hb : cache' b = none) : cache b = none := by
  by_cases hp : ∃ c ∈ cs, h.Passes cache c b
  · obtain ⟨c, hc, hp⟩ := hp
    exact hp.eq_none
  · rw [← hf.untouched b fun c hc hpc => hp ⟨c, hc, hpc⟩, hb]

theorem answer_eq (hf : h.Filled cache cs cache') (b : C) :
    h.answer cache' b = h.answer cache b := by
  induction b using h.find_induction cache' with
  | held b v hv =>
      have hleft : h.answer cache' b = some v := by rw [answer, find_of_own hv, Option.map_some]
      rw [hleft, ← hv]
      by_cases hp : ∃ c ∈ cs, h.Passes cache c b
      · obtain ⟨c, hc, hp⟩ := hp
        exact hf.passed c hc b hp
      · have hsame := hf.untouched b fun c hc hpc => hp ⟨c, hc, hpc⟩
        rw [hsame] at hv ⊢
        rw [answer, find_of_own hv, hv, Option.map_some]
  | root b hn hs => rw [answer, answer, find_of_root hn hs, find_of_root (hf.eq_none hn) hs]
  | step b d hn hs ih =>
      rw [answer, answer, find_of_super hn hs, find_of_super (hf.eq_none hn) hs]
      exact ih

theorem passes (hf : h.Filled cache cs cache') (hp : h.Passes cache' c b) :
    h.Passes cache c b := by
  obtain ⟨e, w, -, hcb, -⟩ := id hp
  refine passes_of_nothing_between hcb (fun a hca hab => ?_) ?_
  · exact hf.eq_none (hp.between hca hab).eq_none
  · rw [← hf.answer_eq]
    exact hp.answer_ne_none

/-- A class that the next lookup would pass is passed by it, or was passed before. -/
theorem passes_or (hf : h.Filled cache cs cache') (hp : h.Passes cache c b) :
    h.Passes cache' c b ∨ ∃ c' ∈ cs, h.Passes cache c' b := by
  obtain ⟨e, w, hfc, hcb, hbe, hne⟩ := id hp
  by_cases hbetween : ∀ a, h.Inherits c a → h.Inherits a b → cache' a = none
  · refine .inl (passes_of_nothing_between hcb hbetween ?_)
    rw [hf.answer_eq]
    exact hp.answer_ne_none
  · push Not at hbetween
    obtain ⟨a, hca, hab, ha⟩ := hbetween
    have hpa := hp.between hca hab
    by_cases hpassed : ∃ c' ∈ cs, h.Passes cache c' a
    · obtain ⟨c', hc', e', w', hfc', hca', hae', -⟩ := hpassed
      have hsame : some (e, w) = some (e', w') :=
        (find_between hfc hca (hab.trans hbe)).symm.trans (find_between hfc' hca' hae')
      obtain ⟨rfl, rfl⟩ : e = e' ∧ w = w' := by simpa using hsame
      exact .inr ⟨c', hc', e, w, hfc', hca'.trans hab, hbe, hne⟩
    · rw [hf.untouched a fun c' hc' hp' => hpassed ⟨c', hc', hp'⟩] at ha
      exact absurd hpa.eq_none ha

theorem fill (hf : h.Filled cache cs cache') (c : C) :
    h.Filled cache (cs ++ [c]) (h.fill cache' c) := by
  have hanswer {b : C} (hp : h.Passes cache' c b) : h.fill cache' c b = h.answer cache b := by
    rw [Hierarchy.fill, if_pos hp]
    exact (hf.answer_eq c).trans (hf.passes hp).answer_eq
  constructor
  · intro d hd b hp
    by_cases hpc : h.Passes cache' c b
    · exact hanswer hpc
    · rw [Hierarchy.fill, if_neg hpc]
      rcases List.mem_append.mp hd with hd | hd
      · exact hf.passed d hd b hp
      · obtain rfl := List.mem_singleton.mp hd
        obtain ⟨c', hc', hp'⟩ := (hf.passes_or hp).resolve_left hpc
        exact hf.passed c' hc' b hp'
  · intro b hb
    have hpc : ¬ h.Passes cache' c b := fun hp => hb c (by simp) (hf.passes hp)
    rw [Hierarchy.fill, if_neg hpc]
    exact hf.untouched b fun d hd => hb d (List.mem_append_left _ hd)

end Filled

end Kit.Hierarchy
