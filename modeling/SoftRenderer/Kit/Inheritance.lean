import Mathlib

/-!
# Inheritance along a chain

Every class has at most one superclass, which stands below it in a well-founded order, and a
class inherits what the nearest class of its chain defines. One name is followed here: `own` is
what each class defines for it. A cache keeps inherited values at the classes a lookup passed;
what that does to later lookups is worked out in the second half.
-/

namespace Kit

structure Hierarchy (C : Type) [Preorder C] where
  super : C → Option C
  super_lt : ∀ {c d : C}, super c = some d → d < c

namespace Hierarchy

variable {C V : Type} [Preorder C] (h : Hierarchy C)

def Inherits (c d : C) : Prop := Relation.ReflTransGen (fun a b => h.super a = some b) c d

theorem Inherits.le {h : Hierarchy C} {c d : C} (hcd : h.Inherits c d) : d ≤ c := by
  induction hcd with
  | refl => exact le_rfl
  | tail _ hs ih => exact (h.super_lt hs).le.trans ih

theorem inherits_iff_of_super {c d e : C} (hs : h.super c = some d) (hce : c ≠ e) :
    h.Inherits c e ↔ h.Inherits d e := by
  constructor
  · intro hi
    rcases Relation.ReflTransGen.cases_head hi with he | ⟨b, hb, hbe⟩
    · exact absurd he hce
    · obtain rfl : d = b := Option.some.inj (hs.symm.trans hb)
      exact hbe
  · exact fun hi => Relation.ReflTransGen.head hs hi

theorem not_inherits_of_root {c d : C} (hs : h.super c = none) (hcd : c ≠ d) :
    ¬ h.Inherits c d := by
  intro hi
  rcases Relation.ReflTransGen.cases_head hi with he | ⟨b, hb, -⟩
  · exact hcd he
  · rw [hs] at hb
    cases hb

theorem Inherits.antisymm {h : Hierarchy C} {c d : C} (hcd : h.Inherits c d)
    (hdc : h.Inherits d c) : c = d := by
  rcases Relation.ReflTransGen.cases_head hcd with he | ⟨b, hb, hbd⟩
  · exact he
  · exact absurd (hdc.le.trans (Inherits.le hbd)) (h.super_lt hb).not_ge

theorem Inherits.total {h : Hierarchy C} {c d e : C} (hcd : h.Inherits c d)
    (hce : h.Inherits c e) : h.Inherits d e ∨ h.Inherits e d :=
  Relation.ReflTransGen.total_of_right_unique
    (fun _ _ _ hb hb' => Option.some.inj (hb.symm.trans hb')) hcd hce

/-- The nearest class of the chain that defines the name, with its definition. -/
def find [WellFoundedLT C] (own : C → Option V) (c : C) : Option (C × V) :=
  match own c with
  | some v => some (c, v)
  | none =>
      match _hs : h.super c with
      | none => none
      | some d => find own d
termination_by wellFounded_lt.wrap c
decreasing_by exact h.super_lt _hs

variable [WellFoundedLT C]

/-- Induction along the way of a lookup: a class that defines the name, a root that does not, and
a class that asks its superclass. -/
theorem find_induction (own : C → Option V) {P : C → Prop}
    (held : ∀ c v, own c = some v → P c) (root : ∀ c, own c = none → h.super c = none → P c)
    (step : ∀ c d, own c = none → h.super c = some d → P d → P c) (c : C) : P c := by
  induction c using WellFoundedLT.induction with
  | _ c ih =>
      cases hn : own c with
      | some v => exact held c v hn
      | none =>
          cases hs : h.super c with
          | none => exact root c hn hs
          | some d => exact step c d hn hs (ih d (h.super_lt hs))

variable {h} {own : C → Option V} {b c d e : C} {v w : V}

theorem find_of_own (hv : own c = some v) : h.find own c = some (c, v) := by
  rw [find, hv]

theorem find_of_super (hn : own c = none) (hs : h.super c = some d) :
    h.find own c = h.find own d := by
  rw [find, hn]
  simp only
  split
  · rename_i hs'
    simp [hs] at hs'
  · rename_i d' hs'
    obtain rfl : d = d' := Option.some.inj (hs.symm.trans hs')
    rfl

theorem find_of_root (hn : own c = none) (hs : h.super c = none) : h.find own c = none := by
  rw [find, hn]
  simp only
  split
  · rfl
  · rename_i d' hs'
    simp [hs] at hs'

theorem find_spec (hf : h.find own c = some (e, w)) : h.Inherits c e ∧ own e = some w := by
  induction c using h.find_induction own with
  | held c v hv =>
      obtain ⟨rfl, rfl⟩ : c = e ∧ v = w := by simpa [find_of_own hv] using hf
      exact ⟨Relation.ReflTransGen.refl, hv⟩
  | root c hn hs => simp [find_of_root hn hs] at hf
  | step c d hn hs ih =>
      rw [find_of_super hn hs] at hf
      exact ⟨Relation.ReflTransGen.head hs (ih hf).1, (ih hf).2⟩

theorem find_between (hf : h.find own c = some (e, w)) (hcb : h.Inherits c b)
    (hbe : h.Inherits b e) : h.find own b = some (e, w) := by
  induction hcb using Relation.ReflTransGen.head_induction_on with
  | refl => exact hf
  | @head a d hs hdb ih =>
      cases hn : own a with
      | some v =>
          obtain ⟨rfl, rfl⟩ : a = e ∧ v = w := by simpa [find_of_own hn] using hf
          have hd : a ≤ d := (Inherits.le hbe).trans (Inherits.le hdb)
          exact absurd hd (h.super_lt hs).not_ge
      | none => exact ih (by rwa [find_of_super hn hs] at hf)

theorem exists_find (hce : h.Inherits c e) (hw : own e = some w) :
    ∃ x, h.find own c = some x := by
  induction hce using Relation.ReflTransGen.head_induction_on with
  | refl => exact ⟨(e, w), find_of_own hw⟩
  | @head a d hs hde ih =>
      cases hn : own a with
      | some v => exact ⟨(a, v), find_of_own hn⟩
      | none => rwa [find_of_super hn hs]

theorem own_eq_none_of_find (hf : h.find own b = some (e, w)) (hbe : b ≠ e) : own b = none := by
  cases hn : own b with
  | none => rfl
  | some v =>
      rw [find_of_own hn, Option.some.injEq, Prod.mk.injEq] at hf
      exact absurd hf.1 hbe

open scoped Classical in
theorem find_update [DecidableEq C] (own : C → Option V) (d : C) (v : V) (b : C) :
    h.find (Function.update own d (some v)) b =
      if h.Inherits b d ∧ ∀ e w, h.find own b = some (e, w) → h.Inherits d e then some (d, v)
      else h.find own b := by
  have hself : h.find (Function.update own d (some v)) d = some (d, v) :=
    find_of_own (Function.update_self ..)
  have hd : h.Inherits d d ∧ ∀ e w, h.find own d = some (e, w) → h.Inherits d e :=
    ⟨Relation.ReflTransGen.refl, fun e w hf => (find_spec hf).1⟩
  have hne {b : C} (hbd : b ≠ d) : Function.update own d (some v) b = own b :=
    Function.update_of_ne hbd ..
  induction b using h.find_induction own with
  | held b w hw =>
      by_cases hbd : b = d
      · rw [hbd, hself, if_pos hd]
      · rw [find_of_own hw, find_of_own ((hne hbd).trans hw), if_neg]
        exact fun hi => hbd (Inherits.antisymm hi.1 (hi.2 b w rfl))
  | root b hn hs =>
      by_cases hbd : b = d
      · rw [hbd, hself, if_pos hd]
      · rw [find_of_root hn hs, find_of_root ((hne hbd).trans hn) hs, if_neg]
        exact fun hi => not_inherits_of_root h hs hbd hi.1
  | step b a hn hs ih =>
      by_cases hbd : b = d
      · rw [hbd, hself, if_pos hd]
      · rw [find_of_super hn hs, find_of_super ((hne hbd).trans hn) hs, ih,
          inherits_iff_of_super h hs hbd]

/-- The class `b` lies below the class where a lookup from `c` ends, on the way to it. -/
def Passes (h : Hierarchy C) (own : C → Option V) (c b : C) : Prop :=
  ∃ e w, h.find own c = some (e, w) ∧ h.Inherits c b ∧ h.Inherits b e ∧ b ≠ e

open scoped Classical in
/-- A lookup leaves what it found at every class it passed. -/
noncomputable def fill (h : Hierarchy C) (cache : C → Option V) (c : C) : C → Option V :=
  fun b => if h.Passes cache c b then (h.find cache c).map Prod.snd else cache b

theorem fill_of_own {cache : C → Option V} (hv : cache c = some v) : h.fill cache c = cache := by
  funext b
  rw [fill, if_neg]
  rintro ⟨e, w, hf, hcb, hbe, hne⟩
  obtain ⟨rfl, -⟩ : c = e ∧ v = w := by simpa [find_of_own hv] using hf
  exact hne (Inherits.antisymm hbe hcb)

theorem fill_of_not_found {cache : C → Option V} (hf : h.find cache c = none) :
    h.fill cache c = cache := by
  funext b
  rw [fill, if_neg]
  rintro ⟨e, w, hf', -⟩
  rw [hf] at hf'
  cases hf'

theorem fill_ne_none_iff {cache : C → Option V} :
    h.fill cache c b ≠ none ↔ h.Passes cache c b ∨ cache b ≠ none := by
  by_cases hp : h.Passes cache c b
  · obtain ⟨e, w, hf, -⟩ := id hp
    simp [fill, hp, hf]
  · simp [fill, hp]

theorem fill_of_super [DecidableEq C] {cache : C → Option V} (hn : cache c = none)
    (hs : h.super c = some d) :
    h.fill cache c =
      Function.update (h.fill cache d) c ((h.find cache d).map Prod.snd) := by
  have hf : h.find cache c = h.find cache d := find_of_super hn hs
  funext b
  by_cases hb : b = c
  · subst hb
    rw [Function.update_self, fill]
    split_ifs with hp
    · rw [hf]
    · cases hd : h.find cache d with
      | none => exact hn
      | some x =>
          have hx := find_spec (hf.trans hd)
          refine absurd ⟨x.1, x.2, hf.trans hd, Relation.ReflTransGen.refl, hx.1, ?_⟩ hp
          intro he
          rw [← he, hn] at hx
          cases hx.2
  · have hp : h.Passes cache c b ↔ h.Passes cache d b := by
      simp only [Passes, hf, inherits_iff_of_super h hs (Ne.symm hb)]
    rw [Function.update_of_ne hb]
    by_cases hpd : h.Passes cache d b
    · rw [fill, if_pos (hp.mpr hpd), fill, if_pos hpd, hf]
    · rw [fill, if_neg (mt hp.mp hpd), fill, if_neg hpd]

/-- What a cache keeps in every run: each class's own definitions, nothing for a name that is
not defined, and no entry of an inherited name without the entry of the class above. -/
structure Caches (h : Hierarchy C) (own cache : C → Option V) : Prop where
  own_eq : ∀ {b v}, own b = some v → cache b = some v
  found : ∀ {b}, cache b ≠ none → h.find own b ≠ none
  upward : ∀ {b d}, h.super b = some d → own b = none → cache b ≠ none → cache d ≠ none

theorem Caches.empty (h : Hierarchy C) : h.Caches (V := V) (fun _ => none) (fun _ => none) :=
  ⟨fun hv => hv, fun hb => absurd rfl hb, fun _ _ hb => hb⟩

variable {cache : C → Option V}

theorem Caches.own_eq_none (hc : h.Caches own cache) (hb : cache b = none) : own b = none := by
  cases hn : own b with
  | none => rfl
  | some v => rw [hc.own_eq hn] at hb; cases hb

theorem Caches.find_eq (hc : h.Caches own cache) (hf : h.find cache c = some (d, v)) :
    h.find own c = h.find own d := by
  induction c using h.find_induction cache with
  | held c w hw =>
      obtain ⟨rfl, -⟩ : c = d ∧ w = v := by simpa [find_of_own hw] using hf
      rfl
  | root c hn hs => simp [find_of_root hn hs] at hf
  | step c a hn hs ih =>
      rw [find_of_super hn hs] at hf
      rw [find_of_super (hc.own_eq_none hn) hs, ih hf]

theorem Caches.find_of_passes (hc : h.Caches own cache) (hp : h.Passes cache c b) :
    h.Passes own c b ∧ h.find own b = h.find own c := by
  obtain ⟨d, v, hf, hcb, hbd, hne⟩ := hp
  have hcd := hc.find_eq hf
  have hbd' := hc.find_eq (find_between hf hcb hbd)
  have hcache : cache d ≠ none := by simp [(find_spec hf).2]
  obtain ⟨⟨e, w⟩, he⟩ := Option.ne_none_iff_exists'.mp (hc.found hcache)
  have hde := (find_spec he).1
  refine ⟨⟨e, w, hcd.trans he, hcb, hbd.trans hde, ?_⟩, hbd'.trans hcd.symm⟩
  rintro rfl
  exact hne (Inherits.antisymm hbd hde)

theorem Caches.upward_to (hc : h.Caches own cache) (hf : h.find own c = some (e, w))
    (hcb : h.Inherits c b) (hbe : h.Inherits b e) (hcache : cache c ≠ none) :
    cache b ≠ none := by
  induction hcb using Relation.ReflTransGen.head_induction_on with
  | refl => exact hcache
  | @head a d hs hdb ih =>
      have hne : a ≠ e := by
        rintro rfl
        exact absurd ((Inherits.le hbe).trans (Inherits.le hdb)) (h.super_lt hs).not_ge
      have hn := own_eq_none_of_find hf hne
      exact ih (by rwa [find_of_super hn hs] at hf) (hc.upward hs hn hcache)

/-- Seen from the classes that hold no entry yet, a lookup in the cache passes the classes the
plain lookup passes. -/
theorem Caches.passes_iff (hc : h.Caches own cache) (hb : cache b = none) :
    h.Passes cache c b ↔ h.Passes own c b := by
  constructor
  · exact fun hp => (hc.find_of_passes hp).1
  · rintro ⟨e, w, hf, hcb, hbe, hne⟩
    have hcache : cache e = some w := hc.own_eq (find_spec hf).2
    obtain ⟨⟨d, v⟩, hd⟩ := exists_find (hcb.trans hbe) hcache
    have hcd := (find_spec hd).1
    rcases Inherits.total hcb hcd with hbd | hdb
    · refine ⟨d, v, hd, hcb, hbd, ?_⟩
      rintro rfl
      rw [(find_spec hd).2] at hb
      cases hb
    · have hfd := find_between hf hcd (hdb.trans hbe)
      have hcached : cache d ≠ none := by simp [(find_spec hd).2]
      exact absurd hb (hc.upward_to hfd hdb hbe hcached)

theorem Caches.fill_ne_none_iff (hc : h.Caches own cache) :
    h.fill cache c b ≠ none ↔ h.Passes own c b ∨ cache b ≠ none := by
  rw [Hierarchy.fill_ne_none_iff]
  by_cases hb : cache b = none
  · rw [hc.passes_iff hb]
  · simp [hb]

theorem Caches.fill (hc : h.Caches own cache) (c : C) : h.Caches own (h.fill cache c) := by
  refine ⟨?_, ?_, ?_⟩
  · intro b v hv
    rw [Hierarchy.fill, if_neg, hc.own_eq hv]
    intro hp
    obtain ⟨⟨e, w, hf, hcb, hbe, hne⟩, heq⟩ := hc.find_of_passes hp
    rw [own_eq_none_of_find (heq.trans hf) hne] at hv
    cases hv
  · intro b hb
    rcases hc.fill_ne_none_iff.mp hb with ⟨e, w, hf, hcb, hbe, -⟩ | hb
    · rw [find_between hf hcb hbe]
      exact Option.some_ne_none _
    · exact hc.found hb
  · intro b d hs hn hb
    rw [hc.fill_ne_none_iff] at hb ⊢
    rcases hb with ⟨e, w, hf, hcb, hbe, hne⟩ | hb
    · have hde : h.Inherits d e := (inherits_iff_of_super h hs hne).mp hbe
      by_cases hd : d = e
      · right
        simp [hd, hc.own_eq (find_spec hf).2]
      · exact .inl ⟨e, w, hf, hcb.tail hs, hde, hd⟩
    · exact .inr (hc.upward hs hn hb)

theorem Caches.define [DecidableEq C] (hc : h.Caches own cache) (d : C) (v : V) :
    h.Caches (Function.update own d (some v)) (Function.update cache d (some v)) := by
  refine ⟨?_, ?_, ?_⟩
  · intro b w hw
    by_cases hbd : b = d
    · subst hbd
      simpa using hw
    · rw [Function.update_of_ne hbd] at hw ⊢
      exact hc.own_eq hw
  · intro b hb
    rw [find_update]
    split_ifs with hi
    · exact Option.some_ne_none _
    · by_cases hbd : b = d
      · subst hbd
        exact absurd ⟨Relation.ReflTransGen.refl, fun e w hf => (find_spec hf).1⟩ hi
      · exact hc.found (by rwa [Function.update_of_ne hbd] at hb)
  · intro b a hs hn hb
    by_cases hbd : b = d
    · subst hbd
      simp at hn
    · rw [Function.update_of_ne hbd] at hn hb
      by_cases had : a = d
      · simp [had]
      · rw [Function.update_of_ne had]
        exact hc.upward hs hn hb

/-- Lookups in the cache return what plain lookups return. -/
def Agrees (h : Hierarchy C) (own cache : C → Option V) : Prop :=
  ∀ c, (h.find cache c).map Prod.snd = (h.find own c).map Prod.snd

theorem Caches.agrees_iff (hc : h.Caches own cache) :
    h.Agrees own cache ↔ ∀ b w, cache b = some w → (h.find own b).map Prod.snd = some w := by
  constructor
  · intro ha b w hw
    rw [← ha b, find_of_own hw, Option.map_some]
  · intro hw c
    induction c using h.find_induction cache with
    | held c w hn => rw [hw c w hn, find_of_own hn, Option.map_some]
    | root c hn hs => rw [find_of_root hn hs, find_of_root (hc.own_eq_none hn) hs]
    | step c d hn hs ih => rw [find_of_super hn hs, find_of_super (hc.own_eq_none hn) hs, ih]

theorem Caches.agrees_fill (hc : h.Caches own cache) (ha : h.Agrees own cache) (c : C) :
    h.Agrees own (h.fill cache c) := by
  rw [(hc.fill c).agrees_iff]
  intro b w hw
  by_cases hp : h.Passes cache c b
  · rw [Hierarchy.fill, if_pos hp, ha c] at hw
    rw [(hc.find_of_passes hp).2, hw]
  · rw [Hierarchy.fill, if_neg hp] at hw
    exact hc.agrees_iff.mp ha b w hw

/-- A definition leaves the cache in agreement exactly when it changes nothing that a class
below has cached from this class or from above. -/
theorem Caches.agrees_define_iff [DecidableEq C] (hc : h.Caches own cache)
    (ha : h.Agrees own cache) (d : C) (v : V) :
    h.Agrees (Function.update own d (some v)) (Function.update cache d (some v)) ↔
      ∀ b e w, h.Inherits b d → b ≠ d → cache b ≠ none → h.find own b = some (e, w) →
        h.Inherits d e → w = v := by
  rw [(hc.define d v).agrees_iff]
  have hentry := hc.agrees_iff.mp ha
  constructor
  · intro hall b e w hbd hne hb hf hde
    obtain ⟨x, hx⟩ := Option.ne_none_iff_exists'.mp hb
    obtain rfl : w = x := by simpa [hf] using hentry b x hx
    have hnew := hall b w (by rw [Function.update_of_ne hne, hx])
    have habove : ∀ e' w', h.find own b = some (e', w') → h.Inherits d e' := by
      intro e' w' hf'
      obtain ⟨rfl, -⟩ : e = e' ∧ w = w' := by simpa [hf] using hf'
      exact hde
    rw [find_update, if_pos ⟨hbd, habove⟩] at hnew
    exact (Option.some.inj hnew).symm
  · intro hall b w hw
    by_cases hbd : b = d
    · subst hbd
      rw [Function.update_self] at hw
      rw [find_of_own (Function.update_self ..), Option.map_some, hw]
    · rw [Function.update_of_ne hbd] at hw
      have hold := hentry b w hw
      rw [find_update]
      split_ifs with hi
      · obtain ⟨⟨e, x⟩, hf, rfl⟩ := Option.map_eq_some_iff.mp hold
        rw [Option.map_some, hall b e x hi.1 hbd (by simp [hw]) hf (hi.2 e x hf)]
      · exact hold

end Hierarchy
end Kit
