import SoftRenderer.LtableNodes

/-!
# New keys

While a node is free, `newkey` returns: the main position is free, or its key gives way, or the new
key does. All three leave a well-formed table in which the old keys have their values.
-/

namespace SoftRenderer.Ltable

open Kit Table

variable {K S O V : Type} [Field K] [LinearOrder K] [FloorRing K] {hs : Hashes K S O}
  {t t' : Table (Key K S O) V} {k : Key K S O} {n p : ℕ}

/-- What `newkey` does with a table that has a free node. The new key has no value yet. -/
structure Added (hs : Hashes K S O) (t : Table (Key K S O) V) (k : Key K S O) (p : ℕ)
    (t' : Table (Key K S O) V) : Prop where
  wellFormed : WellFormed hs t'
  key : t'.keys p = some k
  holds_iff : ∀ k' v, t'.Holds k' v ↔ t.Holds k' v
  array : t'.array = t.array
  lsizenode : t'.lsizenode = t.lsizenode
  dummy : t'.dummy = t.dummy
  used_le : t'.used ≤ t.used + 1

theorem WellFormed.withKey (h : WellFormed hs t) (hk : ¬ InArray t.sizearray k)
    (hdummy : t.dummy = false) (harray : t'.array = t.array) (hlsize : t'.lsizenode = t.lsizenode)
    (hdummy' : t'.dummy = t.dummy)
    (hscattered : Scattered t.sizenode (mainposition hs t.sizenode) t'.keys t'.links)
    (hlastfree : t'.lastfree ≤ t.lastfree)
    (htaken : ∀ i, t'.lastfree ≤ i → i < t.lastfree → t'.keys i ≠ none)
    (hkept : ∀ i, t.keys i ≠ none → t'.keys i ≠ none)
    (hvals : ∀ i, t'.keys i = none → t'.vals i = none)
    (hkeys : ∀ i k', t'.keys i = some k' → k' = k ∨ ∃ j, t.keys j = some k') :
    WellFormed hs t' := by
  have hsize : t'.sizenode = t.sizenode := congrArg (2 ^ ·) hlsize
  have hsizearray : t'.sizearray = t.sizearray := congrArg List.length harray
  refine ⟨hsize ▸ hscattered, hsize ▸ hlastfree.trans h.lastfree_le, ?_, hvals, ?_, ?_, ?_⟩
  · intro _ i h1 h2
    rcases lt_or_ge i t.lastfree with hi | hi
    · exact htaken i h1 hi
    · exact hkept i (h.taken hdummy i hi (hsize ▸ h2))
  · intro htrue
    rw [hdummy', hdummy] at htrue
    cases htrue
  · intro i k' hi
    rw [hsizearray]
    rcases hkeys i k' hi with rfl | ⟨j, hj⟩
    · exact hk
    · exact h.apart j k' hj
  · rw [hsizearray]
    exact h.sizearray_le

theorem Added.place (h : WellFormed hs t) (hk : ¬ InArray t.sizearray k)
    (hdummy : t.dummy = false) (hp : t.vals p = none) (harray : t'.array = t.array)
    (hlsize : t'.lsizenode = t.lsizenode) (hdummy' : t'.dummy = t.dummy)
    (hkeys : t'.keys = Function.update t.keys p (some k)) (hvals : t'.vals = t.vals)
    (hscattered : Scattered t.sizenode (mainposition hs t.sizenode) t'.keys t'.links)
    (hlastfree : t'.lastfree ≤ t.lastfree)
    (htaken : ∀ i, t'.lastfree ≤ i → i < t.lastfree → i ≠ p → t.keys i ≠ none) :
    Added hs t k p t' := by
  have hother {i : ℕ} (hi : i ≠ p) : t'.keys i = t.keys i := by
    rw [hkeys, Function.update_of_ne hi]
  have hself : t'.keys p = some k := by rw [hkeys, Function.update_self]
  have hkept (i : ℕ) (hi : t.keys i ≠ none) : t'.keys i ≠ none := by
    by_cases hip : i = p
    · rw [hip, hself]
      exact Option.some_ne_none k
    · rwa [hother hip]
  refine ⟨?_, hself, ?_, harray, hlsize, hdummy', ?_⟩
  · refine h.withKey hk hdummy harray hlsize hdummy' hscattered hlastfree ?_ hkept ?_ ?_
    · intro i h1 h2
      by_cases hip : i = p
      · rw [hip, hself]
        exact Option.some_ne_none k
      · rw [hother hip]
        exact htaken i h1 h2 hip
    · intro i hi
      rw [hvals]
      by_cases hip : i = p
      · rw [hip, hp]
      · exact h.unkeyed i (hother hip ▸ hi)
    · intro i k' hi
      rw [hkeys] at hi
      rcases update_eq_some_iff.mp hi with ⟨-, rfl⟩ | ⟨-, hi'⟩
      · exact .inl rfl
      · exact .inr ⟨i, hi'⟩
  · intro k' v
    have hne {i : ℕ} (hv : t.vals i = some v) : i ≠ p := by
      rintro rfl
      rw [hp] at hv
      cases hv
    constructor
    · rintro ⟨i, hi, hv⟩
      rw [hvals] at hv
      exact ⟨i, hother (hne hv) ▸ hi, hv⟩
    · rintro ⟨i, hi, hv⟩
      exact ⟨i, (hother (hne hv)).trans hi, hvals ▸ hv⟩
  · have hsize : t'.sizenode = t.sizenode := congrArg (2 ^ ·) hlsize
    rw [used, hsize, hkeys]
    exact used_update_le

theorem getfreepos_spec (h : WellFormed hs t) (hdummy : t.dummy = false)
    (hroom : t.used < t.sizenode) :
    ∃ n < t.lastfree, getfreepos t = (some n, { t with lastfree := n }) ∧ t.keys n = none ∧
      ∀ i, n < i → i < t.lastfree → t.keys i ≠ none := by
  rcases t.freeBelow_spec t.lastfree with ⟨-, hall⟩ | ⟨n, hn, hsome, hfree, hall⟩
  · obtain ⟨i, hi, hnone⟩ := t.exists_free hroom
    rcases lt_or_ge i t.lastfree with hlt | hge
    · exact absurd hnone (hall i hlt)
    · exact absurd hnone (h.taken hdummy i hge hi)
  · exact ⟨n, hn, by rw [getfreepos, hsome], hfree, hall⟩

theorem openNewkey_fill
    (grow : Table (Key K S O) V → Key K S O → Except TableError (Slot × Table (Key K S O) V))
    (h : WellFormed hs t) (hk : ¬ InArray t.sizearray k) (hnew : ∀ i, t.keys i ≠ some k)
    (hdummy : t.dummy = false) (hval : t.vals (mainposition hs t.sizenode k) = none) :
    ∃ p t', openNewkey hs grow t k = .ok (.node p, t') ∧ Added hs t k p t' := by
  have hmp := WellFormed.mainposition_lt hs t k
  refine ⟨mainposition hs t.sizenode k, t.setKey (mainposition hs t.sizenode k) k, ?_, ?_⟩
  · have hnot : ¬ ((t.node (mainposition hs t.sizenode k)).val.isSome = true ∨ t.dummy = true) := by
      have hval' : (t.node (mainposition hs t.sizenode k)).val = none := hval
      simp [hval', hdummy]
    rw [openNewkey, if_neg hnot]
  · refine .place h hk hdummy hval rfl rfl rfl (keys_setKey t _ k) (vals_setKey t _ k) ?_ le_rfl ?_
    · rw [keys_setKey, links_setKey]
      exact h.scattered.fill hmp hnew
    · intro i h1 h2 _
      exact absurd h2 h1.not_gt

/-- The key in the main position is at home: the new one is linked behind it. -/
theorem openNewkey_behind
    (grow : Table (Key K S O) V → Key K S O → Except TableError (Slot × Table (Key K S O) V))
    (h : WellFormed hs t) (hk : ¬ InArray t.sizearray k) (hnew : ∀ i, t.keys i ≠ some k)
    (hdummy : t.dummy = false) (hroom : t.used < t.sizenode)
    (hval : t.vals (mainposition hs t.sizenode k) ≠ none) {other : Key K S O}
    (hother : t.keys (mainposition hs t.sizenode k) = some other)
    (hhome : mainposition hs t.sizenode other = mainposition hs t.sizenode k) :
    ∃ p t', openNewkey hs grow t k = .ok (.node p, t') ∧ Added hs t k p t' := by
  obtain ⟨n, hn, hfreepos, hfree, hall⟩ := getfreepos_spec h hdummy hroom
  have hval' : (t.node (mainposition hs t.sizenode k)).val.isSome = true ∨ t.dummy = true :=
    .inl (Option.isSome_iff_ne_none.mpr hval)
  have hkey' : (t.node (mainposition hs t.sizenode k)).key = some other := hother
  let t1 : Table (Key K S O) V := { t with lastfree := n }
  let t2 := t1.setNext n (t.node (mainposition hs t.sizenode k)).next
  let t3 := t2.setNext (mainposition hs t.sizenode k) (some n)
  refine ⟨n, t3.setKey n k, ?_, ?_⟩
  · rw [openNewkey, if_pos hval', hfreepos]
    simp only [hkey']
    exact if_neg (not_not_intro hhome)
  · refine .place h hk hdummy (h.unkeyed n hfree) rfl rfl rfl ?_ ?_ ?_ hn.le ?_
    · rw [keys_setKey, keys_setNext, keys_setNext]
      rfl
    · rw [vals_setKey, vals_setNext, vals_setNext]
      rfl
    · have hkeys : (t3.setKey n k).keys = Function.update t.keys n (some k) := by
        rw [keys_setKey, keys_setNext, keys_setNext]
        rfl
      have hlinks : (t3.setKey n k).links =
          insertAfter t.links (mainposition hs t.sizenode k) n := by
        rw [links_setKey, links_setNext, links_setNext]
        rfl
      rw [hkeys, hlinks]
      exact h.scattered.behind hother hhome (hn.trans_le h.lastfree_le) hfree hnew
    · intro i h1 h2 hin
      exact hall i (lt_of_le_of_ne h1 (Ne.symm hin)) h2

/-- The key of node `m` and its value are moved to the free node `n`, and the new key `k` takes its
place. -/
structure Displaced (t : Table (Key K S O) V) (k other : Key K S O) (m n : ℕ)
    (t' : Table (Key K S O) V) : Prop where
  key : t.keys m = some other
  free : t.keys n = none
  keys : t'.keys = Function.update (Function.update t.keys n (some other)) m (some k)
  vals : t'.vals = Function.update (Function.update t.vals n (t.vals m)) m none

namespace Displaced

variable {other : Key K S O} {m : ℕ}

omit [Field K] [LinearOrder K] [FloorRing K]

theorem ne (h : Displaced t k other m n t') : m ≠ n := by
  rintro rfl
  have hother := h.key
  rw [h.free] at hother
  cases hother

theorem key_self (h : Displaced t k other m n t') : t'.keys m = some k := by
  rw [h.keys, Function.update_self]

theorem val_self (h : Displaced t k other m n t') : t'.vals m = none := by
  rw [h.vals, Function.update_self]

theorem key_moved (h : Displaced t k other m n t') : t'.keys n = some other := by
  rw [h.keys, Function.update_of_ne h.ne.symm, Function.update_self]

theorem val_moved (h : Displaced t k other m n t') : t'.vals n = t.vals m := by
  rw [h.vals, Function.update_of_ne h.ne.symm, Function.update_self]

theorem key_rest (h : Displaced t k other m n t') {i : ℕ} (him : i ≠ m) (hin : i ≠ n) :
    t'.keys i = t.keys i := by
  rw [h.keys, Function.update_of_ne him, Function.update_of_ne hin]

theorem val_rest (h : Displaced t k other m n t') {i : ℕ} (him : i ≠ m) (hin : i ≠ n) :
    t'.vals i = t.vals i := by
  rw [h.vals, Function.update_of_ne him, Function.update_of_ne hin]

theorem keys_ne_none (h : Displaced t k other m n t') {i : ℕ}
    (hi : i ≠ n → t.keys i ≠ none) : t'.keys i ≠ none := by
  by_cases him : i = m
  · rw [him, h.key_self]
    exact Option.some_ne_none k
  · by_cases hin : i = n
    · rw [hin, h.key_moved]
      exact Option.some_ne_none other
    · rw [h.key_rest him hin]
      exact hi hin

theorem vals_eq_none (h : Displaced t k other m n t')
    (hunkeyed : ∀ i, t.keys i = none → t.vals i = none) {i : ℕ} (hi : t'.keys i = none) :
    t'.vals i = none := by
  have him : i ≠ m := by
    rintro rfl
    rw [h.key_self] at hi
    cases hi
  have hin : i ≠ n := by
    rintro rfl
    rw [h.key_moved] at hi
    cases hi
  rw [h.val_rest him hin]
  exact hunkeyed i (h.key_rest him hin ▸ hi)

theorem eq_or_exists (h : Displaced t k other m n t') {i : ℕ} {k' : Key K S O}
    (hi : t'.keys i = some k') : k' = k ∨ ∃ j, t.keys j = some k' := by
  rw [h.keys] at hi
  rcases update_eq_some_iff.mp hi with ⟨-, rfl⟩ | ⟨-, hi'⟩
  · exact .inl rfl
  · rcases update_eq_some_iff.mp hi' with ⟨-, rfl⟩ | ⟨-, hi'⟩
    · exact .inr ⟨m, h.key⟩
    · exact .inr ⟨i, hi'⟩

theorem holds_iff (h : Displaced t k other m n t') (k' : Key K S O) (v : V) :
    t'.Holds k' v ↔ t.Holds k' v := by
  constructor
  · rintro ⟨i, hi, hv⟩
    have him : i ≠ m := by
      rintro rfl
      rw [h.val_self] at hv
      cases hv
    by_cases hin : i = n
    · subst hin
      exact ⟨m, h.key.trans (h.key_moved.symm.trans hi), h.val_moved.symm.trans hv⟩
    · exact ⟨i, h.key_rest him hin ▸ hi, h.val_rest him hin ▸ hv⟩
  · rintro ⟨i, hi, hv⟩
    by_cases him : i = m
    · subst him
      exact ⟨n, h.key_moved.trans (h.key.symm.trans hi), h.val_moved.trans hv⟩
    · have hin : i ≠ n := by
        rintro rfl
        rw [h.free] at hi
        cases hi
      exact ⟨i, (h.key_rest him hin).trans hi, (h.val_rest him hin).trans hv⟩

theorem used_le (h : Displaced t k other m n t') (hsize : t'.sizenode = t.sizenode) :
    t'.used ≤ t.used + 1 := by
  have hcongr : ((Finset.range t.sizenode).filter fun i => t'.keys i ≠ none) =
      (Finset.range t.sizenode).filter fun i =>
        Function.update t.keys n (some other) i ≠ none := by
    refine Finset.filter_congr fun i _ => ?_
    rw [h.keys]
    by_cases him : i = m
    · subst him
      rw [Function.update_self, Function.update_of_ne h.ne, h.key]
      simp
    · rw [Function.update_of_ne him]
  rw [used, hsize, hcongr]
  exact used_update_le

end Displaced

/-- The walk from the home of a key that is not at home comes to the node before it. -/
theorem WellFormed.find_prev (h : WellFormed hs t) {other : Key K S O} {m : ℕ}
    (hother : t.keys m = some other) (hhome : mainposition hs t.sizenode other ≠ m) :
    ∃ p, ((t.chain (mainposition hs t.sizenode other)).find? fun p =>
      (t.node p).next = some m) = some p ∧ t.links p = some m := by
  obtain ⟨p, hp, hvisits⟩ := h.scattered.exists_prev hother hhome
  have hmem := (h.scattered.linked.mem_visited_iff
    (WellFormed.mainposition_lt hs t other)).mpr hvisits
  cases hfind : (t.chain (mainposition hs t.sizenode other)).find? fun p =>
      (t.node p).next = some m with
  | none =>
      rw [List.find?_eq_none] at hfind
      exact absurd hp (of_decide_eq_false (Bool.eq_false_of_not_eq_true (hfind p hmem)))
  | some q =>
      have hq := List.find?_some hfind
      exact ⟨q, rfl, of_decide_eq_true hq⟩

/-- The key in the main position is not at home: it gives way to the free node. -/
theorem openNewkey_displace
    (grow : Table (Key K S O) V → Key K S O → Except TableError (Slot × Table (Key K S O) V))
    (h : WellFormed hs t) (hk : ¬ InArray t.sizearray k) (hnew : ∀ i, t.keys i ≠ some k)
    (hdummy : t.dummy = false) (hroom : t.used < t.sizenode)
    (hval : t.vals (mainposition hs t.sizenode k) ≠ none) {other : Key K S O}
    (hother : t.keys (mainposition hs t.sizenode k) = some other)
    (hhome : mainposition hs t.sizenode other ≠ mainposition hs t.sizenode k) :
    ∃ p t', openNewkey hs grow t k = .ok (.node p, t') ∧ Added hs t k p t' := by
  obtain ⟨n, hn, hfreepos, hfree, hall⟩ := getfreepos_spec h hdummy hroom
  generalize hm : mainposition hs t.sizenode k = m at hval hother hhome
  have hval' : (t.node m).val.isSome = true ∨ t.dummy = true :=
    .inl (Option.isSome_iff_ne_none.mpr hval)
  have hkey' : (t.node m).key = some other := hother
  obtain ⟨p, hfind, hp⟩ := h.find_prev hother hhome
  have hmn : m ≠ n := by
    rintro rfl
    rw [hfree] at hother
    cases hother
  have hmp : m ≠ p := by
    rintro rfl
    exact h.scattered.linked.ne_self hp
  let t1 : Table (Key K S O) V := { t with lastfree := n }
  let t2 := t1.setNext p (some n)
  let t3 := t2.setNode n (t2.node m)
  let t4 := t3.setNode m { t3.node m with next := none, val := none }
  have hnode2 : t2.node m = t.node m := by
    change Function.update t.node p _ m = t.node m
    rw [Function.update_of_ne hmp]
  have hmoved : Displaced t k other m n (t4.setKey m k) := by
    refine ⟨hother, hfree, ?_, ?_⟩
    · rw [keys_setKey, keys_setNode, keys_setNode, keys_setNext, Function.update_idem, hnode2,
        hkey']
      rfl
    · rw [vals_setKey, vals_setNode, vals_setNode, vals_setNext, hnode2]
      rfl
  have hlinks : (t4.setKey m k).links = replace t.links p m n := by
    rw [links_setKey, links_setNode, links_setNode, links_setNext, hnode2]
    rfl
  refine ⟨m, t4.setKey m k, ?_, ?_, hmoved.key_self, hmoved.holds_iff, rfl, rfl, rfl,
    hmoved.used_le rfl⟩
  · rw [openNewkey, hm, if_pos hval', hfreepos]
    simp only [hkey']
    have hfind1 : (t1.chain (mainposition hs t1.sizenode other)).find? (fun p =>
        (t.node p).next = some m) = some p := hfind
    refine (if_pos hhome).trans ?_
    simp only [t1] at hfind1
    rw [hfind1]
  · refine h.withKey hk hdummy rfl rfl rfl ?_ hn.le ?_ ?_ ?_ ?_
    · rw [hmoved.keys, hlinks]
      subst hm
      exact h.scattered.displace hother hhome hp (hn.trans_le h.lastfree_le) hfree hnew
    · intro i h1 h2
      exact hmoved.keys_ne_none fun hin => hall i (lt_of_le_of_ne h1 (Ne.symm hin)) h2
    · intro i hi
      exact hmoved.keys_ne_none fun _ => hi
    · intro i hi
      exact hmoved.vals_eq_none h.unkeyed hi
    · intro i k' hi
      exact hmoved.eq_or_exists hi

variable [DecidableEq S] [DecidableEq O]

theorem openNewkey_added
    (grow : Table (Key K S O) V → Key K S O → Except TableError (Slot × Table (Key K S O) V))
    (h : WellFormed hs t) (hk : luaHGet hs t k = none) (hdummy : t.dummy = false)
    (hroom : t.used < t.sizenode) :
    ∃ p t', openNewkey hs grow t k = .ok (.node p, t') ∧ Added hs t k p t' := by
  obtain ⟨hin, hnew⟩ := h.luaHGet_eq_none_iff.mp hk
  by_cases hval : t.vals (mainposition hs t.sizenode k) = none
  · exact openNewkey_fill grow h hin hnew hdummy hval
  · cases hother : t.keys (mainposition hs t.sizenode k) with
    | none => exact absurd (h.unkeyed _ hother) hval
    | some other =>
        by_cases hhome : mainposition hs t.sizenode other = mainposition hs t.sizenode k
        · exact openNewkey_behind grow h hin hnew hdummy hroom hval hother hhome
        · exact openNewkey_displace grow h hin hnew hdummy hroom hval hother hhome

end SoftRenderer.Ltable
