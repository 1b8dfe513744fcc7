import SoftRenderer.LtableSizes

/-!
# Rehash

Where no node is free, all keys go into parts of new sizes. They find a place there without another
rehash, and so does the key for which the table grows. So an assignment sets one key, whatever
the table does meanwhile.
-/

namespace SoftRenderer.Ltable

open Kit Table

variable {K S O V : Type} [Field K] [LinearOrder K] [FloorRing K] [DecidableEq S] [DecidableEq O]
  {hs : Hashes K S O} {t t' : Table (Key K S O) V} {k : Key K S O} {v : V}

def Room (t : Table (Key K S O) V) (m : ℕ) : Prop :=
  m = 0 ∨ t.dummy = false ∧ t.used + m ≤ t.sizenode

/-- `t[k] = v`, in parts of the same sizes. -/
structure Assigned (hs : Hashes K S O) (t : Table (Key K S O) V) (k : Key K S O) (v : Option V)
    (t' : Table (Key K S O) V) : Prop where
  wellFormed : WellFormed hs t'
  get : get hs t' = Function.update (get hs t) k v
  sizearray : t'.sizearray = t.sizearray
  sizenode : t'.sizenode = t.sizenode
  dummy : t'.dummy = t.dummy
  used_le : t'.used ≤ t.used + if InArray t.sizearray k then 0 else 1

@[simp] theorem Table.used_write {κ : Type} (t : Table κ V) (p : Slot) (v : Option V) :
    (t.write p v).used = t.used := by
  rw [used, used, keys_write, sizenode_write]

theorem Assigned.write (h : WellFormed hs t) {p : Slot} (hp : luaHGet hs t k = some p)
    (v : Option V) : Assigned hs t k v (t.write p v) where
  wellFormed := h.write hp v
  get := h.get_write hp v
  sizearray := sizearray_write t p v
  sizenode := sizenode_write t p v
  dummy := dummy_write t p v
  used_le := (used_write t p v).le.trans (Nat.le_add_right _ _)

theorem Added.get_eq {p : ℕ} (h : WellFormed hs t) (ha : Added hs t k p t') :
    get hs t' = get hs t := by
  funext k'
  refine Option.ext fun v => ?_
  rw [ha.wellFormed.get_eq_some_iff, h.get_eq_some_iff, ha.holds_iff, Table.sizearray, ha.array]
  rfl

theorem Added.assigned {p : ℕ} (h : WellFormed hs t) (hk : luaHGet hs t k = none)
    (ha : Added hs t k p t') (v : Option V) : Assigned hs t k v (t'.write (.node p) v) := by
  have hp : luaHGet hs t' k = some (.node p) :=
    ha.wellFormed.luaHGet_eq_some_iff.mpr (.inr ⟨p, rfl, ha.key⟩)
  have hw := Assigned.write ha.wellFormed hp v
  have hsizearray : t'.sizearray = t.sizearray := congrArg List.length ha.array
  have hsizenode : t'.sizenode = t.sizenode := congrArg (2 ^ ·) ha.lsizenode
  refine ⟨hw.wellFormed, ?_, hw.sizearray.trans hsizearray, hw.sizenode.trans hsizenode,
    hw.dummy.trans ha.dummy, ?_⟩
  · rw [hw.get, ha.get_eq h]
  · rw [if_neg (h.luaHGet_eq_none_iff.mp hk).1, used_write]
    exact ha.used_le

/-- One step of the loops of `resize`: where the parts have room, the table does not grow. -/
theorem setWith_assigned (h : WellFormed hs t) (fuel : ℕ)
    (hroom : Room t (if InArray t.sizearray k then 0 else 1)) :
    ∃ p t₁, setWith hs (newkey hs (fuel + 1)) t k = .ok (p, t₁) ∧
      ∀ v, Assigned hs t k v (t₁.write p v) := by
  rw [setWith]
  cases hk : luaHGet hs t k with
  | some p => exact ⟨p, t, rfl, .write h hk⟩
  | none =>
      rw [if_neg (h.luaHGet_eq_none_iff.mp hk).1] at hroom
      obtain ⟨hdummy, hused⟩ := hroom.resolve_left one_ne_zero
      obtain ⟨p, t₁, hnew, ha⟩ := openNewkey_added
        (fun t key => do
          let t ← rehash hs (newkey hs fuel) t key
          setWith hs (newkey hs fuel) t key) h hk hdummy hused
      exact ⟨.node p, t₁, hnew, ha.assigned h hk⟩

/-- Both loops of `resize` set keys one after the other. -/
def reinsert (hs : Hashes K S O) (newkey : Table (Key K S O) V → Key K S O →
      Except TableError (Slot × Table (Key K S O) V)) :
    List (Key K S O × V) → Table (Key K S O) V → Except TableError (Table (Key K S O) V)
  | [], t => .ok t
  | (key, v) :: es, t => do
      let (p, t) ← setWith hs newkey t key
      reinsert hs newkey es (t.write p (some v))

theorem reinsert_cons {newkey : Table (Key K S O) V → Key K S O →
      Except TableError (Slot × Table (Key K S O) V)} {p : Slot} {es : List (Key K S O × V)}
    (hset : setWith hs newkey t k = .ok (p, t')) :
    reinsert hs newkey ((k, v) :: es) t = reinsert hs newkey es (t'.write p (some v)) := by
  rw [reinsert, hset]
  rfl

variable (hs) in
theorem reinsertNodes_eq (newkey : Table (Key K S O) V → Key K S O →
      Except TableError (Slot × Table (Key K S O) V)) {nold : ℕ → Node (Key K S O) V}
    (hkeyed : ∀ i, (nold i).key = none → (nold i).val = none) (n : ℕ)
    (t : Table (Key K S O) V) :
    reinsertNodes hs newkey nold n t = reinsert hs newkey (nodeEntries nold n) t := by
  induction n generalizing t with
  | zero => rfl
  | succ n ih =>
      rw [reinsertNodes, nodeEntries]
      cases hv : (nold n).val with
      | none => exact ih t
      | some v =>
          cases hk : (nold n).key with
          | none =>
              rw [hkeyed n hk] at hv
              cases hv
          | some k =>
              simp only [reinsert]
              exact bind_congr fun r => ih _

theorem reinsertSlice_eq [IsStrictOrderedRing K] (newkey : Table (Key K S O) V → Key K S O →
      Except TableError (Slot × Table (Key K S O) V)) {array : List (Option V)} {i : ℕ}
    (hle : i + array.length ≤ maxasize) (t : Table (Key K S O) V) :
    reinsertSlice hs newkey array i t =
      reinsert hs newkey (sliceEntries array i) t := by
  induction array generalizing i t with
  | nil => rfl
  | cons x rest ih =>
      rw [List.length_cons] at hle
      have hrest (t : Table (Key K S O) V) := ih (i := i + 1) (by omega) t
      cases x with
      | none => exact hrest t
      | some v =>
          have hlt : maxasize < 2 ^ 31 := by decide +kernel
          have hset : setnumWith hs newkey t ((i : ℤ) + 1) =
              setWith hs newkey t (.number ((i : K) + 1)) := by
            rw [setnumWith, luaHGetnum_eq hs t (by omega) (by omega), setWith]
            push_cast
            rfl
          rw [reinsertSlice, hset, sliceEntries, reinsert]
          exact bind_congr fun r => hrest _

omit [DecidableEq S] [DecidableEq O] in
theorem Room.first {m : ℕ} (h : Room t (m + if InArray t.sizearray k then 0 else 1)) :
    Room t (if InArray t.sizearray k then 0 else 1) := by
  rcases h with hzero | ⟨hd, hle⟩
  · exact .inl (by omega)
  · exact .inr ⟨hd, by omega⟩

theorem Room.rest {m : ℕ} {w : Option V}
    (h : Room t (m + if InArray t.sizearray k then 0 else 1)) (ha : Assigned hs t k w t') :
    Room t' m := by
  have hused := ha.used_le
  rcases h with hzero | ⟨hd, hle⟩
  · exact .inl (by omega)
  · refine .inr ⟨ha.dummy.trans hd, ?_⟩
    rw [ha.sizenode]
    omega

theorem reinsert_spec (fuel : ℕ) {es : List (Key K S O × V)} (hes : (es.map Prod.fst).Nodup)
    (h : WellFormed hs t) (hroom : Room t (others (es.map Prod.fst) t.sizearray)) :
    ∃ t', reinsert hs (newkey hs (fuel + 1)) es t = .ok t' ∧ WellFormed hs t' ∧
      t'.sizearray = t.sizearray ∧ t'.sizenode = t.sizenode ∧ t'.dummy = t.dummy ∧
      t'.used ≤ t.used + others (es.map Prod.fst) t.sizearray ∧
      ∀ k v, get hs t' k = some v ↔ (k, v) ∈ es ∨ k ∉ es.map Prod.fst ∧ get hs t k = some v := by
  induction es generalizing t with
  | nil => exact ⟨t, rfl, h, rfl, rfl, rfl, le_rfl, by simp⟩
  | cons e es ih =>
      obtain ⟨k, v⟩ := e
      obtain ⟨hk, hes'⟩ := List.nodup_cons.mp hes
      rw [List.map_cons, others_cons] at hroom ⊢
      obtain ⟨p, t₁, hset, hall⟩ := setWith_assigned h fuel hroom.first
      have ha := hall (some v)
      have hroom' := hroom.rest ha
      rw [← ha.sizearray] at hroom'
      obtain ⟨t', hrun, hwf, hsizearray, hsizenode, hdummy, hused, hget⟩ :=
        ih hes' ha.wellFormed hroom'
      refine ⟨t', (reinsert_cons hset).trans hrun, hwf, hsizearray.trans ha.sizearray,
        hsizenode.trans ha.sizenode, hdummy.trans ha.dummy, ?_, ?_⟩
      · have hused' := ha.used_le
        rw [ha.sizearray] at hused
        omega
      · intro k' v'
        rw [hget, ha.get, List.mem_cons, List.mem_cons, Prod.mk.injEq]
        by_cases hkk : k' = k
        · subst hkk
          have hv' : (k', v') ∉ es := fun hmem => hk (List.mem_map.mpr ⟨_, hmem, rfl⟩)
          simp [hk, hv', eq_comm]
        · simp [hkk]

omit [LinearOrder K] [FloorRing K] [DecidableEq S] [DecidableEq O] in
theorem sliceEntries_append (xs ys : List (Option V)) (i : ℕ) :
    (sliceEntries (xs ++ ys) i : List (Key K S O × V)) =
      sliceEntries xs i ++ sliceEntries ys (i + xs.length) := by
  induction xs generalizing i with
  | nil => rfl
  | cons x xs ih =>
      have hi : i + (x :: xs).length = i + 1 + xs.length := by
        rw [List.length_cons]
        omega
      rw [hi]
      cases x with
      | none => exact ih (i + 1)
      | some v => exact congrArg _ (ih (i + 1))

omit [LinearOrder K] [FloorRing K] [DecidableEq S] [DecidableEq O] in
theorem sliceEntries_replicate (n i : ℕ) :
    (sliceEntries (List.replicate n (none : Option V)) i : List (Key K S O × V)) = [] := by
  induction n generalizing i with
  | zero => rfl
  | succ n ih => exact ih (i + 1)

variable (hs) in
omit [DecidableEq S] [DecidableEq O] in
/-- The nodes are new: each one of them is free. -/
theorem setnodevector_spec (hle : t.sizearray ≤ maxasize) {size : ℕ} (hsize : size ≤ maxasize) :
    ∃ t', setnodevector t size = .ok t' ∧ t'.array = t.array ∧ t'.dummy = decide (size = 0) ∧
      (size = 0 ∨ size ≤ t'.sizenode ∧ t'.sizenode < 2 * size) ∧
      (∀ i, t'.node i = ⟨none, none, none⟩) ∧ WellFormed hs t' := by
  rw [setnodevector]
  by_cases hzero : size = 0
  · rw [if_pos hzero]
    refine ⟨_, rfl, rfl, by simp [hzero], .inl hzero, fun i => rfl, ?_⟩
    exact ⟨.empty _ _, Nat.zero_le _, by simp, fun i _ => rfl, fun _ => ⟨rfl, fun i => rfl⟩,
      fun i k hk => absurd hk.symm (Option.some_ne_none k), hle⟩
  · have hpos : 0 < size := Nat.pos_of_ne_zero hzero
    have hlsize : ¬ ceillog2 size > maxbits := not_lt.mpr ((ceillog2_le_iff hpos).mpr hsize)
    rw [if_neg hzero]
    simp only [if_neg hlsize]
    refine ⟨_, rfl, rfl, by simp [hzero],
      .inr ⟨(ceillog2_le_iff hpos).mp le_rfl, two_pow_ceillog2_lt hpos⟩, fun i => rfl, ?_⟩
    exact ⟨.empty _ _, le_rfl, fun _ i h1 h2 => absurd h2 h1.not_gt, fun i _ => rfl, by simp,
      fun i k hk => absurd hk.symm (Option.some_ne_none k), hle⟩

theorem reinsert_append (newkey : Table (Key K S O) V → Key K S O →
      Except TableError (Slot × Table (Key K S O) V)) (es es' : List (Key K S O × V))
    (t : Table (Key K S O) V) :
    reinsert hs newkey (es ++ es') t = reinsert hs newkey es t >>= reinsert hs newkey es' := by
  induction es generalizing t with
  | nil => rfl
  | cons e es ih =>
      obtain ⟨k, v⟩ := e
      rw [List.cons_append, reinsert, reinsert, bind_assoc]
      exact bind_congr fun r => ih _

/-- What `resize` leaves in place, and what it sets again. -/
theorem WellFormed.resize_eq [IsStrictOrderedRing K] (h : WellFormed hs t) {nasize nhsize : ℕ}
    (hna : nasize ≤ maxasize) (hnh : nhsize ≤ maxasize) :
    ∃ t', (∀ newkey, resize hs newkey t nasize nhsize = reinsert hs newkey
        (sliceEntries (t.array.drop nasize) nasize ++ nodeEntries t.node t.sizenode) t') ∧
      WellFormed hs t' ∧ t'.sizearray = nasize ∧
      (sliceEntries t'.array 0 : List (Key K S O × V)) = sliceEntries (t.array.take nasize) 0 ∧
      t'.dummy = decide (nhsize = 0) ∧
      (nhsize = 0 ∨ nhsize ≤ t'.sizenode ∧ t'.sizenode < 2 * nhsize) ∧
      ∀ i, t'.node i = ⟨none, none, none⟩ := by
  have hnodes (newkey : Table (Key K S O) V → Key K S O →
      Except TableError (Slot × Table (Key K S O) V)) (t' : Table (Key K S O) V) :=
    reinsertNodes_eq hs newkey h.unkeyed t.sizenode t'
  rcases Nat.lt_or_ge t.array.length nasize with hgrow | hgrow
  · have hlen : (t.setarrayvector nasize).sizearray = nasize := by
      rw [sizearray, setarrayvector, List.length_append, List.length_take, List.length_replicate,
        min_eq_right hgrow.le, sizearray]
      omega
    obtain ⟨t', hset, harray, hdummy, hsize, hempty, hwf⟩ :=
      setnodevector_spec hs (hlen.trans_le hna) hnh
    refine ⟨t', fun newkey => ?_, hwf, ?_, ?_, hdummy, hsize, hempty⟩
    · rw [resize]
      simp only [if_pos hgrow, if_neg hgrow.not_gt, hset, List.drop_of_length_le hgrow.le]
      exact hnodes newkey t'
    · rw [sizearray, harray]
      exact hlen
    · rw [harray, setarrayvector, sliceEntries_append, sliceEntries_replicate, List.append_nil]
  · obtain ⟨t', hset, harray, hdummy, hsize, hempty, hwf⟩ :=
      setnodevector_spec hs h.sizearray_le hnh
    rcases Nat.lt_or_ge nasize t.array.length with hshrink | hshrink
    · have hlen : (t.array.take nasize).length = nasize := List.length_take_of_le hgrow
      refine ⟨{ t' with array := t.array.take nasize }, fun newkey => ?_, ?_, hlen, rfl, hdummy,
        hsize, hempty⟩
      · have hslice : nasize + (t.array.drop nasize).length ≤ maxasize := by
          rw [List.length_drop, Nat.add_sub_cancel' hgrow]
          exact h.sizearray_le
        rw [resize]
        simp only [if_neg hgrow.not_gt, if_pos hshrink, hset]
        rw [reinsert_append, ← reinsertSlice_eq newkey hslice]
        exact bind_congr fun t' => hnodes newkey t'
      · refine ⟨hwf.scattered, hwf.lastfree_le, hwf.taken, hwf.unkeyed, hwf.of_dummy, ?_, ?_⟩
        · intro i k hk
          rw [keys, hempty] at hk
          cases hk
        · exact hlen.trans_le hna
    · have hsame : t.array.length = nasize := le_antisymm hshrink hgrow
      refine ⟨t', fun newkey => ?_, hwf, ?_, ?_, hdummy, hsize, hempty⟩
      · rw [resize]
        simp only [if_neg hgrow.not_gt, if_neg hshrink.not_gt, hset,
          List.drop_of_length_le hshrink]
        exact hnodes newkey t'
      · rw [sizearray, harray, hsame]
      · rw [harray, List.take_of_length_le hshrink]

omit [LinearOrder K] [FloorRing K] [DecidableEq S] [DecidableEq O] in
theorem entries_eq (t : Table (Key K S O) V) (n : ℕ) :
    t.entries = sliceEntries (t.array.take n) 0 ++
      (sliceEntries (t.array.drop n) n ++ nodeEntries t.node t.sizenode) := by
  have hsplit : (sliceEntries t.array 0 : List (Key K S O × V)) =
      sliceEntries (t.array.take n) 0 ++ sliceEntries (t.array.drop n) n := by
    conv_lhs => rw [← List.take_append_drop n t.array]
    rw [sliceEntries_append, zero_add]
    rcases Nat.lt_or_ge n t.array.length with hn | hn
    · rw [List.length_take_of_le hn.le]
    · rw [List.drop_of_length_le hn]
      rfl
  rw [entries, hsplit, List.append_assoc]

theorem nodeEntries_empty {κ : Type} {node : ℕ → Node κ V}
    (hempty : ∀ i, node i = ⟨none, none, none⟩) (n : ℕ) : nodeEntries node n = [] := by
  induction n with
  | zero => rfl
  | succ n ih => rw [nodeEntries, hempty, ih]

def Table.nodes {κ : Type} (t : Table κ V) : ℕ := if t.dummy then 0 else t.sizenode

/-- No key loses its value, and the hash part has as much room left as `nhsize` says. -/
theorem WellFormed.resize_spec [IsStrictOrderedRing K] (h : WellFormed hs t) (fuel : ℕ)
    {nasize nhsize : ℕ} (hna : nasize ≤ maxasize) (hnh : nhsize ≤ maxasize)
    (hfits : others (t.entries.map Prod.fst) nasize ≤ nhsize) :
    ∃ t', resize hs (newkey hs (fuel + 1)) t nasize nhsize = .ok t' ∧ WellFormed hs t' ∧
      get hs t' = get hs t ∧ t'.sizearray = nasize ∧ t'.nodes ≤ 2 * nhsize ∧
      ∀ m, others (t.entries.map Prod.fst) nasize + m ≤ nhsize → Room t' m := by
  obtain ⟨t₁, hresize, hwf₁, hsizearray₁, harray₁, hdummy₁, hsizenode₁, hempty⟩ :=
    h.resize_eq hna hnh
  generalize hes : sliceEntries (t.array.drop nasize) nasize ++
    nodeEntries t.node t.sizenode = es at hresize
  have hentries : t.entries = t₁.entries ++ es := by
    rw [entries_eq t nasize, hes, entries.eq_1 t₁, harray₁, nodeEntries_empty hempty,
      List.append_nil]
  have hnodup := h.nodup_entries
  rw [hentries, List.map_append, List.nodup_append] at hnodup
  have hothers : others (es.map Prod.fst) nasize ≤ others (t.entries.map Prod.fst) nasize := by
    rw [hentries, List.map_append]
    exact (List.sublist_append_right _ _).countP_le
  have hused₁ : t₁.used = 0 := by
    rw [used, Finset.card_eq_zero, Finset.filter_eq_empty_iff]
    intro i _ hi
    exact hi (congrArg Node.key (hempty i))
  have hroom (m : ℕ) (hm : others (t.entries.map Prod.fst) nasize + m ≤ nhsize) :
      Room t₁ (others (es.map Prod.fst) nasize + m) := by
    rcases hsizenode₁ with hzero | ⟨hsizenode₁, -⟩
    · exact .inl (by omega)
    · rcases Nat.eq_zero_or_pos nhsize with hzero | hpos
      · exact .inl (by omega)
      · exact .inr ⟨by rw [hdummy₁, decide_eq_false hpos.ne'], by omega⟩
  obtain ⟨t', hrun, hwf, hsizearray, hsizenode, hdummy, hused, hget⟩ :=
    reinsert_spec fuel hnodup.2.1 hwf₁ (hsizearray₁ ▸ hroom 0 hfits)
  refine ⟨t', (hresize _).trans hrun, hwf, ?_, hsizearray.trans hsizearray₁, ?_, fun m hm => ?_⟩
  · funext k
    refine Option.ext fun v => ?_
    rw [hget, ← h.mem_entries_iff, ← hwf₁.mem_entries_iff, hentries, List.mem_append]
    constructor
    · rintro (hmem | ⟨-, hmem⟩)
      · exact .inr hmem
      · exact .inl hmem
    · rintro (hmem | hmem)
      · refine .inr ⟨fun hk => ?_, hmem⟩
        exact hnodup.2.2 k (List.mem_map.mpr ⟨_, hmem, rfl⟩) k hk rfl
      · exact .inl hmem
  · rw [nodes, hdummy, hdummy₁, hsizenode]
    rcases hsizenode₁ with hzero | ⟨-, hlt⟩
    · simp [hzero]
    · split_ifs
      · exact Nat.zero_le _
      · exact hlt.le
  · rw [hsizearray₁] at hused
    rcases hroom m hm with hzero | ⟨hd, hle⟩
    · exact .inl (by omega)
    · exact .inr ⟨hdummy.trans hd, by omega⟩

theorem WellFormed.rehash_spec [IsStrictOrderedRing K] (h : WellFormed hs t) (fuel : ℕ)
    (hk : get hs t k = none) (hlen : t.entries.length < maxasize) :
    ∃ t', rehash hs (newkey hs (fuel + 1)) t k = .ok t' ∧ WellFormed hs t' ∧
      get hs t' = get hs t ∧ Optimal (indices (k :: t.entries.map Prod.fst)) t'.sizearray ∧
      t'.nodes ≤ 2 * others (k :: t.entries.map Prod.fst) t'.sizearray ∧
      Room t' (if InArray t'.sizearray k then 0 else 1) := by
  obtain ⟨n, hsizes, hoptimal⟩ := h.newSizes_spec hk
  have hnh : others (k :: t.entries.map Prod.fst) n ≤ maxasize := by
    have hsplit := indices_add_others (k :: t.entries.map Prod.fst) n
    rw [List.length_cons, List.length_map] at hsplit
    omega
  rw [others_cons] at hsizes hnh
  simp only [others_cons]
  rw [rehash, hsizes]
  obtain ⟨t', hrun, hwf, hget, hsizearray, hnodes, hroom⟩ :=
    h.resize_spec fuel hoptimal.le_maxasize hnh (Nat.le_add_right _ _)
  subst hsizearray
  exact ⟨t', hrun, hwf, hget, hoptimal, hnodes, hroom _ le_rfl⟩

omit [DecidableEq S] [DecidableEq O] in
theorem openNewkey_grow
    (grow : Table (Key K S O) V → Key K S O → Except TableError (Slot × Table (Key K S O) V))
    (h : WellFormed hs t)
    (hmp : t.vals (mainposition hs t.sizenode k) ≠ none ∨ t.dummy = true)
    (hfull : t.dummy = true ∨ ∀ i < t.sizenode, t.keys i ≠ none) :
    openNewkey hs grow t k = grow { t with lastfree := 0 } k ∧
      WellFormed hs { t with lastfree := 0 } := by
  have hcond : (t.node (mainposition hs t.sizenode k)).val.isSome = true ∨ t.dummy = true :=
    hmp.imp_left Option.isSome_iff_ne_none.mpr
  have hfree : getfreepos t = (none, { t with lastfree := 0 }) := by
    rcases t.freeBelow_spec t.lastfree with ⟨hnone, -⟩ | ⟨n, hn, -, hkey, -⟩
    · rw [getfreepos, hnone]
    · rcases hfull with hdummy | hfull
      · rw [(h.of_dummy hdummy).1] at hn
        omega
      · exact absurd hkey (hfull n (hn.trans_le h.lastfree_le))
  refine ⟨?_, h.scattered, Nat.zero_le _, fun hdummy i _ hi => ?_, h.unkeyed,
    fun hdummy => ⟨rfl, (h.of_dummy hdummy).2⟩, h.apart, h.sizearray_le⟩
  · rw [openNewkey, if_pos hcond, hfree]
  · rcases hfull with hdummy' | hfull
    · exact absurd (hdummy'.symm.trans hdummy) Bool.false_ne_true.symm
    · exact hfull i hi

theorem Table.used_lt_of_free {κ : Type} (t : Table κ V) {i : ℕ} (hi : i < t.sizenode)
    (hfree : t.keys i = none) : t.used < t.sizenode := by
  have hss : ((Finset.range t.sizenode).filter fun i => t.keys i ≠ none) ⊂
      Finset.range t.sizenode := by
    refine Finset.filter_ssubset.mpr ⟨i, Finset.mem_range.mpr hi, ?_⟩
    rw [hfree]
    exact not_not_intro rfl
  exact (Finset.card_lt_card hss).trans_eq (Finset.card_range _)

theorem newkey_succ (fuel : ℕ) (t : Table (Key K S O) V) (k : Key K S O) :
    newkey hs (fuel + 1) t k = openNewkey hs (fun t key => do
      let t ← rehash hs (newkey hs fuel) t key
      setWith hs (newkey hs fuel) t key) t k := rfl

/-- Within one assignment, the table grows at most once. -/
theorem WellFormed.luaHSet_spec [IsStrictOrderedRing K] (h : WellFormed hs t) (fuel : ℕ)
    (k : Key K S O) (hlen : get hs t k = none → t.entries.length < maxasize) :
    ∃ p t₁, luaHSet hs (fuel + 2) t k = .ok (p, t₁) ∧
      ∀ v, WellFormed hs (t₁.write p v) ∧
        get hs (t₁.write p v) = Function.update (get hs t) k v := by
  rw [luaHSet]
  by_cases hroom : Room t (if InArray t.sizearray k then 0 else 1)
  · obtain ⟨p, t₁, hset, hall⟩ := setWith_assigned h (fuel + 1) hroom
    exact ⟨p, t₁, hset, fun v => ⟨(hall v).wellFormed, (hall v).get⟩⟩
  · have hin : ¬ InArray t.sizearray k := fun hin => hroom (.inl (if_pos hin))
    have hfull : t.dummy = true ∨ ∀ i < t.sizenode, t.keys i ≠ none := by
      rw [if_neg hin] at hroom
      refine or_iff_not_imp_left.mpr fun hdummy i hi hfree => ?_
      exact hroom (.inr ⟨Bool.eq_false_of_not_eq_true hdummy, t.used_lt_of_free hi hfree⟩)
    cases hk : luaHGet hs t k with
    | some p =>
        refine ⟨p, t, ?_, fun v => ⟨h.write hk v, h.get_write hk v⟩⟩
        rw [setWith, hk]
    | none =>
        have hset : setWith hs (newkey hs (fuel + 2)) t k = newkey hs (fuel + 2) t k := by
          rw [setWith, hk]
        rw [hset, newkey_succ]
        by_cases hmp : t.vals (mainposition hs t.sizenode k) ≠ none ∨ t.dummy = true
        · -- the table grows, and then takes the key
          obtain ⟨hgrow, hwf⟩ := openNewkey_grow (fun t key => do
            let t ← rehash hs (newkey hs (fuel + 1)) t key
            setWith hs (newkey hs (fuel + 1)) t key) h hmp hfull
          have hnone : get hs { t with lastfree := 0 } k = none := by
            rw [get, hwf.luaHGet_eq_none_iff.mpr (h.luaHGet_eq_none_iff.mp hk)]
            rfl
          obtain ⟨t₁, hrun, hwf₁, hget₁, -, -, hroom₁⟩ := hwf.rehash_spec fuel hnone (hlen hnone)
          obtain ⟨p, t₂, hset₁, hall⟩ := setWith_assigned hwf₁ fuel hroom₁
          refine ⟨p, t₂, ?_, fun v => ⟨(hall v).wellFormed, ?_⟩⟩
          · rw [hgrow, hrun]
            exact hset₁
          · rw [(hall v).get, hget₁]
            rfl
        · push Not at hmp
          obtain ⟨p, t₁, hnew, ha⟩ := openNewkey_fill _ h hin
            (h.luaHGet_eq_none_iff.mp hk).2 (Bool.eq_false_of_not_eq_true hmp.2) hmp.1
          exact ⟨.node p, t₁, hnew, fun v =>
            ⟨(ha.assigned h hk v).wellFormed, (ha.assigned h hk v).get⟩⟩

end SoftRenderer.Ltable
