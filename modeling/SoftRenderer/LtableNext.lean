import SoftRenderer.LtableRuns

/-!
# Traversal of a table

`luaH_next` numbers the places of a table, first those of the array and then the nodes, and goes on
to the next place with a value. So a loop over `pairs` sees every key at most once, in an order that
does not change while the loop sets keys that are there.
-/

namespace SoftRenderer.Ltable

open Kit Table

section Places

variable {K S O V : Type} [Field K] (t : Table (Key K S O) V)

def keyAt (i : ℕ) : Option (Key K S O) :=
  if i < t.sizearray then some (.number ((i : K) + 1)) else t.keys (i - t.sizearray)

def slotAt (i : ℕ) : Slot := if i < t.sizearray then .array i else .node (i - t.sizearray)

def places : ℕ := t.sizearray + t.sizenode

/-- The keys that are there, with or without a value, in the order of their places. -/
def order : List (Key K S O) := (List.range (places t)).filterMap (keyAt t)

def orderFrom (start : ℕ) : List (Key K S O) :=
  (List.range' start (places t - start)).filterMap (keyAt t)

theorem orderFrom_split {start j : ℕ} {k : Key K S O} (h1 : start ≤ j) (h2 : j < places t)
    (hk : keyAt t j = some k) :
    orderFrom t start =
      (List.range' start (j - start)).filterMap (keyAt t) ++ k :: orderFrom t (j + 1) := by
  have hlen : places t - start = (j - start) + (places t - (j + 1) + 1) := by omega
  have hmid : start + (j - start) = j := by omega
  rw [orderFrom, hlen, ← List.range'_append_1, hmid, List.range'_succ, List.filterMap_append,
    List.filterMap_cons_some hk]
  rfl

theorem orderFrom_zero : orderFrom t 0 = order t := by
  rw [orderFrom, order, Nat.sub_zero, List.range_eq_range']

end Places

variable {K S O V σ : Type} [Field K] [LinearOrder K] [FloorRing K] [DecidableEq S] [DecidableEq O]

/-- `for k, v in pairs(t) do ... end` without a collection on the way; the body returns what it
assigns to the table. -/
def pairsLoop (hs : Hashes K S O) (depth : ℕ)
    (body : σ → Key K S O → V → σ × List (Key K S O × Option V)) :
    ℕ → Table (Key K S O) V → Option (Key K S O) → σ →
      Except TableError (σ × Table (Key K S O) V)
  | 0, _, _, _ => .error .depth
  | rounds + 1, t, key, s => do
      match ← luaHNext hs t key with
      | some (some k, v) =>
          let t ← assignAll hs depth (body s k v).2 t
          pairsLoop hs depth body rounds t (some k) (body s k v).1
      | _ => return (s, t)

variable [IsStrictOrderedRing K] {hs : Hashes K S O} {t t' : Table (Key K S O) V} {k : Key K S O}
  {i : ℕ}

namespace WellFormed

theorem luaHGet_eq_slotAt (h : WellFormed hs t) (hk : keyAt t i = some k) :
    luaHGet hs t k = some (slotAt t i) := by
  rw [h.luaHGet_eq_some_iff]
  rw [keyAt] at hk
  rw [slotAt]
  split_ifs at hk ⊢ with hi
  · obtain rfl := Option.some.inj hk
    have hindex := arrayindex_succ (K := K) (S := S) (O := O) (hi.trans_le h.sizearray_le)
    refine .inl ⟨?_, ?_⟩
    · rw [InArray, hindex]
      omega
    · rw [hindex, add_sub_cancel_right, Int.toNat_natCast]
  · exact .inr ⟨_, rfl, hk⟩

omit [IsStrictOrderedRing K] in
theorem exists_place (h : WellFormed hs t) {p : Slot} (hp : luaHGet hs t k = some p) :
    ∃ i < places t, keyAt t i = some k ∧ p = slotAt t i := by
  rcases h.luaHGet_eq_some_iff.mp hp with ⟨hin, rfl⟩ | ⟨i, rfl, hi⟩
  · have h1 := hin.1
    have h2 := hin.2
    have hlt : (arrayindex k - 1).toNat < t.sizearray := by omega
    refine ⟨_, hlt.trans_le (Nat.le_add_right _ _), ?_, (if_pos hlt).symm⟩
    rw [keyAt, if_pos hlt, ← hin.eq_number]
  · have hnot : ¬ t.sizearray + i < t.sizearray := by omega
    refine ⟨t.sizearray + i, Nat.add_lt_add_left (h.scattered.key_lt i k hi) _, ?_, ?_⟩
    · rw [keyAt, if_neg hnot, Nat.add_sub_cancel_left, hi]
    · rw [slotAt, if_neg hnot, Nat.add_sub_cancel_left]

theorem keyAt_inj (h : WellFormed hs t) {j : ℕ} (hi : keyAt t i = some k)
    (hj : keyAt t j = some k) : i = j := by
  have hslot := Option.some.inj ((h.luaHGet_eq_slotAt hi).symm.trans (h.luaHGet_eq_slotAt hj))
  rw [slotAt, slotAt] at hslot
  split_ifs at hslot
  · exact Slot.array.inj hslot
  · have heq := Slot.node.inj hslot
    omega

theorem mem_order_iff (h : WellFormed hs t) : k ∈ order t ↔ luaHGet hs t k ≠ none := by
  rw [order, List.mem_filterMap, Option.ne_none_iff_exists']
  constructor
  · rintro ⟨i, -, hi⟩
    exact ⟨_, h.luaHGet_eq_slotAt hi⟩
  · rintro ⟨p, hp⟩
    obtain ⟨i, hi, hk, -⟩ := h.exists_place hp
    exact ⟨i, List.mem_range.mpr hi, hk⟩

theorem nodup_order (h : WellFormed hs t) : (order t).Nodup := by
  refine List.Nodup.filterMap (fun i j k hi hj => ?_) List.nodup_range
  exact h.keyAt_inj hi hj

theorem get_eq_read (h : WellFormed hs t) (hk : keyAt t i = some k) :
    get hs t k = t.read (slotAt t i) := by
  rw [get, h.luaHGet_eq_slotAt hk, Option.bind_some]

theorem get_eq_none_of_between (h : WellFormed hs t) {m n : ℕ}
    (hall : ∀ i, m ≤ i → i < n → t.read (slotAt t i) = none) :
    ∀ k ∈ (List.range' m (n - m)).filterMap (keyAt t), get hs t k = none := by
  intro k hk
  obtain ⟨i, hi, hki⟩ := List.mem_filterMap.mp hk
  rw [List.mem_range'_1] at hi
  rw [h.get_eq_read hki]
  exact hall i hi.1 (by omega)

theorem findindex_eq (h : WellFormed hs t) (hk : keyAt t i = some k) :
    findindex hs t (some k) = .ok i := by
  have hslot := h.luaHGet_eq_slotAt hk
  rw [luaHGet_eq] at hslot
  rw [findindex]
  by_cases hin : InArray t.sizearray k
  · have hcond : 0 < arrayindex k ∧ arrayindex k ≤ t.sizearray := hin
    rw [if_pos hin, slotAt] at hslot
    rw [if_pos hcond]
    split_ifs at hslot
    · have heq := Slot.array.inj (Option.some.inj hslot)
      rw [← heq, Int.toNat_of_nonneg (by omega)]
    · cases hslot
  · have hcond : ¬ (0 < arrayindex k ∧ arrayindex k ≤ t.sizearray) := hin
    rw [if_neg hin, findKey, Option.map_eq_some_iff, slotAt] at hslot
    rw [if_neg hcond]
    obtain ⟨n, hfind, hn⟩ := hslot
    split_ifs at hn with hi
    obtain rfl := Slot.node.inj hn
    simp only [hfind]
    congr 1
    omega

theorem findindex_eq_pred (h : WellFormed hs t) (hk : keyAt t i = some k) :
    findindex hs t (some k) = .ok (((i + 1 : ℕ) : ℤ) - 1) := by
  rw [h.findindex_eq hk]
  push_cast
  rw [add_sub_cancel_right]

end WellFormed

section Step

theorem nextSlice_spec (array : List (Option V)) (i : ℕ) :
    (nextSlice array i = none ∧ ∀ j < array.length, (array[j]?).join = none) ∨
      ∃ j v, array[j]? = some (some v) ∧ nextSlice array i = some (i + j, v) ∧
        ∀ j' < j, (array[j']?).join = none := by
  induction array generalizing i with
  | nil => exact .inl ⟨rfl, fun j hj => absurd hj (Nat.not_lt_zero j)⟩
  | cons x rest ih =>
      cases x with
      | some v => exact .inr ⟨0, v, rfl, rfl, fun j hj => absurd hj (Nat.not_lt_zero j)⟩
      | none =>
          have hcons {n : ℕ} (hall : ∀ j < n, (rest[j]?).join = none) (j : ℕ) (hj : j < n + 1) :
              ((none :: rest)[j]?).join = none := by
            cases j with
            | zero => rfl
            | succ j => exact hall j (by omega)
          rcases ih (i + 1) with ⟨hnone, hall⟩ | ⟨j, v, hj, hsome, hall⟩
          · exact .inl ⟨hnone, hcons hall⟩
          · refine .inr ⟨j + 1, v, hj, ?_, hcons hall⟩
            rw [nextSlice, hsome, add_assoc, add_comm 1 j]

theorem nextNode_spec {κ : Type} (node : ℕ → Node κ V) (n i : ℕ) :
    (nextNode node n i = none ∧ ∀ j, i ≤ j → j < i + n → (node j).val = none) ∨
      ∃ j v, i ≤ j ∧ j < i + n ∧ (node j).val = some v ∧
        nextNode node n i = some ((node j).key, v) ∧
        ∀ j', i ≤ j' → j' < j → (node j').val = none := by
  induction n generalizing i with
  | zero => exact .inl ⟨rfl, fun j h1 h2 => by omega⟩
  | succ n ih =>
      rw [nextNode]
      cases hv : (node i).val with
      | some v => exact .inr ⟨i, v, le_rfl, by omega, hv, rfl, fun j h1 h2 => by omega⟩
      | none =>
          have hcons {m : ℕ} (hall : ∀ j, i + 1 ≤ j → j < m → (node j).val = none) (j : ℕ)
              (h1 : i ≤ j) (h2 : j < m) : (node j).val = none := by
            rcases h1.eq_or_lt with rfl | h1
            · exact hv
            · exact hall j h1 h2
          rcases ih (i + 1) with ⟨hnone, hall⟩ | ⟨j, v, h1, h2, hj, hsome, hall⟩
          · exact .inl ⟨hnone, fun j h1 h2 => hcons hall j h1 (by omega)⟩
          · exact .inr ⟨j, v, by omega, by omega, hj, hsome, hcons hall⟩

end Step

omit [IsStrictOrderedRing K] in
/-- `luaH_next` goes to the first place with a value. -/
theorem WellFormed.luaHNext_spec (h : WellFormed hs t) {key : Option (Key K S O)} {start : ℕ}
    (hstart : findindex hs t key = .ok (start - 1)) :
    (luaHNext hs t key = .ok none ∧
        ∀ j, start ≤ j → j < places t → t.read (slotAt t j) = none) ∨
      ∃ j k v, start ≤ j ∧ j < places t ∧ keyAt t j = some k ∧ t.read (slotAt t j) = some v ∧
        luaHNext hs t key = .ok (some (some k, v)) ∧
        ∀ j', start ≤ j' → j' < j → t.read (slotAt t j') = none := by
  have hnat : ((start : ℤ) - 1 + 1).toNat = start := by omega
  have hfound {i : ℕ} {v : V} (hi : nextSlice (t.array.drop start) start = some (i, v)) :
      luaHNext hs t key = .ok (some (some (.number ((i : K) + 1)), v)) := by
    rw [luaHNext, hstart]
    simp only [bind, Except.bind, hnat, hi]
    rfl
  have hrest (hnone : nextSlice (t.array.drop start) start = none) :
      luaHNext hs t key = .ok (nextNode t.node (t.sizenode - (max start t.sizearray - t.sizearray))
        (max start t.sizearray - t.sizearray)) := by
    rw [luaHNext, hstart]
    simp only [bind, Except.bind, hnat, hnone]
    rfl
  have hslice (j : ℕ) : (t.array.drop start)[j]? = t.array[start + j]? := List.getElem?_drop
  have harray {j : ℕ} (hj : j < t.sizearray) :
      t.read (slotAt t j) = (t.array[j]?).join := by rw [slotAt, if_pos hj, Table.read]
  have hnode {j : ℕ} (hj : ¬ j < t.sizearray) :
      t.read (slotAt t j) = (t.node (j - t.sizearray)).val := by rw [slotAt, if_neg hj, Table.read]
  rcases nextSlice_spec (t.array.drop start) start with ⟨hnone, hall⟩ | ⟨j, v, hj, hsome, hall⟩
  · have hskip (j : ℕ) (h1 : start ≤ j) (h2 : j < t.sizearray) :
        t.read (slotAt t j) = none := by
      obtain ⟨d, rfl⟩ := Nat.exists_eq_add_of_le h1
      rw [harray h2, ← hslice]
      refine hall d ?_
      rw [List.length_drop]
      rw [sizearray] at h2
      omega
    rw [hrest hnone]
    rcases nextNode_spec t.node (t.sizenode - (max start t.sizearray - t.sizearray))
      (max start t.sizearray - t.sizearray) with ⟨hnil, hall'⟩ | ⟨n, v, h1, h2, hv, hsome, hall'⟩
    · refine .inl ⟨by rw [hnil], fun j hj1 hj2 => ?_⟩
      rw [places] at hj2
      by_cases hj : j < t.sizearray
      · exact hskip j hj1 hj
      · rw [hnode hj]
        exact hall' _ (by omega) (by omega)
    · have hnot : ¬ t.sizearray + n < t.sizearray := by omega
      have hkey : t.keys n ≠ none := by
        intro hnil
        have hval : (t.node n).val = none := h.unkeyed n hnil
        rw [hv] at hval
        cases hval
      obtain ⟨k, hk⟩ := Option.ne_none_iff_exists'.mp hkey
      refine .inr ⟨t.sizearray + n, k, v, by omega, by rw [places]; omega, ?_, ?_, ?_, ?_⟩
      · rw [keyAt, if_neg hnot, Nat.add_sub_cancel_left, hk]
      · rw [hnode hnot, Nat.add_sub_cancel_left, hv]
      · have hk' : (t.node n).key = some k := hk
        rw [hsome, hk']
      · intro j hj1 hj2
        by_cases hj : j < t.sizearray
        · exact hskip j hj1 hj
        · rw [hnode hj]
          exact hall' _ (by omega) (by omega)
  · rw [hslice] at hj
    have hlt : start + j < t.sizearray := (List.getElem?_eq_some_iff.mp hj).1
    refine .inr ⟨start + j, .number (((start + j : ℕ) : K) + 1), v, Nat.le_add_right _ _,
      hlt.trans_le (Nat.le_add_right _ _), ?_, ?_, ?_, ?_⟩
    · rw [keyAt, if_pos hlt]
    · rw [harray hlt, hj]
      rfl
    · rw [hfound hsome]
    · intro j' h1 h2
      obtain ⟨d, rfl⟩ := Nat.exists_eq_add_of_le h1
      rw [harray (by omega), ← hslice]
      exact hall d (by omega)

def valuesOf (hs : Hashes K S O) (t : Table (Key K S O) V) (ks : List (Key K S O)) :
    List (Key K S O × V) := ks.filterMap fun k => (get hs t k).map fun v => (k, v)

omit [IsStrictOrderedRing K] in
theorem valuesOf_eq_nil {ks : List (Key K S O)} (h : ∀ k ∈ ks, get hs t k = none) :
    valuesOf hs t ks = [] := by
  refine List.filterMap_eq_nil_iff.mpr fun k hk => ?_
  rw [h k hk]
  rfl

omit [IsStrictOrderedRing K] in
theorem valuesOf_orderFrom {start j : ℕ} {v : V} (h1 : start ≤ j) (h2 : j < places t)
    (hk : keyAt t j = some k) (hv : get hs t k = some v) :
    valuesOf hs t (orderFrom t start) =
      valuesOf hs t ((List.range' start (j - start)).filterMap (keyAt t)) ++
        (k, v) :: valuesOf hs t (orderFrom t (j + 1)) := by
  rw [orderFrom_split t h1 h2 hk, valuesOf, List.filterMap_append, List.filterMap_cons, hv]
  rfl

namespace WellFormed

theorem mem_values_iff (h : WellFormed hs t) {v : V} :
    (k, v) ∈ valuesOf hs t (order t) ↔ get hs t k = some v := by
  rw [valuesOf, List.mem_filterMap]
  constructor
  · rintro ⟨k', -, hk'⟩
    obtain ⟨w, hw, heq⟩ := Option.map_eq_some_iff.mp hk'
    obtain ⟨rfl, rfl⟩ := Prod.mk.inj heq
    exact hw
  · intro hv
    refine ⟨k, h.mem_order_iff.mpr fun hnone => ?_, by rw [hv]; rfl⟩
    rw [get, hnone] at hv
    cases hv

theorem nodup_values (h : WellFormed hs t) : ((valuesOf hs t (order t)).map Prod.fst).Nodup := by
  rw [valuesOf, List.map_filterMap]
  refine List.Nodup.filterMap (fun k k' x hk hk' => ?_) h.nodup_order
  obtain ⟨v, -, rfl⟩ := Option.map_eq_some_iff.mp ((Option.map_map ..).symm.trans hk)
  obtain ⟨v', -, heq⟩ := Option.map_eq_some_iff.mp ((Option.map_map ..).symm.trans hk')
  exact heq.symm

theorem luaHNext_eq_head (h : WellFormed hs t) {key : Option (Key K S O)} {start : ℕ}
    (hstart : findindex hs t key = .ok (start - 1)) :
    luaHNext hs t key =
      .ok ((valuesOf hs t (orderFrom t start)).head?.map fun e => (some e.1, e.2)) := by
  rcases h.luaHNext_spec hstart with ⟨hnext, hall⟩ | ⟨j, k, v, h1, h2, hk, hv, hnext, hall⟩
  · have hempty : ∀ k ∈ orderFrom t start, get hs t k = none := h.get_eq_none_of_between hall
    rw [hnext, valuesOf_eq_nil hempty]
    rfl
  · rw [hnext, valuesOf_orderFrom h1 h2 hk ((h.get_eq_read hk).trans hv),
      valuesOf_eq_nil (h.get_eq_none_of_between hall)]
    rfl

omit [IsStrictOrderedRing K] in
theorem findindex_eq_error (h : WellFormed hs t) (hk : luaHGet hs t k = none) :
    findindex hs t (some k) = .error .invalidKey := by
  have hin := (h.luaHGet_eq_none_iff.mp hk).1
  have hcond : ¬ (0 < arrayindex k ∧ arrayindex k ≤ t.sizearray) := hin
  rw [luaHGet_eq, if_neg hin, findKey, Option.map_eq_none_iff] at hk
  rw [findindex, if_neg hcond]
  simp only [hk]

end WellFormed

/-- `next` goes through one list of all keys that have a value. It fails for keys that are not
there. -/
theorem luaHNext_enumerates (h : WellFormed hs t) :
    ∃ es : List (Key K S O × V),
      (es.map Prod.fst).Nodup ∧ (∀ k v, (k, v) ∈ es ↔ get hs t k = some v) ∧
      luaHNext hs t none = .ok (es.head?.map fun e => (some e.1, e.2)) ∧
      (∀ pre k v post, es = pre ++ (k, v) :: post →
        luaHNext hs t (some k) = .ok (post.head?.map fun e => (some e.1, e.2))) ∧
      ∀ k, luaHGet hs t k = none → luaHNext hs t (some k) = .error .invalidKey := by
  refine ⟨valuesOf hs t (order t), h.nodup_values, fun k v => h.mem_values_iff, ?_, ?_, ?_⟩
  · have hstart : findindex hs t none = .ok (((0 : ℕ) : ℤ) - 1) := rfl
    rw [h.luaHNext_eq_head hstart, orderFrom_zero]
  · intro pre k v post hes
    have hget : get hs t k = some v := h.mem_values_iff.mp (by rw [hes]; simp)
    have hthere : luaHGet hs t k ≠ none := by
      intro hnone
      rw [get, hnone] at hget
      cases hget
    obtain ⟨p, hp⟩ := Option.ne_none_iff_exists'.mp hthere
    obtain ⟨j, hj, hkey, -⟩ := h.exists_place hp
    rw [h.luaHNext_eq_head (h.findindex_eq_pred hkey)]
    have hsplit := valuesOf_orderFrom (Nat.zero_le j) hj hkey hget
    rw [orderFrom_zero, hes] at hsplit
    -- the key stands at one place in the list only
    have hnodup := List.Nodup.of_map _ h.nodup_values
    rw [hes, List.nodup_middle, List.nodup_cons, List.mem_append, not_or] at hnodup
    obtain ⟨-, -, hpost⟩ := (List.append_cons_inj_of_notMem hnodup.1.1 hnodup.1.2).mp hsplit
    rw [hpost]
  · intro k hk
    rw [luaHNext, h.findindex_eq_error hk]
    rfl

theorem luaHNext_enumerates_sample :
    ∃ t, (luaHNew 0 1 >>= assignAll sampleHashes 2 sampleOps) = .ok t ∧
      ∃ es : List (Key ℚ String ℕ × ℕ),
        (es.map Prod.fst).Nodup ∧ (∀ k v, (k, v) ∈ es ↔ get sampleHashes t k = some v) ∧
        luaHNext sampleHashes t none = .ok (es.head?.map fun e => (some e.1, e.2)) ∧
        (∀ pre k v post, es = pre ++ (k, v) :: post →
          luaHNext sampleHashes t (some k) = .ok (post.head?.map fun e => (some e.1, e.2))) ∧
        ∀ k, luaHGet sampleHashes t k = none →
          luaHNext sampleHashes t (some k) = .error .invalidKey := by
  obtain ⟨t, hrun, hwf, -⟩ := exists_sample
  exact ⟨t, hrun, luaHNext_enumerates hwf⟩

omit [LinearOrder K] [FloorRing K] [DecidableEq S] [DecidableEq O] [IsStrictOrderedRing K] in
theorem keyAt_write (t : Table (Key K S O) V) (p : Slot) (v : Option V) :
    keyAt (t.write p v) = keyAt t := by
  funext i
  rw [keyAt, keyAt, sizearray_write, keys_write]

theorem WellFormed.assignAll_order (h : WellFormed hs t) (depth : ℕ)
    {ops : List (Key K S O × Option V)} (hops : ∀ op ∈ ops, op.1 ∈ order t) :
    ∃ t', assignAll hs depth ops t = .ok t' ∧ WellFormed hs t' ∧
      get hs t' = setAll ops (get hs t) ∧ keyAt t' = keyAt t ∧ places t' = places t := by
  induction ops generalizing t with
  | nil => exact ⟨t, rfl, h, rfl, rfl, rfl⟩
  | cons op ops ih =>
      obtain ⟨p, hp⟩ := Option.ne_none_iff_exists'.mp
        (h.mem_order_iff.mp (hops op List.mem_cons_self))
      have hplaces : places (t.write p op.2) = places t := by
        rw [places, places, sizearray_write, sizenode_write]
      have horder : order (t.write p op.2) = order t := by
        rw [order, order, keyAt_write, hplaces]
      obtain ⟨t', hrun, hwf, hget, hkeys, hplaces'⟩ := ih (h.write hp op.2)
        fun op' hop' => horder ▸ hops op' (List.mem_cons_of_mem _ hop')
      refine ⟨t', ?_, hwf, ?_, hkeys.trans (keyAt_write t p op.2), hplaces'.trans hplaces⟩
      · rw [assignAll, List.foldlM_cons, assign_eq_write hp]
        exact hrun
      · rw [hget, h.get_write hp]
        rfl

theorem WellFormed.pairsLoop_spec (h : WellFormed hs t) (depth : ℕ)
    {body : σ → Key K S O → V → σ × List (Key K S O × Option V)}
    (hbody : ∀ s, ∀ k ∈ order t, ∀ v, ∀ op ∈ (body s k v).2, op.1 ∈ order t) (rounds : ℕ)
    {key : Option (Key K S O)} {start : ℕ} (hrounds : places t - start < rounds)
    (hstart : findindex hs t key = .ok (start - 1)) (s : σ) :
    ∃ t', pairsLoop hs depth body rounds t key s =
        .ok ((forEach body (orderFrom t start) (get hs t) s).1, t') ∧ WellFormed hs t' ∧
      get hs t' = (forEach body (orderFrom t start) (get hs t) s).2 := by
  induction rounds generalizing t key start s with
  | zero => omega
  | succ rounds ih =>
      rw [pairsLoop]
      rcases h.luaHNext_spec hstart with ⟨hnext, hall⟩ | ⟨j, k, v, h1, h2, hk, hv, hnext, hall⟩
      · -- no value is left
        have hempty : ∀ k ∈ orderFrom t start, get hs t k = none := h.get_eq_none_of_between hall
        rw [forEach_of_none hempty, hnext]
        exact ⟨t, rfl, h, rfl⟩
      · have hget : get hs t k = some v := (h.get_eq_read hk).trans hv
        obtain ⟨t₁, hassign, hwf, hget₁, hkeys, hplaces⟩ :=
          h.assignAll_order depth
            (hbody s k (List.mem_filterMap.mpr ⟨j, List.mem_range.mpr h2, hk⟩) v)
        have horder : order t₁ = order t := by rw [order, order, hkeys, hplaces]
        have hindex : findindex hs t₁ (some k) = .ok (((j + 1 : ℕ) : ℤ) - 1) :=
          hwf.findindex_eq_pred (by rw [hkeys, hk])
        rw [← horder] at hbody
        obtain ⟨t', hrun, hwf', hget'⟩ := ih hwf hbody (by omega) hindex
          (body s k v).1
        have hfrom : orderFrom t₁ (j + 1) = orderFrom t (j + 1) := by
          rw [orderFrom, orderFrom, hkeys, hplaces]
        rw [hfrom, hget₁] at hrun hget'
        have hround : forEach body (orderFrom t start) (get hs t) s =
            forEach body (orderFrom t (j + 1)) (setAll (body s k v).2 (get hs t))
              (body s k v).1 := by
          rw [orderFrom_split t h1 h2 hk, forEach_skip (h.get_eq_none_of_between hall), forEach,
            hget]
        rw [hround, hnext]
        refine ⟨t', ?_, hwf', hget'⟩
        simp only [bind, Except.bind, hassign]
        exact hrun

theorem WellFormed.pairsLoop_run (h : WellFormed hs t) (depth : ℕ)
    {body : σ → Key K S O → V → σ × List (Key K S O × Option V)}
    (hbody : ∀ s, ∀ k ∈ order t, ∀ v, ∀ op ∈ (body s k v).2, op.1 ∈ order t) {rounds : ℕ}
    (hrounds : places t < rounds) (s : σ) :
    ∃ t', pairsLoop hs depth body rounds t none s =
        .ok ((forEach body (order t) (get hs t) s).1, t') ∧
      get hs t' = (forEach body (order t) (get hs t) s).2 := by
  have hrounds' : places t - 0 < rounds := hrounds
  have hstart : findindex hs t none = .ok (((0 : ℕ) : ℤ) - 1) := rfl
  obtain ⟨t', hrun, -, hget⟩ := h.pairsLoop_spec depth hbody rounds hrounds' hstart s
  rw [orderFrom_zero] at hrun hget
  exact ⟨t', hrun, hget⟩

/-- A loop over `pairs` whose body sets only keys that are there goes through all keys in an order
of its own. It passes over those that have no value when their turn comes. -/
theorem pairsLoop_eq_forEach (h : WellFormed hs t) (depth : ℕ)
    {body : σ → Key K S O → V → σ × List (Key K S O × Option V)}
    (hbody : ∀ s k v, luaHGet hs t k ≠ none → ∀ op ∈ (body s k v).2, luaHGet hs t op.1 ≠ none)
    {rounds : ℕ} (hrounds : places t < rounds) (s : σ) :
    (order t).Nodup ∧ (∀ k, k ∈ order t ↔ luaHGet hs t k ≠ none) ∧
      ∃ t', pairsLoop hs depth body rounds t none s =
          .ok ((forEach body (order t) (get hs t) s).1, t') ∧
        get hs t' = (forEach body (order t) (get hs t) s).2 := by
  have horder (s : σ) (k : Key K S O) (hk : k ∈ order t) (v : V) (op) (hop : op ∈ (body s k v).2) :
      op.1 ∈ order t :=
    h.mem_order_iff.mpr (hbody s k v (h.mem_order_iff.mp hk) op hop)
  exact ⟨h.nodup_order, fun k => h.mem_order_iff, h.pairsLoop_run depth horder hrounds s⟩

theorem pairsLoop_eq_forEach_sample :
    ∃ t, (luaHNew 0 1 >>= assignAll sampleHashes 2 sampleOps) = .ok t ∧
      (order t).Nodup ∧ (∀ k, k ∈ order t ↔ luaHGet sampleHashes t k ≠ none) ∧
      ∃ t', pairsLoop sampleHashes 0 (fun ks k _ => (ks ++ [k], [(k, none)])) (places t + 1) t
          none [] =
          .ok ((forEach (fun ks k _ => (ks ++ [k], [(k, none)])) (order t)
            (get sampleHashes t) []).1, t') ∧
        get sampleHashes t' = (forEach (fun ks k _ => (ks ++ [k], [(k, none)])) (order t)
          (get sampleHashes t) []).2 := by
  obtain ⟨t, hrun, hwf, -⟩ := exists_sample
  refine ⟨t, hrun, pairsLoop_eq_forEach hwf 0 ?_ (Nat.lt_succ_self _) []⟩
  intro ks k v hk op hop
  obtain rfl := List.mem_singleton.mp hop
  exact hk

/-- A loop over `pairs` that only reads sees each key that has a value once, and all of them. -/
theorem pairsLoop_collects (h : WellFormed hs t) (depth : ℕ) {rounds : ℕ}
    (hrounds : places t < rounds) :
    ∃ es t', pairsLoop hs depth (fun es k v => (es ++ [(k, v)], [])) rounds t none [] =
        .ok (es, t') ∧
      (es.map Prod.fst).Nodup ∧ (∀ k v, (k, v) ∈ es ↔ get hs t k = some v) ∧
      get hs t' = get hs t := by
  let body (es : List (Key K S O × V)) (k : Key K S O) (v : V) :
      List (Key K S O × V) × List (Key K S O × Option V) := (es ++ [(k, v)], [])
  have hbody (es) (k) (_ : k ∈ order t) (v) (op) (hop : op ∈ (body es k v).2) : op.1 ∈ order t :=
    absurd hop List.not_mem_nil
  obtain ⟨t', hrun, hget⟩ := h.pairsLoop_run depth hbody hrounds []
  rw [forEach_collect, List.nil_append] at hrun hget
  exact ⟨valuesOf hs t (order t), t', hrun, h.nodup_values, fun k v => h.mem_values_iff, hget⟩

theorem pairsLoop_collects_sample :
    ∃ t, (luaHNew 0 1 >>= assignAll sampleHashes 2 sampleOps) = .ok t ∧
      ∃ es t', pairsLoop sampleHashes 0 (fun es k v => (es ++ [(k, v)], [])) (places t + 1) t
          none [] = .ok (es, t') ∧
        (es.map Prod.fst).Nodup ∧ (∀ k v, (k, v) ∈ es ↔ get sampleHashes t k = some v) ∧
        get sampleHashes t' = get sampleHashes t := by
  obtain ⟨t, hrun, hwf, -⟩ := exists_sample
  exact ⟨t, hrun, pairsLoop_collects hwf 0 (Nat.lt_succ_self _)⟩

end SoftRenderer.Ltable
