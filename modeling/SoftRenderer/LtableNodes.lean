import SoftRenderer.Ltable

/-!
# The nodes of a table

A well-formed table: its keys stand in a scatter table, none of them has a place in the array, and
the nodes from `lastfree` on are taken. While a node is free, `newkey` finds a place for a new key,
and no other key loses its value.
-/

namespace SoftRenderer.Ltable

open Kit Table

namespace Table

variable {κ V : Type} (t : Table κ V)

def keys : ℕ → Option κ := fun i => (t.node i).key

def vals : ℕ → Option V := fun i => (t.node i).val

def links : Links := fun i => (t.node i).next

/-- The number of nodes that hold a key. -/
def used : ℕ := ((Finset.range t.sizenode).filter fun i => t.keys i ≠ none).card

/-- Some node holds the key with the value. -/
def Holds (k : κ) (v : V) : Prop := ∃ i, t.keys i = some k ∧ t.vals i = some v

@[simp] theorem keys_setNode (i : ℕ) (n : Node κ V) :
    (t.setNode i n).keys = Function.update t.keys i n.key := by
  funext j
  by_cases h : j = i
  · subst h
    simp [keys, setNode]
  · simp [keys, setNode, h]

@[simp] theorem vals_setNode (i : ℕ) (n : Node κ V) :
    (t.setNode i n).vals = Function.update t.vals i n.val := by
  funext j
  by_cases h : j = i
  · subst h
    simp [vals, setNode]
  · simp [vals, setNode, h]

@[simp] theorem links_setNode (i : ℕ) (n : Node κ V) :
    (t.setNode i n).links = Function.update t.links i n.next := by
  funext j
  by_cases h : j = i
  · subst h
    simp [links, setNode]
  · simp [links, setNode, h]

@[simp] theorem keys_setNext (i : ℕ) (next : Option ℕ) : (t.setNext i next).keys = t.keys := by
  rw [setNext, keys_setNode]
  exact Function.update_eq_self i t.keys

@[simp] theorem vals_setNext (i : ℕ) (next : Option ℕ) : (t.setNext i next).vals = t.vals := by
  rw [setNext, vals_setNode]
  exact Function.update_eq_self i t.vals

@[simp] theorem links_setNext (i : ℕ) (next : Option ℕ) :
    (t.setNext i next).links = Function.update t.links i next := links_setNode t i _

@[simp] theorem keys_setKey (i : ℕ) (key : κ) :
    (t.setKey i key).keys = Function.update t.keys i (some key) := keys_setNode t i _

@[simp] theorem vals_setKey (i : ℕ) (key : κ) : (t.setKey i key).vals = t.vals := by
  rw [setKey, vals_setNode]
  exact Function.update_eq_self i t.vals

@[simp] theorem links_setKey (i : ℕ) (key : κ) : (t.setKey i key).links = t.links := by
  rw [setKey, links_setNode]
  exact Function.update_eq_self i t.links

@[simp] theorem keys_write (p : Slot) (v : Option V) : (t.write p v).keys = t.keys := by
  cases p with
  | array i => rfl
  | node i => exact (keys_setNode t i _).trans (Function.update_eq_self i t.keys)

@[simp] theorem links_write (p : Slot) (v : Option V) : (t.write p v).links = t.links := by
  cases p with
  | array i => rfl
  | node i => exact (links_setNode t i _).trans (Function.update_eq_self i t.links)

@[simp] theorem sizearray_write (p : Slot) (v : Option V) :
    (t.write p v).sizearray = t.sizearray := by
  cases p with
  | array i => exact List.length_set
  | node i => rfl

@[simp] theorem sizenode_write (p : Slot) (v : Option V) :
    (t.write p v).sizenode = t.sizenode := by
  cases p <;> rfl

@[simp] theorem lastfree_write (p : Slot) (v : Option V) :
    (t.write p v).lastfree = t.lastfree := by
  cases p <;> rfl

@[simp] theorem dummy_write (p : Slot) (v : Option V) : (t.write p v).dummy = t.dummy := by
  cases p <;> rfl

/-- Of the slots, only the one that is written changes. -/
theorem read_write_of_ne {p q : Slot} (h : q ≠ p) (v : Option V) :
    (t.write p v).read q = t.read q := by
  cases p with
  | array i =>
      cases q with
      | array j =>
          have hij : i ≠ j := fun heq => h (congrArg Slot.array heq.symm)
          simp [write, read, hij]
      | node j => rfl
  | node i =>
      cases q with
      | array j => rfl
      | node j =>
          have hij : j ≠ i := fun heq => h (congrArg Slot.node heq)
          simp [write, read, hij]

theorem read_write_node (i : ℕ) (v : Option V) : (t.write (.node i) v).read (.node i) = v := by
  simp [write, read]

theorem read_write_array {i : ℕ} (hi : i < t.sizearray) (v : Option V) :
    (t.write (.array i) v).read (.array i) = v := by
  rw [sizearray] at hi
  simp [write, read, hi]

theorem used_update_le {keys : ℕ → Option κ} {size n : ℕ} {x : Option κ} :
    ((Finset.range size).filter fun i => Function.update keys n x i ≠ none).card ≤
      ((Finset.range size).filter fun i => keys i ≠ none).card + 1 := by
  refine le_trans (Finset.card_le_card ?_) (Finset.card_insert_le n _)
  intro i hi
  rw [Finset.mem_filter] at hi
  by_cases hin : i = n
  · exact Finset.mem_insert.mpr (.inl hin)
  · rw [Function.update_of_ne hin] at hi
    exact Finset.mem_insert_of_mem (Finset.mem_filter.mpr hi)

theorem exists_free (h : t.used < t.sizenode) : ∃ i < t.sizenode, t.keys i = none := by
  by_contra hall
  push Not at hall
  have hfull : ((Finset.range t.sizenode).filter fun i => t.keys i ≠ none) =
      Finset.range t.sizenode := by
    rw [Finset.filter_true_of_mem]
    intro i hi
    exact hall i (Finset.mem_range.mp hi)
  rw [used, hfull, Finset.card_range] at h
  exact lt_irrefl _ h

theorem freeBelow_spec (m : ℕ) :
    (freeBelow t.node m = (none, 0) ∧ ∀ i < m, t.keys i ≠ none) ∨
      ∃ n < m, freeBelow t.node m = (some n, n) ∧ t.keys n = none ∧
        ∀ i, n < i → i < m → t.keys i ≠ none := by
  induction m with
  | zero => exact .inl ⟨rfl, fun i hi => absurd hi (Nat.not_lt_zero i)⟩
  | succ m ih =>
      cases hm : (t.node m).key with
      | none =>
          refine .inr ⟨m, Nat.lt_succ_self m, ?_, hm, fun i h1 h2 => by omega⟩
          simp only [freeBelow, hm]
      | some k =>
          have hstep : freeBelow t.node (m + 1) = freeBelow t.node m := by
            simp only [freeBelow, hm]
          have hkm : t.keys m ≠ none := by simp [keys, hm]
          rw [hstep]
          rcases ih with ⟨hnone, hall⟩ | ⟨n, hn, hsome, hfree, hall⟩
          · refine .inl ⟨hnone, fun i hi => ?_⟩
            rcases Nat.lt_succ_iff_lt_or_eq.mp hi with hi | rfl
            · exact hall i hi
            · exact hkm
          · refine .inr ⟨n, by omega, hsome, hfree, fun i h1 h2 => ?_⟩
            rcases Nat.lt_succ_iff_lt_or_eq.mp h2 with h2 | rfl
            · exact hall i h1 h2
            · exact hkm

end Table

section Positions

variable {K S O : Type} [Field K] [LinearOrder K]

theorem lmod_lt (s l : ℕ) : lmod s (2 ^ l) < 2 ^ l := by
  rw [lmod, Nat.and_two_pow_sub_one_eq_mod]
  exact Nat.mod_lt s (Nat.two_pow_pos l)

theorem hashmod_lt (n l : ℕ) : hashmod (2 ^ l) n < 2 ^ l := by
  have hpos : 0 < (2 ^ l - 1) ||| 1 := by
    have hle : 1 ≤ (2 ^ l - 1) ||| 1 := Nat.right_le_or
    omega
  have hle : (2 ^ l - 1) ||| 1 ≤ 2 ^ l := by
    cases l with
    | zero => decide
    | succ l =>
        have hpow : 1 < 2 ^ (l + 1) := Nat.one_lt_two_pow (Nat.succ_ne_zero l)
        exact (Nat.or_lt_two_pow (by omega) hpow).le
  exact (Nat.mod_lt n hpos).trans_le hle

theorem mainposition_lt (hs : Hashes K S O) (l : ℕ) (key : Key K S O) :
    mainposition hs (2 ^ l) key < 2 ^ l := by
  cases key with
  | number n =>
      rw [mainposition, hashnum]
      split_ifs
      · exact Nat.two_pow_pos l
      · exact hashmod_lt _ l
  | string ts => exact lmod_lt _ l
  | boolean b => exact lmod_lt _ l
  | object o => exact hashmod_lt _ l

variable [FloorRing K]

/-- The key has a place in an array of this size. -/
def InArray (size : ℕ) (key : Key K S O) : Prop := 1 ≤ arrayindex key ∧ arrayindex key ≤ size

instance (size : ℕ) (key : Key K S O) : Decidable (InArray size key) :=
  inferInstanceAs (Decidable (_ ∧ _))

theorem eq_number_of_arrayindex {key : Key K S O} (h : arrayindex key ≠ -1) :
    key = .number (arrayindex key : K) := by
  cases key with
  | number n =>
      rw [arrayindex] at h ⊢
      by_cases hn : (number2int n : K) = n
      · rw [if_pos hn, hn]
      · rw [if_neg hn] at h
        exact absurd rfl h
  | string ts => exact absurd rfl h
  | boolean b => exact absurd rfl h
  | object o => exact absurd rfl h

theorem InArray.ne {size : ℕ} {key : Key K S O} (h : InArray size key) : arrayindex key ≠ -1 := by
  have h1 := h.1
  omega

theorem InArray.inj {size : ℕ} {k k' : Key K S O} (h : InArray size k) (h' : InArray size k')
    (heq : (arrayindex k - 1).toNat = (arrayindex k' - 1).toNat) : k = k' := by
  have h1 := h.1
  have h2 := h'.1
  have hindex : arrayindex k = arrayindex k' := by omega
  rw [eq_number_of_arrayindex h.ne, eq_number_of_arrayindex h'.ne, hindex]

/-- The key of a place in the array. -/
theorem InArray.eq_number {size : ℕ} {key : Key K S O} (h : InArray size key) :
    key = .number (((arrayindex key - 1).toNat : K) + 1) := by
  have h1 := h.1
  have hcast : (((arrayindex key - 1).toNat : ℤ) : K) + 1 = arrayindex key := by
    rw [Int.toNat_of_nonneg (by omega), Int.cast_sub, Int.cast_one, sub_add_cancel]
  rw [Int.cast_natCast] at hcast
  rw [hcast]
  exact eq_number_of_arrayindex h.ne

theorem InArray.mono {size size' : ℕ} {key : Key K S O} (h : InArray size key)
    (hle : size ≤ size') : InArray size' key :=
  ⟨h.1, h.2.trans (Int.ofNat_le.mpr hle)⟩

variable [IsStrictOrderedRing K]

theorem number2int_intCast {i : ℤ} (h1 : -2 ^ 31 ≤ i) (h2 : i < 2 ^ 31) :
    number2int (i : K) = i := by
  rw [number2int, Int.floor_intCast, BitVec.toInt_ofInt]
  exact Int.bmod_eq_of_le (by omega) (by omega)

theorem arrayindex_number {i : ℤ} (h1 : -2 ^ 31 ≤ i) (h2 : i < 2 ^ 31) :
    arrayindex (.number (i : K) : Key K S O) = i := by
  rw [arrayindex, number2int_intCast h1 h2, if_pos rfl]

end Positions

variable {K S O V : Type} [Field K] [LinearOrder K] [FloorRing K] {hs : Hashes K S O}
  {t t' : Table (Key K S O) V} {k k' : Key K S O} {p : Slot}

/-- Only the common `dummynode` has no free node to begin with. -/
structure WellFormed (hs : Hashes K S O) (t : Table (Key K S O) V) : Prop where
  scattered : Scattered t.sizenode (mainposition hs t.sizenode) t.keys t.links
  lastfree_le : t.lastfree ≤ t.sizenode
  taken : t.dummy = false → ∀ i, t.lastfree ≤ i → i < t.sizenode → t.keys i ≠ none
  unkeyed : ∀ i, t.keys i = none → t.vals i = none
  of_dummy : t.dummy = true → t.lastfree = 0 ∧ ∀ i, t.keys i = none
  apart : ∀ i k, t.keys i = some k → ¬ InArray t.sizearray k
  sizearray_le : t.sizearray ≤ maxasize

namespace WellFormed

variable (hs) in
omit [FloorRing K] in
theorem mainposition_lt (t : Table (Key K S O) V) (k : Key K S O) :
    mainposition hs t.sizenode k < t.sizenode := Ltable.mainposition_lt hs t.lsizenode k

variable [DecidableEq S] [DecidableEq O]

theorem findKey_eq_some_iff (h : WellFormed hs t) :
    findKey t (mainposition hs t.sizenode k) k = some p ↔ ∃ i, p = .node i ∧ t.keys i = some k := by
  have hfind {i : ℕ} := h.scattered.find_eq_some_iff (i := i) (mainposition_lt hs t k)
  rw [findKey, Option.map_eq_some_iff]
  constructor
  · rintro ⟨i, hi, rfl⟩
    exact ⟨i, rfl, hfind.mp hi⟩
  · rintro ⟨i, rfl, hi⟩
    exact ⟨i, hfind.mpr hi, rfl⟩

end WellFormed

variable [DecidableEq S] [DecidableEq O]

/-- All searches look at the place in the array, or else follow the chain from the main position. -/
theorem luaHGet_eq (hs : Hashes K S O) (t : Table (Key K S O) V) (k : Key K S O) :
    luaHGet hs t k =
      if InArray t.sizearray k then some (.array (arrayindex k - 1).toNat)
      else findKey t (mainposition hs t.sizenode k) k := by
  cases k with
  | number n =>
      by_cases hn : (number2int n : K) = n
      · have hindex : arrayindex (.number n : Key K S O) = number2int n := by
          rw [arrayindex, if_pos hn]
        have hin : InArray t.sizearray (.number n : Key K S O) ↔
            1 ≤ number2int n ∧ number2int n ≤ t.sizearray := by rw [InArray, hindex]
        rw [luaHGet, if_pos hn, luaHGetnum, hn, hindex]
        simp only [hin]
        rfl
      · have hindex : arrayindex (.number n : Key K S O) = -1 := by
          rw [arrayindex, if_neg hn]
        rw [luaHGet, if_neg hn, if_neg]
        intro hin
        rw [InArray, hindex] at hin
        omega
  | string ts =>
      rw [if_neg]
      · rfl
      · intro hin
        exact hin.ne rfl
  | boolean b =>
      rw [if_neg]
      · rfl
      · intro hin
        exact hin.ne rfl
  | object o =>
      rw [if_neg]
      · rfl
      · intro hin
        exact hin.ne rfl

theorem luaHGetnum_eq [IsStrictOrderedRing K] (hs : Hashes K S O) (t : Table (Key K S O) V) {i : ℤ}
    (h1 : -2 ^ 31 ≤ i) (h2 : i < 2 ^ 31) :
    luaHGetnum hs t i = luaHGet hs t (.number (i : K)) := by
  rw [luaHGet, number2int_intCast h1 h2, if_pos rfl]

namespace WellFormed

theorem luaHGet_eq_some_iff (h : WellFormed hs t) :
    luaHGet hs t k = some p ↔
      InArray t.sizearray k ∧ p = .array (arrayindex k - 1).toNat ∨
        ∃ i, p = .node i ∧ t.keys i = some k := by
  rw [luaHGet_eq]
  split_ifs with hin
  · simp only [Option.some.injEq, hin, true_and]
    refine ⟨fun hp => .inl hp.symm, ?_⟩
    rintro (hp | ⟨i, -, hi⟩)
    · exact hp.symm
    · exact absurd hin (h.apart i k hi)
  · rw [h.findKey_eq_some_iff]
    simp [hin]

theorem luaHGet_eq_none_iff (h : WellFormed hs t) :
    luaHGet hs t k = none ↔ ¬ InArray t.sizearray k ∧ ∀ i, t.keys i ≠ some k := by
  rw [Option.eq_none_iff_forall_ne_some]
  simp only [ne_eq, h.luaHGet_eq_some_iff, not_or, not_and, not_exists]
  constructor
  · intro hall
    exact ⟨fun hin => (hall (.array (arrayindex k - 1).toNat)).1 hin rfl,
      fun i => (hall (.node i)).2 i rfl⟩
  · intro hnone p
    exact ⟨fun hin => absurd hin hnone.1, fun i _ => hnone.2 i⟩

/-- Different keys have different slots. -/
theorem luaHGet_inj (h : WellFormed hs t) (hk : luaHGet hs t k = some p)
    (hk' : luaHGet hs t k' = some p) : k = k' := by
  rcases h.luaHGet_eq_some_iff.mp hk with ⟨hin, rfl⟩ | ⟨i, rfl, hi⟩
  · rcases h.luaHGet_eq_some_iff.mp hk' with ⟨hin', heq⟩ | ⟨i, heq, -⟩
    · exact hin.inj hin' (Slot.array.inj heq)
    · cases heq
  · rcases h.luaHGet_eq_some_iff.mp hk' with ⟨-, heq⟩ | ⟨j, heq, hj⟩
    · cases heq
    · obtain rfl := Slot.node.inj heq
      exact Option.some.inj (hi.symm.trans hj)

theorem get_eq_some_iff (h : WellFormed hs t) {v : V} :
    get hs t k = some v ↔
      InArray t.sizearray k ∧ t.array[(arrayindex k - 1).toNat]? = some (some v) ∨
        t.Holds k v := by
  rw [get, Option.bind_eq_some_iff]
  constructor
  · rintro ⟨p, hp, hread⟩
    rcases h.luaHGet_eq_some_iff.mp hp with ⟨hin, rfl⟩ | ⟨i, rfl, hi⟩
    · exact .inl ⟨hin, Option.join_eq_some_iff.mp hread⟩
    · exact .inr ⟨i, hi, hread⟩
  · rintro (⟨hin, hread⟩ | ⟨i, hi, hread⟩)
    · exact ⟨_, h.luaHGet_eq_some_iff.mpr (.inl ⟨hin, rfl⟩), Option.join_eq_some_iff.mpr hread⟩
    · exact ⟨.node i, h.luaHGet_eq_some_iff.mpr (.inr ⟨i, rfl, hi⟩), hread⟩

theorem write (h : WellFormed hs t) (hk : luaHGet hs t k = some p) (v : Option V) :
    WellFormed hs (t.write p v) where
  scattered := by simpa using h.scattered
  lastfree_le := by simpa using h.lastfree_le
  taken := by simpa using h.taken
  unkeyed := by
    intro i hi
    rw [keys_write] at hi
    have hne : Slot.node i ≠ p := by
      rintro rfl
      rcases h.luaHGet_eq_some_iff.mp hk with ⟨-, heq⟩ | ⟨j, heq, hj⟩
      · cases heq
      · obtain rfl := Slot.node.inj heq
        rw [hi] at hj
        cases hj
    exact (read_write_of_ne t hne v).trans (h.unkeyed i hi)
  of_dummy := by simpa using h.of_dummy
  apart := by simpa using h.apart
  sizearray_le := by simpa using h.sizearray_le

theorem luaHGet_write (p : Slot) (v : Option V) (k : Key K S O) :
    luaHGet hs (t.write p v) k = luaHGet hs t k := by
  have hfind (start : ℕ) : findKey (t.write p v) start k = findKey t start k := by
    change ((visited (t.write p v).links (t.write p v).sizenode start).find? fun n =>
        (t.write p v).keys n = some k).map _ =
      ((visited t.links t.sizenode start).find? fun n => t.keys n = some k).map _
    simp only [links_write, sizenode_write, keys_write]
  rw [luaHGet_eq, luaHGet_eq, hfind, sizearray_write, sizenode_write]

theorem get_write (h : WellFormed hs t) (hk : luaHGet hs t k = some p) (v : Option V) :
    get hs (t.write p v) = Function.update (get hs t) k v := by
  funext k'
  rw [get, luaHGet_write]
  by_cases hkk : k' = k
  · subst hkk
    rw [Function.update_self, hk, Option.bind_some]
    rcases h.luaHGet_eq_some_iff.mp hk with ⟨hin, rfl⟩ | ⟨i, rfl, -⟩
    · refine read_write_array t ?_ v
      have h1 := hin.1
      have h2 := hin.2
      omega
    · exact read_write_node t i v
  · rw [Function.update_of_ne hkk, get]
    cases hp : luaHGet hs t k' with
    | none => rfl
    | some q =>
        have hqp : q ≠ p := by
          rintro rfl
          exact hkk (h.luaHGet_inj hp hk)
        exact read_write_of_ne t hqp v

end WellFormed

end SoftRenderer.Ltable
