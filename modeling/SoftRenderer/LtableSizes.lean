import SoftRenderer.LtableNewkey

/-!
# The sizes of the parts

`rehash` counts the keys of a table by the powers of two that bound them, and makes the array part
as large as it can be with more than half of it in use. All other keys go to the hash part, which
gets a node for each of them.
-/

namespace SoftRenderer.Ltable

open Kit Table

theorem log2Table_le_iff : ∀ x < 256, ∀ n < 9, log2Table.getD x 0 ≤ n ↔ x < 2 ^ n := by
  decide +kernel

theorem log2Table_le : ∀ x < 256, log2Table.getD x 0 ≤ 8 := by
  decide +kernel

theorem luaOLog2Loop_le_iff (l : ℤ) (x n : ℕ) : luaOLog2Loop l x ≤ l + n ↔ x < 2 ^ n := by
  fun_induction luaOLog2Loop l x generalizing n with
  | case1 l x hx ih =>
      rcases Nat.lt_or_ge n 8 with hn | hn
      · have hpow : 2 ^ n < 256 := (Nat.pow_lt_pow_right (by norm_num) hn).trans_eq (by norm_num)
        have hge : l + 8 + (0 : ℕ) ≤ luaOLog2Loop (l + 8) (x / 256) := by
          by_contra hlt
          have h0 := (ih 0).mp (by omega)
          omega
        exact iff_of_false (by omega) (by omega)
      · obtain ⟨m, rfl⟩ := Nat.exists_eq_add_of_le hn
        have hsplit : l + ((8 + m : ℕ) : ℤ) = l + 8 + m := by push_cast; ring
        have hdiv : x / 256 < 2 ^ m ↔ x < 2 ^ (8 + m) := by
          rw [Nat.div_lt_iff_lt_mul (by norm_num), pow_add, mul_comm]
          norm_num
        rw [hsplit, ih m, hdiv]
  | case2 l x hx =>
      have hx' : x < 256 := by omega
      rw [Int.add_le_add_iff_left, Int.ofNat_le]
      rcases Nat.lt_or_ge n 9 with hn | hn
      · exact log2Table_le_iff x hx' n hn
      · have hle := log2Table_le x hx'
        have hpow : 2 ^ 9 ≤ 2 ^ n := Nat.pow_le_pow_right (by norm_num) hn
        exact iff_of_true (by omega) (by omega)

theorem ceillog2_le_iff {x n : ℕ} (hx : 0 < x) : ceillog2 x ≤ n ↔ x ≤ 2 ^ n := by
  have h := luaOLog2Loop_le_iff (-1) (x - 1) n
  rw [ceillog2, luaOLog2, Int.toNat_le]
  constructor
  · intro hle
    have hlt := h.mp (by omega)
    omega
  · intro hle
    have hle' := h.mpr (by omega)
    omega

theorem ceillog2_lt_iff {x n : ℕ} (hx : 0 < x) : ceillog2 x < n ↔ x ≤ 2 ^ n / 2 := by
  cases n with
  | zero => simp [hx.ne']
  | succ n =>
      rw [Nat.lt_succ_iff, ceillog2_le_iff hx, pow_succ, Nat.mul_div_cancel _ (by norm_num)]

theorem two_pow_ceillog2_lt {x : ℕ} (hx : 0 < x) : 2 ^ ceillog2 x < 2 * x := by
  cases hn : ceillog2 x with
  | zero => omega
  | succ n =>
      have hlt : ¬ ceillog2 x ≤ n := by omega
      rw [ceillog2_le_iff hx] at hlt
      rw [pow_succ]
      omega

/-- More than half of the array is in use, where `c n` counts the indices up to `n`, and no larger
power of two has this property. -/
structure Optimal (c : ℕ → ℕ) (n : ℕ) : Prop where
  half : n = 0 ∨ ∃ j ≤ maxbits, n = 2 ^ j ∧ n / 2 < c n
  largest : ∀ j ≤ maxbits, n < 2 ^ j → c (2 ^ j) ≤ 2 ^ j / 2

section Best

variable {c : ℕ → ℕ} {nums : ℕ → ℕ} {narray : ℕ}

/-- The best of the powers of two below the one of `i`. -/
def Best (c : ℕ → ℕ) (i n : ℕ) : Prop :=
  (n = 0 ∨ ∃ j < i, n = 2 ^ j ∧ n / 2 < c n) ∧ ∀ j < i, n < 2 ^ j → c (2 ^ j) ≤ 2 ^ j / 2

theorem Optimal.congr {c' : ℕ → ℕ} {n : ℕ} (h : Optimal c n) (hc : ∀ m ≤ maxasize, c m = c' m) :
    Optimal c' n := by
  have hpow {j : ℕ} (hj : j ≤ maxbits) : c (2 ^ j) = c' (2 ^ j) :=
    hc _ (Nat.pow_le_pow_right (by norm_num) hj)
  refine ⟨h.half.imp_right ?_, fun j hj hlt => hpow hj ▸ h.largest j hj hlt⟩
  rintro ⟨j, hj, rfl, hhalf⟩
  exact ⟨j, hj, rfl, hpow hj ▸ hhalf⟩

theorem Optimal.le_maxasize {n : ℕ} (h : Optimal c n) : n ≤ maxasize := by
  rcases h.half with rfl | ⟨j, hj, rfl, -⟩
  · exact Nat.zero_le _
  · exact Nat.pow_le_pow_right (by norm_num) hj

theorem Optimal.le_two_mul {n : ℕ} (h : Optimal c n) : n ≤ 2 * c n := by
  rcases h.half with rfl | ⟨j, -, -, hhalf⟩
  · exact Nat.zero_le _
  · omega

theorem Best.optimal {i n : ℕ} (h : Best c i n) (hi : i ≤ maxbits + 1)
    (hrest : ∀ j, i ≤ j → j ≤ maxbits → c (2 ^ j) ≤ 2 ^ j / 2) : Optimal c n := by
  refine ⟨h.1.imp_right fun ⟨j, hj, hn⟩ => ⟨j, by omega, hn⟩, fun j hj hlt => ?_⟩
  rcases Nat.lt_or_ge j i with hji | hij
  · exact h.2 j hji hlt
  · exact hrest j hij hj

theorem Best.succ {i n : ℕ} (h : Best c i n) (hi : c (2 ^ i) ≤ 2 ^ i / 2) : Best c (i + 1) n := by
  refine ⟨h.1.imp_right fun ⟨j, hj, hn⟩ => ⟨j, by omega, hn⟩, fun j hj hlt => ?_⟩
  rcases Nat.lt_succ_iff_lt_or_eq.mp hj with hji | rfl
  · exact h.2 j hji hlt
  · exact hi

theorem Best.next {i : ℕ} (hi : 2 ^ i / 2 < c (2 ^ i)) : Best c (i + 1) (2 ^ i) := by
  refine ⟨.inr ⟨i, Nat.lt_succ_self i, rfl, hi⟩, fun j hj hlt => ?_⟩
  exact absurd hlt (Nat.pow_le_pow_right (by norm_num) (Nat.lt_succ_iff.mp hj)).not_gt

theorem computesizesLoop_spec
    (hnums : ∀ j ≤ maxbits + 1, ∑ i ∈ Finset.range j, nums i = c (2 ^ j / 2))
    (hall : narray = c maxasize) (hle : ∀ n, c n ≤ n) (hmono : Monotone c) (fuel : ℕ)
    {i n : ℕ} (hfuel : i + fuel = maxbits + 1) (hi : i ≤ maxbits) (hbest : Best c i n) :
    ∃ n', computesizesLoop nums narray fuel i (c (2 ^ i / 2)) (c n) n = some (c n', n') ∧
      Optimal c n' := by
  induction fuel generalizing i n with
  | zero => omega
  | succ fuel ih =>
      have hdouble : 2 ^ (i + 1) / 2 = 2 ^ i := by
        rw [pow_succ, Nat.mul_div_cancel _ (by norm_num)]
      have hsum : c (2 ^ i / 2) + nums i = c (2 ^ i) := by
        rw [← hnums i (by omega), ← Finset.sum_range_succ, hnums (i + 1) (by omega), hdouble]
      rw [computesizesLoop]
      by_cases hlt : 2 ^ i / 2 < narray
      · rw [if_pos hlt]
        -- what the slice of `i` adds
        obtain ⟨n', hr, hbest'⟩ : ∃ n', (if 0 < nums i then
            if 2 ^ i / 2 < c (2 ^ i / 2) + nums i then
              (c (2 ^ i / 2) + nums i, c (2 ^ i / 2) + nums i, 2 ^ i)
            else (c (2 ^ i / 2) + nums i, c n, n)
            else (c (2 ^ i / 2), c n, n)) = (c (2 ^ i), c n', n') ∧ Best c (i + 1) n' := by
          by_cases hpos : 0 < nums i
          · rw [if_pos hpos, hsum]
            by_cases hhalf : 2 ^ i / 2 < c (2 ^ i)
            · exact ⟨2 ^ i, if_pos hhalf, .next hhalf⟩
            · exact ⟨n, if_neg hhalf, hbest.succ (not_lt.mp hhalf)⟩
          · have hsame : c (2 ^ i / 2) = c (2 ^ i) := by omega
            rw [if_neg hpos, hsame]
            exact ⟨n, rfl, hbest.succ (hsame ▸ hle _)⟩
        simp only [hr]
        by_cases hdone : c (2 ^ i) = narray
        · rw [if_pos hdone]
          refine ⟨n', rfl, hbest'.optimal (by omega) fun j hij hj => ?_⟩
          calc c (2 ^ j) ≤ c maxasize := hmono (Nat.pow_le_pow_right (by norm_num) hj)
            _ = c (2 ^ i) := hall.symm.trans hdone.symm
            _ ≤ 2 ^ i := hle _
            _ = 2 ^ (i + 1) / 2 := hdouble.symm
            _ ≤ 2 ^ j / 2 := Nat.div_le_div_right (Nat.pow_le_pow_right (by norm_num) hij)
        · rw [if_neg hdone, ← hdouble]
          have hlast : i ≠ maxbits := by
            rintro rfl
            exact hdone hall.symm
          exact ih (by omega) (by omega) hbest'
      · rw [if_neg hlt]
        refine ⟨n, rfl, hbest.optimal (by omega) fun j hij hj => ?_⟩
        calc c (2 ^ j) ≤ c maxasize := hmono (Nat.pow_le_pow_right (by norm_num) hj)
          _ = narray := hall.symm
          _ ≤ 2 ^ i / 2 := not_lt.mp hlt
          _ ≤ 2 ^ j / 2 := Nat.div_le_div_right (Nat.pow_le_pow_right (by norm_num) hij)

theorem computesizes_spec
    (hnums : ∀ j ≤ maxbits + 1, ∑ i ∈ Finset.range j, nums i = c (2 ^ j / 2))
    (hall : narray = c maxasize) (hle : ∀ n, c n ≤ n) (hmono : Monotone c) :
    ∃ n, computesizes nums narray = some (c n, n) ∧ Optimal c n := by
  have hzero : c 0 = 0 := Nat.le_zero.mp (hle 0)
  have hbest : Best c 0 0 := ⟨.inl rfl, fun j hj => absurd hj (Nat.not_lt_zero j)⟩
  have hstart : c (2 ^ 0 / 2) = 0 := hzero
  have hrun := computesizesLoop_spec hnums hall hle hmono (maxbits + 1) (zero_add _)
    (Nat.zero_le _) hbest
  rwa [hstart, hzero] at hrun

end Best

section Entries

variable {K S O V : Type} [Field K]

/-- The keys with a value of an array part that starts behind index `i`. -/
def sliceEntries : List (Option V) → ℕ → List (Key K S O × V)
  | [], _ => []
  | none :: rest, i => sliceEntries rest (i + 1)
  | some v :: rest, i => (.number ((i : K) + 1), v) :: sliceEntries rest (i + 1)

/-- The keys with a value in the first `n` nodes, from the last one on. -/
def nodeEntries {κ : Type} (node : ℕ → Node κ V) : ℕ → List (κ × V)
  | 0 => []
  | i + 1 =>
      match (node i).val, (node i).key with
      | some v, some key => (key, v) :: nodeEntries node i
      | _, _ => nodeEntries node i

/-- The keys with a value, in the order in which the table counts them. -/
def Table.entries (t : Table (Key K S O) V) : List (Key K S O × V) :=
  sliceEntries t.array 0 ++ nodeEntries t.node t.sizenode

theorem mem_sliceEntries {array : List (Option V)} {i : ℕ} {k : Key K S O} {v : V} :
    (k, v) ∈ sliceEntries array i ↔
      ∃ j : ℕ, array[j]? = some (some v) ∧ k = .number (((i + j : ℕ) : K) + 1) := by
  induction array generalizing i with
  | nil => simp [sliceEntries]
  | cons x rest ih =>
      have hshift : (k, v) ∈ sliceEntries rest (i + 1) ↔
          ∃ j : ℕ, (x :: rest)[j + 1]? = some (some v) ∧
            k = .number (((i + (j + 1) : ℕ) : K) + 1) := by
        rw [ih]
        simp only [List.getElem?_cons_succ, add_assoc, add_comm 1]
      cases x with
      | none =>
          rw [sliceEntries, hshift]
          constructor
          · rintro ⟨j, hj⟩
            exact ⟨j + 1, hj⟩
          · rintro ⟨_ | j, hj⟩
            · simp at hj
            · exact ⟨j, hj⟩
      | some w =>
          rw [sliceEntries, List.mem_cons, hshift]
          constructor
          · rintro (heq | ⟨j, hj⟩)
            · obtain ⟨rfl, rfl⟩ := Prod.mk.inj heq
              exact ⟨0, rfl, rfl⟩
            · exact ⟨j + 1, hj⟩
          · rintro ⟨_ | j, hj⟩
            · obtain ⟨hval, rfl⟩ := hj
              obtain rfl : w = v := Option.some.inj (Option.some.inj hval)
              exact .inl rfl
            · exact .inr ⟨j, hj⟩

theorem mem_nodeEntries {κ : Type} {node : ℕ → Node κ V} {n : ℕ} {k : κ} {v : V} :
    (k, v) ∈ nodeEntries node n ↔ ∃ i < n, (node i).key = some k ∧ (node i).val = some v := by
  induction n with
  | zero => simp [nodeEntries]
  | succ n ih =>
      have hsplit : (∃ i < n + 1, (node i).key = some k ∧ (node i).val = some v) ↔
          ((node n).key = some k ∧ (node n).val = some v) ∨ (k, v) ∈ nodeEntries node n := by
        rw [ih]
        constructor
        · rintro ⟨i, hi, hkv⟩
          rcases Nat.lt_succ_iff_lt_or_eq.mp hi with hi' | rfl
          · exact .inr ⟨i, hi', hkv⟩
          · exact .inl hkv
        · rintro (hkv | ⟨i, hi, hkv⟩)
          · exact ⟨n, Nat.lt_succ_self n, hkv⟩
          · exact ⟨i, hi.trans (Nat.lt_succ_self n), hkv⟩
      rw [hsplit, nodeEntries]
      cases (node n).val with
      | none => simp
      | some w =>
          cases (node n).key with
          | none => simp
          | some k' => simp [eq_comm]

theorem length_sliceEntries (array : List (Option V)) (i : ℕ) :
    (sliceEntries array i : List (Key K S O × V)).length = array.countP Option.isSome := by
  induction array generalizing i with
  | nil => rfl
  | cons x rest ih =>
      cases x with
      | none => rw [sliceEntries, ih, List.countP_cons_of_neg (by simp)]
      | some v => rw [sliceEntries, List.length_cons, ih, List.countP_cons_of_pos (by simp)]

end Entries

variable {K S O V : Type} [Field K] [LinearOrder K] [FloorRing K] [IsStrictOrderedRing K]

theorem arrayindex_succ {i : ℕ} (hi : i < maxasize) :
    arrayindex (.number ((i : K) + 1) : Key K S O) = i + 1 := by
  have hcast : ((i : K) + 1) = (((i : ℤ) + 1 : ℤ) : K) := by push_cast; rfl
  have hlt : maxasize < 2 ^ 31 := by decide +kernel
  rw [hcast, arrayindex_number (by omega) (by omega)]

section Distinct

omit [FloorRing K] in
theorem nodup_sliceEntries (array : List (Option V)) (i : ℕ) :
    ((sliceEntries array i).map (Prod.fst : Key K S O × V → _)).Nodup := by
  induction array generalizing i with
  | nil => exact List.nodup_nil
  | cons x rest ih =>
      cases x with
      | none => exact ih (i + 1)
      | some v =>
          refine List.nodup_cons.mpr ⟨fun hmem => ?_, ih (i + 1)⟩
          obtain ⟨⟨k, w⟩, hkw, hk⟩ := List.mem_map.mp hmem
          obtain ⟨j, -, rfl⟩ := mem_sliceEntries.mp hkw
          have heq := Key.number.inj hk
          rw [add_left_inj, Nat.cast_inj] at heq
          omega

theorem nodup_nodeEntries {κ : Type} {node : ℕ → Node κ V} {n : ℕ}
    (hinj : ∀ i j k, (node i).key = some k → (node j).key = some k → i = j) :
    ((nodeEntries node n).map Prod.fst).Nodup := by
  induction n with
  | zero => exact List.nodup_nil
  | succ n ih =>
      rw [nodeEntries]
      cases hv : (node n).val with
      | none => exact ih
      | some v =>
          cases hk : (node n).key with
          | none => exact ih
          | some k =>
              refine List.nodup_cons.mpr ⟨fun hmem => ?_, ih⟩
              obtain ⟨⟨k', w⟩, hkw, rfl⟩ := List.mem_map.mp hmem
              obtain ⟨i, hi, hik, -⟩ := mem_nodeEntries.mp hkw
              exact hi.ne (hinj i n k' hik hk)

end Distinct

variable {hs : Hashes K S O} {t : Table (Key K S O) V} {k : Key K S O} {v : V}

theorem inArray_number_iff {array : List (Option V)} (hle : array.length ≤ maxasize) :
    (∃ j : ℕ, array[j]? = some (some v) ∧ k = .number (((0 + j : ℕ) : K) + 1)) ↔
      InArray array.length k ∧ array[(arrayindex k - 1).toNat]? = some (some v) := by
  constructor
  · rintro ⟨j, hj, rfl⟩
    have hlt := (List.getElem?_eq_some_iff.mp hj).1
    have hindex : arrayindex (.number (((0 + j : ℕ) : K) + 1) : Key K S O) = j + 1 := by
      rw [zero_add, arrayindex_succ (hlt.trans_le hle)]
    rw [InArray, hindex]
    refine ⟨⟨by omega, by omega⟩, ?_⟩
    rwa [add_sub_cancel_right, Int.toNat_natCast]
  · rintro ⟨hin, hget⟩
    refine ⟨(arrayindex k - 1).toNat, hget, ?_⟩
    rw [zero_add]
    exact hin.eq_number

namespace WellFormed

omit [IsStrictOrderedRing K] in
theorem mem_nodeEntries_iff (h : WellFormed hs t) :
    (k, v) ∈ nodeEntries t.node t.sizenode ↔ t.Holds k v := by
  rw [mem_nodeEntries]
  constructor
  · rintro ⟨i, -, hkv⟩
    exact ⟨i, hkv⟩
  · rintro ⟨i, hk, hv⟩
    exact ⟨i, h.scattered.key_lt i k hk, hk, hv⟩

theorem mem_entries_iff [DecidableEq S] [DecidableEq O] (h : WellFormed hs t) :
    (k, v) ∈ t.entries ↔ get hs t k = some v := by
  rw [entries, List.mem_append, mem_sliceEntries, inArray_number_iff h.sizearray_le,
    h.mem_nodeEntries_iff, h.get_eq_some_iff, sizearray]

theorem nodup_entries (h : WellFormed hs t) : (t.entries.map Prod.fst).Nodup := by
  rw [entries, List.map_append, List.nodup_append]
  refine ⟨nodup_sliceEntries t.array 0, nodup_nodeEntries h.scattered.inj, ?_⟩
  rintro k hk k' hk' rfl
  obtain ⟨⟨k, v⟩, hkv, rfl⟩ := List.mem_map.mp hk
  obtain ⟨⟨k', v'⟩, hkv', rfl⟩ := List.mem_map.mp hk'
  obtain ⟨i, hi, -⟩ := h.mem_nodeEntries_iff.mp hkv'
  exact h.apart i k' hi ((inArray_number_iff h.sizearray_le).mp (mem_sliceEntries.mp hkv)).1

theorem nodup_cons_entries [DecidableEq S] [DecidableEq O] (h : WellFormed hs t)
    (hk : get hs t k = none) : (k :: t.entries.map Prod.fst).Nodup := by
  refine List.nodup_cons.mpr ⟨fun hmem => ?_, h.nodup_entries⟩
  obtain ⟨⟨k', v⟩, hkv, rfl⟩ := List.mem_map.mp hmem
  rw [h.mem_entries_iff, hk] at hkv
  cases hkv

end WellFormed

/-- The number of keys with a place in an array of this size. -/
def indices (ks : List (Key K S O)) (n : ℕ) : ℕ := ks.countP fun k => InArray n k

/-- The number of all other keys. -/
def others (ks : List (Key K S O)) (n : ℕ) : ℕ := ks.countP fun k => ¬ InArray n k

omit [IsStrictOrderedRing K] in
theorem indices_mono (ks : List (Key K S O)) : Monotone (indices ks) := by
  intro m n hle
  refine List.countP_mono_left fun k _ hk => ?_
  exact decide_eq_true ((of_decide_eq_true hk).mono hle)

omit [IsStrictOrderedRing K] in
theorem indices_le {ks : List (Key K S O)} (hks : ks.Nodup) (n : ℕ) : indices ks n ≤ n := by
  have hnodup : ((ks.filter fun k => InArray n k).map
      fun k => (arrayindex k - 1).toNat).Nodup := by
    refine List.Nodup.map_on (fun k hk k' hk' heq => ?_) (hks.filter _)
    exact (of_decide_eq_true (List.mem_filter.mp hk).2).inj
      (of_decide_eq_true (List.mem_filter.mp hk').2) heq
  have hsub : ((ks.filter fun k => InArray n k).map fun k => (arrayindex k - 1).toNat) ⊆
      List.range n := by
    intro i hi
    obtain ⟨k, hk, rfl⟩ := List.mem_map.mp hi
    have hin : InArray n k := of_decide_eq_true (List.mem_filter.mp hk).2
    have h1 := hin.1
    have h2 := hin.2
    exact List.mem_range.mpr (by omega)
  have hlen := (hnodup.subperm hsub).length_le
  rwa [List.length_map, List.length_range, ← List.countP_eq_length_filter] at hlen

/-- Slice by slice, `nums` counts the keys. -/
def Tally (nums : ℕ → ℕ) (ks : List (Key K S O)) : Prop :=
  ∀ j ≤ maxbits + 1, ∑ i ∈ Finset.range j, nums i = indices ks (2 ^ j / 2)

theorem sum_range_update (nums : ℕ → ℕ) (lg c j : ℕ) :
    ∑ i ∈ Finset.range j, Function.update nums lg (nums lg + c) i =
      ∑ i ∈ Finset.range j, nums i + if lg < j then c else 0 := by
  induction j with
  | zero => simp
  | succ j ih =>
      rw [Finset.sum_range_succ, Finset.sum_range_succ, ih]
      by_cases hj : j = lg
      · subst hj
        simp [add_assoc]
      · rw [Function.update_of_ne hj]
        have hiff : lg < j + 1 ↔ lg < j := by omega
        simp only [hiff]
        omega

omit [IsStrictOrderedRing K] in
theorem indices_cons (k : Key K S O) (ks : List (Key K S O)) (n : ℕ) :
    indices (k :: ks) n = indices ks n + if InArray n k then 1 else 0 := by
  rw [indices, List.countP_cons, indices]
  simp

omit [IsStrictOrderedRing K] in
theorem others_cons (k : Key K S O) (ks : List (Key K S O)) (n : ℕ) :
    others (k :: ks) n = others ks n + if InArray n k then 0 else 1 := by
  rw [others, List.countP_cons, others]
  by_cases hin : InArray n k <;> simp [hin]

omit [IsStrictOrderedRing K] in
theorem indices_add_others (ks : List (Key K S O)) (n : ℕ) :
    indices ks n + others ks n = ks.length := by
  rw [indices, others, List.length_eq_countP_add_countP fun k => decide (InArray n k)]
  simp

omit [IsStrictOrderedRing K] in
theorem countint_spec {nums : ℕ → ℕ} {ks : List (Key K S O)} (h : Tally nums ks)
    (k : Key K S O) :
    (countint k nums).1 = (if InArray maxasize k then 1 else 0) ∧
      Tally (countint k nums).2 (k :: ks) := by
  by_cases hin : InArray maxasize k
  · have hpos := hin.1
    have hcond : 0 < arrayindex k ∧ arrayindex k ≤ maxasize := ⟨by omega, hin.2⟩
    rw [countint, if_pos hcond, if_pos hin]
    refine ⟨rfl, fun j hj => ?_⟩
    have hiff : ceillog2 (arrayindex k).toNat < j ↔ InArray (2 ^ j / 2) k := by
      rw [ceillog2_lt_iff (by omega), InArray]
      omega
    rw [sum_range_update, h j hj, indices_cons]
    simp only [hiff]
  · have hcond : ¬ (0 < arrayindex k ∧ arrayindex k ≤ maxasize) := hin
    rw [countint, if_neg hcond, if_neg hin]
    refine ⟨rfl, fun j hj => ?_⟩
    have hle : 2 ^ j / 2 ≤ maxasize := by
      have hpow : 2 ^ j ≤ 2 ^ (maxbits + 1) := Nat.pow_le_pow_right (by norm_num) hj
      have hmax : 2 ^ (maxbits + 1) = 2 * maxasize := by rw [pow_succ, mul_comm, maxasize]
      omega
    rw [indices_cons, if_neg fun hin' => hin (hin'.mono hle)]
    exact h j hj

/-- `(2^(lg-1), 2^lg]` is what the loop counts for `lg`. -/
theorem numusearrayLoop_spec {array : List (Option V)} (hle : array.length ≤ maxasize)
    (slices lg i ause : ℕ) (nums : ℕ → ℕ) (hslices : slices + lg = maxbits + 1)
    (hi : i = min (2 ^ lg / 2) array.length + 1)
    (hause : ause = (array.take (2 ^ lg / 2)).countP Option.isSome)
    (hsum : ∀ j ≤ lg, ∑ k ∈ Finset.range j, nums k = (array.take (2 ^ j / 2)).countP Option.isSome)
    (hrest : ∀ j, lg ≤ j → nums j = 0) :
    ∃ nums', numusearrayLoop array slices lg i ause nums = (array.countP Option.isSome, nums') ∧
      ∀ j ≤ maxbits + 1,
        ∑ k ∈ Finset.range j, nums' k = (array.take (2 ^ j / 2)).countP Option.isSome := by
  induction slices generalizing lg i ause nums with
  | zero =>
      have hlg : lg = maxbits + 1 := by omega
      subst hlg
      refine ⟨nums, ?_, hsum⟩
      have hmax : 2 ^ (maxbits + 1) / 2 = maxasize := by
        rw [pow_succ, Nat.mul_div_cancel _ (by norm_num), maxasize]
      rw [numusearrayLoop, hause, hmax, List.take_of_length_le hle]
  | succ slices ih =>
      have hdouble : 2 ^ (lg + 1) / 2 = 2 ^ lg := by
        rw [pow_succ, Nat.mul_div_cancel _ (by norm_num)]
      have hhalf : 2 ^ lg / 2 ≤ 2 ^ lg := Nat.div_le_self _ _
      rw [numusearrayLoop]
      by_cases hend : array.length < 2 ^ lg ∧ min (2 ^ lg) array.length < i
      · rw [if_pos hend]
        have hlen : array.length ≤ 2 ^ lg / 2 := by omega
        have hall (j : ℕ) (hj : lg ≤ j) : array.take (2 ^ j / 2) = array :=
          List.take_of_length_le (hlen.trans
            (Nat.div_le_div_right (Nat.pow_le_pow_right (by norm_num) hj)))
        refine ⟨nums, ?_, fun j _ => ?_⟩
        · rw [hause, hall lg le_rfl]
        · rcases Nat.le_total j lg with hj | hj
          · exact hsum j hj
          · obtain ⟨d, rfl⟩ := Nat.exists_eq_add_of_le hj
            have hzero : ∑ k ∈ Finset.range d, nums (lg + k) = 0 :=
              Finset.sum_eq_zero fun k _ => hrest _ (Nat.le_add_right lg k)
            rw [Finset.sum_range_add, hzero, hsum lg le_rfl, hall lg le_rfl, hall _ hj]
            rfl
      · rw [if_neg hend]
        -- the slice together with all before it
        have hslice : (array.take (2 ^ lg / 2)).countP Option.isSome +
            ((array.take (min (2 ^ lg) array.length)).drop (i - 1)).countP Option.isSome =
              (array.take (2 ^ lg)).countP Option.isSome := by
          have htake : array.take (min (2 ^ lg) array.length) = array.take (2 ^ lg) := by
            rw [← List.take_take, List.take_length]
          have hfirst : (array.take (2 ^ lg)).take (i - 1) = array.take (2 ^ lg / 2) := by
            have hmin : min (i - 1) (2 ^ lg) = min (2 ^ lg / 2) array.length := by omega
            rw [List.take_take, hmin, ← List.take_take, List.take_length]
          rw [htake, ← hfirst, ← List.countP_append, List.take_append_drop]
        refine ih _ _ _ _ (by omega) (by omega) ?_ (fun j hj => ?_) fun j hj => ?_
        · rw [hause, hslice, hdouble]
        · rw [sum_range_update]
          rcases Nat.le_succ_iff.mp hj with hj' | rfl
          · rw [if_neg (by omega), add_zero, hsum j hj']
          · rw [if_pos (Nat.lt_succ_self lg), Finset.sum_range_succ, hsum lg le_rfl,
              hrest lg le_rfl, add_zero, hslice, hdouble]
        · rw [Function.update_of_ne (by omega)]
          exact hrest j (by omega)

theorem indices_sliceEntries {array : List (Option V)} {i : ℕ} (hle : i + array.length ≤ maxasize)
    (n : ℕ) : indices ((sliceEntries array i).map (Prod.fst : Key K S O × V → _)) n =
      (array.take (n - i)).countP Option.isSome := by
  induction array generalizing i with
  | nil => simp [sliceEntries, indices]
  | cons x rest ih =>
      rw [List.length_cons] at hle
      have hrest := ih (i := i + 1) (by omega)
      cases x with
      | none =>
          rw [sliceEntries, hrest]
          rcases Nat.lt_or_ge i n with hin | hin
          · obtain ⟨d, rfl⟩ := Nat.exists_eq_add_of_lt hin
            have h1 : i + d + 1 - i = d + 1 := by omega
            have h2 : i + d + 1 - (i + 1) = d := by omega
            rw [h1, h2, List.take_succ_cons, List.countP_cons]
            simp
          · rw [Nat.sub_eq_zero_of_le hin, Nat.sub_eq_zero_of_le (by omega)]
            simp
      | some v =>
          have hiff : InArray n (.number ((i : K) + 1) : Key K S O) ↔ i < n := by
            rw [InArray, arrayindex_succ (by omega)]
            omega
          rw [sliceEntries, List.map_cons, indices_cons, hrest]
          simp only [hiff]
          rcases Nat.lt_or_ge i n with hin | hin
          · obtain ⟨d, rfl⟩ := Nat.exists_eq_add_of_lt hin
            have h1 : i + d + 1 - i = d + 1 := by omega
            have h2 : i + d + 1 - (i + 1) = d := by omega
            rw [h1, h2, if_pos hin, List.take_succ_cons, List.countP_cons]
            simp
          · rw [Nat.sub_eq_zero_of_le hin, Nat.sub_eq_zero_of_le (by omega), if_neg hin.not_gt]
            simp

theorem numusearray_spec (hle : t.sizearray ≤ maxasize) :
    ∃ nums, numusearray t (fun _ => 0) =
        ((sliceEntries t.array 0 : List (Key K S O × V)).length, nums) ∧
      Tally nums ((sliceEntries t.array 0 : List (Key K S O × V)).map Prod.fst) := by
  obtain ⟨nums, hrun, hsum⟩ := numusearrayLoop_spec hle (maxbits + 1) 0 1 0 (fun _ => 0) rfl
    (by simp) (by simp)
    (fun j hj => by simp [Nat.le_zero.mp hj]) fun _ _ => rfl
  refine ⟨nums, ?_, fun j hj => ?_⟩
  · rw [numusearray, hrun, length_sliceEntries]
  · rw [hsum j hj, indices_sliceEntries (by rw [zero_add]; exact hle), Nat.sub_zero]

omit [IsStrictOrderedRing K] in
theorem indices_append (ks ks' : List (Key K S O)) (n : ℕ) :
    indices (ks ++ ks') n = indices ks n + indices ks' n := List.countP_append

omit [IsStrictOrderedRing K] in
theorem numusehashLoop_spec {node : ℕ → Node (Key K S O) V}
    (hkeyed : ∀ i, (node i).key = none → (node i).val = none) (n totaluse ause : ℕ)
    {nums : ℕ → ℕ} {ks : List (Key K S O)} (h : Tally nums ks) :
    ∃ nums', numusehashLoop node n totaluse ause nums =
        (totaluse + (nodeEntries node n).length,
          ause + indices ((nodeEntries node n).map Prod.fst) maxasize, nums') ∧
      Tally nums' (((nodeEntries node n).map Prod.fst).reverse ++ ks) := by
  induction n generalizing totaluse ause nums ks with
  | zero => exact ⟨nums, rfl, h⟩
  | succ n ih =>
      cases hv : (node n).val with
      | none =>
          have hloop : numusehashLoop node (n + 1) totaluse ause nums =
              numusehashLoop node n totaluse ause nums := by rw [numusehashLoop, hv]
          have hentries : nodeEntries node (n + 1) = nodeEntries node n := by rw [nodeEntries, hv]
          rw [hloop, hentries]
          exact ih totaluse ause h
      | some v =>
          cases hk : (node n).key with
          | none =>
              rw [hkeyed n hk] at hv
              cases hv
          | some k =>
              obtain ⟨hcount, htally⟩ := countint_spec h k
              obtain ⟨nums', hrun, htally'⟩ := ih (totaluse + 1)
                (ause + if InArray maxasize k then 1 else 0) htally
              have hloop : numusehashLoop node (n + 1) totaluse ause nums =
                  numusehashLoop node n (totaluse + 1)
                    (ause + if InArray maxasize k then 1 else 0) (countint k nums).2 := by
                rw [numusehashLoop, hv, hk, ← hcount]
              have hentries : nodeEntries node (n + 1) = (k, v) :: nodeEntries node n := by
                rw [nodeEntries, hv, hk]
              rw [hloop, hentries]
              refine ⟨nums', ?_, ?_⟩
              · rw [hrun, List.length_cons, List.map_cons, indices_cons, add_assoc, add_assoc,
                  add_comm 1, add_comm (ite _ _ _)]
              · rwa [List.map_cons, List.reverse_cons, List.append_assoc, List.singleton_append]

omit [IsStrictOrderedRing K] in
theorem indices_perm {ks ks' : List (Key K S O)} (h : ks.Perm ks') : indices ks = indices ks' := by
  funext n
  exact h.countP_eq _

/-- The new sizes: the array is as large as it can be, and each other key gets a node. -/
theorem WellFormed.newSizes_spec [DecidableEq S] [DecidableEq O] (h : WellFormed hs t)
    (hk : get hs t k = none) :
    ∃ n, newSizes t k = some (n, others (k :: t.entries.map Prod.fst) n) ∧
      Optimal (indices (k :: t.entries.map Prod.fst)) n := by
  obtain ⟨nums₁, hrun₁, htally₁⟩ := numusearray_spec (S := S) (O := O) (t := t) h.sizearray_le
  obtain ⟨nums₂, hrun₂, htally₂⟩ := numusehashLoop_spec h.unkeyed t.sizenode 0 0 htally₁
  obtain ⟨hcount, htally₃⟩ := countint_spec htally₂ k
  let slice : List (Key K S O × V) := sliceEntries t.array 0
  let nodes := nodeEntries t.node t.sizenode
  have hperm : (k :: ((nodes.map Prod.fst).reverse ++ slice.map Prod.fst)).Perm
      (k :: t.entries.map Prod.fst) := by
    rw [entries, List.map_append]
    exact (((List.reverse_perm _).append_right _).trans List.perm_append_comm).cons k
  have htally : Tally (countint k nums₂).2 (k :: t.entries.map Prod.fst) := by
    intro j hj
    rw [htally₃ j hj, indices_perm hperm]
  -- all keys that can go to the array
  have hall : slice.length + (0 + indices (nodes.map Prod.fst) maxasize) + (countint k nums₂).1 =
      indices (k :: t.entries.map Prod.fst) maxasize := by
    have hslice : indices (slice.map Prod.fst) maxasize = slice.length := by
      rw [indices_sliceEntries (by rw [zero_add]; exact h.sizearray_le), length_sliceEntries,
        Nat.sub_zero, List.take_of_length_le h.sizearray_le]
    rw [indices_cons, entries, List.map_append, indices_append, hslice, hcount, zero_add]
  obtain ⟨n, hsizes, hoptimal⟩ := computesizes_spec htally hall
    (indices_le (h.nodup_cons_entries hk)) (indices_mono _)
  refine ⟨n, ?_, hoptimal⟩
  have htotal : slice.length + (0 + nodes.length) + 1 -
      indices (k :: t.entries.map Prod.fst) n = others (k :: t.entries.map Prod.fst) n := by
    have hlen : (k :: t.entries.map Prod.fst).length = slice.length + (0 + nodes.length) + 1 := by
      rw [List.length_cons, List.length_map, entries, List.length_append, zero_add]
    rw [← hlen, ← indices_add_others _ n, Nat.add_sub_cancel_left]
  simp only [newSizes, hrun₁, numusehash, hrun₂]
  rw [hsizes, Option.map_some, ← htotal]

end SoftRenderer.Ltable
