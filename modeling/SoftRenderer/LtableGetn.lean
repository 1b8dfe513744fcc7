import SoftRenderer.LtableNext

/-!
# Boundaries

`luaH_getn` looks for a boundary: a number with a value, or zero, behind which there is none. A
search that keeps a present number below an absent one cannot miss it, whatever lies between. For a
sequence there is only one boundary, its length.
-/

namespace SoftRenderer.Ltable

open Kit Table

/-- A number with a value, or zero, behind which there is none. -/
def IsBoundary (present : ℕ → Bool) (n : ℕ) : Prop :=
  (n = 0 ∨ present n = true) ∧ present (n + 1) = false

theorem bisect_isBoundary {present : ℕ → Bool} {i j : ℕ} (hi : i = 0 ∨ present i = true)
    (hj : present j = false) (hij : i < j) : IsBoundary present (bisect present i j) := by
  fun_induction bisect present i j with
  | case1 i j hlt m hm ih => exact ih (.inr hm) hj (by omega)
  | case2 i j hlt m hm ih => exact ih hi (Bool.eq_false_of_not_eq_true hm) (by omega)
  | case3 i j hlt =>
      have hnext : j = i + 1 := by omega
      exact ⟨hi, hnext ▸ hj⟩

theorem bisect_congr {present present' : ℕ → Bool} {i j : ℕ}
    (h : ∀ m, i < m → m < j → present m = present' m) :
    bisect present i j = bisect present' i j := by
  fun_induction bisect present i j with
  | case1 i j hlt m hm ih =>
      rw [bisect.eq_1 present', if_pos hlt, if_pos ((h _ (by omega) (by omega)).symm.trans hm)]
      exact ih fun m' h1 h2 => h m' (by omega) h2
  | case2 i j hlt m hm ih =>
      rw [bisect.eq_1 present', if_pos hlt,
        if_neg fun hm' => hm ((h _ (by omega) (by omega)).trans hm')]
      exact ih fun m' h1 h2 => h m' h1 (by omega)
  | case3 i j hlt => rw [bisect.eq_1 present', if_neg hlt]

theorem IsBoundary.unique {present : ℕ → Bool} {m n : ℕ} (h : IsBoundary present m)
    (hn : ∀ i, 1 ≤ i → (present i = true ↔ i ≤ n)) : m = n := by
  have hupper : m ≤ n := by
    rcases h.1 with rfl | hm
    · exact Nat.zero_le n
    · rcases Nat.eq_zero_or_pos m with rfl | hpos
      · exact Nat.zero_le n
      · exact (hn m hpos).mp hm
  have hlower : ¬ m + 1 ≤ n := by
    intro hle
    have hpresent := (hn (m + 1) (by omega)).mpr hle
    rw [h.2] at hpresent
    cases hpresent
  omega

variable {K S O V : Type} [Field K] [LinearOrder K] [FloorRing K] [DecidableEq S] [DecidableEq O]
  {hs : Hashes K S O} {t : Table (Key K S O) V}

omit [FloorRing K] in
theorem unboundLoop_spec {rounds i j i' j' : ℕ} (h : unboundLoop hs t rounds i j = some (i', j'))
    (hi : i = 0 ∨ hasnum hs t i = true) (hij : i < j) :
    (i' = 0 ∨ hasnum hs t i' = true) ∧ hasnum hs t j' = false ∧ i' < j' := by
  induction rounds generalizing i j with
  | zero => cases h
  | succ rounds ih =>
      rw [unboundLoop] at h
      by_cases hj : hasnum hs t j = true
      · rw [if_pos hj] at h
        split_ifs at h
        exact ih h (.inr hj) (by omega)
      · rw [if_neg hj] at h
        obtain ⟨rfl, rfl⟩ := Prod.mk.inj (Option.some.inj h)
        exact ⟨hi, Bool.eq_false_of_not_eq_true hj, hij⟩

variable [IsStrictOrderedRing K]

/-- `luaH_getnum` finds what `luaH_get` finds, also beyond the range of an int. -/
theorem WellFormed.luaHGetnum_eq (h : WellFormed hs t) (j : ℤ) :
    luaHGetnum hs t j = luaHGet hs t (.number (j : K)) := by
  have hmax : maxasize < 2 ^ 31 := by decide +kernel
  have hle := h.sizearray_le
  have hin : InArray t.sizearray (.number (j : K) : Key K S O) ↔ 1 ≤ j ∧ j ≤ t.sizearray := by
    rw [InArray, arrayindex]
    by_cases hj : ((number2int (j : K) : ℤ) : K) = j
    · have hnum : number2int (j : K) = j := Int.cast_injective hj
      simp only [hnum, if_true]
    · simp only [if_neg hj]
      refine iff_of_false (by omega) fun hrange => hj ?_
      rw [number2int_intCast (by omega) (by omega)]
  rw [luaHGet_eq, luaHGetnum]
  by_cases hj : 1 ≤ j ∧ j ≤ t.sizearray
  · rw [if_pos hj, if_pos (hin.mpr hj), arrayindex_number (by omega) (by omega)]
  · rw [if_neg hj, if_neg fun hj' => hj (hin.mp hj')]
    rfl

theorem WellFormed.hasnum_eq (h : WellFormed hs t) (j : ℕ) :
    hasnum hs t j = (get hs t (.number (j : K))).isSome := by
  rw [hasnum, h.luaHGetnum_eq, get, Int.cast_natCast]

omit [FloorRing K] [IsStrictOrderedRing K] in
theorem hasnum_array (hs : Hashes K S O) {j : ℕ} (h1 : 1 ≤ j)
    (h2 : j ≤ t.sizearray) : hasnum hs t j = ((t.array[j - 1]?).join).isSome := by
  have hindex : ((j : ℤ) - 1).toNat = j - 1 := by omega
  rw [hasnum, luaHGetnum, if_pos ⟨by omega, by omega⟩, Option.bind_some, hindex, Table.read]

/-- A table has no more numbers with a value than places. -/
theorem WellFormed.le_places (h : WellFormed hs t) {n : ℕ}
    (hn : ∀ i < n, hasnum hs t (i + 1) = true) : n ≤ places t := by
  have hnodup : ((List.range n).map fun i : ℕ =>
      (.number (((i + 1 : ℕ) : K)) : Key K S O)).Nodup := by
    refine List.nodup_range.map fun i j hij => ?_
    have heq : ((i + 1 : ℕ) : K) = ((j + 1 : ℕ) : K) := Key.number.inj hij
    exact Nat.succ_injective (Nat.cast_injective heq)
  have hsub : ((List.range n).map fun i : ℕ => (.number (((i + 1 : ℕ) : K)) : Key K S O)) ⊆
      order t := by
    intro k hk
    obtain ⟨i, hi, rfl⟩ := List.mem_map.mp hk
    refine h.mem_order_iff.mpr fun hnone => ?_
    have hval := hn i (List.mem_range.mp hi)
    rw [h.hasnum_eq, get, hnone] at hval
    cases hval
  have hlen := (hnodup.subperm hsub).length_le
  rw [List.length_map, List.length_range] at hlen
  refine hlen.trans ((List.length_filterMap_le _ _).trans_eq ?_)
  rw [List.length_range]

theorem WellFormed.linearSearch_spec (h : WellFormed hs t) {rounds i : ℕ}
    (hrounds : i + rounds = places t + 1) (hi : ∀ j < i, hasnum hs t (j + 1) = true) :
    ∃ n, linearSearch hs t rounds (i + 1) = .ok n ∧ IsBoundary (hasnum hs t) n := by
  induction rounds generalizing i with
  | zero =>
      have hle := h.le_places hi
      omega
  | succ rounds ih =>
      rw [linearSearch]
      by_cases hnext : hasnum hs t (i + 1) = true
      · rw [if_pos hnext]
        refine ih (by omega) fun j hj => ?_
        rcases Nat.lt_succ_iff_lt_or_eq.mp hj with hj' | rfl
        · exact hi j hj'
        · exact hnext
      · rw [if_neg hnext, Nat.add_sub_cancel]
        refine ⟨i, rfl, ?_, Bool.eq_false_of_not_eq_true hnext⟩
        rcases Nat.eq_zero_or_pos i with hzero | hpos
        · exact .inl hzero
        · refine .inr ?_
          have hlast := hi (i - 1) (by omega)
          rwa [Nat.sub_add_cancel hpos] at hlast

theorem WellFormed.unboundSearch_spec (h : WellFormed hs t) {j : ℕ}
    (hj : j = 0 ∨ hasnum hs t j = true) :
    ∃ n, unboundSearch hs t j = .ok n ∧ IsBoundary (hasnum hs t) n := by
  rw [unboundSearch]
  cases hloop : unboundLoop hs t 32 j (j + 1) with
  | none => exact h.linearSearch_spec (i := 0) (by rw [places]; omega) (by simp)
  | some r =>
      obtain ⟨hi, hj', hij⟩ := unboundLoop_spec hloop hj (Nat.lt_succ_self j)
      exact ⟨_, rfl, bisect_isBoundary hi hj' hij⟩

theorem WellFormed.luaHGetn_spec (h : WellFormed hs t) :
    ∃ n, luaHGetn hs t = .ok n ∧ IsBoundary (hasnum hs t) n := by
  rw [luaHGetn]
  by_cases hlast : 0 < t.sizearray ∧ (t.array[t.sizearray - 1]?).join = none
  · -- in the array part
    obtain ⟨hpos, hnone⟩ := hlast
    have hend : hasnum hs t t.sizearray = false := by
      rw [hasnum_array hs hpos le_rfl, hnone]
      rfl
    have hsame : bisect (fun m => (t.array[m - 1]?).join.isSome) 0 t.sizearray =
        bisect (hasnum hs t) 0 t.sizearray :=
      bisect_congr fun m h1 h2 => (hasnum_array hs h1 h2.le).symm
    simp only [if_pos (And.intro hpos hnone), hsame]
    exact ⟨_, rfl, bisect_isBoundary (.inl rfl) hend hpos⟩
  · have hj : t.sizearray = 0 ∨ hasnum hs t t.sizearray = true := by
      rcases Nat.eq_zero_or_pos t.sizearray with hzero | hpos
      · exact .inl hzero
      · refine .inr ?_
        rw [hasnum_array hs hpos le_rfl, Option.isSome_iff_ne_none]
        exact fun hnone => hlast ⟨hpos, hnone⟩
    simp only [if_neg hlast]
    by_cases hdummy : t.dummy = true
    · rw [if_pos hdummy]
      refine ⟨_, rfl, hj, ?_⟩
      have hnokey (n : ℕ) : (t.node n).key = none := (h.of_dummy hdummy).2 n
      have hnone : luaHGetnum hs t ((t.sizearray + 1 : ℕ) : ℤ) = none := by
        rw [luaHGetnum, if_neg (by omega), findKey, Option.map_eq_none_iff, List.find?_eq_none]
        intro n _
        simp [hnokey]
      rw [hasnum, hnone]
      rfl
    · rw [if_neg hdummy]
      exact h.unboundSearch_spec hj

/-- The length operator returns a boundary. -/
theorem luaHGetn_isBoundary (h : WellFormed hs t) :
    ∃ n : ℕ, luaHGetn hs t = .ok n ∧
      (n = 0 ∨ get hs t (.number (n : K)) ≠ none) ∧
      get hs t (.number ((n + 1 : ℕ) : K)) = none := by
  obtain ⟨n, hrun, hpresent, habsent⟩ := h.luaHGetn_spec
  rw [h.hasnum_eq, Option.isSome_iff_ne_none] at hpresent
  rw [h.hasnum_eq, Option.isSome_eq_false_iff, Option.isNone_iff_eq_none] at habsent
  exact ⟨n, hrun, hpresent, habsent⟩

theorem luaHGetn_isBoundary_sample :
    ∃ t, (luaHNew 0 1 >>= assignAll sampleHashes 2 sampleOps) = .ok t ∧
      ∃ n : ℕ, luaHGetn sampleHashes t = .ok n ∧
        (n = 0 ∨ get sampleHashes t (.number (n : ℚ)) ≠ none) ∧
        get sampleHashes t (.number ((n + 1 : ℕ) : ℚ)) = none := by
  obtain ⟨t, hrun, hwf, -⟩ := exists_sample
  exact ⟨t, hrun, luaHGetn_isBoundary hwf⟩

end SoftRenderer.Ltable
