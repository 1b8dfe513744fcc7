import Mathlib

/-!
# Fractional parts along two lines

Unit steps from one abscissa towards another reach a run of columns, which ends at the column of
the other one when the fractional parts are in the right order. `fract_le_fract_iff` says which
pairs of lines, with integer ends, are in that order at each integer height.
-/

namespace Kit

variable {K : Type} [Field K] [LinearOrder K] [IsStrictOrderedRing K] [FloorRing K]

theorem floor_sub_eq_iff {u v : K} : ⌊v - u⌋ = ⌊v⌋ - ⌊u⌋ ↔ Int.fract u ≤ Int.fract v := by
  have hsplit : v - u = Int.fract v - Int.fract u + ((⌊v⌋ - ⌊u⌋ : ℤ) : K) := by
    rw [Int.fract, Int.fract]
    push_cast
    ring
  have hlt : Int.fract v - Int.fract u < 1 := by
    linarith [Int.fract_lt_one v, Int.fract_nonneg u]
  rw [hsplit, Int.floor_add_intCast, add_eq_right, Int.floor_eq_zero_iff, Set.mem_Ico, sub_nonneg]
  exact and_iff_left hlt

theorem floor_steps_up (u v : K) :
    {x : ℤ | ∃ i : ℕ, (i : K) ≤ v - u ∧ ⌊u + i⌋ = x} = Set.Icc ⌊u⌋ (⌊u⌋ + ⌊v - u⌋) := by
  ext x
  simp only [Set.mem_ofPred_eq, Set.mem_Icc, Int.floor_add_natCast]
  constructor
  · intro ⟨i, hi, hx⟩
    have hle : (i : ℤ) ≤ ⌊v - u⌋ := Int.le_floor.mpr (by exact_mod_cast hi)
    omega
  · intro ⟨hlow, hhigh⟩
    obtain ⟨i, hi⟩ := Int.eq_ofNat_of_zero_le (sub_nonneg.mpr hlow)
    have hle : (i : ℤ) ≤ ⌊v - u⌋ := by omega
    exact ⟨i, by exact_mod_cast Int.le_floor.mp hle, by omega⟩

theorem floor_steps_down (u v : K) :
    {x : ℤ | ∃ i : ℕ, (i : K) ≤ u - v ∧ ⌊u - i⌋ = x} = Set.Icc (⌊u⌋ - ⌊u - v⌋) ⌊u⌋ := by
  ext x
  simp only [Set.mem_ofPred_eq, Set.mem_Icc, Int.floor_sub_natCast]
  constructor
  · intro ⟨i, hi, hx⟩
    have hle : (i : ℤ) ≤ ⌊u - v⌋ := Int.le_floor.mpr (by exact_mod_cast hi)
    omega
  · intro ⟨hlow, hhigh⟩
    obtain ⟨i, hi⟩ := Int.eq_ofNat_of_zero_le (sub_nonneg.mpr hhigh)
    have hle : (i : ℤ) ≤ ⌊u - v⌋ := by omega
    exact ⟨i, by exact_mod_cast Int.le_floor.mp hle, by omega⟩

/-- Two numbers whose fractional parts are in order, as are those of their opposites. -/
theorem fract_eq_of_le_of_neg_le {u v : K} (hle : Int.fract u ≤ Int.fract v)
    (hneg : Int.fract (-u) ≤ Int.fract (-v)) (hu : Int.fract u ≠ 0) :
    Int.fract u = Int.fract v := by
  have hv : Int.fract v ≠ 0 := fun hv => hu ((hle.trans hv.le).antisymm (Int.fract_nonneg u))
  rw [Int.fract_neg hu, Int.fract_neg hv] at hneg
  exact hle.antisymm (by linarith)

theorem fract_reverse {h k : ℕ} (hk : k ≤ h) (hh : h ≠ 0) (p : ℤ) :
    Int.fract (((h - k : ℕ) : K) * p / h + 1 / 2) = Int.fract (-((k : K) * p / h + 1 / 2)) := by
  have hK : (h : K) ≠ 0 := by exact_mod_cast hh
  rw [Int.fract_eq_fract]
  refine ⟨p + 1, ?_⟩
  rw [Nat.cast_sub hk]
  push_cast
  field_simp
  ring

theorem fract_eq_of_forall_le {h : ℕ} {p q : ℤ}
    (hall : ∀ k ≤ h, Int.fract ((k : K) * p / h + 1 / 2) ≤ Int.fract ((k : K) * q / h + 1 / 2))
    {k : ℕ} (hk : k ≤ h) (hh : h ≠ 0) (hne : Int.fract ((k : K) * p / h + 1 / 2) ≠ 0) :
    Int.fract ((k : K) * p / h + 1 / 2) = Int.fract ((k : K) * q / h + 1 / 2) := by
  have hreverse := hall (h - k) (Nat.sub_le h k)
  rw [fract_reverse hk hh, fract_reverse hk hh] at hreverse
  exact fract_eq_of_le_of_neg_le (hall k hk) hreverse hne

theorem fract_eq_iff_dvd {h : ℕ} (hh : h ≠ 0) (k : ℕ) (p q : ℤ) :
    Int.fract ((k : K) * p / h + 1 / 2) = Int.fract ((k : K) * q / h + 1 / 2) ↔
      (h : ℤ) ∣ k * (q - p) := by
  have hK : (h : K) ≠ 0 := by exact_mod_cast hh
  have hdiff : (k : K) * q / h + 1 / 2 - ((k : K) * p / h + 1 / 2) =
      ((k * (q - p) : ℤ) : K) / h := by
    push_cast
    ring
  rw [eq_comm, Int.fract_eq_fract, hdiff]
  simp only [div_eq_iff hK]
  refine exists_congr fun z => ?_
  rw [mul_comm (h : ℤ) z]
  exact_mod_cast Iff.rfl

theorem fract_eq_zero_iff_exists {h : ℕ} (hh : h ≠ 0) (p : ℤ) :
    Int.fract ((p : K) / h + 1 / 2) = 0 ↔ ∃ m : ℤ, 2 * p = (2 * m + 1) * h := by
  have hK : (h : K) ≠ 0 := by exact_mod_cast hh
  rw [Int.fract_eq_zero_iff]
  constructor
  · intro ⟨m, hm⟩
    refine ⟨m - 1, ?_⟩
    have hp : (2 : K) * p = (2 * (m - 1) + 1) * h := by
      rw [hm]
      field_simp
      ring
    exact_mod_cast hp
  · intro ⟨m, hm⟩
    refine ⟨m + 1, ?_⟩
    have hp : (2 : K) * p = (2 * m + 1) * h := by exact_mod_cast hm
    push_cast
    field_simp
    linear_combination -hp

theorem fract_half : Int.fract (1 / 2 : K) = 1 / 2 :=
  Int.fract_eq_self.mpr ⟨by norm_num, by norm_num⟩

theorem fract_div_two_le (n : ℤ) : Int.fract ((n : K) / (2 : ℕ)) ≤ 1 / 2 := by
  have hmod : ((n % (2 : ℕ) : ℤ) : K) ≤ 1 := by exact_mod_cast (by omega : n % (2 : ℕ) ≤ 1)
  rw [Int.fract_div_intCast_eq_div_intCast_mod]
  push_cast at hmod ⊢
  linarith

/-- After two steps a line of odd half slope stands half-way between two integers, where only a
line that is half-way as well keeps the order. -/
theorem dvd_of_forall_le_of_odd {h : ℕ} (hh : h ≠ 0) {p q m : ℤ}
    (hall : ∀ k ≤ h, Int.fract ((k : K) * p / h + 1 / 2) ≤ Int.fract ((k : K) * q / h + 1 / 2))
    (hm : 2 * p = (2 * m + 1) * h) : (h : ℤ) ∣ q - p ∨ (h : ℤ) ∣ q := by
  have hK : (h : K) ≠ 0 := by exact_mod_cast hh
  have htwo : ((2 : ℕ) : K) * p / h + 1 / 2 = ((2 * m + 1 : ℤ) : K) + 1 / 2 := by
    rw [add_left_inj, div_eq_iff hK]
    exact_mod_cast hm
  by_cases hone : h = 1
  · left
    simp [hone]
  · have hstep : 2 ≤ h := by omega
    have heq := fract_eq_of_forall_le hall hstep hh (by
      rw [htwo, Int.fract_intCast_add, fract_half]
      norm_num)
    rw [fract_eq_iff_dvd hh] at heq
    obtain ⟨z, hz⟩ := heq
    push_cast at hz
    obtain ⟨w, rfl | rfl⟩ := Int.even_or_odd' z
    · exact Or.inl ⟨w, by linarith⟩
    · exact Or.inr ⟨w + m + 1, by linarith⟩

theorem fract_le_of_odd {h : ℕ} (hh : h ≠ 0) {p q m : ℤ} (hq : (h : ℤ) ∣ q)
    (hm : 2 * p = (2 * m + 1) * h) (k : ℕ) :
    Int.fract ((k : K) * p / h + 1 / 2) ≤ Int.fract ((k : K) * q / h + 1 / 2) := by
  have hK : (h : K) ≠ 0 := by exact_mod_cast hh
  obtain ⟨j, rfl⟩ := hq
  have hleft : (k : K) * p / h + 1 / 2 = ((k * (2 * m + 1) + 1 : ℤ) : K) / (2 : ℕ) := by
    have hp : (2 : K) * p = (2 * m + 1) * h := by exact_mod_cast hm
    push_cast
    field_simp
    linear_combination (k : K) * hp
  have hright : (k : K) * ((h * j : ℤ) : K) / h + 1 / 2 = ((k * j : ℤ) : K) + 1 / 2 := by
    push_cast
    field_simp
  rw [hleft, hright, Int.fract_intCast_add, fract_half]
  exact fract_div_two_le _

/-- The lines of slopes `p / h` and `q / h` keep their fractional parts in order at every step when
they stay a whole number apart, or when the second climbs by whole numbers and the first by odd
multiples of one half. -/
theorem fract_le_fract_iff {h : ℕ} (hh : h ≠ 0) (p q : ℤ) :
    (∀ k ≤ h, Int.fract ((k : K) * p / h + 1 / 2) ≤ Int.fract ((k : K) * q / h + 1 / 2)) ↔
      (h : ℤ) ∣ q - p ∨ (h : ℤ) ∣ q ∧ ∃ m : ℤ, 2 * p = (2 * m + 1) * h := by
  constructor
  · intro hall
    by_cases hone : Int.fract ((p : K) / h + 1 / 2) = 0
    · obtain ⟨m, hm⟩ := (fract_eq_zero_iff_exists hh p).mp hone
      exact (dvd_of_forall_le_of_odd hh hall hm).imp_right fun hq => ⟨hq, m, hm⟩
    · left
      have heq := fract_eq_of_forall_le hall (k := 1) (Nat.one_le_iff_ne_zero.mpr hh) hh
        (by simpa using hone)
      rw [fract_eq_iff_dvd hh] at heq
      simpa using heq
  · intro hcases k hk
    obtain hdvd | ⟨hq, m, hm⟩ := hcases
    · exact ((fract_eq_iff_dvd hh k p q).mpr (hdvd.mul_left _)).le
    · exact fract_le_of_odd hh hq hm k

end Kit
