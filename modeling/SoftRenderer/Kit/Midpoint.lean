import Mathlib

/-!
# The midpoint accumulator

Stepping along an axis of length `D`, a line that rises by `d` in total is followed by counting
minor steps and keeping an error term. `Midpoint.minor_iterate` is the closed form of the count:
the height of the ideal line, rounded with ties upwards. Seen from the other end of the line the
ties go downwards.
-/

namespace Kit

structure Midpoint (K : Type) where
  minor : ℕ
  err : K

namespace Midpoint

variable {K : Type} [Field K] [LinearOrder K]

def start (d D : K) : Midpoint K := ⟨0, d + d - D⟩

def step (d D : K) (m : Midpoint K) : Midpoint K :=
  if 0 ≤ m.err then ⟨m.minor + 1, m.err - (D + D) + (d + d)⟩ else ⟨m.minor, m.err + (d + d)⟩

theorem minor_step (d D : K) (m : Midpoint K) :
    (step d D m).minor = m.minor ∨ (step d D m).minor = m.minor + 1 := by
  unfold step
  split_ifs
  · exact Or.inr rfl
  · exact Or.inl rfl

/-- The error term records how far the count lags behind the line at the next major step. -/
theorem err_iterate (d D : K) (i : ℕ) :
    ((step d D)^[i] (start d D)).err =
      2 * d * ((i : K) + 1) - D - 2 * D * ((step d D)^[i] (start d D)).minor := by
  induction i with
  | zero => simp [start, two_mul]
  | succ i ih =>
      rw [Function.iterate_succ_apply', step]
      split_ifs with h
      · rw [ih]
        push_cast
        ring
      · rw [ih]
        push_cast
        ring

variable [IsStrictOrderedRing K] [FloorRing K]

theorem minor_iterate {d D : K} (hd : 0 ≤ d) (hdD : d ≤ D) (hD : 0 < D) (i : ℕ) :
    (((step d D)^[i] (start d D)).minor : ℤ) = ⌊(i : K) * d / D + 1 / 2⌋ := by
  induction i with
  | zero =>
      symm
      rw [Int.floor_eq_iff]
      norm_num [start]
  | succ i ih =>
      have herr := err_iterate d D i
      set m := (step d D)^[i] (start d D)
      rw [Function.iterate_succ_apply', show (step d D)^[i] (start d D) = m from rfl]
      obtain ⟨hlow, hhigh⟩ := Int.floor_eq_iff.mp ih.symm
      have hrise : ((i + 1 : ℕ) : K) * d / D = (i : K) * d / D + d / D := by
        push_cast
        ring
      have hslope : d / D ≤ 1 := (div_le_one hD).mpr hdD
      have hslope' : 0 ≤ d / D := div_nonneg hd hD.le
      -- the sign of the error term decides on which side of the midpoint the line passes
      have hsign : (m.minor : K) + 1 ≤ ((i + 1 : ℕ) : K) * d / D + 1 / 2 ↔ 0 ≤ m.err := by
        have hscale : ((i + 1 : ℕ) : K) * d / D + 1 / 2 - (m.minor + 1) = m.err / (2 * D) := by
          rw [herr]
          push_cast
          field_simp
          ring
        have hpos : 0 < 2 * D := by positivity
        rw [← sub_nonneg, hscale, le_div_iff₀ hpos, zero_mul]
      symm
      rw [Int.floor_eq_iff]
      push_cast at hlow hhigh ⊢
      unfold step
      split_ifs with h
      · have hs := hsign.mpr h
        push_cast at hs hrise ⊢
        constructor
        · linarith
        · linarith
      · have hs := mt hsign.mp h
        push_cast at hs hrise ⊢
        constructor
        · linarith
        · linarith

theorem abs_floor_half_sub_le (t : K) : |(⌊t + 1 / 2⌋ : K) - t| ≤ 1 / 2 := by
  have hlow := Int.floor_le (t + 1 / 2)
  have hhigh := Int.lt_floor_add_one (t + 1 / 2)
  rw [abs_le]
  constructor <;> linarith

/-- The height is half-way between two integers, where the direction of the rounding shows. -/
def IsTie (t : K) : Prop := ∃ k : ℤ, Odd k ∧ t + t = k

omit [LinearOrder K] [FloorRing K] in
theorem isTie_iff [CharZero K] {t : K} : IsTie t ↔ t + 1 / 2 ∈ Set.range ((↑) : ℤ → K) := by
  constructor
  · rintro ⟨k, ⟨m, rfl⟩, ht⟩
    refine ⟨m + 1, ?_⟩
    push_cast at ht ⊢
    linear_combination -ht / 2
  · rintro ⟨m, hm⟩
    refine ⟨2 * (m - 1) + 1, ⟨m - 1, rfl⟩, ?_⟩
    push_cast
    linear_combination -2 * hm

theorem floor_half_of_not_isTie {t : K} (h : ¬ IsTie t) : ⌊t + 1 / 2⌋ = ⌈t - 1 / 2⌉ := by
  rw [isTie_iff, ← Int.ceil_eq_floor_add_one_iff_notMem] at h
  have hshift : t - 1 / 2 = t + 1 / 2 - 1 := by ring
  rw [hshift, Int.ceil_sub_one, h]
  ring

theorem floor_half_of_isTie {t : K} (h : IsTie t) : ⌊t + 1 / 2⌋ = ⌈t - 1 / 2⌉ + 1 := by
  obtain ⟨m, hm⟩ := isTie_iff.mp h
  have hshift : t - 1 / 2 = (m : K) - 1 := by
    rw [hm]
    ring
  rw [hshift, ← hm, Int.ceil_sub_one, Int.floor_intCast, Int.ceil_intCast]
  ring

theorem floor_half_reverse {d D i : ℕ} (hdD : d ≤ D) (hi : i ≤ D) :
    ⌊((D - i : ℕ) : K) * d / D + 1 / 2⌋ = d - ⌈(i : K) * d / D - 1 / 2⌉ := by
  have hreverse : ((D - i : ℕ) : K) * d / D + 1 / 2 = (d : K) + -((i : K) * d / D - 1 / 2) := by
    rcases Nat.eq_zero_or_pos D with rfl | hD
    · obtain rfl : d = 0 := by omega
      simp
    · have hD' : (D : K) ≠ 0 := by exact_mod_cast hD.ne'
      rw [Nat.cast_sub hi]
      field_simp
      ring
  rw [hreverse, Int.floor_natCast_add, Int.floor_neg]
  ring

omit [LinearOrder K] [FloorRing K] in
/-- The tie at the step `i` in lengths that have no common divisor. -/
theorem isTie_div_iff [CharZero K] {g m n : ℕ} (hg : g ≠ 0) (hm : m ≠ 0) (i : ℕ) :
    IsTie ((i : K) * (n * g : ℕ) / (m * g : ℕ)) ↔ ∃ k : ℤ, Odd k ∧ 2 * i * n = k * m := by
  have hgK : (g : K) ≠ 0 := by exact_mod_cast hg
  have hmK : (m : K) ≠ 0 := by exact_mod_cast hm
  refine exists_congr fun k => and_congr_right fun _ => ?_
  have hquotient : (i : K) * (n * g : ℕ) / (m * g : ℕ) = i * n / m := by
    push_cast
    rw [← mul_assoc, mul_div_mul_right _ _ hgK]
  rw [hquotient, ← two_mul, ← mul_div_assoc, div_eq_iff hmK, ← mul_assoc]
  exact_mod_cast Iff.rfl

omit [LinearOrder K] [FloorRing K] in
/-- A rising line meets a tie exactly when the reduced length of its base is even. -/
theorem exists_isTie_iff [CharZero K] {d D : ℕ} (hD : D ≠ 0) :
    (∃ i ≤ D, IsTie ((i : K) * d / D)) ↔ ¬ Odd (D / D.gcd d) := by
  have hg : 0 < D.gcd d := Nat.gcd_pos_of_pos_left d (Nat.pos_of_ne_zero hD)
  obtain ⟨m, n, hcoprime, hm, hn⟩ := Nat.exists_coprime D d
  have hquotient : D / D.gcd d = m := Nat.div_eq_of_eq_mul_left hg hm
  have hm0 : m ≠ 0 := by
    rintro rfl
    exact hD (hm.trans (zero_mul _))
  have htie (i : ℕ) : IsTie ((i : K) * d / D) ↔ ∃ k : ℤ, Odd k ∧ 2 * i * n = k * m := by
    have hscaled := isTie_div_iff (K := K) hg.ne' hm0 (n := n) i
    rwa [← hm, ← hn] at hscaled
  rw [hquotient]
  simp only [htie]
  constructor
  · rintro ⟨i, -, k, hk, htie⟩ hodd
    have hprod : Odd (k * m) := hk.mul (by exact_mod_cast hodd)
    rw [← htie, mul_assoc] at hprod
    exact Int.not_odd_iff_even.mpr (even_two_mul _) hprod
  · intro heven
    obtain ⟨r, hr⟩ := Nat.not_odd_iff_even.mp heven
    have hn' : Odd n := by
      rw [← Nat.not_even_iff_odd]
      intro hn'
      have htwo := Nat.dvd_gcd (even_iff_two_dvd.mp ⟨r, hr⟩) (even_iff_two_dvd.mp hn')
      rw [hcoprime] at htwo
      omega
    refine ⟨r, ?_, n, by exact_mod_cast hn', ?_⟩
    · rw [hm]
      have hle := Nat.le_mul_of_pos_right m hg
      omega
    · rw [hr]
      push_cast
      ring

end Midpoint
end Kit
