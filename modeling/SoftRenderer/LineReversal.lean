import SoftRenderer.LineMidpoint

/-!
# Lines drawn from either end

The line from `b` to `a` has a point over every step of the line from `a` to `b`. The two points
are one, except where the ideal line passes half-way between two pixels; there they are neighbours.
-/

namespace SoftRenderer

open Kit Kit.Procedure

variable {K : Type} [Field K] [LinearOrder K]

def majorCoord (a b p : Vector2 K) : K := if XMajor a b then p.x else p.y

def minorCoord (a b p : Vector2 K) : K := if XMajor a b then p.y else p.x

theorem ext_coords {a b p q : Vector2 K} (hmajor : majorCoord a b p = majorCoord a b q)
    (hminor : minorCoord a b p = minorCoord a b q) : p = q := by
  unfold majorCoord at hmajor
  unfold minorCoord at hminor
  split_ifs at hmajor hminor with h
  · exact Vector2.ext hmajor hminor
  · exact Vector2.ext hminor hmajor

theorem abs_majorCoord_sub (a b : Vector2 K) :
    |majorCoord a b b - majorCoord a b a| = majorLength a b := by
  unfold majorCoord majorLength
  split_ifs <;> rfl

theorem abs_minorCoord_sub (a b : Vector2 K) :
    |minorCoord a b b - minorCoord a b a| = minorLength a b := by
  unfold minorCoord minorLength
  split_ifs <;> rfl

theorem majorLength_eq_max (a b : Vector2 K) :
    majorLength a b = max |b.x - a.x| |b.y - a.y| := by
  unfold majorLength
  split_ifs with h
  · exact (max_eq_left h.le).symm
  · exact (max_eq_right (not_lt.mp h)).symm

theorem minorLength_eq_min (a b : Vector2 K) :
    minorLength a b = min |b.x - a.x| |b.y - a.y| := by
  unfold minorLength
  split_ifs with h
  · exact (min_eq_right h.le).symm
  · exact (min_eq_left (not_lt.mp h)).symm

section Points

variable [FloorRing K]

theorem majorCoord_midpointAt (a b : Vector2 K) (i : ℕ) :
    majorCoord a b (midpointAt a b i) =
      majorCoord a b a + toward (majorCoord a b a) (majorCoord a b b) * i := by
  unfold majorCoord midpointAt
  split_ifs <;> rfl

theorem minorCoord_midpointAt (a b : Vector2 K) (i : ℕ) :
    minorCoord a b (midpointAt a b i) =
      minorCoord a b a + toward (minorCoord a b a) (minorCoord a b b) * minorSteps a b i := by
  unfold minorCoord midpointAt
  split_ifs <;> rfl

end Points

section Reverse

theorem xMajor_comm (a b : Vector2 K) : XMajor b a ↔ XMajor a b := by
  unfold XMajor
  rw [abs_sub_comm a.x b.x, abs_sub_comm a.y b.y]

theorem majorLength_comm (a b : Vector2 K) : majorLength b a = majorLength a b := by
  rw [majorLength_eq_max, majorLength_eq_max, abs_sub_comm a.x b.x, abs_sub_comm a.y b.y]

theorem minorLength_comm (a b : Vector2 K) : minorLength b a = minorLength a b := by
  rw [minorLength_eq_min, minorLength_eq_min, abs_sub_comm a.x b.x, abs_sub_comm a.y b.y]

theorem majorCoord_comm (a b p : Vector2 K) : majorCoord b a p = majorCoord a b p := by
  simp only [majorCoord, xMajor_comm a b]

theorem minorCoord_comm (a b p : Vector2 K) : minorCoord b a p = minorCoord a b p := by
  simp only [minorCoord, xMajor_comm a b]

end Reverse

variable [IsStrictOrderedRing K]

/-- Steps from `v` towards `u`, counted from `u`. -/
theorem toward_reverse {u v n : K} (h : |v - u| = 0 → n = 0) :
    v + toward v u * n = u + toward u v * (|v - u| - n) := by
  rcases lt_trichotomy u v with huv | rfl | hvu
  · rw [toward, toward, if_neg huv.not_ge, if_pos huv.le, abs_of_pos (sub_pos.mpr huv)]
    ring
  · rw [h (by simp), sub_self, abs_zero]
    ring
  · rw [toward, toward, if_pos hvu.le, if_neg hvu.not_ge, abs_of_neg (sub_neg.mpr hvu)]
    ring

variable [FloorRing K]

section Lengths

variable {a b : Vector2 K} {D d : ℕ} (hD : majorLength a b = D)

include hD

theorem mem_linePoints_iff {r : Vector2 K} :
    r ∈ linePoints a b ↔ ∃ i ≤ D, r = midpointAt a b i := by
  simp only [mem_linePoints, hD, Nat.cast_le]

omit hD in
theorem abs_majorCoord_midpointAt (a b : Vector2 K) (i : ℕ) :
    |majorCoord a b (midpointAt a b i) - majorCoord a b a| = i := by
  rw [majorCoord_midpointAt, add_sub_cancel_left, abs_mul, abs_toward, one_mul, Nat.abs_cast]

theorem majorCoord_reverse {i : ℕ} (hi : i ≤ D) :
    majorCoord a b (midpointAt b a (D - i)) = majorCoord a b (midpointAt a b i) := by
  have hlength := abs_majorCoord_sub a b
  have hend : |majorCoord a b b - majorCoord a b a| = 0 → ((D - i : ℕ) : K) = 0 := by
    intro h
    rw [hlength, hD, Nat.cast_eq_zero] at h
    rw [h, Nat.zero_sub, Nat.cast_zero]
  rw [← majorCoord_comm a b, majorCoord_midpointAt]
  simp only [majorCoord_comm a b]
  rw [toward_reverse hend, hlength, hD, majorCoord_midpointAt, Nat.cast_sub hi, sub_sub_cancel]

variable (hd : minorLength a b = d)

include hd

theorem minorSteps_eq_floor (i : ℕ) :
    minorSteps a b i = (⌊(i : K) * d / D + 1 / 2⌋ : ℤ) := by
  rw [minorSteps_eq, hD, hd]
  split_ifs with h
  · have hfloor : ⌊(1 / 2 : K)⌋ = 0 := by
      rw [Int.floor_eq_iff]
      norm_num
    rw [h, div_zero, zero_add, hfloor, Int.cast_zero]
  · rfl

theorem minorCoord_reverse {i : ℕ} (hi : i ≤ D) :
    minorCoord a b (midpointAt b a (D - i)) =
      minorCoord a b a + toward (minorCoord a b a) (minorCoord a b b) *
        (⌈(i : K) * d / D - 1 / 2⌉ : ℤ) := by
  have hlength := abs_minorCoord_sub a b
  have hdD : d ≤ D := by
    have hle := minorLength_le_majorLength a b
    rw [hD, hd] at hle
    exact_mod_cast hle
  have hsteps := minorSteps_eq_floor ((majorLength_comm a b).trans hD)
    ((minorLength_comm a b).trans hd) (D - i)
  rw [Midpoint.floor_half_reverse hdD hi] at hsteps
  have hend : |minorCoord a b b - minorCoord a b a| = 0 → minorSteps b a (D - i) = 0 := by
    intro h
    rw [hlength, hd, Nat.cast_eq_zero] at h
    rw [hsteps, ← Midpoint.floor_half_reverse hdD hi, h, Nat.cast_zero, mul_zero, zero_div,
      zero_add, Int.cast_eq_zero, Int.floor_eq_iff]
    norm_num
  rw [← minorCoord_comm a b, minorCoord_midpointAt]
  simp only [minorCoord_comm a b]
  rw [toward_reverse hend, hlength, hd, hsteps]
  push_cast
  rw [sub_sub_cancel]

omit hd in
theorem mem_linePoints_at {i : ℕ} (hi : i ≤ D) (r : Vector2 K) :
    (r ∈ linePoints a b ∧ |majorCoord a b r - majorCoord a b a| = i) ↔ r = midpointAt a b i := by
  rw [mem_linePoints_iff hD]
  constructor
  · rintro ⟨⟨j, -, rfl⟩, hj⟩
    rw [abs_majorCoord_midpointAt, Nat.cast_inj] at hj
    rw [hj]
  · intro h
    rw [h]
    exact ⟨⟨i, hi, rfl⟩, abs_majorCoord_midpointAt a b i⟩

omit hd in
theorem mem_linePoints_reverse_at {i : ℕ} (hi : i ≤ D) (r : Vector2 K) :
    (r ∈ linePoints b a ∧ |majorCoord a b r - majorCoord a b a| = i) ↔
      r = midpointAt b a (D - i) := by
  rw [mem_linePoints_iff ((majorLength_comm a b).trans hD)]
  constructor
  · rintro ⟨⟨j, hj, rfl⟩, hoffset⟩
    have hback : D - (D - j) = j := by omega
    have hj' := majorCoord_reverse hD (i := D - j) (by omega)
    rw [hback] at hj'
    rw [hj', abs_majorCoord_midpointAt, Nat.cast_inj] at hoffset
    rw [← hoffset, hback]
  · intro h
    rw [h, majorCoord_reverse hD hi]
    exact ⟨⟨D - i, by omega, rfl⟩, abs_majorCoord_midpointAt a b i⟩

/-- The two points over the same step. -/
theorem midpointAt_reverse {i : ℕ} (hi : i ≤ D) :
    (¬ Midpoint.IsTie ((i : K) * d / D) → midpointAt a b i = midpointAt b a (D - i)) ∧
      (Midpoint.IsTie ((i : K) * d / D) →
        |minorCoord a b (midpointAt a b i) - minorCoord a b (midpointAt b a (D - i))| = 1) := by
  have hforward := minorCoord_midpointAt a b i
  have hbackward := minorCoord_reverse hD hd hi
  rw [minorSteps_eq_floor hD hd] at hforward
  constructor
  · intro htie
    rw [Midpoint.floor_half_of_not_isTie htie, ← hbackward] at hforward
    exact ext_coords (majorCoord_reverse hD hi).symm hforward
  · intro htie
    rw [hforward, hbackward, add_sub_add_left_eq_sub, ← mul_sub,
      Midpoint.floor_half_of_isTie htie, Int.cast_add, Int.cast_one, add_sub_cancel_left, mul_one,
      abs_toward]

theorem linePoints_reverse_iff :
    (∀ r, r ∈ linePoints a b ↔ r ∈ linePoints b a) ↔
      ∀ i ≤ D, ¬ Midpoint.IsTie ((i : K) * d / D) := by
  constructor
  · intro hsame i hi htie
    have hforward := (mem_linePoints_at hD hi _).mpr rfl
    have heq := (mem_linePoints_reverse_at hD hi _).mp ⟨(hsame _).mp hforward.1, hforward.2⟩
    have hdiff := (midpointAt_reverse hD hd hi).2 htie
    rw [← heq, sub_self, abs_zero] at hdiff
    exact zero_ne_one hdiff
  · intro htie r
    have hpoint (i : ℕ) (hi : i ≤ D) := (midpointAt_reverse hD hd hi).1 (htie i hi)
    rw [mem_linePoints_iff hD, mem_linePoints_iff ((majorLength_comm a b).trans hD)]
    constructor
    · rintro ⟨i, hi, rfl⟩
      exact ⟨D - i, by omega, hpoint i hi⟩
    · rintro ⟨j, hj, rfl⟩
      have hback : D - (D - j) = j := by omega
      have hj' := hpoint (D - j) (by omega)
      rw [hback] at hj'
      exact ⟨D - j, by omega, hj'.symm⟩

end Lengths

/-- How the runs of `drawLine` from either end compare, with `D` and `d` the lengths of the line
along its two axes. -/
structure ReversalConfined (a b : Vector2 K) (D d : ℕ) : Prop where
  major_eq : (D : K) = max |b.x - a.x| |b.y - a.y|
  minor_eq : (d : K) = min |b.x - a.x| |b.y - a.y|
  covers : ∀ r, r ∈ linePoints a b ∨ r ∈ linePoints b a →
    ∃ i ≤ D, |majorCoord a b r - majorCoord a b a| = i
  points : ∀ i ≤ D, ∃ p q,
    (∀ r, (r ∈ linePoints a b ∧ |majorCoord a b r - majorCoord a b a| = i) ↔ r = p) ∧
    (∀ r, (r ∈ linePoints b a ∧ |majorCoord a b r - majorCoord a b a| = i) ↔ r = q) ∧
    majorCoord a b p = majorCoord a b q ∧
    (¬ Midpoint.IsTie ((i : K) * d / D) → p = q) ∧
    (Midpoint.IsTie ((i : K) * d / D) → |minorCoord a b p - minorCoord a b q| = 1)
  same_iff : (∀ r, r ∈ linePoints a b ↔ r ∈ linePoints b a) ↔ D = 0 ∨ Odd (D / D.gcd d)

theorem reversalConfined {a b : Vector2 K} {D d : ℕ} (hD : majorLength a b = D)
    (hd : minorLength a b = d) : ReversalConfined a b D d where
  major_eq := hD.symm.trans (majorLength_eq_max a b)
  minor_eq := hd.symm.trans (minorLength_eq_min a b)
  covers r hr := by
    rw [mem_linePoints_iff hD, mem_linePoints_iff ((majorLength_comm a b).trans hD)] at hr
    rcases hr with ⟨i, hi, rfl⟩ | ⟨j, hj, rfl⟩
    · exact ⟨i, hi, abs_majorCoord_midpointAt a b i⟩
    · have hj' := (mem_linePoints_reverse_at hD (i := D - j) (by omega) _).mpr rfl
      have hback : D - (D - j) = j := by omega
      rw [hback] at hj'
      exact ⟨D - j, by omega, hj'.2⟩
  points i hi := by
    obtain ⟨hsame, htie⟩ := midpointAt_reverse hD hd hi
    exact ⟨_, _, mem_linePoints_at hD hi, mem_linePoints_reverse_at hD hi,
      (majorCoord_reverse hD hi).symm, hsame, htie⟩
  same_iff := by
    rw [linePoints_reverse_iff hD hd]
    rcases Nat.eq_zero_or_pos D with rfl | hpos
    · have hnone : ¬ Midpoint.IsTie (0 : K) := by
        rintro ⟨k, hk, hzero⟩
        rw [add_zero, eq_comm, Int.cast_eq_zero] at hzero
        rw [hzero] at hk
        exact absurd hk (by decide)
      simpa using hnone
    · have hties := Midpoint.exists_isTie_iff (K := K) (d := d) hpos.ne'
      rw [← not_iff_not] at hties
      push Not at hties
      rw [hties, or_iff_right hpos.ne']

/-- Between integer points, drawing a line from its other end changes it only at exact ties. -/
theorem drawLine_reversal (cfg : Config K) (self : Device K) (color : Value K) {a b : Vector2 K}
    (ha : a.IsInteger) (hb : b.IsInteger) :
    (∃ D d, ReversalConfined a b D d) ∧
      (∀ world, (self.drawLine cfg a b color world).2.pixels =
        world.pixels ++ clippedPixels cfg color (linePoints a b)) ∧
      ∀ world, (self.drawLine cfg b a color world).2.pixels =
        world.pixels ++ clippedPixels cfg color (linePoints b a) := by
  obtain ⟨⟨D, hD⟩, d, hd⟩ := exists_natCast_eq_lengths ha hb
  refine ⟨⟨D, d, reversalConfined hD hd⟩, ?_, ?_⟩
  · intro world
    rw [drawLine_apply]
  · intro world
    rw [drawLine_apply]

/-- Two steps across and one up: the middle point is a tie. -/
theorem drawLine_reversal_two_one :
    ∃ D d, ReversalConfined (⟨0, 0⟩ : Vector2 ℚ) ⟨2, 1⟩ D d :=
  (drawLine_reversal .source (.new 800 600) .nil ⟨⟨0, by norm_num⟩, ⟨0, by norm_num⟩⟩
    ⟨⟨2, by norm_num⟩, ⟨1, by norm_num⟩⟩).1

end SoftRenderer
