import Mathlib

/-!
# Digits of the numbers of an interval

When a number moves from `n1` to `n2`, one of its digits stays between its two ends unless a carry
from below runs through it: as soon as a higher digit changes, a digit takes the values `0` and
`b - 1`.
-/

namespace Kit

def digit (b n k : ℕ) : ℕ := n / b ^ k % b

theorem digit_lt {b : ℕ} (hb : 0 < b) (n k : ℕ) : digit b n k < b := Nat.mod_lt _ hb

theorem div_pow_eq (b n k : ℕ) : n / b ^ k = b * (n / b ^ (k + 1)) + digit b n k := by
  rw [digit, pow_succ, ← Nat.div_div_eq_div_mul, Nat.div_add_mod]

theorem div_pow_congr {b n1 n2 : ℕ} (d k : ℕ) (hlead : n1 / b ^ (k + d) = n2 / b ^ (k + d))
    (h : ∀ i, k ≤ i → i < k + d → digit b n1 i = digit b n2 i) : n1 / b ^ k = n2 / b ^ k := by
  induction d generalizing k with
  | zero => exact hlead
  | succ d ih =>
      have hnext : n1 / b ^ (k + 1) = n2 / b ^ (k + 1) := by
        apply ih (k + 1)
        · rwa [Nat.add_right_comm, Nat.add_assoc]
        · intro i hi hid
          exact h i (by omega) (by omega)
      rw [div_pow_eq b n1, div_pow_eq b n2, hnext, h k le_rfl (by omega)]

/-- The digits `j` of `n1` and `n2` are the least and the greatest one. -/
def FullRange (b n1 n2 j : ℕ) : Prop :=
  min (digit b n1 j) (digit b n2 j) = 0 ∧ max (digit b n1 j) (digit b n2 j) = b - 1

theorem FullRange.mem_uIcc {b n1 n2 j : ℕ} (h : FullRange b n1 n2 j) (hb : 0 < b) (n : ℕ) :
    digit b n j ∈ Set.uIcc (digit b n1 j) (digit b n2 j) := by
  have hlt := digit_lt hb n j
  constructor
  · exact h.1.le.trans (Nat.zero_le _)
  · exact (Nat.le_sub_one_of_lt hlt).trans h.2.ge

theorem digit_mul_pow {b q j k : ℕ} (hb : 0 < b) (hjk : j < k) (hq : 0 < q) :
    digit b (q * b ^ k) j = 0 ∧ digit b (q * b ^ k - 1) j = b - 1 := by
  obtain ⟨r, hr, hsplit⟩ : ∃ r, 0 < r ∧ q * b ^ k = b ^ j * (b * r) := by
    refine ⟨q * b ^ (k - j - 1), by positivity, ?_⟩
    rw [show k = j + (1 + (k - j - 1)) by omega, pow_add, pow_add]
    simp only [Nat.add_sub_cancel_left]
    ring
  have hpos : 0 < b ^ j := by positivity
  have hpred : (b ^ j * (b * r) - 1) / b ^ j = b - 1 + b * (r - 1) := by
    rw [Nat.mul_sub_div 0 (b ^ j) (b * r) (by positivity), Nat.zero_div]
    obtain ⟨r, rfl⟩ := Nat.exists_eq_succ_of_ne_zero hr.ne'
    rw [Nat.mul_succ]
    simp
    omega
  constructor
  · rw [digit, hsplit, Nat.mul_div_cancel_left _ hpos, Nat.mul_mod_right]
  · rw [digit, hsplit, hpred, Nat.add_mul_mod_self_left, Nat.mod_eq_of_lt (by omega)]

theorem fullRange_of_digit_ne {b n1 n2 j k : ℕ} (hb : 0 < b) (hjk : j < k) (hle : n1 ≤ n2)
    (hne : digit b n1 k ≠ digit b n2 k)
    (hbetween : ∀ n, n1 ≤ n → n ≤ n2 →
      digit b n j ∈ Set.uIcc (digit b n1 j) (digit b n2 j)) : FullRange b n1 n2 j := by
  have hquot : n1 / b ^ k < n2 / b ^ k := by
    refine lt_of_le_of_ne (Nat.div_le_div_right hle) fun h => hne ?_
    rw [digit, digit, h]
  have hlow : n1 < n2 / b ^ k * b ^ k := Nat.lt_mul_of_div_lt hquot (by positivity)
  have hhigh : n2 / b ^ k * b ^ k ≤ n2 := Nat.div_mul_le_self n2 _
  obtain ⟨hzero, htop⟩ := digit_mul_pow hb hjk (Nat.zero_lt_of_lt hquot)
  have hmin := (hbetween _ hlow.le hhigh).1
  have hmax := (hbetween _ (Nat.le_sub_one_of_lt hlow) (by omega)).2
  rw [hzero] at hmin
  rw [htop] at hmax
  have hlt1 := digit_lt hb n1 j
  have hlt2 := digit_lt hb n2 j
  refine ⟨Nat.le_zero.mp hmin, le_antisymm ?_ hmax⟩
  omega

/-- A digit with no changing digit above it runs monotonically. -/
theorem digit_le_digit {b m n1 n n2 k : ℕ} (hk : k < m) (h2 : n2 < b ^ m) (hlow : n1 ≤ n)
    (hhigh : n ≤ n2) (habove : ∀ i, k < i → i < m → digit b n1 i = digit b n2 i) :
    digit b n1 k ≤ digit b n k ∧ digit b n k ≤ digit b n2 k := by
  have hlead : n1 / b ^ (k + 1) = n2 / b ^ (k + 1) := by
    apply div_pow_congr (m - (k + 1)) (k + 1)
    · rw [Nat.add_sub_cancel' hk, Nat.div_eq_of_lt h2,
        Nat.div_eq_of_lt ((hlow.trans hhigh).trans_lt h2)]
    · intro i hi him
      exact habove i (by omega) (by omega)
  have hmid : n / b ^ (k + 1) = n1 / b ^ (k + 1) := by
    apply le_antisymm
    · exact hlead ▸ Nat.div_le_div_right hhigh
    · exact Nat.div_le_div_right hlow
  have hle1 : n1 / b ^ k ≤ n / b ^ k := Nat.div_le_div_right hlow
  have hle2 : n / b ^ k ≤ n2 / b ^ k := Nat.div_le_div_right hhigh
  rw [div_pow_eq b n1, div_pow_eq b n, hmid] at hle1
  rw [div_pow_eq b n, div_pow_eq b n2, hmid, hlead] at hle2
  exact ⟨Nat.le_of_add_le_add_left hle1, Nat.le_of_add_le_add_left hle2⟩

theorem FullRange.symm {b n1 n2 j : ℕ} (h : FullRange b n1 n2 j) : FullRange b n2 n1 j := by
  rwa [FullRange, min_comm, max_comm]

/-- The digits of all numbers between `n1` and `n2` lie between the digits of the two exactly when
every digit below a changing one has the full range. -/
theorem digit_mem_uIcc_iff {b m n1 n2 : ℕ} (hb : 0 < b) (h1 : n1 < b ^ m) (h2 : n2 < b ^ m) :
    (∀ n ∈ Set.uIcc n1 n2, ∀ k < m, digit b n k ∈ Set.uIcc (digit b n1 k) (digit b n2 k)) ↔
      ∀ k < m, digit b n1 k ≠ digit b n2 k → ∀ j < k, FullRange b n1 n2 j := by
  constructor
  · intro h k hk hne j hjk
    rcases le_total n1 n2 with hle | hle
    · refine fullRange_of_digit_ne hb hjk hle hne fun n hlow hhigh => ?_
      exact h n (Set.mem_uIcc_of_le hlow hhigh) j (hjk.trans hk)
    · refine (fullRange_of_digit_ne hb hjk hle hne.symm fun n hlow hhigh => ?_).symm
      rw [Set.uIcc_comm]
      exact h n (Set.mem_uIcc_of_ge hlow hhigh) j (hjk.trans hk)
  · intro h n hn k hk
    by_cases habove : ∃ i, k < i ∧ i < m ∧ digit b n1 i ≠ digit b n2 i
    · obtain ⟨i, hki, him, hne⟩ := habove
      exact (h i him hne k hki).mem_uIcc hb n
    · have heq : ∀ i, k < i → i < m → digit b n1 i = digit b n2 i := by
        intro i hki him
        by_contra hne
        exact habove ⟨i, hki, him, hne⟩
      rcases Set.mem_uIcc.mp hn with ⟨hlow, hhigh⟩ | ⟨hlow, hhigh⟩
      · obtain ⟨hle1, hle2⟩ := digit_le_digit hk h2 hlow hhigh heq
        exact Set.mem_uIcc_of_le hle1 hle2
      · obtain ⟨hle1, hle2⟩ := digit_le_digit hk h1 hlow hhigh fun i hki him =>
          (heq i hki him).symm
        exact Set.mem_uIcc_of_ge hle1 hle2

end Kit
