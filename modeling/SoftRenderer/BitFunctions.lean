import Mathlib

/-!
# The bit operations of the host

`bit_lshit`, `bit_rshit` and `bit_and` take two Lua numbers as 32-bit integers and push one. Both
shifts go to the left. A shift count is taken modulo 32, as the processor does.
-/

namespace SoftRenderer

/-- `int num = lua_tointeger(L, i)`. -/
def luaTointeger (num : ℤ) : BitVec 32 := BitVec.ofInt 32 num

/-- `num << count`. -/
def shiftLeft (num count : BitVec 32) : BitVec 32 := num <<< (count.toNat % 32)

/-- From the arguments on the stack to the results: none unless there are two arguments. -/
def bitLshit : List ℤ → List ℤ
  | [num, count] => [(shiftLeft (luaTointeger num) (luaTointeger count)).toInt]
  | _ => []

def bitRshit : List ℤ → List ℤ
  | [num, count] => [(shiftLeft (luaTointeger num) (luaTointeger count)).toInt]
  | _ => []

def bitAnd : List ℤ → List ℤ
  | [num, count] => [(luaTointeger num &&& luaTointeger count).toInt]
  | _ => []

theorem luaTointeger_toInt (r : BitVec 32) : luaTointeger r.toInt = r := BitVec.ofInt_toInt

theorem shiftLeft_ofNat (m : ℕ) {count : ℕ} (hcount : count ≤ 31) :
    shiftLeft (BitVec.ofNat 32 m) (luaTointeger count) = BitVec.ofNat 32 (m * 2 ^ count) := by
  have hmod : (luaTointeger count).toNat % 32 = count := by
    rw [luaTointeger, BitVec.ofInt_natCast, BitVec.toNat_ofNat]
    omega
  apply BitVec.eq_of_toNat_eq
  rw [shiftLeft, hmod, BitVec.toNat_shiftLeft, BitVec.toNat_ofNat, BitVec.toNat_ofNat,
    Nat.shiftLeft_eq, Nat.mod_mul_mod]

theorem bitLshit_natCast (m : ℕ) {count : ℕ} (hcount : count ≤ 31) :
    bitLshit [(m : ℤ), (count : ℤ)] = [(BitVec.ofNat 32 (m * 2 ^ count)).toInt] := by
  rw [bitLshit, ← shiftLeft_ofNat m hcount]
  rfl

theorem bitRshit_natCast (m : ℕ) {count : ℕ} (hcount : count ≤ 31) :
    bitRshit [(m : ℤ), (count : ℤ)] = [(BitVec.ofNat 32 (m * 2 ^ count)).toInt] :=
  bitLshit_natCast m hcount

theorem toInt_ofNat_eq_iff (m : ℕ) {k : ℕ} (hk : k < 2 ^ 31) :
    (BitVec.ofNat 32 m).toInt = k ↔ m % 2 ^ 32 = k := by
  rw [BitVec.toInt_eq_toNat_cond, BitVec.toNat_ofNat]
  split_ifs <;> omega

/-- The low `count` binary digits of a shift to the left are zeros, and the others come from below;
those of a shift to the right come from above. -/
def DigitsRepeat (n count : ℕ) : Prop :=
  (∀ j < count, n.testBit (j + count) = false) ∧
    ∀ j < 32, count ≤ j → n.testBit (j - count) = n.testBit (j + count)

instance (n count : ℕ) : Decidable (DigitsRepeat n count) :=
  inferInstanceAs (Decidable (_ ∧ _))

/-- The 32 digits repeat a number below `2 ^ count` every `2 * count` places, and in the last copy
only the highest `count` of them may be ones. -/
theorem digitsRepeat_iff {n : ℕ} (hn : n < 2 ^ 32) (count : ℕ) :
    DigitsRepeat n count ↔ count = 0 ∨
      ∃ p < 2 ^ count, (∀ i < 32, n.testBit i = p.testBit (i % (2 * count))) ∧
        ∀ i, i + count < 32 → 32 ≤ i + 2 * count → n.testBit i = false := by
  have hhigh (i : ℕ) (hi : 32 ≤ i) : n.testBit i = false :=
    Nat.testBit_lt_two_pow (hn.trans_le (Nat.pow_le_pow_right (by norm_num) hi))
  rcases Nat.eq_zero_or_pos count with rfl | hcount
  · simp [DigitsRepeat]
  simp only [hcount.ne', false_or]
  constructor
  · rintro ⟨hzero, hrepeat⟩
    refine ⟨n % 2 ^ count, Nat.mod_lt _ (by positivity), ?_, ?_⟩
    · intro i
      induction i using Nat.strong_induction_on with
      | _ i ih =>
          intro hi
          by_cases hperiod : i < 2 * count
          · rw [Nat.mod_eq_of_lt hperiod, Nat.testBit_mod_two_pow]
            by_cases hlow : i < count
            · simp [hlow]
            · have h := hzero (i - count) (by omega)
              rw [Nat.sub_add_cancel (by omega)] at h
              simp [hlow, h]
          · have h := hrepeat (i - count) (by omega) (by omega)
            rw [Nat.sub_add_cancel (by omega)] at h
            rw [← h, Nat.sub_sub, ← two_mul, ih _ (by omega) (by omega),
              ← Nat.mod_eq_sub_mod (by omega)]
    · intro i hi hlast
      have h := hrepeat (i + count) hi (by omega)
      rw [Nat.add_sub_cancel, hhigh (i + count + count) (by omega)] at h
      exact h
  · rintro ⟨p, hp, hrepeat, hlast⟩
    constructor
    · intro j hj
      rcases lt_or_ge (j + count) 32 with hlt | hge
      · rw [hrepeat _ hlt, Nat.mod_eq_of_lt (by omega)]
        exact Nat.testBit_lt_two_pow (hp.trans_le (Nat.pow_le_pow_right (by norm_num) (by omega)))
      · exact hhigh _ hge
    · intro j hj hle
      rcases lt_or_ge (j + count) 32 with hlt | hge
      · rw [hrepeat _ hlt, hrepeat _ (by omega)]
        congr 1
        rw [show j + count = j - count + 2 * count by omega, Nat.add_mod_right]
      · rw [hhigh _ hge]
        exact hlast _ (by omega) (by omega)

theorem mul_mod_eq_div_iff {n : ℕ} (hn : n < 2 ^ 31) (count : ℕ) :
    n * 2 ^ count % 2 ^ 32 = n / 2 ^ count ↔ DigitsRepeat n count := by
  have hleft : ∀ j, (n * 2 ^ count % 2 ^ 32).testBit j =
      (decide (j < 32) && (decide (count ≤ j) && n.testBit (j - count))) := by
    intro j
    rw [Nat.testBit_mod_two_pow, ← Nat.shiftLeft_eq, Nat.testBit_shiftLeft]
  have hright : ∀ j, (n / 2 ^ count).testBit j = n.testBit (j + count) :=
    fun j => Nat.testBit_div_two_pow n j
  constructor
  · intro h
    refine ⟨fun j hj => ?_, fun j hj hcount => ?_⟩
    · rw [← hright, ← h, hleft]
      simp [hj]
    · rw [← hright, ← h, hleft]
      simp [hj, hcount]
  · intro h
    apply Nat.eq_of_testBit_eq
    intro j
    rw [hleft, hright]
    by_cases hj : j < 32
    · by_cases hcount : count ≤ j
      · simp [hj, hcount, h.2 j hj hcount]
      · simp [hcount, h.1 j (by omega)]
    · have hpow : n < 2 ^ (j + count) :=
        hn.trans_le (Nat.pow_le_pow_right (by norm_num) (by omega))
      simp [hj, Nat.testBit_lt_two_pow hpow]

theorem mul_mod_eq_self_iff {n : ℕ} (hn : n < 2 ^ 31) (count : ℕ) :
    n * 2 ^ count * 2 ^ count % 2 ^ 32 = n ↔ count = 0 ∨ n = 0 := by
  constructor
  · intro h
    by_cases hcount : count = 0
    · exact .inl hcount
    right
    obtain ⟨k, hk⟩ : ∃ k, 2 ^ count * 2 ^ count = 2 * k + 1 + 1 := by
      obtain ⟨i, rfl⟩ := Nat.exists_eq_succ_of_ne_zero hcount
      have hpos : 0 < 2 ^ i * 2 ^ i := by positivity
      refine ⟨2 ^ i * 2 ^ i * 2 - 1, ?_⟩
      rw [pow_succ, mul_mul_mul_comm]
      omega
    have hdvd : 2 ^ 32 ∣ n * (2 * k + 1) := by
      have hsplit : n * 2 ^ count * 2 ^ count = n * (2 * k + 1) + n := by
        rw [mul_assoc, hk]
        ring
      rw [hsplit] at h
      omega
    have hodd : Nat.Coprime (2 ^ 32) (2 * k + 1) :=
      Nat.Coprime.pow_left 32 (by simp)
    have hzero := hodd.dvd_of_dvd_mul_right hdvd
    omega
  · intro h
    rcases h with rfl | rfl
    · rw [pow_zero, mul_one, mul_one]
      omega
    · simp

theorem bitShift_roundTrip_iff {x : ℤ} {count : ℕ} (hcount : count ≤ 31)
    (h0 : 0 ≤ x * 2 ^ count) (h31 : x * 2 ^ count < 2 ^ 31) :
    (∃ y, bitLshit [x, count] = [y] ∧ bitRshit [y, count] = [x]) ↔ count = 0 ∨ x = 0 := by
  have hpow : (0 : ℤ) < 2 ^ count := by positivity
  obtain ⟨n, rfl⟩ := Int.eq_ofNat_of_zero_le (nonneg_of_mul_nonneg_left h0 hpow)
  have hshifted : n * 2 ^ count < 2 ^ 31 := by exact_mod_cast h31
  have hn : n < 2 ^ 31 := lt_of_le_of_lt (Nat.le_mul_of_pos_right n (by positivity)) hshifted
  have hfirst : bitLshit [(n : ℤ), (count : ℤ)] = [((n * 2 ^ count : ℕ) : ℤ)] := by
    rw [bitLshit_natCast n hcount, (toInt_ofNat_eq_iff _ hshifted).mpr]
    omega
  have hsecond : bitRshit [((n * 2 ^ count : ℕ) : ℤ), (count : ℤ)] = [(n : ℤ)] ↔
      count = 0 ∨ n = 0 := by
    rw [bitRshit_natCast _ hcount, List.singleton_inj, toInt_ofNat_eq_iff _ hn,
      mul_mod_eq_self_iff hn]
  simpa [hfirst] using hsecond

theorem bitRshit_eq_div_iff {x : ℤ} {count : ℕ} (hcount : count ≤ 31) (h0 : 0 ≤ x)
    (h31 : x < 2 ^ 31) :
    bitRshit [x, count] = [x / 2 ^ count] ↔ DigitsRepeat x.toNat count := by
  obtain ⟨n, rfl⟩ := Int.eq_ofNat_of_zero_le h0
  have hn : n < 2 ^ 31 := by exact_mod_cast h31
  have hdiv : ((n : ℤ) / 2 ^ count) = ((n / 2 ^ count : ℕ) : ℤ) := by push_cast; rfl
  rw [bitRshit_natCast n hcount, hdiv, List.singleton_inj,
    toInt_ofNat_eq_iff _ ((Nat.div_le_self n _).trans_lt hn), mul_mod_eq_div_iff hn,
    Int.toNat_natCast]

theorem bitAnd_toInt (r : BitVec 32) : bitAnd [r.toInt, 255] = [((r.toNat % 256 : ℕ) : ℤ)] := by
  have hand : (r &&& luaTointeger 255).toNat = r.toNat % 256 := by
    rw [BitVec.toNat_and, show (luaTointeger 255).toNat = 2 ^ 8 - 1 from rfl,
      Nat.and_two_pow_sub_one_eq_mod]
  rw [bitAnd, luaTointeger_toInt, BitVec.toInt_eq_toNat_cond, hand, if_pos (by omega)]

/-- The mask keeps the lowest byte, which a shift to the left fills with zeros. -/
theorem bitAnd_bitRshit_iff {x : ℤ} (h0 : 0 ≤ x) (h31 : x < 2 ^ 31) {i : ℕ} (hi : i < 4) :
    (∃ y, bitRshit [x, (8 * i : ℕ)] = [y] ∧ bitAnd [y, 255] = [x / 2 ^ (8 * i) % 256]) ↔
      i = 0 ∨ x / 2 ^ (8 * i) % 256 = 0 := by
  obtain ⟨n, rfl⟩ := Int.eq_ofNat_of_zero_le h0
  have hn : n < 2 ^ 31 := by exact_mod_cast h31
  rw [bitRshit_natCast n (by omega)]
  simp only [List.singleton_inj, exists_eq_left', bitAnd_toInt, BitVec.toNat_ofNat]
  rcases Nat.eq_zero_or_pos i with rfl | hpos
  · simp only [mul_zero, pow_zero, mul_one, Int.ediv_one, true_or, iff_true]
    omega
  · obtain ⟨m, hm⟩ : ∃ m, n * 2 ^ (8 * i) = 256 * m := by
      refine ⟨n * 2 ^ (8 * (i - 1)), ?_⟩
      rw [show 8 * i = 8 + 8 * (i - 1) by omega, pow_add]
      ring
    rw [hm]
    omega

/-- The shifts undo each other only where they change nothing, `bit_rshit` divides where the binary
digits repeat, and the mask finds a byte above the lowest one only if it is zero. -/
theorem bitFunctions_iff (x : ℤ) :
    (∀ count : ℕ, count ≤ 31 → 0 ≤ x * 2 ^ count → x * 2 ^ count < 2 ^ 31 →
      ((∃ y, bitLshit [x, count] = [y] ∧ bitRshit [y, count] = [x]) ↔ count = 0 ∨ x = 0)) ∧
    (0 ≤ x → x < 2 ^ 31 →
      (∀ count : ℕ, count ≤ 31 →
        (bitRshit [x, count] = [x / 2 ^ count] ↔ DigitsRepeat x.toNat count)) ∧
      ∀ i < 4,
        ((∃ y, bitRshit [x, (8 * i : ℕ)] = [y] ∧ bitAnd [y, 255] = [x / 2 ^ (8 * i) % 256]) ↔
          i = 0 ∨ x / 2 ^ (8 * i) % 256 = 0)) := by
  constructor
  · intro count hcount h0 h31
    exact bitShift_roundTrip_iff hcount h0 h31
  · intro h0 h31
    constructor
    · intro count hcount
      exact bitRshit_eq_div_iff hcount h0 h31
    · intro i hi
      exact bitAnd_bitRshit_iff h0 h31 hi

theorem bitFunctions_iff_repeated :
    bitRshit [0x41041041, (3 : ℕ)] = [0x41041041 / 2 ^ 3] ∧
      (∃ y, bitLshit [0, (5 : ℕ)] = [y] ∧ bitRshit [y, (5 : ℕ)] = [0]) ∧
      ∃ y, bitRshit [0x12ff, (8 * 0 : ℕ)] = [y] ∧ bitAnd [y, 255] = [0x12ff / 2 ^ (8 * 0) % 256] :=
  ⟨(((bitFunctions_iff 0x41041041).2 (by decide) (by decide)).1 3 (by decide)).mpr (by decide),
    ((bitFunctions_iff 0).1 5 (by decide) (by decide) (by decide)).mpr (.inr rfl),
    (((bitFunctions_iff 0x12ff).2 (by decide) (by decide)).2 0 (by decide)).mpr (.inl rfl)⟩

theorem bitFunctions_double_shift :
    bitLshit [1, 1] = [2] ∧ bitRshit [2, 1] = [4] ∧ bitRshit [1, 1] = [2] ∧
      bitRshit [0x12ff, 8] = [0x12ff00] ∧ bitAnd [0x12ff00, 255] = [0] := by
  decide

end SoftRenderer
