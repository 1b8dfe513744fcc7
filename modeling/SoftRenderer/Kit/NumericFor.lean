import SoftRenderer.Kit.Procedure

/-!
# Numeric loops

The values of the control variable in a loop `for i = a, b do` with step one: `a`, `a + 1` and so
on, as long as they do not pass `b`. The bounds are arbitrary numbers of an ordered field.
-/

namespace Kit

variable {K : Type} [Field K] [LinearOrder K] [FloorRing K]

def forCount (a b : K) : ℕ := (⌊b - a⌋ + 1).toNat

def forValues (a b : K) : List K := (List.range (forCount a b)).map (fun k : ℕ => a + (k : K))

@[simp] theorem length_forValues (a b : K) : (forValues a b).length = forCount a b := by
  simp [forValues]

variable [IsStrictOrderedRing K]

theorem forCount_of_le {a b : K} (h : a ≤ b) : (forCount a b : ℤ) = ⌊b - a⌋ + 1 := by
  have hf : 0 ≤ ⌊b - a⌋ := Int.floor_nonneg.mpr (sub_nonneg.mpr h)
  unfold forCount
  omega

theorem forCount_of_lt {a b : K} (h : b < a) : forCount a b = 0 := by
  have hf : ⌊b - a⌋ < 0 := Int.floor_lt.mpr (by simpa using h)
  unfold forCount
  omega

theorem lt_forCount_iff {a b : K} {k : ℕ} : k < forCount a b ↔ a + (k : K) ≤ b := by
  have hk : ((k : ℤ) ≤ ⌊b - a⌋) ↔ (k : K) ≤ b - a := by
    rw [Int.le_floor, Int.cast_natCast]
  rw [← le_sub_iff_add_le', ← hk]
  unfold forCount
  omega

theorem mem_forValues {a b x : K} : x ∈ forValues a b ↔ ∃ k : ℕ, x = a + (k : K) ∧ x ≤ b := by
  simp only [forValues, List.mem_map, List.mem_range, lt_forCount_iff]
  constructor
  · rintro ⟨k, hk, rfl⟩
    exact ⟨k, rfl, hk⟩
  · rintro ⟨k, rfl, hk⟩
    exact ⟨k, hk, rfl⟩

/-- The test that the loop makes before each iteration. -/
theorem forValues_step (a b : K) :
    forValues a b = if a ≤ b then a :: forValues (a + 1) b else [] := by
  have hcount : forCount a b = if a ≤ b then forCount (a + 1) b + 1 else 0 := by
    split_ifs with h
    · have hfloor : ⌊b - (a + 1)⌋ = ⌊b - a⌋ - 1 := by
        rw [← Int.floor_sub_one]
        congr 1
        ring
      have hf : 0 ≤ ⌊b - a⌋ := Int.floor_nonneg.mpr (sub_nonneg.mpr h)
      unfold forCount
      rw [hfloor]
      omega
    · exact forCount_of_lt (not_le.mp h)
  split_ifs with h
  · rw [forValues, hcount, if_pos h, List.range_succ_eq_map, List.map_cons, List.map_map]
    simp only [forValues, Nat.cast_zero, add_zero, List.cons.injEq, true_and]
    apply List.map_congr_left
    intro k _
    simp only [Function.comp_apply, Nat.cast_succ]
    ring
  · rw [forValues, hcount, if_neg h]
    rfl

theorem forValues_ne_nil {a b : K} : forValues a b ≠ [] ↔ a ≤ b := by
  rw [forValues_step]
  split_ifs with h
  · simp [h]
  · simp [h]

@[simp] theorem forValues_self (a : K) : forValues a a = [a] := by
  simp [forValues, forCount]

theorem forValues_add_natCast (a : K) (n : ℕ) :
    forValues a (a + n) = (List.range (n + 1)).map fun k : ℕ => a + (k : K) := by
  have hcount : forCount a (a + n) = n + 1 := by
    rw [forCount, add_sub_cancel_left, Int.floor_natCast]
    omega
  rw [forValues, hcount]

/-- A loop over the negated values runs backwards, since its last value is the bound itself. -/
theorem forValues_neg (a : K) (n : ℕ) :
    forValues (-(a + n)) (-a) = ((forValues a (a + n)).map Neg.neg).reverse := by
  have hbound : -a = -(a + n) + n := by ring
  rw [hbound, forValues_add_natCast, forValues_add_natCast, List.map_map]
  apply List.ext_getElem
  · simp
  · intro i hi _
    have hin : i ≤ n := by
      rw [List.length_map, List.length_range] at hi
      omega
    simp only [List.getElem_map, List.getElem_range, List.getElem_reverse, List.length_map,
      List.length_range, Function.comp_apply, Nat.add_sub_cancel, Nat.cast_sub hin]
    ring

end Kit
