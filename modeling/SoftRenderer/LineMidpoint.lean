import SoftRenderer.Line

/-!
# The line routine draws midpoint lines

The visited points in closed form. With `D` the larger and `d` the smaller of the two coordinate
differences, the point after `i` steps along the major axis has moved by `i * d / D`, rounded, along
the other one.
-/

namespace SoftRenderer

open Kit Kit.Procedure

variable {K : Type} [Field K] [LinearOrder K]

def toward (u v : K) : K := if u ≤ v then 1 else -1

def XMajor (a b : Vector2 K) : Prop := |b.x - a.x| > |b.y - a.y|

instance (a b : Vector2 K) : Decidable (XMajor a b) := by
  unfold XMajor
  infer_instance

def majorLength (a b : Vector2 K) : K := if XMajor a b then |b.x - a.x| else |b.y - a.y|

def minorLength (a b : Vector2 K) : K := if XMajor a b then |b.y - a.y| else |b.x - a.x|

/-- How far a point lies from the line through `a` and `b`, along the minor axis, where the major
axis stands at its `i`-th step. -/
def minorDistance (a b : Vector2 K) (i : ℕ) (p : Vector2 K) : K :=
  if XMajor a b then |p.y - (a.y + i * (b.y - a.y) / majorLength a b)|
  else |p.x - (a.x + i * (b.x - a.x) / majorLength a b)|

def lineMidpoint (a b : Vector2 K) (i : ℕ) : Midpoint K :=
  (Midpoint.step (minorLength a b) (majorLength a b))^[i]
    (Midpoint.start (minorLength a b) (majorLength a b))

theorem lineMidpoint_succ (a b : Vector2 K) (i : ℕ) :
    lineMidpoint a b (i + 1) =
      (lineMidpoint a b i).step (minorLength a b) (majorLength a b) :=
  Function.iterate_succ_apply' ..

theorem minorLength_le_majorLength (a b : Vector2 K) : minorLength a b ≤ majorLength a b := by
  by_cases h : XMajor a b
  · simpa only [minorLength, majorLength, if_pos h] using h.le
  · simpa only [minorLength, majorLength, if_neg h] using not_lt.mp h

section Setup

variable [IsStrictOrderedRing K]

theorem toward_mul_abs (u v : K) : toward u v * |v - u| = v - u := by
  unfold toward
  split_ifs with h
  · rw [one_mul, abs_of_nonneg (sub_nonneg.mpr h)]
  · rw [abs_of_neg (sub_neg.mpr (not_le.mp h))]
    ring

theorem abs_toward (u v : K) : |toward u v| = 1 := by
  unfold toward
  split_ifs <;> simp

theorem lineSetup_eq (a b : Vector2 K) :
    lineSetup a b = ⟨|b.x - a.x|, |b.y - a.y|, toward a.x b.x, toward a.y b.y⟩ := by
  simp only [lineSetup, toward, ge_iff_le, sub_nonneg, LineSetup.mk.injEq, and_true]
  constructor
  · split_ifs with h
    · exact (abs_of_nonneg (sub_nonneg.mpr h)).symm
    · rfl
  · split_ifs with h
    · exact (abs_of_nonneg (sub_nonneg.mpr h)).symm
    · rfl

theorem minorLength_nonneg (a b : Vector2 K) : 0 ≤ minorLength a b := by
  unfold minorLength
  split_ifs <;> exact abs_nonneg _

theorem majorLength_nonneg (a b : Vector2 K) : 0 ≤ majorLength a b :=
  (minorLength_nonneg a b).trans (minorLength_le_majorLength a b)

theorem abs_sub_le_one_of_major (i : ℕ) (u v : K) :
    |u + toward u v * ((i + 1 : ℕ) : K) - (u + toward u v * (i : K))| ≤ 1 := by
  rw [add_sub_add_left_eq_sub, ← mul_sub, abs_mul, abs_toward, one_mul, Nat.cast_succ,
    add_sub_cancel_left, abs_one]

def Vector2.IsInteger (p : Vector2 K) : Prop := (∃ m : ℤ, p.x = m) ∧ ∃ m : ℤ, p.y = m

theorem exists_natCast_eq_abs_sub {u v : K} (hu : ∃ m : ℤ, u = m) (hv : ∃ m : ℤ, v = m) :
    ∃ n : ℕ, |v - u| = n := by
  obtain ⟨m, rfl⟩ := hu
  obtain ⟨k, rfl⟩ := hv
  refine ⟨(k - m).natAbs, ?_⟩
  rw [Nat.cast_natAbs]
  push_cast
  rfl

theorem exists_natCast_eq_lengths {a b : Vector2 K} (ha : a.IsInteger) (hb : b.IsInteger) :
    (∃ n : ℕ, majorLength a b = n) ∧ ∃ m : ℕ, minorLength a b = m := by
  have hx := exists_natCast_eq_abs_sub ha.1 hb.1
  have hy := exists_natCast_eq_abs_sub ha.2 hb.2
  by_cases h : XMajor a b
  · simpa only [majorLength, minorLength, if_pos h] using And.intro hx hy
  · simpa only [majorLength, minorLength, if_neg h] using And.intro hy hx

end Setup

variable [FloorRing K]

def minorSteps (a b : Vector2 K) (i : ℕ) : K :=
  if majorLength a b = 0 then 0
  else (⌊(i : K) * minorLength a b / majorLength a b + 0.5⌋ : K)

theorem minorSteps_eq [IsStrictOrderedRing K] (a b : Vector2 K) (i : ℕ) :
    minorSteps a b i = if majorLength a b = 0 then 0
      else (⌊(i : K) * minorLength a b / majorLength a b + 1 / 2⌋ : K) := by
  have hhalf : (0.5 : K) = 1 / 2 := by norm_num
  rw [minorSteps, hhalf]

/-- The start moved by `i` steps on the major axis and `minorSteps a b i` steps on the minor one. -/
def midpointAt (a b : Vector2 K) (i : ℕ) : Vector2 K :=
  if XMajor a b then ⟨a.x + toward a.x b.x * i, a.y + toward a.y b.y * minorSteps a b i⟩
  else ⟨a.x + toward a.x b.x * minorSteps a b i, a.y + toward a.y b.y * i⟩

variable [IsStrictOrderedRing K]

theorem length_linePoints (a b : Vector2 K) :
    (linePoints a b).length = forCount 0 (majorLength a b) := by
  by_cases h : XMajor a b
  · have hs : |b.x - a.x| > |b.y - a.y| := h
    simp [linePoints, lineCursors, lineSetup_eq, majorLength, h, hs]
  · have hs : ¬ |b.x - a.x| > |b.y - a.y| := h
    simp [linePoints, lineCursors, lineSetup_eq, majorLength, h, hs]

theorem getElem_linePoints (a b : Vector2 K) (i : ℕ) (hi : i < (linePoints a b).length) :
    (linePoints a b)[i] =
      if XMajor a b then
        ⟨a.x + toward a.x b.x * i, a.y + toward a.y b.y * (lineMidpoint a b i).minor⟩
      else ⟨a.x + toward a.x b.x * (lineMidpoint a b i).minor, a.y + toward a.y b.y * i⟩ := by
  by_cases h : XMajor a b
  · have hs : |b.x - a.x| > |b.y - a.y| := h
    simp only [linePoints, lineCursors, lineSetup_eq, if_pos hs, if_pos h, List.getElem_map,
      List.getElem_range, LineSetup.nextX_iterate, LineSetup.cursorX, LineCursor.point,
      lineMidpoint, minorLength, majorLength]
  · have hs : ¬ |b.x - a.x| > |b.y - a.y| := h
    simp only [linePoints, lineCursors, lineSetup_eq, if_neg hs, if_neg h, List.getElem_map,
      List.getElem_range, LineSetup.nextY_iterate, LineSetup.cursorY, LineCursor.point,
      lineMidpoint, minorLength, majorLength]

theorem lt_length_linePoints {a b : Vector2 K} {i : ℕ} :
    i < (linePoints a b).length ↔ (i : K) ≤ majorLength a b := by
  rw [length_linePoints, lt_forCount_iff, zero_add]

theorem lineMidpoint_minor {a b : Vector2 K} {i : ℕ} (hi : i < (linePoints a b).length) :
    ((lineMidpoint a b i).minor : K) = minorSteps a b i := by
  rw [minorSteps_eq]
  split_ifs with h
  · have hle := lt_length_linePoints.mp hi
    rw [h] at hle
    have hzero : i = 0 := by exact_mod_cast hle.antisymm (Nat.cast_nonneg i)
    rw [hzero]
    simp [lineMidpoint, Midpoint.start]
  · have hpos : 0 < majorLength a b := (majorLength_nonneg a b).lt_of_ne' h
    rw [← Midpoint.minor_iterate (minorLength_nonneg a b) (minorLength_le_majorLength a b) hpos i,
      Int.cast_natCast]
    rfl

theorem getElem_linePoints_eq_midpointAt (a b : Vector2 K) (i : ℕ)
    (hi : i < (linePoints a b).length) : (linePoints a b)[i] = midpointAt a b i := by
  rw [getElem_linePoints, lineMidpoint_minor hi]
  rfl

theorem mem_linePoints {a b r : Vector2 K} :
    r ∈ linePoints a b ↔ ∃ i : ℕ, (i : K) ≤ majorLength a b ∧ r = midpointAt a b i := by
  rw [List.mem_iff_getElem]
  constructor
  · rintro ⟨i, hi, rfl⟩
    exact ⟨i, lt_length_linePoints.mp hi, getElem_linePoints_eq_midpointAt a b i hi⟩
  · rintro ⟨i, hi, rfl⟩
    have hlt := lt_length_linePoints.mpr hi
    exact ⟨i, hlt, getElem_linePoints_eq_midpointAt a b i hlt⟩

theorem abs_minorSteps_sub_le (a b : Vector2 K) (i : ℕ) :
    |minorSteps a b i - i * minorLength a b / majorLength a b| ≤ 1 / 2 := by
  rw [minorSteps_eq]
  split_ifs with h
  · rw [h, div_zero, sub_zero, abs_zero]
    norm_num
  · exact Midpoint.abs_floor_half_sub_le _

theorem abs_toward_mul_sub (u v : K) (s t D : K) :
    |u + toward u v * s - (u + t * (v - u) / D)| = |s - t * |v - u| / D| := by
  have hfactor : u + toward u v * s - (u + t * (v - u) / D) =
      toward u v * (s - t * |v - u| / D) := by
    linear_combination t / D * toward_mul_abs u v
  rw [hfactor, abs_mul, abs_toward, one_mul]

theorem minorDistance_midpointAt_le (a b : Vector2 K) (i : ℕ) :
    minorDistance a b i (midpointAt a b i) ≤ 1 / 2 := by
  have hround := abs_minorSteps_sub_le a b i
  by_cases h : XMajor a b
  · simpa only [minorDistance, midpointAt, minorLength, if_pos h, abs_toward_mul_sub] using hround
  · simpa only [minorDistance, midpointAt, minorLength, if_neg h, abs_toward_mul_sub] using hround

theorem abs_sub_le_one_of_step (a b : Vector2 K) (i : ℕ) (u v : K) :
    |u + toward u v * (lineMidpoint a b (i + 1)).minor -
      (u + toward u v * (lineMidpoint a b i).minor)| ≤ 1 := by
  rw [lineMidpoint_succ, add_sub_add_left_eq_sub, ← mul_sub, abs_mul, abs_toward, one_mul]
  rcases Midpoint.minor_step (minorLength a b) (majorLength a b) (lineMidpoint a b i) with h | h
  · rw [h, sub_self, abs_zero]
    exact zero_le_one
  · rw [h, Nat.cast_succ, add_sub_cancel_left, abs_one]

theorem adjacent_linePoints (a b : Vector2 K) (i : ℕ) (hi : i + 1 < (linePoints a b).length) :
    |(linePoints a b)[i + 1].x - (linePoints a b)[i].x| ≤ 1 ∧
      |(linePoints a b)[i + 1].y - (linePoints a b)[i].y| ≤ 1 := by
  rw [getElem_linePoints, getElem_linePoints]
  by_cases h : XMajor a b
  · simp only [if_pos h]
    exact ⟨abs_sub_le_one_of_major i a.x b.x, abs_sub_le_one_of_step a b i a.y b.y⟩
  · simp only [if_neg h]
    exact ⟨abs_sub_le_one_of_step a b i a.x b.x, abs_sub_le_one_of_major i a.y b.y⟩

theorem minorSteps_majorLength {a b : Vector2 K} {n m : ℕ} (hn : majorLength a b = n)
    (hm : minorLength a b = m) : minorSteps a b n = minorLength a b := by
  rw [minorSteps_eq]
  split_ifs with h
  · exact ((minorLength_le_majorLength a b).trans h.le).antisymm (minorLength_nonneg a b) |>.symm
  · rw [← hn, mul_div_cancel_left₀ _ h, hm]
    have hfloor : ⌊(m : K) + 1 / 2⌋ = m := by
      rw [Int.floor_eq_iff]
      push_cast
      constructor <;> linarith
    rw [hfloor, Int.cast_natCast]

theorem midpointAt_majorLength {a b : Vector2 K} {n m : ℕ} (hn : majorLength a b = n)
    (hm : minorLength a b = m) : midpointAt a b n = b := by
  unfold midpointAt
  rw [minorSteps_majorLength hn hm, ← hn]
  by_cases h : XMajor a b
  · simp only [majorLength, minorLength, if_pos h, toward_mul_abs, add_sub_cancel]
  · simp only [majorLength, minorLength, if_neg h, toward_mul_abs, add_sub_cancel]

theorem getLast?_linePoints {a b : Vector2 K} (ha : a.IsInteger) (hb : b.IsInteger) :
    (linePoints a b).getLast? = some b := by
  obtain ⟨⟨n, hn⟩, m, hm⟩ := exists_natCast_eq_lengths ha hb
  have hlen : (linePoints a b).length = n + 1 := by
    have hcount := forCount_of_le (majorLength_nonneg a b)
    rw [length_linePoints]
    rw [hn, sub_zero, Int.floor_natCast] at hcount
    rw [hn]
    exact_mod_cast hcount
  have hlt : n < (linePoints a b).length := by omega
  rw [List.getLast?_eq_getElem?, hlen, Nat.add_sub_cancel, List.getElem?_eq_getElem hlt,
    getElem_linePoints_eq_midpointAt, midpointAt_majorLength hn hm]

/-- A list of points follows the line from `a` to `b` by the midpoint rule. -/
structure IsMidpointLine (a b : Vector2 K) (points : List (Vector2 K)) : Prop where
  length_eq : (points.length : ℤ) = ⌊majorLength a b⌋ + 1
  point_eq : ∀ i (hi : i < points.length), points[i] = midpointAt a b i
  near : ∀ i (hi : i < points.length), minorDistance a b i points[i] ≤ 1 / 2
  last_eq : a.IsInteger → b.IsInteger → points.getLast? = some b
  adjacent : a.IsInteger → b.IsInteger → ∀ i (hi : i + 1 < points.length),
    |points[i + 1].x - points[i].x| ≤ 1 ∧ |points[i + 1].y - points[i].y| ≤ 1

theorem isMidpointLine_linePoints (a b : Vector2 K) : IsMidpointLine a b (linePoints a b) where
  length_eq := by
    rw [length_linePoints, forCount_of_le (majorLength_nonneg a b), sub_zero]
  point_eq := getElem_linePoints_eq_midpointAt a b
  near i hi := by
    rw [getElem_linePoints_eq_midpointAt]
    exact minorDistance_midpointAt_le a b i
  last_eq := getLast?_linePoints
  adjacent _ _ := adjacent_linePoints a b

/-- `drawLine` visits a midpoint line, and the pixels it draws are the visited points that lie in
the window, in the order of the visit. -/
theorem drawLine_midpoint (cfg : Config K) (self : Device K) (a b : Vector2 K) (color : Value K) :
    IsMidpointLine a b (linePoints a b) ∧
    ∀ world, self.drawLine cfg a b color world =
      (.ok (), { world with
        pixels := world.pixels ++ ((linePoints a b).filter fun p =>
          0 ≤ p.x ∧ p.x < cfg.winWidth ∧ 0 ≤ p.y ∧ p.y < cfg.winHeight).map fun p =>
            ⟨p.x, p.y, color⟩ }) :=
  ⟨isMidpointLine_linePoints a b, drawLine_apply cfg self a b color⟩

theorem drawLine_midpoint_seven_three :
    (linePoints (⟨0, 0⟩ : Vector2 ℚ) ⟨7, 3⟩).getLast? = some ⟨7, 3⟩ :=
  (drawLine_midpoint Config.source (Device.new 800 600) ⟨0, 0⟩ ⟨7, 3⟩ .nil).1.last_eq
    ⟨⟨0, by norm_num⟩, ⟨0, by norm_num⟩⟩ ⟨⟨7, by norm_num⟩, ⟨3, by norm_num⟩⟩

end SoftRenderer
