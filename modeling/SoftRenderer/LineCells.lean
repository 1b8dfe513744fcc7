import SoftRenderer.Framebuffer
import SoftRenderer.LineShape

/-!
# The cells of a line

The cells that `drawLine` paints form a shortest path of a king: any two of them are as many moves
apart as their calls of `draw_pixel`. So a line has no gap and paints no cell twice, also where its
ends are fractions, which the host truncates, and where it is clipped.
-/

namespace SoftRenderer

open Kit Kit.Procedure

variable {K : Type} [Field K] [LinearOrder K]

/-- The moves that a king needs. -/
def kingDistance (c d : ℕ × ℕ) : ℤ := max |(c.1 : ℤ) - d.1| |(c.2 : ℤ) - d.2|

def towardInt (u v : K) : ℤ := if u ≤ v then 1 else -1

theorem toward_eq_cast (u v : K) : toward u v = (towardInt u v : K) := by
  unfold toward towardInt
  split_ifs <;> simp

omit [Field K] in
theorem abs_towardInt_mul_sub (u v : K) (m n : ℤ) :
    |towardInt u v * m - towardInt u v * n| = |m - n| := by
  unfold towardInt
  split_ifs
  · rw [one_mul, one_mul]
  · rw [neg_one_mul, neg_one_mul, neg_sub_neg, abs_sub_comm]

variable [FloorRing K]

def minorCount (a b : Vector2 K) (i : ℕ) : ℤ :=
  if majorLength a b = 0 then 0 else ⌊(i : K) * minorLength a b / majorLength a b + 0.5⌋

theorem minorSteps_eq_cast (a b : Vector2 K) (i : ℕ) :
    minorSteps a b i = (minorCount a b i : K) := by
  unfold minorSteps minorCount
  split_ifs
  · exact Int.cast_zero.symm
  · rfl

def lineOffset (a b : Vector2 K) (i : ℕ) : ℤ × ℤ :=
  if XMajor a b then (towardInt a.x b.x * i, towardInt a.y b.y * minorCount a b i)
  else (towardInt a.x b.x * minorCount a b i, towardInt a.y b.y * i)

theorem midpointAt_eq_lineOffset (a b : Vector2 K) (i : ℕ) :
    midpointAt a b i = ⟨a.x + ((lineOffset a b i).1 : K), a.y + ((lineOffset a b i).2 : K)⟩ := by
  unfold midpointAt lineOffset
  split_ifs <;> simp [toward_eq_cast, minorSteps_eq_cast]

variable [IsStrictOrderedRing K]

/-- On the minor axis a step is taken or not. -/
theorem minorCount_add (a b : Vector2 K) (i k : ℕ) :
    minorCount a b i ≤ minorCount a b (i + k) ∧
      minorCount a b (i + k) ≤ minorCount a b i + k := by
  unfold minorCount
  split_ifs with h
  · omega
  · have hD : 0 < majorLength a b := (majorLength_nonneg a b).lt_of_ne' h
    have hd := minorLength_nonneg a b
    have hle := minorLength_le_majorLength a b
    have hratio : minorLength a b / majorLength a b ≤ 1 := (div_le_one hD).mpr hle
    have hpos : 0 ≤ minorLength a b / majorLength a b := div_nonneg hd hD.le
    have hk : (0 : K) ≤ k := k.cast_nonneg
    have hsplit : ((i + k : ℕ) : K) * minorLength a b / majorLength a b + 0.5 =
        (i : K) * minorLength a b / majorLength a b + 0.5 +
          k * (minorLength a b / majorLength a b) := by
      push_cast
      ring
    rw [hsplit]
    constructor
    · exact Int.floor_le_floor (le_add_of_nonneg_right (mul_nonneg hk hpos))
    · rw [← Int.floor_add_natCast]
      exact Int.floor_le_floor (by gcongr; exact mul_le_of_le_one_right hk hratio)

theorem abs_minorCount_sub_le (a b : Vector2 K) (i j : ℕ) :
    |minorCount a b i - minorCount a b j| ≤ |(i : ℤ) - j| := by
  rcases le_total i j with h | h
  · obtain ⟨k, rfl⟩ := Nat.exists_eq_add_of_le h
    obtain ⟨h1, h2⟩ := minorCount_add a b i k
    rw [abs_sub_comm, abs_of_nonneg (by omega), abs_sub_comm, abs_of_nonneg] <;> push_cast <;> omega
  · obtain ⟨k, rfl⟩ := Nat.exists_eq_add_of_le h
    obtain ⟨h1, h2⟩ := minorCount_add a b j k
    rw [abs_of_nonneg (by omega), abs_of_nonneg] <;> push_cast <;> omega

theorem max_abs_lineOffset_sub (a b : Vector2 K) (i j : ℕ) :
    max |(lineOffset a b i).1 - (lineOffset a b j).1|
      |(lineOffset a b i).2 - (lineOffset a b j).2| = |(i : ℤ) - j| := by
  have hminor := abs_minorCount_sub_le a b i j
  unfold lineOffset
  split_ifs
  · rw [abs_towardInt_mul_sub, abs_towardInt_mul_sub, max_eq_left hminor]
  · rw [abs_towardInt_mul_sub, abs_towardInt_mul_sub, max_eq_right hminor]

theorem toNat_uint32_add_intCast {x : K} {n : ℤ} (h0 : 0 ≤ x + n)
    (h1 : x + n < 2 ^ 32) : ((uint32 (x + n)).toNat : ℤ) = ⌊x⌋ + n := by
  have hpos : 0 ≤ ⌊x + n⌋ := Int.floor_nonneg.mpr h0
  rw [toNat_uint32_of_lt h0 h1, Int.toNat_of_nonneg hpos, Int.floor_add_intCast]

theorem exists_getElem_eq_midpointAt {a b : Vector2 K} {piece : List (Vector2 K)}
    (h : piece <:+: linePoints a b) :
    ∃ k, ∀ i (hi : i < piece.length), piece[i] = midpointAt a b (k + i) := by
  obtain ⟨before, after, hpiece⟩ := h
  refine ⟨before.length, fun i hi => ?_⟩
  have hlt : before.length + i < (linePoints a b).length := by
    rw [← hpiece, List.length_append, List.length_append]
    omega
  rw [← getElem_linePoints_eq_midpointAt a b _ hlt]
  have hindex : before.length + i - before.length = i := by omega
  simp only [← hpiece, List.append_assoc]
  rw [List.getElem_append_right (Nat.le_add_right _ _), List.getElem_append_left (by omega)]
  simp only [hindex]

/-- The cells that a line paints, in order. -/
theorem drawLine_kingPath {cfg : Config K} (hw : cfg.winWidth ≤ 2 ^ 32)
    (hh : cfg.winHeight ≤ 2 ^ 32) (self : Device K) (a b : Vector2 K) (color : Value K)
    (world : World K) :
    ∃ ps : List (Pixel K),
      self.drawLine cfg a b color world =
        (.ok (), { world with pixels := world.pixels ++ ps }) ∧
      ∀ i j (hi : i < ps.length) (hj : j < ps.length),
        kingDistance ps[i].cell ps[j].cell = |(i : ℤ) - j| := by
  refine ⟨clippedPixels cfg color (linePoints a b), drawLine_apply .., ?_⟩
  obtain ⟨k, hk⟩ := exists_getElem_eq_midpointAt (filter_inWindow_isInfix cfg a b)
  have hcell {i : ℕ} (hi : i < (clippedPixels cfg color (linePoints a b)).length) :
      ((clippedPixels cfg color (linePoints a b))[i].cell.1 : ℤ) =
          ⌊a.x⌋ + (lineOffset a b (k + i)).1 ∧
        ((clippedPixels cfg color (linePoints a b))[i].cell.2 : ℤ) =
          ⌊a.y⌋ + (lineOffset a b (k + i)).2 := by
    have hi' : i < ((linePoints a b).filter fun p => cfg.InWindow p.x p.y).length := by
      rwa [clippedPixels, List.length_map] at hi
    have hmem := List.getElem_mem hi'
    rw [List.mem_filter, decide_eq_true_eq, hk i hi', midpointAt_eq_lineOffset] at hmem
    obtain ⟨hx0, hx1, hy0, hy1⟩ := hmem.2
    simp only [clippedPixels, List.getElem_map, Pixel.cell, hk i hi', midpointAt_eq_lineOffset]
    exact ⟨toNat_uint32_add_intCast hx0 (hx1.trans_le hw),
      toNat_uint32_add_intCast hy0 (hy1.trans_le hh)⟩
  intro i j hi hj
  obtain ⟨hxi, hyi⟩ := hcell hi
  obtain ⟨hxj, hyj⟩ := hcell hj
  rw [kingDistance, hxi, hxj, hyi, hyj, add_sub_add_left_eq_sub, add_sub_add_left_eq_sub,
    max_abs_lineOffset_sub]
  push_cast
  rw [add_sub_add_left_eq_sub]

theorem drawLine_kingPath_source :
    ∃ ps : List (Pixel ℚ),
      (Device.new 800 600).drawLine .source ⟨790.5, 10.25⟩ ⟨830, 30⟩ (.number 255) (.initial ℚ) =
        (.ok (), { World.initial ℚ with pixels := (World.initial ℚ).pixels ++ ps }) ∧
      ∀ i j (hi : i < ps.length) (hj : j < ps.length),
        kingDistance ps[i].cell ps[j].cell = |(i : ℤ) - j| :=
  drawLine_kingPath (by norm_num [Config.source]) (by norm_num [Config.source]) _ _ _ _ _

end SoftRenderer
