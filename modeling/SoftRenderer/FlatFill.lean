import SoftRenderer.DrawingCalls
import SoftRenderer.LineMidpoint
import SoftRenderer.Kit.Fraction

/-!
# Flat triangles and their edges

A row of a flat triangle is drawn by unit steps from one edge towards the other. The steps reach
the column of the other edge when the fractional parts of the two abscissae are in order, which
depends on the slopes of the edges alone.
-/

namespace SoftRenderer

open Kit Kit.Procedure

variable {K : Type} [Field K] [LinearOrder K] [FloorRing K]

/-- The columns of the row `y` in which a run sets a pixel of the framebuffer. -/
def paintedColumns (screen : Screen) (m : LuaM K Unit) (y : ℤ) : Set ℤ :=
  {x | ∃ p ∈ (m (.initial K)).2.pixels, p.OnScreen screen ∧ (p.cell.1 : ℤ) = x ∧
    (p.cell.2 : ℤ) = y}

/-- A run paints the rows from `top` to `bot` from edge to edge, and nothing else. -/
structure FillsRows (screen : Screen) (m : LuaM K Unit) (top bot : ℤ) (xs xe : K → K) : Prop where
  row : ∀ y ∈ Set.Icc top bot,
    paintedColumns screen m y = Set.Icc ⌊min (xs y) (xe y)⌋ ⌊max (xs y) (xe y)⌋
  other : ∀ y ∉ Set.Icc top bot, paintedColumns screen m y = ∅

/-- The edges that leave the apex, in column `apex`, for the ends `left` and `right` of the flat
side `height` rows further, climb side by side: they stay whole columns apart, or the right one
moves by whole columns in each row and the left one by an odd number of half columns. -/
def EdgesInStep (height apex left right : ℤ) : Prop :=
  height ∣ right - left ∨
    height ∣ right - apex ∧ ∃ m : ℤ, 2 * (left - apex) = (2 * m + 1) * height

section Rows

variable [IsStrictOrderedRing K]

omit [FloorRing K] [IsStrictOrderedRing K] in
theorem xMajor_row {xs xe y : K} : XMajor ⟨xs, y⟩ ⟨xe, y⟩ ↔ |y - y| < |xe - xs| := Iff.rfl

omit [FloorRing K] in
theorem majorLength_row (xs xe y : K) : majorLength ⟨xs, y⟩ ⟨xe, y⟩ = |xe - xs| := by
  have hnonneg := abs_nonneg (xe - xs)
  simp only [majorLength, xMajor_row, sub_self, abs_zero]
  split_ifs with h
  · rfl
  · exact hnonneg.antisymm (not_lt.mp h)

theorem minorSteps_row (xs xe y : K) (i : ℕ) : minorSteps ⟨xs, y⟩ ⟨xe, y⟩ i = 0 := by
  rw [minorSteps_eq, majorLength_row]
  split_ifs with h
  · rfl
  · have hmajor : XMajor ⟨xs, y⟩ ⟨xe, y⟩ := by
      rw [xMajor_row, sub_self, abs_zero]
      exact (abs_nonneg _).lt_of_ne' h
    have hminor : minorLength ⟨xs, y⟩ ⟨xe, y⟩ = 0 := by
      rw [minorLength, if_pos hmajor, sub_self, abs_zero]
    rw [hminor, mul_zero, zero_div, zero_add, Int.cast_eq_zero, Int.floor_eq_iff]
    norm_num

theorem midpointAt_row {xs xe y : K} {i : ℕ} (hi : (i : K) ≤ |xe - xs|) :
    midpointAt ⟨xs, y⟩ ⟨xe, y⟩ i = ⟨xs + toward xs xe * i, y⟩ := by
  unfold midpointAt
  rw [minorSteps_row]
  split_ifs with h
  · rw [mul_zero, add_zero]
  · -- the ends are one point, where no step is made
    rw [xMajor_row, sub_self, abs_zero, not_lt] at h
    have hi0 : (i : K) = 0 := (hi.trans h).antisymm i.cast_nonneg
    simp only [hi0, mul_zero, add_zero]

theorem mem_linePoints_row {xs xe y : K} {r : Vector2 K} :
    r ∈ linePoints ⟨xs, y⟩ ⟨xe, y⟩ ↔ ∃ i : ℕ, (i : K) ≤ |xe - xs| ∧
      r = ⟨xs + toward xs xe * i, y⟩ := by
  rw [mem_linePoints, majorLength_row]
  refine exists_congr fun i => and_congr_right fun hi => ?_
  rw [midpointAt_row hi]

/-- The columns that the steps from `xs` reach. -/
def rowColumns (xs xe : K) : Set ℤ :=
  {x | ∃ i : ℕ, (i : K) ≤ |xe - xs| ∧ ⌊xs + toward xs xe * i⌋ = x}

theorem rowColumns_eq_iff (xs xe : K) :
    rowColumns xs xe = Set.Icc ⌊min xs xe⌋ ⌊max xs xe⌋ ↔
      Int.fract (min xs xe) ≤ Int.fract (max xs xe) := by
  unfold rowColumns toward
  rcases le_or_gt xs xe with hle | hlt
  · have hup := floor_steps_up xs xe
    have hfloor := Int.floor_le_floor hle
    have hpos : 0 ≤ ⌊xe - xs⌋ := Int.floor_nonneg.mpr (sub_nonneg.mpr hle)
    simp only [if_pos hle, one_mul, abs_of_nonneg (sub_nonneg.mpr hle), min_eq_left hle,
      max_eq_right hle, hup]
    rw [← floor_sub_eq_iff, Set.Icc_eq_Icc_iff (by omega)]
    omega
  · have hdown := floor_steps_down xs xe
    have hfloor := Int.floor_le_floor hlt.le
    have hpos : 0 ≤ ⌊xs - xe⌋ := Int.floor_nonneg.mpr (sub_nonneg.mpr hlt.le)
    simp only [if_neg hlt.not_ge, neg_one_mul, ← sub_eq_add_neg, abs_of_neg (sub_neg.mpr hlt),
      neg_sub, min_eq_right hlt.le, max_eq_left hlt.le, hdown]
    rw [← floor_sub_eq_iff, Set.Icc_eq_Icc_iff (by omega)]
    omega

omit [FloorRing K] in
theorem between_of_step {xs xe : K} {i : ℕ} (hi : (i : K) ≤ |xe - xs|) :
    min xs xe ≤ xs + toward xs xe * i ∧ xs + toward xs xe * i ≤ max xs xe := by
  have hnonneg : (0 : K) ≤ i := i.cast_nonneg
  unfold toward
  rcases le_or_gt xs xe with hle | hlt
  · rw [abs_of_nonneg (sub_nonneg.mpr hle)] at hi
    rw [if_pos hle, min_eq_left hle, max_eq_right hle]
    exact ⟨by linarith, by linarith⟩
  · rw [abs_of_neg (sub_neg.mpr hlt)] at hi
    rw [if_neg hlt.not_ge, min_eq_right hlt.le, max_eq_left hlt.le]
    exact ⟨by linarith, by linarith⟩

/-- The truncation of `draw_pixel` takes a point of the window to its cell. -/
theorem inWindow_cell {W H : ℕ} (hW : W < 2 ^ 31) (hH : H < 2 ^ 31) {x y : K}
    (hin : (⟨W, H⟩ : Config K).InWindow x y) (color : Value K) :
    (⟨x, y, color⟩ : Pixel K).OnScreen (⟨W, H⟩ : Config K).screen ∧
      ((⟨x, y, color⟩ : Pixel K).cell.1 : ℤ) = ⌊x⌋ ∧
      ((⟨x, y, color⟩ : Pixel K).cell.2 : ℤ) = ⌊y⌋ := by
  have htrunc {n : ℕ} (hn : n < 2 ^ 31) {z : K} (h0 : 0 ≤ z) (h1 : z < n) :
      uint32 z < uint32 (n : K) ∧ ((uint32 z).toNat : ℤ) = ⌊z⌋ := by
    have hnK : (n : K) < 2 ^ 32 := by exact_mod_cast hn.trans (by norm_num)
    have hpos : 0 ≤ ⌊z⌋ := Int.floor_nonneg.mpr h0
    have hlt : ⌊z⌋ < n := Int.floor_lt.mpr (by exact_mod_cast h1)
    rw [BitVec.lt_def, toNat_uint32_of_lt h0 (h1.trans hnK), toNat_uint32_natCast (by omega)]
    omega
  obtain ⟨hx0, hx1, hy0, hy1⟩ := hin
  obtain ⟨hxlt, hx⟩ := htrunc hW hx0 hx1
  obtain ⟨hylt, hy⟩ := htrunc hH hy0 hy1
  exact ⟨⟨hxlt, hylt⟩, hx, hy⟩

omit [FloorRing K] in
theorem inWindow_of_step {cfg : Config K} {xs xe y : K} (hs : cfg.InWindow xs y)
    (he : cfg.InWindow xe y) {i : ℕ} (hi : (i : K) ≤ |xe - xs|) :
    cfg.InWindow (xs + toward xs xe * i) y := by
  obtain ⟨hlow, hhigh⟩ := between_of_step hi
  exact ⟨(le_min hs.1 he.1).trans hlow, hhigh.trans_lt (max_lt hs.2.1 he.2.1), hs.2.2⟩

theorem mem_rowPixels {cfg : Config K} {a1 b1 a2 b2 : Vector2 K} {color : Value K} {y : K}
    (hs : cfg.InWindow (edgeAt y a1 b1) y) (he : cfg.InWindow (edgeAt y a2 b2) y) {p : Pixel K} :
    p ∈ Device.rowPixels cfg a1 b1 a2 b2 color y ↔
      ∃ i : ℕ, (i : K) ≤ |edgeAt y a2 b2 - edgeAt y a1 b1| ∧
        p = ⟨edgeAt y a1 b1 + toward (edgeAt y a1 b1) (edgeAt y a2 b2) * i, y, color⟩ := by
  simp only [Device.rowPixels, clippedPixels, List.mem_map, List.mem_filter, decide_eq_true_eq,
    mem_linePoints_row]
  constructor
  · intro h
    obtain ⟨r, ⟨⟨i, hi, hr⟩, -⟩, hp⟩ := h
    exact ⟨i, hi, by rw [← hp, hr]⟩
  · intro h
    obtain ⟨i, hi, hp⟩ := h
    exact ⟨_, ⟨⟨i, hi, rfl⟩, inWindow_of_step hs he hi⟩, hp.symm⟩

section Fill

variable {W H : ℕ} (hW : W < 2 ^ 31) (hH : H < 2 ^ 31) {m : LuaM K Unit} {top bot : ℕ}
  {a1 b1 a2 b2 : Vector2 K} {color : Value K}
  (hrows : Appends World.pixels m () ((forValues (top : K) bot).flatMap
    (Device.rowPixels (⟨W, H⟩ : Config K) a1 b1 a2 b2 color)))
  (hin : ∀ n : ℕ, top ≤ n → n ≤ bot → (⟨W, H⟩ : Config K).InWindow (edgeAt n a1 b1) n ∧
    (⟨W, H⟩ : Config K).InWindow (edgeAt n a2 b2) n)

include hW hH hrows hin

theorem mem_paintedColumns_iff {x y : ℤ} :
    x ∈ paintedColumns (⟨W, H⟩ : Config K).screen m y ↔
      ∃ n : ℕ, (n : ℤ) = y ∧ top ≤ n ∧ n ≤ bot ∧
        x ∈ rowColumns (edgeAt (n : K) a1 b1) (edgeAt (n : K) a2 b2) := by
  have hpixels : (m (.initial K)).2.pixels =
      (forValues (top : K) bot).flatMap
        (Device.rowPixels (⟨W, H⟩ : Config K) a1 b1 a2 b2 color) := by
    rw [(hrows.run _).2]
    rfl
  simp only [paintedColumns, hpixels, List.mem_flatMap, mem_forValues, Set.mem_ofPred_eq]
  constructor
  · intro ⟨p, ⟨y', ⟨k, hy', hbot⟩, hp⟩, hon, hx, hy⟩
    obtain rfl : y' = ((top + k : ℕ) : K) := by
      rw [hy']
      push_cast
      rfl
    have hle : top + k ≤ bot := by exact_mod_cast hbot
    obtain ⟨hs, he⟩ := hin (top + k) (Nat.le_add_right top k) hle
    obtain ⟨i, hi, rfl⟩ := (mem_rowPixels hs he).mp hp
    obtain ⟨-, hcx, hcy⟩ := inWindow_cell hW hH (inWindow_of_step hs he hi) color
    refine ⟨top + k, ?_, Nat.le_add_right top k, hle, i, hi, ?_⟩
    · rw [← hy, hcy, Int.floor_natCast]
    · rw [← hx, hcx]
  · intro ⟨n, hy, htop, hbot, i, hi, hx⟩
    obtain ⟨hs, he⟩ := hin n htop hbot
    obtain ⟨hon, hcx, hcy⟩ := inWindow_cell hW hH (inWindow_of_step hs he hi) color
    refine ⟨_, ⟨n, ⟨n - top, ?_, by exact_mod_cast hbot⟩, (mem_rowPixels hs he).mpr ⟨i, hi, rfl⟩⟩,
      hon, hcx.trans hx, ?_⟩
    · rw [Nat.cast_sub htop, add_sub_cancel]
    · rw [hcy, Int.floor_natCast, hy]

theorem paintedColumns_eq_rowColumns {n : ℕ} (htop : top ≤ n) (hbot : n ≤ bot) :
    paintedColumns (⟨W, H⟩ : Config K).screen m n =
      rowColumns (edgeAt (n : K) a1 b1) (edgeAt (n : K) a2 b2) := by
  ext x
  rw [mem_paintedColumns_iff hW hH hrows hin]
  constructor
  · intro ⟨n', hn, _, _, hx⟩
    obtain rfl : n' = n := by exact_mod_cast hn
    exact hx
  · intro hx
    exact ⟨n, rfl, htop, hbot, hx⟩

theorem fillsRows_iff_fract :
    FillsRows (⟨W, H⟩ : Config K).screen m top bot (fun y => edgeAt y a1 b1)
        (fun y => edgeAt y a2 b2) ↔
      ∀ n : ℕ, top ≤ n → n ≤ bot →
        Int.fract (min (edgeAt (n : K) a1 b1) (edgeAt (n : K) a2 b2)) ≤
          Int.fract (max (edgeAt (n : K) a1 b1) (edgeAt (n : K) a2 b2)) := by
  constructor
  · intro hfills n htop hbot
    have hrow := hfills.row n ⟨by exact_mod_cast htop, by exact_mod_cast hbot⟩
    simp only [paintedColumns_eq_rowColumns hW hH hrows hin htop hbot, Int.cast_natCast] at hrow
    exact (rowColumns_eq_iff _ _).mp hrow
  · intro hfract
    constructor
    · intro y ⟨htop, hbot⟩
      lift y to ℕ using by omega
      have htop' : top ≤ y := by exact_mod_cast htop
      have hbot' : y ≤ bot := by exact_mod_cast hbot
      simp only [paintedColumns_eq_rowColumns hW hH hrows hin htop' hbot', Int.cast_natCast]
      exact (rowColumns_eq_iff _ _).mpr (hfract y htop' hbot')
    · intro y hy
      rw [Set.eq_empty_iff_forall_notMem]
      intro x hx
      obtain ⟨n, rfl, htop, hbot, -⟩ := (mem_paintedColumns_iff hW hH hrows hin).mp hx
      exact hy ⟨by exact_mod_cast htop, by exact_mod_cast hbot⟩

end Fill

def gridPoint (x y : ℕ) : Vector2 K := ⟨x, y⟩

variable (top : ℕ) {x x' x1 x2 x1' x2' h k : ℕ}

omit [LinearOrder K] [FloorRing K] [IsStrictOrderedRing K] in
theorem edgeAt_natCast [CharZero K] :
    edgeAt ((top + k : ℕ) : K) (gridPoint x top) (gridPoint x' (top + h)) =
      k * ((x' - x : ℤ) : K) / h + 1 / 2 + x := by
  have hhalf : (0.5 : K) = 1 / 2 := by norm_num
  simp only [edgeAt, gridPoint, hhalf]
  push_cast
  rw [add_sub_cancel_left, add_sub_cancel_left]
  ring

omit [FloorRing K] in
theorem edgeAt_mono (hk : k ≤ h) (hx : x1 ≤ x2) (hx' : x1' ≤ x2') :
    edgeAt ((top + k : ℕ) : K) (gridPoint x1 top) (gridPoint x1' (top + h)) ≤
      edgeAt ((top + k : ℕ) : K) (gridPoint x2 top) (gridPoint x2' (top + h)) := by
  have ht0 : (0 : K) ≤ k / h := by positivity
  have ht1 : (k : K) / h ≤ 1 := div_le_one_of_le₀ (by exact_mod_cast hk) h.cast_nonneg
  have hstart : (1 - (k : K) / h) * x1 ≤ (1 - (k : K) / h) * x2 :=
    mul_le_mul_of_nonneg_left (by exact_mod_cast hx) (sub_nonneg.mpr ht1)
  have hend : (k : K) / h * x1' ≤ (k : K) / h * x2' :=
    mul_le_mul_of_nonneg_left (by exact_mod_cast hx') ht0
  have hsplit (u v : ℕ) : (k : K) * ((v - u : ℤ) : K) / h + 1 / 2 + u =
      (1 - (k : K) / h) * u + (k : K) / h * v + 1 / 2 := by
    push_cast
    ring
  rw [edgeAt_natCast, edgeAt_natCast, hsplit, hsplit]
  linarith

omit [FloorRing K] in
theorem inWindow_edgeAt {W H : ℕ} (hk : k ≤ h) (hx : x < W) (hx' : x' < W) (hbot : top + h < H) :
    (⟨W, H⟩ : Config K).InWindow
      (edgeAt ((top + k : ℕ) : K) (gridPoint x top) (gridPoint x' (top + h)))
      ((top + k : ℕ) : K) := by
  have hconst (u : ℕ) : edgeAt ((top + k : ℕ) : K) (gridPoint u top)
      (gridPoint u (top + h)) = 1 / 2 + u := by
    rw [edgeAt_natCast]
    simp
  have hlow := edgeAt_mono (K := K) top hk x.zero_le x'.zero_le
  have hhigh := edgeAt_mono (K := K) top hk (Nat.le_pred_of_lt hx) (Nat.le_pred_of_lt hx')
  have hW : ((W.pred : ℕ) : K) + 1 = W := by exact_mod_cast Nat.succ_pred_eq_of_pos (by omega)
  have hlt : top + k < H := by omega
  rw [hconst] at hlow hhigh
  refine ⟨?_, ?_, Nat.cast_nonneg _, Nat.cast_lt.mpr hlt⟩
  · push_cast at hlow ⊢
    linarith
  · show _ < (W : K)
    linarith

theorem fract_edges_iff (hh : h ≠ 0) (hx : x1 ≤ x2) (hx' : x1' ≤ x2') :
    (∀ n : ℕ, top ≤ n → n ≤ top + h →
      Int.fract (min (edgeAt (n : K) (gridPoint x1 top) (gridPoint x1' (top + h)))
          (edgeAt (n : K) (gridPoint x2 top) (gridPoint x2' (top + h)))) ≤
        Int.fract (max (edgeAt (n : K) (gridPoint x1 top) (gridPoint x1' (top + h)))
          (edgeAt (n : K) (gridPoint x2 top) (gridPoint x2' (top + h))))) ↔
      (h : ℤ) ∣ (x2' - x2 : ℤ) - (x1' - x1) ∨
        (h : ℤ) ∣ (x2' - x2 : ℤ) ∧ ∃ m : ℤ, 2 * (x1' - x1 : ℤ) = (2 * m + 1) * h := by
  rw [← fract_le_fract_iff (K := K) hh]
  constructor
  · intro hall k hk
    have hrow := hall (top + k) (Nat.le_add_right top k) (Nat.add_le_add_left hk top)
    have hle := edgeAt_mono (K := K) top hk hx hx'
    rw [min_eq_left hle, max_eq_right hle, edgeAt_natCast, edgeAt_natCast,
      Int.fract_add_natCast, Int.fract_add_natCast] at hrow
    exact hrow
  · intro hall n htop hbot
    obtain ⟨k, rfl⟩ := Nat.exists_eq_add_of_le htop
    have hk : k ≤ h := by omega
    have hle := edgeAt_mono (K := K) top hk hx hx'
    rw [min_eq_left hle, max_eq_right hle, edgeAt_natCast, edgeAt_natCast,
      Int.fract_add_natCast, Int.fract_add_natCast]
    exact hall k hk

/-- The condition on an apex above the flat side, read from an apex below it. -/
theorem edgesInStep_reverse {height apex left right : ℤ} :
    height ∣ (apex - right) - (apex - left) ∨
        height ∣ apex - right ∧ (∃ m : ℤ, 2 * (apex - left) = (2 * m + 1) * height) ↔
      EdgesInStep height apex left right := by
  have hodd : (∃ m : ℤ, 2 * (apex - left) = (2 * m + 1) * height) ↔
      ∃ m : ℤ, 2 * (left - apex) = (2 * m + 1) * height := by
    constructor
    · intro ⟨m, hm⟩
      exact ⟨-m - 1, by linear_combination -hm⟩
    · intro ⟨m, hm⟩
      exact ⟨-m - 1, by linear_combination -hm⟩
  rw [EdgesInStep, sub_sub_sub_cancel_left, hodd, dvd_sub_comm, dvd_sub_comm (b := apex)]

section Triangles

variable {W H : ℕ} (hW : W < 2 ^ 31) (hH : H < 2 ^ 31)

include hW hH

theorem fillsRows_edges_iff {m : LuaM K Unit} {color : Value K} (h1 : x1 < W) (h1' : x1' < W)
    (h2 : x2 < W) (h2' : x2' < W) (hbot : top + h < H)
    (hrows : Appends World.pixels m () ((forValues (top : K) (top + h : ℕ)).flatMap
      (Device.rowPixels (⟨W, H⟩ : Config K) (gridPoint x1 top) (gridPoint x1' (top + h))
        (gridPoint x2 top) (gridPoint x2' (top + h)) color))) :
    FillsRows (⟨W, H⟩ : Config K).screen m top (top + h : ℕ)
        (fun y => edgeAt y (gridPoint x1 top) (gridPoint x1' (top + h)))
        (fun y => edgeAt y (gridPoint x2 top) (gridPoint x2' (top + h))) ↔
      ∀ n : ℕ, top ≤ n → n ≤ top + h →
        Int.fract (min (edgeAt (n : K) (gridPoint x1 top) (gridPoint x1' (top + h)))
            (edgeAt (n : K) (gridPoint x2 top) (gridPoint x2' (top + h)))) ≤
          Int.fract (max (edgeAt (n : K) (gridPoint x1 top) (gridPoint x1' (top + h)))
            (edgeAt (n : K) (gridPoint x2 top) (gridPoint x2' (top + h)))) := by
  refine fillsRows_iff_fract hW hH hrows fun n htop hn => ?_
  obtain ⟨k, rfl⟩ := Nat.exists_eq_add_of_le htop
  have hk : k ≤ h := by omega
  exact ⟨inWindow_edgeAt top hk h1 h1' hbot, inWindow_edgeAt top hk h2 h2' hbot⟩

namespace Device

variable (self : Device K) (color : Value K) {xa ya xb yb xc yc : ℕ}

theorem drawTriangleBottom_fillsRows_iff (ha : xa < W) (hb : xb < W) (hc : xc < W) (hy : ya < yb)
    (hyb : yb < H) :
    FillsRows (⟨W, H⟩ : Config K).screen
        (self.drawTriangleBottom (⟨W, H⟩ : Config K) (gridPoint xa ya) (gridPoint xb yb)
          (gridPoint xc yb) color)
        ya yb (fun y => edgeAt y (gridPoint xa ya) (gridPoint xb yb))
        (fun y => edgeAt y (gridPoint xa ya) (gridPoint xc yb)) ↔
      EdgesInStep (yb - ya) xa (min xb xc : ℕ) (max xb xc : ℕ) := by
  obtain ⟨h, rfl⟩ := Nat.exists_eq_add_of_le hy.le
  have hh : h ≠ 0 := by omega
  have hheight : ((ya + h : ℕ) : ℤ) - ya = h := by omega
  have hrows := DeviceCall.run_appends (⟨W, H⟩ : Config K) self
    (.drawTriangleBottom (gridPoint xa ya) (gridPoint xb (ya + h)) (gridPoint xc (ya + h)) color)
  refine (fillsRows_edges_iff ya hW hH ha hb ha hc hyb hrows).trans ?_
  rw [hheight, EdgesInStep]
  rcases le_total xb xc with hle | hle
  · rw [fract_edges_iff ya hh le_rfl hle, min_eq_left hle, max_eq_right hle,
      sub_sub_sub_cancel_right]
  · simp only [min_comm (edgeAt _ _ (gridPoint xb _)), max_comm (edgeAt _ _ (gridPoint xb _))]
    rw [fract_edges_iff ya hh le_rfl hle, min_eq_right hle, max_eq_left hle,
      sub_sub_sub_cancel_right]

theorem drawTriangleTop_fillsRows_iff (ha : xa < W) (hb : xb < W) (hc : xc < W) (hy : ya < yc)
    (hyc : yc < H) :
    FillsRows (⟨W, H⟩ : Config K).screen
        (self.drawTriangleTop (⟨W, H⟩ : Config K) (gridPoint xa ya) (gridPoint xb ya)
          (gridPoint xc yc) color)
        ya yc (fun y => edgeAt y (gridPoint xa ya) (gridPoint xc yc))
        (fun y => edgeAt y (gridPoint xb ya) (gridPoint xc yc)) ↔
      EdgesInStep (yc - ya) xc (min xa xb : ℕ) (max xa xb : ℕ) := by
  obtain ⟨h, rfl⟩ := Nat.exists_eq_add_of_le hy.le
  have hh : h ≠ 0 := by omega
  have hheight : ((ya + h : ℕ) : ℤ) - ya = h := by omega
  have hrows := DeviceCall.run_appends (⟨W, H⟩ : Config K) self
    (.drawTriangleTop (gridPoint xa ya) (gridPoint xb ya) (gridPoint xc (ya + h)) color)
  refine (fillsRows_edges_iff ya hW hH ha hc hb hc hyc hrows).trans ?_
  rw [hheight, ← edgesInStep_reverse]
  rcases le_total xa xb with hle | hle
  · rw [fract_edges_iff ya hh hle le_rfl, min_eq_left hle, max_eq_right hle]
  · simp only [min_comm (edgeAt _ (gridPoint xa _) _), max_comm (edgeAt _ (gridPoint xa _) _)]
    rw [fract_edges_iff ya hh hle le_rfl, min_eq_right hle, max_eq_left hle]

/-- A flat triangle with integer vertices in the window is filled up to both edges exactly when its
edges climb side by side. -/
theorem flatTriangles_fillRows_iff (ha : xa < W ∧ ya < H) (hb : xb < W ∧ yb < H)
    (hc : xc < W ∧ yc < H) :
    (yb = yc → ya < yb →
      (FillsRows (⟨W, H⟩ : Config K).screen
          (self.drawTriangleBottom (⟨W, H⟩ : Config K) (gridPoint xa ya) (gridPoint xb yb)
            (gridPoint xc yc) color)
          ya yb (fun y => edgeAt y (gridPoint xa ya) (gridPoint xb yb))
          (fun y => edgeAt y (gridPoint xa ya) (gridPoint xc yc)) ↔
        EdgesInStep (yb - ya) xa (min xb xc : ℕ) (max xb xc : ℕ))) ∧
    (ya = yb → yb < yc →
      (FillsRows (⟨W, H⟩ : Config K).screen
          (self.drawTriangleTop (⟨W, H⟩ : Config K) (gridPoint xa ya) (gridPoint xb yb)
            (gridPoint xc yc) color)
          ya yc (fun y => edgeAt y (gridPoint xa ya) (gridPoint xc yc))
          (fun y => edgeAt y (gridPoint xb yb) (gridPoint xc yc)) ↔
        EdgesInStep (yc - ya) xc (min xa xb : ℕ) (max xa xb : ℕ))) := by
  constructor
  · intro heq hy
    subst heq
    exact drawTriangleBottom_fillsRows_iff hW hH self color ha.1 hb.1 hc.1 hy hb.2
  · intro heq hy
    subst heq
    exact drawTriangleTop_fillsRows_iff hW hH self color ha.1 hb.1 hc.1 hy hc.2

end Device
end Triangles

namespace Device

theorem flatTriangles_fillRows_square :
    FillsRows (⟨(800 : ℕ), (600 : ℕ)⟩ : Config ℚ).screen
      ((Device.new 800 600).drawTriangleBottom (⟨(800 : ℕ), (600 : ℕ)⟩ : Config ℚ) (gridPoint 0 0)
        (gridPoint 0 2) (gridPoint 2 2) .nil)
      (0 : ℕ) (2 : ℕ) (fun y => edgeAt y (gridPoint 0 0) (gridPoint 0 2))
      (fun y => edgeAt y (gridPoint 0 0) (gridPoint 2 2)) :=
  ((flatTriangles_fillRows_iff (by norm_num) (by norm_num) (Device.new 800 600) .nil
    ⟨by norm_num, by norm_num⟩ ⟨by norm_num, by norm_num⟩ ⟨by norm_num, by norm_num⟩).1
      rfl (by norm_num)).mpr (.inl (by norm_num))

/-- A triangle of height two and width one, whose second row stops short of its last column. -/
theorem not_fillsRows :
    ¬ ∀ W H xa ya xb yb xc yc : ℕ, W < 2 ^ 31 → H < 2 ^ 31 → xa < W ∧ ya < H → xb < W ∧ yb < H →
      xc < W ∧ yc < H → yb = yc → ya < yb →
      FillsRows (⟨W, H⟩ : Config ℚ).screen
        ((Device.new 800 600).drawTriangleBottom (⟨W, H⟩ : Config ℚ) (gridPoint xa ya)
          (gridPoint xb yb) (gridPoint xc yc) .nil)
        ya yb (fun y => edgeAt y (gridPoint xa ya) (gridPoint xb yb))
        (fun y => edgeAt y (gridPoint xa ya) (gridPoint xc yc)) := by
  intro h
  have hfills := h 800 600 0 0 0 2 1 2 (by norm_num) (by norm_num) (by norm_num) (by norm_num)
    (by norm_num) rfl (by norm_num)
  rw [drawTriangleBottom_fillsRows_iff (by norm_num) (by norm_num) _ _ (by norm_num) (by norm_num)
    (by norm_num) (by norm_num) (by norm_num)] at hfills
  obtain hdvd | ⟨-, m, hm⟩ := hfills
  · revert hdvd
    decide
  · norm_num at hm
    omega

end Device
end Rows
end SoftRenderer
