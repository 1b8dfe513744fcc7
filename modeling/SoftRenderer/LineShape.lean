import SoftRenderer.LineReversal

/-!
# Symmetry and clipping of lines

Translations, reflections in the axes and the exchange of the axes carry the points of a line to the
points of the carried line, in order. The points inside the window are a contiguous piece of the
line, so clipping shortens a line at its ends and never breaks it.
-/

namespace SoftRenderer

open Kit Kit.Procedure

variable {K : Type} [Field K] [LinearOrder K]

/-- The maps of the plane that preserve the grid and its two axes. -/
inductive GridSymmetry : (Vector2 K → Vector2 K) → Prop
  | translate (t : Vector2 K) : GridSymmetry fun p => ⟨p.x + t.x, p.y + t.y⟩
  | mirror : GridSymmetry fun p => ⟨-p.x, p.y⟩
  | exchange : GridSymmetry fun p => ⟨p.y, p.x⟩
  | comp {σ τ : Vector2 K → Vector2 K} : GridSymmetry σ → GridSymmetry τ → GridSymmetry (σ ∘ τ)

variable [IsStrictOrderedRing K]

theorem toward_add (u v t : K) : toward (u + t) (v + t) = toward u v := by
  simp [toward]

theorem toward_neg {u v : K} (h : u ≠ v) : toward (-u) (-v) = -toward u v := by
  unfold toward
  rcases lt_or_gt_of_ne h with h | h
  · rw [if_neg (by linarith), if_pos h.le]
  · rw [if_pos (by linarith), if_neg h.not_ge, neg_neg]

variable [FloorRing K]

theorem minorSteps_eq_zero {a b : Vector2 K} (h : minorLength a b = 0) (i : ℕ) :
    minorSteps a b i = 0 := by
  rw [minorSteps_eq, h, mul_zero, zero_div, zero_add]
  split_ifs
  · rfl
  · norm_num

theorem minorSteps_eq_self {a b : Vector2 K} (h : minorLength a b = majorLength a b) {i : ℕ}
    (hi : (i : K) ≤ majorLength a b) : minorSteps a b i = i := by
  rw [minorSteps_eq, h]
  split_ifs with hzero
  · rw [hzero] at hi
    exact (Nat.cast_nonneg i).antisymm hi
  · rw [mul_div_assoc, div_self hzero, mul_one, Int.floor_natCast_add]
    norm_num

/-- A map keeps a line if it carries its points to those of the line between the carried ends. -/
structure KeepsLine (σ : Vector2 K → Vector2 K) (a b : Vector2 K) : Prop where
  length : majorLength (σ a) (σ b) = majorLength a b
  point : ∀ i : ℕ, (i : K) ≤ majorLength a b → midpointAt (σ a) (σ b) i = σ (midpointAt a b i)

theorem KeepsLine.linePoints_eq {σ : Vector2 K → Vector2 K} {a b : Vector2 K}
    (h : KeepsLine σ a b) : linePoints (σ a) (σ b) = (linePoints a b).map σ := by
  apply List.ext_getElem
  · rw [List.length_map, length_linePoints, length_linePoints, h.length]
  · intro i hi hi'
    rw [List.length_map] at hi'
    rw [List.getElem_map, getElem_linePoints_eq_midpointAt, getElem_linePoints_eq_midpointAt,
      h.point i (lt_length_linePoints.mp hi')]

section Axes

variable {a b c d : Vector2 K} (hx : |d.x - c.x| = |b.x - a.x|) (hy : |d.y - c.y| = |b.y - a.y|)

include hx hy

omit [IsStrictOrderedRing K] [FloorRing K] in
theorem xMajor_congr : XMajor c d ↔ XMajor a b := by
  rw [XMajor, XMajor, hx, hy]

omit [IsStrictOrderedRing K] [FloorRing K] in
theorem majorLength_congr : majorLength c d = majorLength a b := by
  rw [majorLength_eq_max, majorLength_eq_max, hx, hy]

omit [IsStrictOrderedRing K] in
theorem minorSteps_congr (i : ℕ) : minorSteps c d i = minorSteps a b i := by
  rw [minorSteps, minorSteps, majorLength_congr hx hy, minorLength_eq_min, minorLength_eq_min, hx,
    hy]

end Axes

theorem keepsLine_translate (t a b : Vector2 K) :
    KeepsLine (fun p => ⟨p.x + t.x, p.y + t.y⟩) a b := by
  have hx : |b.x + t.x - (a.x + t.x)| = |b.x - a.x| := by rw [add_sub_add_right_eq_sub]
  have hy : |b.y + t.y - (a.y + t.y)| = |b.y - a.y| := by rw [add_sub_add_right_eq_sub]
  have hmajor : XMajor (⟨a.x + t.x, a.y + t.y⟩ : Vector2 K) ⟨b.x + t.x, b.y + t.y⟩ ↔ XMajor a b :=
    xMajor_congr hx hy
  have hsteps (i : ℕ) : minorSteps (⟨a.x + t.x, a.y + t.y⟩ : Vector2 K) ⟨b.x + t.x, b.y + t.y⟩ i =
      minorSteps a b i := minorSteps_congr hx hy i
  refine ⟨majorLength_congr hx hy, fun i _ => ?_⟩
  simp only [midpointAt, hmajor, hsteps, toward_add]
  split_ifs
  · exact Vector2.ext (add_right_comm ..) (add_right_comm ..)
  · exact Vector2.ext (add_right_comm ..) (add_right_comm ..)

/-- A mirrored line steps the other way; a line without steps in that direction stays. -/
theorem keepsLine_mirror (a b : Vector2 K) : KeepsLine (fun p => ⟨-p.x, p.y⟩) a b := by
  have hx : |(-b.x) - (-a.x)| = |b.x - a.x| := by rw [neg_sub_neg, abs_sub_comm]
  have hmajor : XMajor (⟨-a.x, a.y⟩ : Vector2 K) ⟨-b.x, b.y⟩ ↔ XMajor a b := xMajor_congr hx rfl
  have hsteps (i : ℕ) : minorSteps (⟨-a.x, a.y⟩ : Vector2 K) ⟨-b.x, b.y⟩ i = minorSteps a b i := by
    apply minorSteps_congr hx
    rfl
  have hturn {n : K} (h : a.x = b.x → n = 0) :
      -a.x + toward (-a.x) (-b.x) * n = -(a.x + toward a.x b.x * n) := by
    by_cases hab : a.x = b.x
    · rw [h hab, mul_zero, mul_zero, add_zero, add_zero]
    · rw [toward_neg hab]
      ring
  refine ⟨majorLength_congr hx rfl, fun i hi => ?_⟩
  simp only [midpointAt, hmajor, hsteps]
  split_ifs with h
  · refine Vector2.ext (hturn fun hab => ?_) rfl
    have hpos : |b.y - a.y| < |b.x - a.x| := h
    rw [hab, sub_self, abs_zero] at hpos
    exact absurd hpos (abs_nonneg _).not_gt
  · refine Vector2.ext (hturn fun hab => ?_) rfl
    apply minorSteps_eq_zero
    rw [minorLength, if_neg h, hab, sub_self, abs_zero]

/-- Where the two lengths differ the axes change their roles, and where they are equal both
coordinates take every step. -/
theorem keepsLine_exchange (a b : Vector2 K) : KeepsLine (fun p => ⟨p.y, p.x⟩) a b := by
  have hlength : majorLength (⟨a.y, a.x⟩ : Vector2 K) ⟨b.y, b.x⟩ = majorLength a b := by
    rw [majorLength_eq_max, majorLength_eq_max, max_comm]
  have hminor : minorLength (⟨a.y, a.x⟩ : Vector2 K) ⟨b.y, b.x⟩ = minorLength a b := by
    rw [minorLength_eq_min, minorLength_eq_min, min_comm]
  have hsteps (i : ℕ) : minorSteps (⟨a.y, a.x⟩ : Vector2 K) ⟨b.y, b.x⟩ i = minorSteps a b i := by
    rw [minorSteps, minorSteps, hlength, hminor]
  have hmajor : XMajor (⟨a.y, a.x⟩ : Vector2 K) ⟨b.y, b.x⟩ ↔ |b.x - a.x| < |b.y - a.y| := Iff.rfl
  refine ⟨hlength, fun i hi => ?_⟩
  rcases lt_trichotomy |b.x - a.x| |b.y - a.y| with hlt | heq | hgt
  · have h : ¬ XMajor a b := hlt.not_gt
    simp only [midpointAt, hsteps, if_pos (hmajor.mpr hlt), if_neg h]
  · have h : ¬ XMajor a b := heq.not_gt
    have hself : minorSteps a b i = i :=
      minorSteps_eq_self (by rw [minorLength, majorLength, if_neg h, if_neg h, heq]) hi
    simp only [midpointAt, hsteps, if_neg (mt hmajor.mp heq.not_lt), if_neg h, hself]
  · have h : XMajor a b := hgt
    simp only [midpointAt, hsteps, if_neg (mt hmajor.mp hgt.not_gt), if_pos h]

theorem GridSymmetry.keepsLine {σ : Vector2 K → Vector2 K} (hσ : GridSymmetry σ)
    (a b : Vector2 K) : KeepsLine σ a b := by
  induction hσ generalizing a b with
  | translate t => exact keepsLine_translate t a b
  | mirror => exact keepsLine_mirror a b
  | exchange => exact keepsLine_exchange a b
  | @comp σ τ _ _ ihσ ihτ =>
      have hlength := (ihτ a b).length
      refine ⟨(ihσ _ _).length.trans hlength, fun i hi => ?_⟩
      rw [Function.comp_apply, Function.comp_apply, (ihσ _ _).point i (hlength ▸ hi),
        (ihτ a b).point i hi]
      rfl

/-- `drawLine` visits the carried points between carried ends, in the same order. -/
theorem drawLine_gridSymmetry (cfg : Config K) (self : Device K) {σ : Vector2 K → Vector2 K}
    (hσ : GridSymmetry σ) (a b : Vector2 K) (color : Value K) (world : World K) :
    self.drawLine cfg (σ a) (σ b) color world =
      (.ok (), { world with
        pixels := world.pixels ++ clippedPixels cfg color ((linePoints a b).map σ) }) := by
  rw [drawLine_apply, (hσ.keepsLine a b).linePoints_eq]

theorem drawLine_gridSymmetry_mirror :
    (Device.new 800 600).drawLine .source ⟨-3 + 10, 2 + 0⟩ ⟨-8 + 10, 4 + 0⟩ (.number 5)
        (.initial ℚ) =
      (.ok (), { World.initial ℚ with
        pixels := (World.initial ℚ).pixels ++ clippedPixels .source (.number 5)
          ((linePoints ⟨3, 2⟩ ⟨8, 4⟩).map fun p => ⟨-p.x + 10, p.y + 0⟩) }) :=
  drawLine_gridSymmetry .source _ (.comp (.translate ⟨10, 0⟩) .mirror) ⟨3, 2⟩ ⟨8, 4⟩ _ _

theorem filter_isPrefix {α : Type} (p : α → Bool) (l : List α)
    (h : ∀ j k (hjk : j ≤ k) (hk : k < l.length), p l[k] = true → p l[j] = true) :
    l.filter p <+: l := by
  induction l with
  | nil => exact List.nil_prefix
  | cons x l ih =>
      by_cases hx : p x = true
      · rw [List.filter_cons_of_pos hx]
        refine (List.prefix_cons_inj x).mpr (ih fun j k hjk hk hpk => ?_)
        exact h (j + 1) (k + 1) (by omega) (by simpa using hk) hpk
      · have hnone : l.filter p = [] := by
          rw [List.filter_eq_nil_iff]
          intro y hy hpy
          obtain ⟨k, hk, rfl⟩ := List.getElem_of_mem hy
          exact hx (h 0 (k + 1) (by omega) (by simpa using hk) hpy)
        rw [List.filter_cons_of_neg hx, hnone]
        exact List.nil_prefix

/-- If whatever lies between two chosen elements of a list is chosen, then the choice is a
contiguous piece of it. -/
theorem filter_isInfix {α : Type} (p : α → Bool) (l : List α)
    (h : ∀ i j k (hij : i ≤ j) (hjk : j ≤ k) (hk : k < l.length),
      p l[i] = true → p l[k] = true → p l[j] = true) : l.filter p <:+: l := by
  induction l with
  | nil => exact List.nil_infix
  | cons x l ih =>
      by_cases hx : p x = true
      · rw [List.filter_cons_of_pos hx]
        apply List.IsPrefix.isInfix
        refine (List.prefix_cons_inj x).mpr (filter_isPrefix p l fun j k hjk hk hpk => ?_)
        exact h 0 (j + 1) (k + 1) (by omega) (by omega) (by simpa using hk) hx hpk
      · rw [List.filter_cons_of_neg hx]
        refine List.infix_cons (ih fun i j k hij hjk hk hpi hpk => ?_)
        exact h (i + 1) (j + 1) (k + 1) (by omega) (by omega) (by simpa using hk) hpi hpk

section Convex

variable {a b : Vector2 K} {i j k : ℕ}

theorem minorSteps_mono (a b : Vector2 K) : Monotone (minorSteps a b) := by
  intro i j hij
  rw [minorSteps_eq, minorSteps_eq]
  split_ifs with h
  · exact le_rfl
  · have hd := minorLength_nonneg a b
    have hD := majorLength_nonneg a b
    have hi : (i : K) ≤ j := Nat.cast_le.mpr hij
    gcongr

omit [FloorRing K] in
theorem toward_mul_mem_uIcc {f : ℕ → K} (hf : Monotone f) (hij : i ≤ j) (hjk : j ≤ k) (u v t : K) :
    t + toward u v * f j ∈ Set.uIcc (t + toward u v * f i) (t + toward u v * f k) := by
  have h1 := hf hij
  have h2 := hf hjk
  unfold toward
  split_ifs
  · exact Set.mem_uIcc_of_le (by linarith) (by linarith)
  · exact Set.mem_uIcc_of_ge (by linarith) (by linarith)

theorem midpointAt_mem_uIcc (hij : i ≤ j) (hjk : j ≤ k) :
    (midpointAt a b j).x ∈ Set.uIcc (midpointAt a b i).x (midpointAt a b k).x ∧
      (midpointAt a b j).y ∈ Set.uIcc (midpointAt a b i).y (midpointAt a b k).y := by
  have hmajor (u v t : K) := toward_mul_mem_uIcc Nat.mono_cast hij hjk u v t
  have hminor (u v t : K) := toward_mul_mem_uIcc (minorSteps_mono a b) hij hjk u v t
  unfold midpointAt
  split_ifs
  · exact ⟨hmajor .., hminor ..⟩
  · exact ⟨hminor .., hmajor ..⟩

end Convex

omit [IsStrictOrderedRing K] [FloorRing K] in
theorem mem_range_of_mem_uIcc {u v w size : K} (hv : v ∈ Set.uIcc u w) (hu : 0 ≤ u ∧ u < size)
    (hw : 0 ≤ w ∧ w < size) : 0 ≤ v ∧ v < size := by
  obtain ⟨hlow, hhigh⟩ := hv
  exact ⟨(le_min hu.1 hw.1).trans hlow, hhigh.trans_lt (max_lt hu.2 hw.2)⟩

theorem filter_inWindow_isInfix (cfg : Config K) (a b : Vector2 K) :
    ((linePoints a b).filter fun p => cfg.InWindow p.x p.y) <:+: linePoints a b := by
  apply filter_isInfix
  intro i j k hij hjk hk hi hk'
  simp only [decide_eq_true_eq, getElem_linePoints_eq_midpointAt] at hi hk' ⊢
  obtain ⟨hx, hy⟩ := midpointAt_mem_uIcc (a := a) (b := b) hij hjk
  have hxs := mem_range_of_mem_uIcc hx ⟨hi.1, hi.2.1⟩ ⟨hk'.1, hk'.2.1⟩
  have hys := mem_range_of_mem_uIcc hy ⟨hi.2.2.1, hi.2.2.2⟩ ⟨hk'.2.2.1, hk'.2.2.2⟩
  exact ⟨hxs.1, hxs.2, hys.1, hys.2⟩

/-- What `drawLine` paints is one contiguous piece of the points that it visits. -/
theorem drawLine_contiguous (cfg : Config K) (self : Device K) (a b : Vector2 K) (color : Value K)
    (world : World K) :
    ∃ piece, piece <:+: linePoints a b ∧
      (∀ p ∈ linePoints a b, p ∈ piece ↔ cfg.InWindow p.x p.y) ∧
      self.drawLine cfg a b color world =
        (.ok (), { world with
          pixels := world.pixels ++ piece.map fun p => ⟨p.x, p.y, color⟩ }) := by
  refine ⟨_, filter_inWindow_isInfix cfg a b, ?_, drawLine_apply ..⟩
  intro p hp
  simp [hp]

theorem drawLine_contiguous_source :
    ∃ piece, piece <:+: linePoints ⟨-30, 560⟩ ⟨90, 640⟩ ∧
      (∀ p ∈ linePoints ⟨-30, 560⟩ ⟨90, 640⟩, p ∈ piece ↔ Config.source.InWindow p.x p.y) ∧
      (Device.new 800 600).drawLine .source ⟨-30, 560⟩ ⟨90, 640⟩ (.number 5) (.initial ℚ) =
        (.ok (), { World.initial ℚ with
          pixels := (World.initial ℚ).pixels ++ piece.map fun p => ⟨p.x, p.y, .number 5⟩ }) :=
  drawLine_contiguous .source _ _ _ _ _

end SoftRenderer
