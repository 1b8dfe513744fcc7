import SoftRenderer.Divisors
import SoftRenderer.FlatFill

/-!
# The box of a filled triangle

The rows of a flat triangle run between its edges, moved by one half. `drawTriangle` moves its
dividing point by one half before that, so its pixels stay in the box of its points, at least one
half and at most one to the right.
-/

namespace SoftRenderer

open Kit Kit.Procedure

structure Box (K : Type) where
  left : K
  right : K
  top : K
  bottom : K

variable {K : Type} [Field K] [LinearOrder K]

def Box.Contains (box : Box K) (p : Vector2 K) : Prop :=
  (box.left ≤ p.x ∧ p.x ≤ box.right) ∧ box.top ≤ p.y ∧ p.y ≤ box.bottom

/-- The box with more room on its right side. -/
def Box.widen (box : Box K) (d : K) : Box K := { box with right := box.right + d }

/-- Where the pixels of a flat triangle in the box are. -/
def Box.Paints (box : Box K) (cfg : Config K) (p : Pixel K) : Prop :=
  cfg.InWindow p.x p.y ∧ (box.left + 0.5 ≤ p.x ∧ p.x ≤ box.right + 0.5) ∧
    box.top ≤ p.y ∧ p.y ≤ box.bottom

variable [IsStrictOrderedRing K]

theorem edgeAt_between {box : Box K} {a b : Vector2 K} (ha : box.Contains a)
    (hb : box.Contains b) {y : K} (hay : a.y ≤ y) (hyb : y ≤ b.y) (hab : a.y ≠ b.y) :
    box.left + 0.5 ≤ edgeAt y a b ∧ edgeAt y a b ≤ box.right + 0.5 := by
  have hpos : 0 < b.y - a.y := sub_pos.mpr ((hay.trans hyb).lt_of_ne hab)
  have hedge : edgeAt y a b = (a.x * (b.y - y) + b.x * (y - a.y)) / (b.y - a.y) + 0.5 := by
    rw [edgeAt]
    field_simp
    ring
  rw [hedge]
  obtain ⟨⟨hal, har⟩, -⟩ := ha
  obtain ⟨⟨hbl, hbr⟩, -⟩ := hb
  have hy1 : 0 ≤ b.y - y := sub_nonneg.mpr hyb
  have hy2 : 0 ≤ y - a.y := sub_nonneg.mpr hay
  constructor
  · have hleft : box.left ≤ (a.x * (b.y - y) + b.x * (y - a.y)) / (b.y - a.y) := by
      rw [le_div_iff₀ hpos]
      nlinarith
    linarith
  · have hright : (a.x * (b.y - y) + b.x * (y - a.y)) / (b.y - a.y) ≤ box.right := by
      rw [div_le_iff₀ hpos]
      nlinarith
    linarith

theorem Box.Contains.widen {box : Box K} {p : Vector2 K} (h : box.Contains p) {d : K}
    (hd : 0 ≤ d) : (box.widen d).Contains p :=
  ⟨⟨h.1.1, h.1.2.trans (le_add_of_nonneg_right hd)⟩, h.2⟩

variable [FloorRing K]

theorem rowPixels_paints {box : Box K} (cfg : Config K) {a1 b1 a2 b2 : Vector2 K} {y : K}
    (h1 : box.left + 0.5 ≤ edgeAt y a1 b1 ∧ edgeAt y a1 b1 ≤ box.right + 0.5)
    (h2 : box.left + 0.5 ≤ edgeAt y a2 b2 ∧ edgeAt y a2 b2 ≤ box.right + 0.5)
    (hy : box.top ≤ y ∧ y ≤ box.bottom) (color : Value K) :
    ∀ p ∈ Device.rowPixels cfg a1 b1 a2 b2 color y, box.Paints cfg p := by
  intro p hp
  simp only [Device.rowPixels, clippedPixels, List.mem_map, List.mem_filter, decide_eq_true_eq,
    mem_linePoints_row] at hp
  obtain ⟨r, ⟨⟨i, hi, rfl⟩, hin⟩, rfl⟩ := hp
  obtain ⟨hlow, hhigh⟩ := between_of_step hi
  exact ⟨hin, ⟨(le_min h1.1 h2.1).trans hlow, hhigh.trans (max_le h1.2 h2.2)⟩, hy⟩

section Flat

variable {box : Box K} (cfg : Config K) (self : Device K) {a b c : Vector2 K}
  (ha : box.Contains a) (hb : box.Contains b) (hc : box.Contains c) (color : Value K)

include ha hb hc

theorem drawTriangleBottom_paints (hbc : b.y = c.y) (hab : a.y ≠ b.y) :
    AppendsOnly World.pixels (box.Paints cfg) (self.drawTriangleBottom cfg a b c color) := by
  have hrun := (DeviceCall.drawTriangleBottom a b c color).run_appends cfg self
  refine hrun.appendsOnly_iff.mpr fun p hp => ?_
  obtain ⟨y, hy, hp⟩ := List.mem_flatMap.mp hp
  obtain ⟨n, rfl, hle⟩ := mem_forValues.mp hy
  have hge : a.y ≤ a.y + n := le_add_of_nonneg_right n.cast_nonneg
  exact rowPixels_paints cfg (edgeAt_between ha hb hge hle hab)
    (edgeAt_between ha hc hge (hbc ▸ hle) (hbc ▸ hab))
    ⟨ha.2.1.trans hge, hle.trans hb.2.2⟩ color p hp

theorem drawTriangleTop_paints (hab : a.y = b.y) (hac : a.y ≠ c.y) :
    AppendsOnly World.pixels (box.Paints cfg) (self.drawTriangleTop cfg a b c color) := by
  have hrun := (DeviceCall.drawTriangleTop a b c color).run_appends cfg self
  refine hrun.appendsOnly_iff.mpr fun p hp => ?_
  obtain ⟨y, hy, hp⟩ := List.mem_flatMap.mp hp
  obtain ⟨n, rfl, hle⟩ := mem_forValues.mp hy
  have hge : a.y ≤ a.y + n := le_add_of_nonneg_right n.cast_nonneg
  exact rowPixels_paints cfg (edgeAt_between ha hc hge hle hac)
    (edgeAt_between hb hc (hab ▸ hge) hle (hab ▸ hac))
    ⟨ha.2.1.trans hge, hle.trans hc.2.2⟩ color p hp

end Flat

omit [Field K] [IsStrictOrderedRing K] [FloorRing K] in
/-- The first case exchanges two heights, which does not leave the box. -/
theorem orderedPoints_contains {box : Box K} {pa pb pc top mid bot : Vector2 K}
    (ha : box.Contains pa) (hb : box.Contains pb) (hc : box.Contains pc)
    (h : orderedPoints pa pb pc = some (top, mid, bot)) :
    box.Contains top ∧ box.Contains mid ∧ box.Contains bot := by
  unfold orderedPoints at h
  split_ifs at h <;> cases h
  · exact ⟨ha, ⟨hb.1, hc.2⟩, hb⟩
  · exact ⟨ha, hc, hb⟩
  · exact ⟨hb, ha, hc⟩
  · exact ⟨hb, hc, ha⟩
  · exact ⟨hc, ha, hb⟩
  · exact ⟨hc, hb, ha⟩

omit [LinearOrder K] [IsStrictOrderedRing K] [FloorRing K] in
theorem divide_bind_appendsOnly {P : Pixel K → Prop} {a b : K} {k : K → LuaM K Unit}
    (h : AppendsOnly World.pixels P (k (a / b))) : AppendsOnly World.pixels P (divide a b >>= k) :=
  fun _ => h _

/-- All pixels of a triangle with at least two heights are in the window, at the heights of its
points, and by one half to one to the right of their columns. -/
theorem drawTriangle_paints {box : Box K} (cfg : Config K) (self : Device K) {pa pb pc : Vector2 K}
    (ha : box.Contains pa) (hb : box.Contains pb) (hc : box.Contains pc)
    (hflat : ¬ (pa.y = pb.y ∧ pb.y = pc.y)) (color : Value K) :
    AppendsOnly World.pixels ((box.widen 0.5).Paints cfg)
      (self.drawTriangle cfg pa pb pc color) := by
  have hhalf : (0 : K) ≤ 0.5 := by norm_num
  have ha' := ha.widen hhalf
  have hb' := hb.widen hhalf
  have hc' := hc.widen hhalf
  unfold Device.drawTriangle pointCases
  split_ifs with hab h1 hac h2 hbc h3
  · exact drawTriangleBottom_paints cfg self hc' ha' hb' color hab
      fun h => hflat ⟨hab, hab.symm.trans h.symm⟩
  · exact drawTriangleTop_paints cfg self ha' hb' hc' color hab (not_le.mp h1).ne
  · exact drawTriangleBottom_paints cfg self hb' ha' hc' color hac (Ne.symm hab)
  · exact drawTriangleTop_paints cfg self ha' hc' hb' color hac hab
  · exact drawTriangleBottom_paints cfg self ha' hb' hc' color hbc hab
  · exact drawTriangleTop_paints cfg self hb' hc' ha' color hbc (Ne.symm hab)
  · obtain ⟨top, mid, bot, hordered, htm, hmb, -⟩ := Device.orderedPoints_of_ne hab hac hbc
    obtain ⟨htop, hmid, hbot⟩ := orderedPoints_contains ha hb hc hordered
    have hslope : (mid.y - top.y) * (top.x - top.x) / (bot.y - top.y) = 0 := by
      rw [sub_self, mul_zero, zero_div]
    have hxl : (box.widen 0.5).Contains ⟨0 + top.x + 0.5, mid.y⟩ := by
      obtain ⟨⟨hleft, hright⟩, -⟩ := htop
      refine ⟨⟨?_, ?_⟩, hmid.2⟩
      · show box.left ≤ 0 + top.x + 0.5
        linarith
      · show 0 + top.x + 0.5 ≤ box.right + 0.5
        linarith
    simp only [hordered]
    apply divide_bind_appendsOnly
    rw [hslope]
    split_ifs
    · exact (drawTriangleBottom_paints cfg self (htop.widen hhalf) hxl (hmid.widen hhalf) color rfl
        htm).bind fun _ =>
          drawTriangleTop_paints cfg self hxl (hmid.widen hhalf) (hbot.widen hhalf) color rfl hmb
    · exact (drawTriangleBottom_paints cfg self (htop.widen hhalf) (hmid.widen hhalf) hxl color rfl
        htm).bind fun _ =>
          drawTriangleTop_paints cfg self (hmid.widen hhalf) hxl (hbot.widen hhalf) color rfl hmb

theorem drawTriangle_paints_source :
    AppendsOnly World.pixels (((⟨10, 30, 10, 40⟩ : Box ℚ).widen 0.5).Paints .source)
      ((Device.new 800 600).drawTriangle .source ⟨10, 40⟩ ⟨30, 20⟩ ⟨20, 10⟩ (.number 255)) :=
  drawTriangle_paints .source _ (by norm_num [Box.Contains]) (by norm_num [Box.Contains])
    (by norm_num [Box.Contains]) (by norm_num) _

end SoftRenderer
