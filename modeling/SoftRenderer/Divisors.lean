import SoftRenderer.Fill
import SoftRenderer.Line
import SoftRenderer.TriangleInterpolation

/-!
# The divisors of the triangle routines

Both routines for triangles test their three heights before they divide by differences of them, and
both take three equal heights for a flat bottom. This is the only case in which they divide by zero
at a row of the screen.
-/

namespace SoftRenderer

open Kit Kit.Procedure

variable {K : Type} [Field K]

theorem edgeX_divisors (y : K) (a b : Vector2 K) :
    Appends World.divisors (edgeX y a b) (edgeAt y a b) [b.y - a.y] :=
  fun world => ⟨_, edgeX_apply y a b world, rfl⟩

variable [LinearOrder K] [FloorRing K]

def Config.screenRows (cfg : Config K) (a b : K) : List K :=
  (forValues a b).filter fun y => 0 ≤ y ∧ y < cfg.winHeight

namespace Device

variable (cfg : Config K) (self : Device K)

/-- `drawTriangle` with its two row loops run on the rows that `rows` selects. -/
def drawTriangleOn (rows : K → K → List K) (pa pb pc : Vector2 K) (color : Value K) :
    LuaM K Unit :=
  pointCases (fun a b c => forEach (rows a.y b.y) (self.edgeRow cfg a b a c color))
    (fun a b c => forEach (rows a.y c.y) (self.edgeRow cfg a c b c color)) pa pb pc

theorem drawTriangleOn_forValues : self.drawTriangleOn cfg forValues = self.drawTriangle cfg := rfl

theorem edgeRow_divisors (a1 b1 a2 b2 : Vector2 K) (color : Value K) (y : K) :
    Appends World.divisors (self.edgeRow cfg a1 b1 a2 b2 color y) ()
      [b1.y - a1.y, b2.y - a2.y] := by
  have hline : Appends World.divisors
      (self.drawLine cfg ⟨edgeAt y a1 b1, y⟩ ⟨edgeAt y a2 b2, y⟩ color) () [] :=
    fun world => ⟨_, drawLine_apply cfg self _ _ color world, (List.append_nil _).symm⟩
  have hrow := (edgeX_divisors y a1 b1).bind
    (k := fun xs => edgeX y a2 b2 >>= fun xe => self.drawLine cfg ⟨xs, y⟩ ⟨xe, y⟩ color)
    ((edgeX_divisors y a2 b2).bind hline)
  exact hrow

theorem forEach_edgeRow_safely_iff {rows : List K} {a1 b1 a2 b2 : Vector2 K} {color : Value K} :
    DividesSafely (forEach rows (self.edgeRow cfg a1 b1 a2 b2 color)) ↔
      (rows ≠ [] → a1.y ≠ b1.y ∧ a2.y ≠ b2.y) := by
  have hdivisors : Appends World.divisors (forEach rows (self.edgeRow cfg a1 b1 a2 b2 color)) ()
      (rows.flatMap fun _ => [b1.y - a1.y, b2.y - a2.y]) :=
    Appends.forEach fun y _ => self.edgeRow_divisors cfg a1 b1 a2 b2 color y
  rw [DividesSafely, hdivisors.appendsOnly_iff]
  simp only [List.mem_flatMap, List.mem_pair, List.ne_nil_iff_exists_cons]
  constructor
  · rintro hsafe ⟨y, rows', rfl⟩
    have h1 := hsafe (b1.y - a1.y) ⟨y, List.mem_cons_self, .inl rfl⟩
    have h2 := hsafe (b2.y - a2.y) ⟨y, List.mem_cons_self, .inr rfl⟩
    exact ⟨(sub_ne_zero.mp h1).symm, (sub_ne_zero.mp h2).symm⟩
  · rintro hedges d ⟨y, hy, hd⟩
    obtain ⟨h1, h2⟩ := hedges (List.ne_nil_iff_exists_cons.mp (List.ne_nil_of_mem hy))
    rcases hd with rfl | rfl
    · exact sub_ne_zero.mpr h1.symm
    · exact sub_ne_zero.mpr h2.symm

variable [IsStrictOrderedRing K]

omit self in
theorem screenRows_self (y : K) :
    cfg.screenRows y y = if 0 ≤ y ∧ y < cfg.winHeight then [y] else [] := by
  rw [Config.screenRows, forValues_self, List.filter_singleton]
  simp

omit [Field K] [FloorRing K] [IsStrictOrderedRing K] in
theorem orderedPoints_of_ne {pa pb pc : Vector2 K} (hab : pa.y ≠ pb.y) (hac : pa.y ≠ pc.y)
    (hbc : pb.y ≠ pc.y) :
    ∃ top mid bot, orderedPoints pa pb pc = some (top, mid, bot) ∧ top.y ≠ mid.y ∧
      mid.y ≠ bot.y ∧ top.y ≠ bot.y := by
  unfold orderedPoints
  split_ifs with h1 h2 h3 h4 h5 h6
  · exact ⟨_, _, _, rfl, hac, hbc.symm, hab⟩
  · exact ⟨_, _, _, rfl, hac, hbc.symm, hab⟩
  · exact ⟨_, _, _, rfl, hab.symm, hac, hbc⟩
  · exact ⟨_, _, _, rfl, hbc, hac.symm, hab.symm⟩
  · exact ⟨_, _, _, rfl, hac.symm, hab, hbc.symm⟩
  · exact ⟨_, _, _, rfl, hbc.symm, hab.symm, hac.symm⟩
  · rcases lt_or_gt_of_ne hab with h | h
    · rcases lt_or_gt_of_ne hbc with h' | h'
      · exact absurd ⟨h, h'⟩ h1
      · rcases lt_or_gt_of_ne hac with h'' | h''
        · exact absurd ⟨h'', h'⟩ h2
        · exact absurd ⟨h'', h⟩ h5
    · rcases lt_or_gt_of_ne hac with h' | h'
      · exact absurd ⟨h, h'⟩ h3
      · rcases lt_or_gt_of_ne hbc with h'' | h''
        · exact absurd ⟨h'', h'⟩ h4
        · exact absurd ⟨h'', h⟩ h6

omit [FloorRing K] [IsStrictOrderedRing K] in
theorem pointCases_safely {fillBottom fillTop : Vector2 K → Vector2 K → Vector2 K → LuaM K Unit}
    (hbottom : ∀ a b c : Vector2 K, a.y ≠ b.y → a.y ≠ c.y → DividesSafely (fillBottom a b c))
    (htop : ∀ a b c : Vector2 K, a.y ≠ c.y → b.y ≠ c.y → DividesSafely (fillTop a b c))
    {pa pb pc : Vector2 K} (hflat : ¬ (pa.y = pb.y ∧ pb.y = pc.y)) :
    DividesSafely (pointCases fillBottom fillTop pa pb pc) := by
  unfold pointCases
  split_ifs with hab hc hac hb hbc ha
  · exact hbottom _ _ _ (fun h => hflat ⟨hab, hab.symm.trans h.symm⟩)
      fun h => hflat ⟨hab, h.symm⟩
  · exact htop _ _ _ (not_le.mp hc).ne (hab ▸ (not_le.mp hc).ne)
  · exact hbottom _ _ _ (Ne.symm hab) (hac ▸ Ne.symm hab)
  · exact htop _ _ _ hab (hac ▸ hab)
  · exact hbottom _ _ _ hab hac
  · exact htop _ _ _ (Ne.symm hab) (Ne.symm hac)
  · obtain ⟨top, mid, bot, hordered, htm, hmb, htb⟩ := orderedPoints_of_ne hab hac hbc
    simp only [hordered]
    apply (divide_safely (sub_ne_zero.mpr htb.symm)).bind
    intro slope
    split_ifs
    · refine (hbottom _ _ _ ?_ htm).bind fun _ => htop _ _ _ ?_ hmb
      · exact htm
      · exact hmb
    · refine (hbottom _ _ _ htm ?_).bind fun _ => htop _ _ _ hmb ?_
      · exact htm
      · exact hmb

theorem drawTriangleOn_safely_iff (pa pb pc : Vector2 K) (color : Value K) :
    DividesSafely (self.drawTriangleOn cfg cfg.screenRows pa pb pc color) ↔
      ¬ ((pa.y = pb.y ∧ pb.y = pc.y) ∧ 0 ≤ pa.y ∧ pa.y < cfg.winHeight) := by
  by_cases hflat : pa.y = pb.y ∧ pb.y = pc.y
  · obtain ⟨hab, hbc⟩ := hflat
    have hrun : self.drawTriangleOn cfg cfg.screenRows pa pb pc color =
        forEach (cfg.screenRows pa.y pa.y) (self.edgeRow cfg pc pa pc pb color) := by
      rw [drawTriangleOn, pointCases, if_pos hab, if_pos (hab.trans hbc).ge, ← hbc, ← hab]
    rw [hrun, screenRows_self]
    split_ifs with hrow
    · rw [forEach_edgeRow_safely_iff]
      simp [hab, hbc, hbc ▸ hab ▸ hrow]
    · simp only [hrow, and_false, not_false_eq_true, iff_true]
      exact AppendsOnly.pure ()
  · simp only [hflat, false_and, not_false_eq_true, iff_true]
    apply pointCases_safely _ _ hflat
    · intro a b c hab hac
      exact (self.forEach_edgeRow_safely_iff cfg).mpr fun _ => ⟨hab, hac⟩
    · intro a b c hac hbc
      exact (self.forEach_edgeRow_safely_iff cfg).mpr fun _ => ⟨hac, hbc⟩

end Device

/-- The calls return, whatever they compute, and their own quotients are not counted. -/
structure RasterCalls.ReturnNormally (calls : RasterCalls K) : Prop where
  vertexoutLerp : ∀ v1 v2 t (world : World K), ∃ v world',
    calls.vertexoutLerp v1 v2 t world = (.ok v, world') ∧ world'.divisors = world.divisors
  scanlineFill : ∀ self left right yIndex (world : World K), ∃ world',
    calls.scanlineFill self left right yIndex world = (.ok (), world') ∧
      world'.divisors = world.divisors

namespace Device

variable (self : Device K)

section Calls

variable {calls : RasterCalls K} (hcalls : calls.ReturnNormally)

include hcalls

omit [LinearOrder K] [FloorRing K] in
theorem vertexoutLerp_safely (v1 v2 : VertexOut K) (t : K) :
    DividesSafely (calls.vertexoutLerp v1 v2 t) := by
  intro world
  obtain ⟨v, world', hrun, hdivisors⟩ := hcalls.vertexoutLerp v1 v2 t world
  exact ⟨v, world', [], hrun, by rw [hdivisors, List.append_nil], by simp⟩

omit [LinearOrder K] [FloorRing K] in
theorem scanlineFill_safely (left right : VertexOut K) (yIndex : K) :
    DividesSafely (calls.scanlineFill self left right yIndex) := by
  intro world
  obtain ⟨world', hrun, hdivisors⟩ := hcalls.scanlineFill self left right yIndex world
  exact ⟨(), world', [], hrun, by rw [hdivisors, List.append_nil], by simp⟩

omit [FloorRing K] in
theorem fillRow_safely (a1 b1 a2 b2 : VertexOut K) (yIndex t : K) :
    DividesSafely (do
      let new1 ← calls.vertexoutLerp a1 b1 t
      let new2 ← calls.vertexoutLerp a2 b2 t
      if new1.posProj.x < new2.posProj.x then
        calls.scanlineFill self new1 new2 yIndex
      else
        calls.scanlineFill self new2 new1 yIndex) := by
  apply (vertexoutLerp_safely hcalls a1 b1 t).bind
  intro new1
  apply (vertexoutLerp_safely hcalls a2 b2 t).bind
  intro new2
  split_ifs
  · exact scanlineFill_safely self hcalls new1 new2 yIndex
  · exact scanlineFill_safely self hcalls new2 new1 yIndex

theorem flatRows_safely {ytop ybot : K} (h : ytop ≠ ybot) (a1 b1 a2 b2 : VertexOut K) :
    DividesSafely (flatRows calls self ytop ybot a1 b1 a2 b2) := by
  apply AppendsOnly.forEach
  intro y _
  dsimp only
  split_ifs
  · apply (divide_safely (sub_ne_zero.mpr h.symm)).bind
    intro t
    exact fillRow_safely self hcalls a1 b1 a2 b2 _ t
  · exact AppendsOnly.pure ()

variable [IsStrictOrderedRing K]

/-- A single row divides by its own height, which is zero. -/
theorem flatRows_self_safely_iff (y : K) (a1 b1 a2 b2 : VertexOut K) :
    DividesSafely (flatRows calls self y y a1 b1 a2 b2) ↔
      ¬ (0 ≤ y + 0.5 ∧ y + 0.5 < self.height) := by
  have hdivide : Appends World.divisors (divide 0 (y - y)) (0 / (y - y)) [y - y] :=
    fun world => ⟨_, rfl, rfl⟩
  rw [flatRows, forValues_self, forEach_cons, forEach_nil, bind_pure_unit]
  constructor
  · intro hsafe hrow
    rw [if_pos hrow] at hsafe
    have hne := AppendsOnly.of_bind hsafe hdivide (fillRow_safely self hcalls a1 b1 a2 b2 _ _)
    exact hne (y - y) List.mem_cons_self (sub_self y)
  · intro hrow
    rw [if_neg hrow]
    exact AppendsOnly.pure ()

omit [IsStrictOrderedRing K] in
theorem draw_triangle_split_safely (a b c : VertexOut K) (h : (heights a b c).Nodup) :
    DividesSafely (self.draw_triangle calls a b (some c)) := by
  obtain ⟨top, mid, bot, hsort, -, htm, hmb⟩ := exists_sorted_three h
  obtain ⟨hab, hac, hbc⟩ := heights_nodup_iff.mp h
  have htb := (htm.trans hmb).ne
  simp only [draw_triangle, triangleCases, if_neg hab, if_neg hac, if_neg hbc, hsort]
  apply (divide_safely (sub_ne_zero.mpr htb.symm)).bind
  intro slope
  apply (divide_safely (sub_ne_zero.mpr htb.symm)).bind
  intro t
  apply (vertexoutLerp_safely hcalls top bot t).bind
  intro midNeo
  apply (flatRows_safely self hcalls hmb.ne _ _ _ _).bind
  intro _
  exact flatRows_safely self hcalls htm.ne _ _ _ _

theorem draw_triangle_safely_iff (a b c : VertexOut K) :
    DividesSafely (self.draw_triangle calls a b (some c)) ↔
      ¬ ((a.posProj.y = b.posProj.y ∧ b.posProj.y = c.posProj.y) ∧
        0 ≤ a.posProj.y + 0.5 ∧ a.posProj.y + 0.5 < self.height) := by
  by_cases hnodup : (heights a b c).Nodup
  · obtain ⟨hab, -, -⟩ := heights_nodup_iff.mp hnodup
    simp only [draw_triangle_split_safely self hcalls a b c hnodup, hab, false_and,
      not_false_eq_true]
  · obtain ⟨top, bot, a1, b1, a2, b2, htop, hbot, hrun⟩ :=
      draw_triangle_flat calls self a b c hnodup
    rw [heights, isLeast_three] at htop
    rw [heights, isGreatest_three] at hbot
    obtain ⟨htop, ha, hb, hc⟩ := htop
    obtain ⟨hbot, ha', hb', hc'⟩ := hbot
    rw [hrun]
    by_cases heq : top = bot
    · subst heq
      have hatop := le_antisymm ha' ha
      have hbtop := le_antisymm hb' hb
      have hctop := le_antisymm hc' hc
      rw [flatRows_self_safely_iff self hcalls, hatop, hbtop, hctop]
      simp
    · have hne : ¬ (a.posProj.y = b.posProj.y ∧ b.posProj.y = c.posProj.y) := by
        rintro ⟨hab, hbc⟩
        rw [hab, hbc] at htop hbot
        simp only [or_self] at htop hbot
        exact heq (htop.trans hbot.symm)
      simp only [flatRows_safely self hcalls heq, hne, false_and, not_false_eq_true]

end Calls

variable [IsStrictOrderedRing K]

/-- Each of the two routines divides safely on the screen unless its three points have one height
and the row at that height is on the screen. -/
theorem triangles_divideSafely_iff (cfg : Config K) (self : Device K) :
    (∀ pa pb pc color, DividesSafely (self.drawTriangleOn cfg cfg.screenRows pa pb pc color) ↔
      ¬ ((pa.y = pb.y ∧ pb.y = pc.y) ∧ 0 ≤ pa.y ∧ pa.y < cfg.winHeight)) ∧
    (∀ calls : RasterCalls K, calls.ReturnNormally → ∀ v1 v2 v3,
      DividesSafely (self.draw_triangle calls v1 v2 (some v3)) ↔
        ¬ ((v1.posProj.y = v2.posProj.y ∧ v2.posProj.y = v3.posProj.y) ∧
          0 ≤ v1.posProj.y + 0.5 ∧ v1.posProj.y + 0.5 < self.height)) :=
  ⟨self.drawTriangleOn_safely_iff cfg, fun _ hcalls => self.draw_triangle_safely_iff hcalls⟩

theorem triangles_divideSafely_split :
    DividesSafely (drawTriangleOn (.source : Config ℚ) (.new 800 600)
      (Config.source : Config ℚ).screenRows ⟨10, 10⟩ ⟨30, 20⟩ ⟨20, 40⟩ (.number 255)) ∧
    DividesSafely (draw_triangle (K := ℚ)
      ⟨fun v1 v2 t => pure { v1 with posProj := vector4Lerp v1.posProj v2.posProj t },
        fun _ _ _ _ => pure ()⟩ (.new 800 600)
      ⟨⟨0, 0, 0, 1⟩, ⟨10, 10, 0, 1⟩, ⟨0, 0⟩, .number 0, .vector4 ⟨0, 1, 0, 0⟩, .number 1⟩
      ⟨⟨1, 0, 0, 1⟩, ⟨30, 20, 0, 1⟩, ⟨1, 0⟩, .number 0, .vector4 ⟨0, 1, 0, 0⟩, .number 1⟩
      (some ⟨⟨0, 1, 0, 1⟩, ⟨20, 40, 0, 1⟩, ⟨0, 1⟩, .number 0, .vector4 ⟨0, 1, 0, 0⟩,
        .number 1⟩)) :=
  ⟨((triangles_divideSafely_iff _ _).1 _ _ _ _).mpr (by norm_num),
    ((triangles_divideSafely_iff .source _).2 _
      ⟨fun _ _ _ world => ⟨_, world, rfl, rfl⟩, fun _ _ _ _ world => ⟨world, rfl, rfl⟩⟩
      _ _ _).mpr (by norm_num)⟩

/-- Three equal points in the middle of the screen. -/
theorem drawTriangle_not_divideSafely :
    ¬ ∀ (cfg : Config ℚ) (self : Device ℚ) (pa pb pc : Vector2 ℚ) (color : Value ℚ),
      DividesSafely (self.drawTriangleOn cfg cfg.screenRows pa pb pc color) := by
  intro h
  have hsafe := h .source (.new 800 600) ⟨400, 300⟩ ⟨400, 300⟩ ⟨400, 300⟩ (.number 255)
  rw [drawTriangleOn_safely_iff] at hsafe
  norm_num [Config.source] at hsafe

end Device
end SoftRenderer
