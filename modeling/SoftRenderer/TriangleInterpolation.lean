import SoftRenderer.Clipping

/-!
# Interpolation over a triangle

Every row of a triangle interpolates two vertices, and `vertexoutLerp` fails on all of them. So
`draw_triangle` returns only for a triangle with a horizontal edge of which no row falls on the
screen, and hands on no fragment in any case.
-/

namespace SoftRenderer

open Kit Kit.Procedure

variable {K : Type} [Field K]

/-- A vertex whose attributes `transform2proj` has divided by `w`, at its place on the screen. -/
structure PreparedVertex (K : Type) [Field K] [LinearOrder K] where
  posWorld : Vector4 K
  posProj : Vector4 K
  tex : Vector2 K
  color : K
  normal : Vector4 K
  w : K
  w_pos : 0 < w

variable [LinearOrder K]

def PreparedVertex.toVertexOut (v : PreparedVertex K) : VertexOut K where
  posWorld := v.posWorld
  posProj := v.posProj
  tex := vector2Scl v.tex (1 / v.w)
  color := .number (v.color * (1 / v.w))
  normal := .vector4 (vector4Scl v.normal (1 / v.w))
  oneDivZ := .number (1 / v.w)

@[simp] theorem PreparedVertex.toVertexOut_posProj (v : PreparedVertex K) :
    v.toVertexOut.posProj = v.posProj := rfl

/-- The vertex that `transform2proj` returns, moved to the place `q` on the screen. -/
def PreparedVertex.ofProjected (s : CubeShader (Matrix K)) (v : MeshVertex K)
    (hw : 0 < (vector4Apply v.pos s.wvp).w) (q : Vector4 K) : PreparedVertex K :=
  ⟨vector4Apply v.pos s.world, q, v.tex, v.color, v.normal, (vector4Apply v.pos s.wvp).w, hw⟩

theorem PreparedVertex.toVertexOut_ofProjected (s : CubeShader (Matrix K)) (v : MeshVertex K)
    (hw : 0 < (vector4Apply v.pos s.wvp).w) (q : Vector4 K) :
    (PreparedVertex.ofProjected s v hw q).toVertexOut =
      { DeviceContext.projected s v with posProj := q } := rfl

namespace Device

/-- Between the least and the greatest of the heights `ys` there is a row whose centre is on the
screen. -/
def HasRow (self : Device K) (ys : List K) : Prop :=
  ∃ (top bot : K) (k : ℕ), IsLeast {y | y ∈ ys} top ∧ IsGreatest {y | y ∈ ys} bot ∧
    top + k ≤ bot ∧ 0 ≤ top + k + 0.5 ∧ top + k + 0.5 < self.height

theorem hasRow_perm (self : Device K) {xs ys : List K} (h : xs.Perm ys) :
    self.HasRow xs ↔ self.HasRow ys := by
  have hset : {y | y ∈ xs} = {y | y ∈ ys} := Set.ext fun _ => h.mem_iff
  rw [HasRow, HasRow, hset]

variable [FloorRing K]

theorem source_vertexoutLerp_raises (v1 v2 : VertexOut K) (t : K) :
    Raises (RasterCalls.source.vertexoutLerp v1 v2 t) := by
  obtain ⟨e, he⟩ := vertexoutLerp_error v1 v2 t
  intro world
  refine ⟨e, world, ?_⟩
  simp only [RasterCalls.source, he, lift_apply]

variable [IsStrictOrderedRing K]

theorem flatRows_of_row (self : Device K) {ytop ybot : K} (a1 b1 a2 b2 : VertexOut K) {k : ℕ}
    (hk : ytop + k ≤ ybot) (h0 : 0 ≤ ytop + k + 0.5) (hh : ytop + k + 0.5 < self.height) :
    Raises (flatRows .source self ytop ybot a1 b1 a2 b2) := by
  have hmem : ytop + k ∈ forValues ytop ybot := mem_forValues.mpr ⟨k, rfl, hk⟩
  refine Raises.forEach hmem ?_
  simp only [h0, hh, and_self, if_true]
  apply Raises.bind_right
  intro t
  exact (source_vertexoutLerp_raises a1 b1 t).bind _

theorem flatRows_of_no_row (calls : RasterCalls K) (self : Device K) {ytop ybot : K}
    (a1 b1 a2 b2 : VertexOut K)
    (h : ∀ k : ℕ, ytop + k ≤ ybot → ¬ (0 ≤ ytop + k + 0.5 ∧ ytop + k + 0.5 < self.height)) :
    flatRows calls self ytop ybot a1 b1 a2 b2 = pure () := by
  apply forEach_eq_pure
  intro y hy
  obtain ⟨k, rfl, hk⟩ := mem_forValues.mp hy
  exact if_neg (h k hk)

def heights (a b c : VertexOut K) : List K := [a.posProj.y, b.posProj.y, c.posProj.y]

omit [Field K] [LinearOrder K] [FloorRing K] [IsStrictOrderedRing K] in
theorem heights_nodup_iff {a b c : VertexOut K} : (heights a b c).Nodup ↔
    a.posProj.y ≠ b.posProj.y ∧ a.posProj.y ≠ c.posProj.y ∧ b.posProj.y ≠ c.posProj.y := by
  simp [heights, and_assoc]

omit [Field K] [FloorRing K] [IsStrictOrderedRing K] in
theorem isLeast_three {a b c top : K} : IsLeast {y | y ∈ [a, b, c]} top ↔
    (top = a ∨ top = b ∨ top = c) ∧ top ≤ a ∧ top ≤ b ∧ top ≤ c := by
  simp [IsLeast, lowerBounds]

omit [Field K] [FloorRing K] [IsStrictOrderedRing K] in
theorem isGreatest_three {a b c bot : K} : IsGreatest {y | y ∈ [a, b, c]} bot ↔
    (bot = a ∨ bot = b ∨ bot = c) ∧ a ≤ bot ∧ b ≤ bot ∧ c ≤ bot := by
  simp [IsGreatest, upperBounds]

/-- With a horizontal edge the triangle is one run of the row loop, from the least to the greatest
height. -/
theorem draw_triangle_flat (calls : RasterCalls K) (self : Device K) (a b c : VertexOut K)
    (h : ¬ (heights a b c).Nodup) :
    ∃ top bot a1 b1 a2 b2, IsLeast {y | y ∈ heights a b c} top ∧
      IsGreatest {y | y ∈ heights a b c} bot ∧
      self.draw_triangle calls a b (some c) = flatRows calls self top bot a1 b1 a2 b2 := by
  unfold heights at h ⊢
  simp only [isLeast_three, isGreatest_three, draw_triangle, triangleCases]
  split_ifs with hab hc hac hb hbc ha
  pick_goal 7
  · simp [hab, hac, hbc] at h
  all_goals exact ⟨_, _, _, _, _, _, by grind, by grind, rfl⟩

omit [Field K] [FloorRing K] [IsStrictOrderedRing K] in
theorem insertionSort_three (a b c : VertexOut K) :
    ∃ top mid bot, [a, b, c].insertionSort (fun x y => x.posProj.y ≤ y.posProj.y) =
      [top, mid, bot] ∧ [top, mid, bot].Perm [a, b, c] := by
  have hlength : ([a, b, c].insertionSort
      (fun x y => x.posProj.y ≤ y.posProj.y)).length = 3 := by
    rw [List.length_insertionSort]
    rfl
  obtain ⟨top, mid, bot, hsort⟩ := List.length_eq_three.mp hlength
  exact ⟨top, mid, bot, hsort, hsort ▸ List.perm_insertionSort _ _⟩

omit [Field K] [FloorRing K] [IsStrictOrderedRing K] in
theorem exists_sorted_three {v1 v2 v3 : VertexOut K} (hnodup : (heights v1 v2 v3).Nodup) :
    ∃ top mid bot : VertexOut K,
      [v1, v2, v3].insertionSort (fun x y => x.posProj.y ≤ y.posProj.y) = [top, mid, bot] ∧
      [top, mid, bot].Perm [v1, v2, v3] ∧ top.posProj.y < mid.posProj.y ∧
      mid.posProj.y < bot.posProj.y := by
  obtain ⟨top, mid, bot, hsort, hperm⟩ := insertionSort_three v1 v2 v3
  have hsorted : [top, mid, bot].Pairwise fun x y => x.posProj.y ≤ y.posProj.y := by
    rw [← hsort]
    exact List.pairwise_insertionSort _ _
  have hnodup' : (heights top mid bot).Nodup :=
    (hperm.map fun v : VertexOut K => v.posProj.y).nodup_iff.mpr hnodup
  obtain ⟨htm, -, hmb⟩ := heights_nodup_iff.mp hnodup'
  obtain ⟨⟨htm', -⟩, hmb'⟩ : (top.posProj.y ≤ mid.posProj.y ∧ top.posProj.y ≤ bot.posProj.y) ∧
      mid.posProj.y ≤ bot.posProj.y := by
    simpa using hsorted
  exact ⟨top, mid, bot, hsort, hperm, htm'.lt_of_ne htm, hmb'.lt_of_ne hmb⟩

omit [IsStrictOrderedRing K] in
theorem draw_triangle_split (self : Device K) (a b c : VertexOut K) (h : (heights a b c).Nodup) :
    Raises (self.draw_triangle .source a b (some c)) := by
  obtain ⟨hab, hac, hbc⟩ := heights_nodup_iff.mp h
  obtain ⟨top, mid, bot, hsort, -⟩ := insertionSort_three a b c
  simp only [draw_triangle, triangleCases, if_neg hab, if_neg hac, if_neg hbc, hsort]
  apply Raises.bind_right
  intro slope
  apply Raises.bind_right
  intro t
  exact (source_vertexoutLerp_raises top bot t).bind _

theorem draw_triangle_of_no_row (calls : RasterCalls K) (self : Device K) (a b c : VertexOut K)
    (hflat : ¬ (heights a b c).Nodup) (hrow : ¬ self.HasRow (heights a b c)) :
    self.draw_triangle calls a b (some c) = pure () := by
  obtain ⟨top, bot, a1, b1, a2, b2, htop, hbot, hrun⟩ := draw_triangle_flat calls self a b c hflat
  rw [hrun]
  apply flatRows_of_no_row
  intro k hk hon
  exact hrow ⟨top, bot, k, htop, hbot, hk, hon⟩

theorem draw_triangle_of_row (self : Device K) (a b c : VertexOut K)
    (hrow : self.HasRow (heights a b c)) : Raises (self.draw_triangle .source a b (some c)) := by
  by_cases hflat : (heights a b c).Nodup
  · exact draw_triangle_split self a b c hflat
  · obtain ⟨top, bot, a1, b1, a2, b2, htop, hbot, hrun⟩ :=
      draw_triangle_flat .source self a b c hflat
    obtain ⟨top', bot', k, htop', hbot', hk, h0, hh⟩ := hrow
    cases htop'.unique htop
    cases hbot'.unique hbot
    rw [hrun]
    exact flatRows_of_row self a1 b1 a2 b2 hk h0 hh

omit [LinearOrder K] [FloorRing K] [IsStrictOrderedRing K] in
theorem divide_preserves (a b : K) : Preserves World.fragments (divide a b) := fun _ => rfl

omit [IsStrictOrderedRing K] in
theorem flatRows_preserves (self : Device K) (ytop ybot : K) (a1 b1 a2 b2 : VertexOut K) :
    Preserves World.fragments (flatRows .source self ytop ybot a1 b1 a2 b2) := by
  apply Preserves.forEach
  intro y _
  dsimp only
  split_ifs
  · apply (divide_preserves _ _).bind
    intro t
    apply (Preserves.lift _ _).bind
    intro new1
    apply (Preserves.lift _ _).bind
    intro new2
    -- either way the span is filled under a name that the class does not have
    split_ifs
    · exact fun _ => rfl
    · exact fun _ => rfl
  · exact Preserves.pure _ _

omit [IsStrictOrderedRing K] in
theorem draw_triangle_preserves (self : Device K) (a b c : VertexOut K) :
    Preserves World.fragments (self.draw_triangle .source a b (some c)) := by
  simp only [draw_triangle, triangleCases]
  split_ifs
  pick_goal 7
  · split
    · apply (divide_preserves _ _).bind
      intro slope
      apply (divide_preserves _ _).bind
      intro t
      apply (Preserves.lift _ _).bind
      intro midNeo
      apply (flatRows_preserves self _ _ _ _ _ _).bind
      intro _
      exact flatRows_preserves self _ _ _ _ _ _
    · exact Preserves.pure _ _
  all_goals exact flatRows_preserves self _ _ _ _ _ _

/-- The affine function of the screen position that agrees with `value` at the three vertices. -/
def Interpolates (g : K × K →ᵃ[K] K) (value : PreparedVertex K → K) (a b c : PreparedVertex K) :
    Prop :=
  ∀ v ∈ [a, b, c], g (v.posProj.x, v.posProj.y) = value v

/-- The depth of the fragment is affine in the screen position, and its texture coordinate is the
quotient of two affine functions. -/
def FragmentCorrect (a b c : PreparedVertex K) (f : Fragment K) : Prop :=
  ∃ gz gx gy : K × K →ᵃ[K] K, Interpolates gz (fun v => 1 / v.w) a b c ∧
    Interpolates gx (fun v => v.tex.x / v.w) a b c ∧
    Interpolates gy (fun v => v.tex.y / v.w) a b c ∧
    f.oneDivZ = .number (gz (f.x, f.y)) ∧
    f.tex = .vector2 ⟨gx (f.x, f.y) * (1 / gz (f.x, f.y)), gy (f.x, f.y) * (1 / gz (f.x, f.y))⟩

/-- The triangle is drawn, in each order of its vertices, by the same fragments, and these are
correct. -/
def PerspectiveCorrect (self : Device K) (world : World K) (a b c : PreparedVertex K) : Prop :=
  ∃ fragments : List (Fragment K), (∀ f ∈ fragments, FragmentCorrect a b c f) ∧
    ∀ a' b' c', [a', b', c'].Perm [a, b, c] →
      ∃ (world' : World K) (drawn : List (Fragment K)),
        self.draw_triangle .source a'.toVertexOut b'.toVertexOut (some c'.toVertexOut) world =
          (.ok (), world') ∧
        world'.fragments = world.fragments ++ drawn ∧ drawn.Perm fragments

omit [IsStrictOrderedRing K] in
theorem PerspectiveCorrect.not_raises {self : Device K} {world : World K} {a b c : PreparedVertex K}
    (h : self.PerspectiveCorrect world a b c) :
    ¬ Raises (self.draw_triangle .source a.toVertexOut b.toVertexOut (some c.toVertexOut)) := by
  intro hraises
  obtain ⟨_, -, horder⟩ := h
  obtain ⟨world', _, hrun, -⟩ := horder a b c (List.Perm.refl _)
  exact hraises.ne_ok world world' () hrun

def preparedHeights (a b c : PreparedVertex K) : List K :=
  heights a.toVertexOut b.toVertexOut c.toVertexOut

/-- A triangle is drawn correctly exactly when it has a horizontal edge and none of its rows is on
the screen, so that there is nothing to draw. -/
theorem perspectiveCorrect_iff (self : Device K) (world : World K) (a b c : PreparedVertex K) :
    self.PerspectiveCorrect world a b c ↔
      ¬ (preparedHeights a b c).Nodup ∧ ¬ self.HasRow (preparedHeights a b c) := by
  constructor
  · intro h
    constructor
    · intro hnodup
      exact h.not_raises (draw_triangle_split self _ _ _ hnodup)
    · intro hrow
      exact h.not_raises (draw_triangle_of_row self _ _ _ hrow)
  · rintro ⟨hflat, hrow⟩
    refine ⟨[], by simp, ?_⟩
    intro a' b' c' hperm
    have hheights : (preparedHeights a' b' c').Perm (preparedHeights a b c) :=
      hperm.map fun v : PreparedVertex K => v.posProj.y
    rw [← hheights.nodup_iff] at hflat
    rw [← self.hasRow_perm hheights] at hrow
    refine ⟨world, [], ?_, (List.append_nil _).symm, List.Perm.refl _⟩
    rw [draw_triangle_of_no_row .source self _ _ _ hflat hrow]
    rfl

theorem perspectiveCorrect_above :
    (Device.new 800 600).PerspectiveCorrect (.initial ℚ)
      ⟨⟨0, 0, 0, 1⟩, ⟨10, -10, 0, 1⟩, ⟨0, 0⟩, 0, ⟨0, 1, 0, 0⟩, 1, one_pos⟩
      ⟨⟨1, 0, 0, 1⟩, ⟨20, -10, 0, 1⟩, ⟨1, 0⟩, 0, ⟨0, 1, 0, 0⟩, 1, one_pos⟩
      ⟨⟨0, 1, 0, 1⟩, ⟨10, -5, 0, 1⟩, ⟨0, 1⟩, 0, ⟨0, 1, 0, 0⟩, 1, one_pos⟩ := by
  rw [perspectiveCorrect_iff]
  constructor
  · simp [preparedHeights, heights]
  · rintro ⟨top, bot, k, -, hbot, hk, h0, -⟩
    rw [preparedHeights, heights, isGreatest_three] at hbot
    have hle : bot ≤ -5 := by
      rcases hbot.1 with rfl | rfl | rfl <;> norm_num
    linarith

theorem not_perspectiveCorrect :
    ¬ ∀ (self : Device ℚ) (world : World ℚ) (a b c : PreparedVertex ℚ),
      (b.posProj.x - a.posProj.x) * (c.posProj.y - a.posProj.y) ≠
        (c.posProj.x - a.posProj.x) * (b.posProj.y - a.posProj.y) →
      self.PerspectiveCorrect world a b c := by
  intro h
  have hcorrect := h (.new 800 600) (.initial ℚ)
    ⟨⟨0, 0, 0, 1⟩, ⟨10, 10, 0, 1⟩, ⟨0, 0⟩, 0, ⟨0, 1, 0, 0⟩, 1, one_pos⟩
    ⟨⟨1, 0, 0, 1⟩, ⟨20, 10, 0, 1⟩, ⟨1, 0⟩, 0, ⟨0, 1, 0, 0⟩, 1, one_pos⟩
    ⟨⟨0, 1, 0, 1⟩, ⟨10, 20, 0, 1⟩, ⟨0, 1⟩, 0, ⟨0, 1, 0, 0⟩, 1, one_pos⟩ (by norm_num)
  apply hcorrect.not_raises
  apply draw_triangle_of_row
  refine ⟨10, 20, 0, ?_, ?_, by norm_num, by norm_num, by norm_num [Device.new]⟩
  · rw [heights, isLeast_three]
    norm_num
  · rw [heights, isGreatest_three]
    norm_num

end Device
end SoftRenderer
