import SoftRenderer.Kit.Trace
import SoftRenderer.Device

/-!
# The parameter of a row

The loops over the rows of a flat triangle step a counter inside the block of a row, under a new
declaration, so every row is interpolated with the parameter of the first one. `countedRows` is
the loop with a counter that is a function of the row.
-/

namespace SoftRenderer

open Kit Kit.Procedure

variable {K : Type} [Field K] [LinearOrder K]

structure RasterCalls.Return (calls : RasterCalls K) : Prop where
  vertexoutLerp : ∀ v1 v2 t world, ∃ v world', calls.vertexoutLerp v1 v2 t world = (.ok v, world')
  scanlineFill : ∀ self left right yIndex world, ∃ world',
    calls.scanlineFill self left right yIndex world = (.ok (), world')

namespace Device

def HasLaterRow (self : Device K) (ytop ybot : K) : Prop :=
  ∃ k : ℕ, 1 ≤ k ∧ ytop + k ≤ ybot ∧ 0 ≤ ytop + k + 0.5 ∧ ytop + k + 0.5 < self.height

variable [FloorRing K]

/-- The loop of a flat triangle, with the value that its counter is to have in the row `y`. -/
def countedRows (calls : RasterCalls K) (self : Device K) (counter : K → K) (ytop ybot : K)
    (a1 b1 a2 b2 : VertexOut K) : LuaM K Unit :=
  forEach (forValues ytop ybot) fun y => do
    let yIndex := y + 0.5
    if 0 ≤ yIndex ∧ yIndex < self.height then
      let t ← divide (counter y) (ybot - ytop)
      let new1 ← calls.vertexoutLerp a1 b1 t
      let new2 ← calls.vertexoutLerp a2 b2 t
      if new1.posProj.x < new2.posProj.x then
        calls.scanlineFill self new1 new2 yIndex
      else
        calls.scanlineFill self new2 new1 yIndex

theorem flatRows_eq_countedRows (calls : RasterCalls K) (self : Device K) (ytop ybot : K)
    (a1 b1 a2 b2 : VertexOut K) :
    flatRows calls self ytop ybot a1 b1 a2 b2 =
      countedRows calls self (fun _ => 0) ytop ybot a1 b1 a2 b2 := rfl

theorem countedRows_congr (calls : RasterCalls K) (self : Device K) {c c' : K → K} {ytop ybot : K}
    (a1 b1 a2 b2 : VertexOut K)
    (h : ∀ y ∈ forValues ytop ybot, 0 ≤ y + 0.5 ∧ y + 0.5 < self.height → c y = c' y) :
    countedRows calls self c ytop ybot a1 b1 a2 b2 =
      countedRows calls self c' ytop ybot a1 b1 a2 b2 := by
  apply forEach_congr
  intro y hy
  dsimp only
  split_ifs with hrow
  · rw [h y hy hrow]
  · rfl

def showingCalls : RasterCalls K where
  vertexoutLerp v1 _ t := do
    SoftRenderer.drawPixel t 0 .nil
    return v1
  scanlineFill _ _ _ _ := pure ()

omit [LinearOrder K] [FloorRing K] in
theorem showingCalls_return : (showingCalls : RasterCalls K).Return where
  vertexoutLerp v1 _ _ _ := ⟨v1, _, rfl⟩
  scanlineFill _ _ _ _ world := ⟨world, rfl⟩

theorem countedRows_showing (self : Device K) (counter : K → K) (ytop ybot : K)
    (a1 b1 a2 b2 : VertexOut K) :
    Appends World.pixels (countedRows showingCalls self counter ytop ybot a1 b1 a2 b2) ()
      ((forValues ytop ybot).flatMap fun y =>
        if 0 ≤ y + 0.5 ∧ y + 0.5 < self.height then
          List.replicate 2 ⟨counter y / (ybot - ytop), 0, .nil⟩
        else []) := by
  apply Appends.forEach
  intro y _
  dsimp only
  split_ifs with hrow
  · intro world
    simp only [showingCalls, ite_self]
    exact ⟨_, rfl, by simp [List.replicate]⟩
  · exact Appends.pure ()

variable [IsStrictOrderedRing K]

/-- Calls that show the parameter of each row tell the rows of a later one from those of the
code, whose parameter is always zero. -/
theorem not_hasLaterRow_of_showing {self : Device K} {ytop ybot : K} (h : ytop < ybot)
    {a1 b1 a2 b2 : VertexOut K}
    (hsame : flatRows showingCalls self ytop ybot a1 b1 a2 b2 =
      countedRows showingCalls self (fun y => y - ytop) ytop ybot a1 b1 a2 b2) :
    ¬ self.HasLaterRow ytop ybot := by
  rintro ⟨k, hk, hbot, hrow⟩
  have hfixed := (countedRows_showing self (fun _ => 0) ytop ybot a1 b1 a2 b2).run (.initial K)
  have hcounted :=
    (countedRows_showing self (fun y => y - ytop) ytop ybot a1 b1 a2 b2).run (.initial K)
  rw [← hsame, flatRows_eq_countedRows, hfixed.2] at hcounted
  -- the parameter of the row `k` is one of those shown, so it is zero
  have hshown : (⟨(ytop + k - ytop) / (ybot - ytop), 0, .nil⟩ : Pixel K) ∈
      (forValues ytop ybot).flatMap fun y =>
        if 0 ≤ y + 0.5 ∧ y + 0.5 < self.height then
          List.replicate 2 (⟨(y - ytop) / (ybot - ytop), 0, .nil⟩ : Pixel K)
        else [] := by
    rw [List.mem_flatMap]
    refine ⟨ytop + k, mem_forValues.mpr ⟨k, rfl, hbot⟩, ?_⟩
    rw [if_pos hrow]
    exact List.mem_cons_self
  rw [← List.append_cancel_left hcounted.2, List.mem_flatMap] at hshown
  obtain ⟨y, -, hy⟩ := hshown
  have hzero : (ytop + k - ytop) / (ybot - ytop) = 0 := by
    split_ifs at hy
    · rw [zero_div] at hy
      exact congrArg Pixel.x (List.eq_of_mem_replicate hy)
    · cases hy
  rw [add_sub_cancel_left, div_eq_zero_iff, Nat.cast_eq_zero, sub_eq_zero] at hzero
  rcases hzero with hzero | hzero
  · omega
  · exact h.ne' hzero

theorem flatRows_parameter_iff (self : Device K) {ytop ybot : K} (h : ytop < ybot)
    (a1 b1 a2 b2 : VertexOut K) :
    (∀ calls : RasterCalls K, calls.Return → flatRows calls self ytop ybot a1 b1 a2 b2 =
      countedRows calls self (fun y => y - ytop) ytop ybot a1 b1 a2 b2) ↔
      ¬ self.HasLaterRow ytop ybot := by
  refine ⟨fun hsame => not_hasLaterRow_of_showing h (hsame _ showingCalls_return), ?_⟩
  intro hlater calls _
  rw [flatRows_eq_countedRows]
  apply countedRows_congr
  intro y hy hrow
  obtain ⟨k, rfl, hbot⟩ := mem_forValues.mp hy
  have hk : k = 0 := by
    by_contra hne
    exact hlater ⟨k, Nat.one_le_iff_ne_zero.mpr hne, hbot, hrow⟩
  rw [hk, Nat.cast_zero, add_zero, sub_self]

/-- In both flat cases the parameter of every row on the screen is `(y - ytop) / (ybot - ytop)`
exactly when no row after the first is on the screen. -/
theorem flatTriangles_parameter_iff (self : Device K) :
    (∀ v1 v2 v3 : VertexOut K, v1.posProj.y < v2.posProj.y → v2.posProj.y = v3.posProj.y →
      ((∀ calls : RasterCalls K, calls.Return → self.drawTriangleFlatBottom calls v1 v2 v3 =
        countedRows calls self (fun y => y - v1.posProj.y) v1.posProj.y v2.posProj.y v1 v2 v1 v3) ↔
        ¬ self.HasLaterRow v1.posProj.y v2.posProj.y)) ∧
    (∀ v1 v2 v3 : VertexOut K, v1.posProj.y = v2.posProj.y → v2.posProj.y < v3.posProj.y →
      ((∀ calls : RasterCalls K, calls.Return → self.drawTriangleFlatTop calls v1 v2 v3 =
        countedRows calls self (fun y => y - v1.posProj.y) v1.posProj.y v3.posProj.y v1 v3 v2 v3) ↔
        ¬ self.HasLaterRow v1.posProj.y v3.posProj.y)) := by
  constructor
  · intro v1 v2 v3 htop _
    exact self.flatRows_parameter_iff htop v1 v2 v1 v3
  · intro v1 v2 v3 hflat hbot
    exact self.flatRows_parameter_iff (hflat ▸ hbot) v1 v3 v2 v3

theorem flatTriangles_parameter_half :
    (Device.new 800 600 : Device ℚ).drawTriangleFlatBottom showingCalls
        ⟨⟨0, 0, 0, 1⟩, ⟨20, 10, 0, 1⟩, ⟨0, 0⟩, .nil, .nil, .nil⟩
        ⟨⟨0, 0, 0, 1⟩, ⟨10, 10.5, 0, 1⟩, ⟨0, 0⟩, .nil, .nil, .nil⟩
        ⟨⟨0, 0, 0, 1⟩, ⟨30, 10.5, 0, 1⟩, ⟨0, 0⟩, .nil, .nil, .nil⟩ =
      countedRows showingCalls (.new 800 600) (fun y => y - 10) 10 10.5
        ⟨⟨0, 0, 0, 1⟩, ⟨20, 10, 0, 1⟩, ⟨0, 0⟩, .nil, .nil, .nil⟩
        ⟨⟨0, 0, 0, 1⟩, ⟨10, 10.5, 0, 1⟩, ⟨0, 0⟩, .nil, .nil, .nil⟩
        ⟨⟨0, 0, 0, 1⟩, ⟨20, 10, 0, 1⟩, ⟨0, 0⟩, .nil, .nil, .nil⟩
        ⟨⟨0, 0, 0, 1⟩, ⟨30, 10.5, 0, 1⟩, ⟨0, 0⟩, .nil, .nil, .nil⟩ := by
  refine ((flatTriangles_parameter_iff (.new 800 600)).1 _ _ _ (by norm_num) rfl).mpr ?_
    showingCalls showingCalls_return
  rintro ⟨k, hk, hbot, -⟩
  have hk' : (1 : ℚ) ≤ k := by exact_mod_cast hk
  norm_num at hbot
  linarith

/-- A triangle of eleven rows, all on the screen. -/
theorem flatTriangles_not_parameter :
    ¬ ∀ (self : Device ℚ) (v1 v2 v3 : VertexOut ℚ), v1.posProj.y < v2.posProj.y →
      v2.posProj.y = v3.posProj.y → ∀ calls : RasterCalls ℚ, calls.Return →
        self.drawTriangleFlatBottom calls v1 v2 v3 =
          countedRows calls self (fun y => y - v1.posProj.y) v1.posProj.y v2.posProj.y
            v1 v2 v1 v3 := by
  intro h
  have hrows := h (.new 800 600)
    ⟨⟨0, 0, 0, 1⟩, ⟨20, 10, 0, 1⟩, ⟨0, 0⟩, .nil, .nil, .nil⟩
    ⟨⟨0, 0, 0, 1⟩, ⟨10, 20, 0, 1⟩, ⟨0, 0⟩, .nil, .nil, .nil⟩
    ⟨⟨0, 0, 0, 1⟩, ⟨30, 20, 0, 1⟩, ⟨0, 0⟩, .nil, .nil, .nil⟩ (by norm_num) rfl
  refine (flatRows_parameter_iff (.new 800 600) (by norm_num) _ _ _ _).mp hrows ?_
  exact ⟨1, le_rfl, by norm_num, by norm_num, by norm_num [Device.new]⟩

end Device
end SoftRenderer
