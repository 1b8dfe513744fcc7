import SoftRenderer.LineMidpoint
import SoftRenderer.RowParameter
import SoftRenderer.TriangleInterpolation

/-!
# The last step of the pipeline

`draw_triangle_out` finds what it calls by name. In wireframe mode it calls the class `Vector2` as
if it were a function, and in colour mode it calls `draw_triangle` with a dot, so that the device is
taken for a vertex short. Either way the call fails.
-/

namespace SoftRenderer

open Kit Kit.Procedure

variable {K : Type} [Field K] [LinearOrder K] [FloorRing K]

def screenPoint (v : VertexOut K) : Vector2 K := ⟨v.posProj.x, v.posProj.y⟩

namespace Device

/-- The pixels that `drawLine` paints for an edge, without a colour. -/
def edgePixels (cfg : Config K) (v1 v2 : VertexOut K) : List (Pixel K) :=
  clippedPixels cfg .nil (linePoints (screenPoint v1) (screenPoint v2))

/-- In wireframe mode the three edges are painted and nothing else; in colour mode the triangle is
handed to `draw_triangle`. -/
structure RendersTriangle (cfg : Config K) (device : Device K) (v1 v2 v3 : VertexOut K) : Prop where
  wireframe : device.renderMode = renderStateWireframe → ∀ calls, ∃ out,
    Appends World.pixels (device.drawTriangleOut cfg calls v1 v2 v3) () out ∧
    ∀ p, p ∈ out ↔ p ∈ edgePixels cfg v1 v2 ∨ p ∈ edgePixels cfg v1 v3 ∨ p ∈ edgePixels cfg v2 v3
  color : device.renderMode = renderStateColor → ∀ calls,
    device.drawTriangleOut cfg calls v1 v2 v3 = device.draw_triangle calls v1 v2 (some v3)

theorem drawTriangleOut_wireframe (cfg : Config K) (calls : RasterCalls K) {self : Device K}
    (hmode : self.renderMode = renderStateWireframe) (v1 v2 v3 : VertexOut K) :
    Raises (self.drawTriangleOut cfg calls v1 v2 v3) := by
  intro world
  rw [drawTriangleOut, if_pos hmode]
  exact ⟨_, _, rfl⟩

theorem drawTriangleOut_color (cfg : Config K) (calls : RasterCalls K) {self : Device K}
    (hmode : self.renderMode = renderStateColor) (v1 v2 v3 : VertexOut K) :
    Raises (self.drawTriangleOut cfg calls v1 v2 v3) := by
  have hne : self.renderMode ≠ renderStateWireframe := by
    rw [hmode]
    decide
  intro world
  rw [drawTriangleOut, if_neg hne, if_pos hmode]
  exact ⟨_, _, rfl⟩

theorem flatRows_showing (self : Device K) (ytop ybot : K) (a1 b1 a2 b2 : VertexOut K) :
    AppendsOnly World.pixels (fun _ => True)
      (flatRows showingCalls self ytop ybot a1 b1 a2 b2) := by
  rw [flatRows_eq_countedRows, (countedRows_showing self (fun _ => 0) _ _ _ _ _ _).appendsOnly_iff]
  exact fun _ _ => trivial

variable [IsStrictOrderedRing K]

theorem draw_triangle_showing (self : Device K) (v1 v2 v3 : VertexOut K) :
    AppendsOnly World.pixels (fun _ => True)
      (self.draw_triangle showingCalls v1 v2 (some v3)) := by
  have hdivide (a b : K) : AppendsOnly World.pixels (fun _ => True) (divide a b) :=
    fun _ => ⟨_, _, [], rfl, (List.append_nil _).symm, by simp⟩
  have hlerp (a b : VertexOut K) (t : K) :
      AppendsOnly World.pixels (fun _ => True) (showingCalls.vertexoutLerp a b t) :=
    fun _ => ⟨_, _, _, rfl, rfl, fun _ _ => trivial⟩
  by_cases hnodup : (heights v1 v2 v3).Nodup
  · obtain ⟨hab, hac, hbc⟩ := heights_nodup_iff.mp hnodup
    obtain ⟨top, mid, bot, hsort, -⟩ := insertionSort_three v1 v2 v3
    simp only [draw_triangle, triangleCases, if_neg hab, if_neg hac, if_neg hbc, hsort]
    apply (hdivide _ _).bind
    intro slope
    apply (hdivide _ _).bind
    intro t
    apply (hlerp top bot t).bind
    intro midNeo
    apply (flatRows_showing self _ _ _ _ _ _).bind
    intro _
    exact flatRows_showing self _ _ _ _ _ _
  · obtain ⟨ytop, ybot, a1, b1, a2, b2, -, -, hrun⟩ :=
      draw_triangle_flat showingCalls self v1 v2 v3 hnodup
    rw [hrun]
    exact flatRows_showing self ytop ybot a1 b1 a2 b2

/-- A triangle is rendered in neither of the two modes. -/
theorem rendersTriangle_iff (cfg : Config K) (self : Device K) (v1 v2 v3 : VertexOut K) :
    RendersTriangle cfg self v1 v2 v3 ↔
      self.renderMode ≠ renderStateWireframe ∧ self.renderMode ≠ renderStateColor := by
  constructor
  · intro h
    constructor
    · intro hmode
      obtain ⟨out, hout, -⟩ := h.wireframe hmode showingCalls
      obtain ⟨world', hrun, -⟩ := hout (.initial K)
      exact (drawTriangleOut_wireframe cfg showingCalls hmode v1 v2 v3).ne_ok _ _ _ hrun
    · intro hmode
      obtain ⟨_, world', out, hrun, -⟩ := self.draw_triangle_showing v1 v2 v3 (.initial K)
      rw [← h.color hmode] at hrun
      exact (drawTriangleOut_color cfg showingCalls hmode v1 v2 v3).ne_ok _ _ _ hrun
  · rintro ⟨hwireframe, hcolor⟩
    exact ⟨fun hmode => absurd hmode hwireframe, fun hmode => absurd hmode hcolor⟩

theorem rendersTriangle_texture :
    RendersTriangle (.source : Config ℚ) ⟨800, 600, 2⟩
      ⟨⟨0, 0, 0, 1⟩, ⟨20, 10, 0, 1⟩, ⟨0, 0⟩, .nil, .nil, .nil⟩
      ⟨⟨1, 0, 0, 1⟩, ⟨10, 30, 0, 1⟩, ⟨1, 0⟩, .nil, .nil, .nil⟩
      ⟨⟨0, 1, 0, 1⟩, ⟨40, 50, 0, 1⟩, ⟨0, 1⟩, .nil, .nil, .nil⟩ :=
  (rendersTriangle_iff .source ⟨800, 600, 2⟩ _ _ _).mpr ⟨by decide, by decide⟩

theorem not_rendersTriangle :
    ¬ ∀ (self : Device ℚ) (v1 v2 v3 : VertexOut ℚ), (screenPoint v1).IsInteger →
      (screenPoint v2).IsInteger → (screenPoint v3).IsInteger →
      RendersTriangle .source self v1 v2 v3 := by
  intro h
  have hrenders := h (.new 800 600)
    ⟨⟨0, 0, 0, 1⟩, ⟨20, 10, 0, 1⟩, ⟨0, 0⟩, .nil, .nil, .nil⟩
    ⟨⟨1, 0, 0, 1⟩, ⟨10, 30, 0, 1⟩, ⟨1, 0⟩, .nil, .nil, .nil⟩
    ⟨⟨0, 1, 0, 1⟩, ⟨40, 50, 0, 1⟩, ⟨0, 1⟩, .nil, .nil, .nil⟩
    ⟨⟨20, by norm_num [screenPoint]⟩, ⟨10, by norm_num [screenPoint]⟩⟩
    ⟨⟨10, by norm_num [screenPoint]⟩, ⟨30, by norm_num [screenPoint]⟩⟩
    ⟨⟨40, by norm_num [screenPoint]⟩, ⟨50, by norm_num [screenPoint]⟩⟩
  rw [rendersTriangle_iff] at hrenders
  exact hrenders.1 rfl

end Device
end SoftRenderer
