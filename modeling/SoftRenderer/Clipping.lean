import SoftRenderer.DeviceContext
import SoftRenderer.Perspective

/-!
# The clip test

`clip` asks for `y ≥ w` and `y < w` at once, so it accepts no vertex. A triangle that survives
culling is therefore always dropped at the clip test, and nothing is drawn.
-/

namespace SoftRenderer

open Kit Kit.Procedure

variable {K : Type} [Field K]

/-- A vertex as the mesh has it: the colour is a packed number and the normal a vector. -/
structure MeshVertex (K : Type) where
  pos : Vector4 K
  color : K
  tex : Vector2 K
  normal : Vector4 K

def MeshVertex.toVertexIn (v : MeshVertex K) : VertexIn K :=
  ⟨v.pos, .number v.color, v.tex, .vector4 v.normal⟩

namespace DeviceContext

def projected (s : CubeShader (Matrix K)) (v : MeshVertex K) : VertexOut K :=
  let oneDivZ := 1 / (vector4Apply v.pos s.wvp).w
  { posWorld := vector4Apply v.pos s.world
    posProj := vector4Apply v.pos s.wvp
    tex := vector2Scl v.tex oneDivZ
    color := .number (v.color * oneDivZ)
    normal := .vector4 (vector4Scl v.normal oneDivZ)
    oneDivZ := .number oneDivZ }

def afterDivide (s : CubeShader (Matrix K)) (v : MeshVertex K) (world : World K) : World K :=
  { world with divisors := world.divisors ++ [(vector4Apply v.pos s.wvp).w] }

theorem transform2proj_apply (ctx : DeviceContext K (CubeShader (Matrix K)))
    (s : CubeShader (Matrix K)) (v : MeshVertex K) (world : World K) :
    (ctx.setShader s).transform2proj v.toVertexIn world =
      (.ok (projected s v), afterDivide s v world) := rfl

variable [LinearOrder K]

theorem clip_eq_false (v : VertexOut K) : clip v = false := by
  rw [clip, decide_eq_false_iff_not]
  rintro ⟨-, -, hge, hlt, -, -⟩
  exact absurd hlt (not_lt.mpr hge)

theorem clipStage_apply (ctx : DeviceContext K (CubeShader (Matrix K)))
    (s : CubeShader (Matrix K)) (p1 p2 p3 : MeshVertex K) (world : World K)
    (hcull : (ctx.setShader s).backFaceCulling p1.toVertexIn p2.toVertexIn p3.toVertexIn = true) :
    (ctx.setShader s).clipStage p1.toVertexIn p2.toVertexIn p3.toVertexIn world =
      (.ok none, afterDivide s p3 (afterDivide s p2 (afterDivide s p1 world))) := by
  rw [clipStage, if_pos hcull, bind_ok (transform2proj_apply ctx s p1 world),
    bind_ok (transform2proj_apply ctx s p2 _), bind_ok (transform2proj_apply ctx s p3 _),
    clip_eq_false]
  rfl

theorem drawPrimitive_apply [FloorRing K] (cfg : Config K) (calls : RasterCalls K)
    (ctx : DeviceContext K (CubeShader (Matrix K))) (s : CubeShader (Matrix K))
    (p1 p2 p3 : MeshVertex K) (world : World K)
    (hcull : (ctx.setShader s).backFaceCulling p1.toVertexIn p2.toVertexIn p3.toVertexIn = true) :
    (ctx.setShader s).drawPrimitive cfg calls p1.toVertexIn p2.toVertexIn p3.toVertexIn world =
      (.ok (), afterDivide s p3 (afterDivide s p2 (afterDivide s p1 world))) := by
  rw [drawPrimitive, bind_ok (clipStage_apply ctx s p1 p2 p3 world hcull)]
  rfl

def StrictlyInside (q : Vector4 K) : Prop :=
  0 < q.w ∧ (-q.w < q.x ∧ q.x < q.w) ∧ (-q.w < q.y ∧ q.y < q.w) ∧ 0 < q.z ∧ q.z < q.w

/-- Triangles inside the volume pass the clip test, and triangles with a vertex outside of it leave
no pixel. -/
def RejectsExactly [FloorRing K] (cfg : Config K) (calls : RasterCalls K)
    (ctx : DeviceContext K (CubeShader (Matrix K))) (s : CubeShader (Matrix K))
    (p1 p2 p3 : MeshVertex K) (world : World K) : Prop :=
  ((∀ p ∈ [p1, p2, p3], StrictlyInside (vector4Apply p.pos s.wvp)) →
    ∃ v1 v2 v3 world',
      (ctx.setShader s).clipStage p1.toVertexIn p2.toVertexIn p3.toVertexIn world =
        (.ok (some (v1, v2, v3)), world') ∧
      clip v1 = true ∧ clip v2 = true ∧ clip v3 = true) ∧
  ((∃ p ∈ [p1, p2, p3], ¬ InCanonicalVolume (vector4Apply p.pos s.wvp)) →
    ∃ world',
      (ctx.setShader s).drawPrimitive cfg calls p1.toVertexIn p2.toVertexIn p3.toVertexIn world =
        (.ok (), world') ∧ world'.pixels = world.pixels)

/-- The rejection is exact only for triangles that are not inside the volume. -/
theorem rejectsExactly_iff [FloorRing K] (cfg : Config K) (calls : RasterCalls K)
    (ctx : DeviceContext K (CubeShader (Matrix K))) (s : CubeShader (Matrix K))
    (p1 p2 p3 : MeshVertex K) (world : World K)
    (hcull : (ctx.setShader s).backFaceCulling p1.toVertexIn p2.toVertexIn p3.toVertexIn = true) :
    RejectsExactly cfg calls ctx s p1 p2 p3 world ↔
      ¬ ∀ p ∈ [p1, p2, p3], StrictlyInside (vector4Apply p.pos s.wvp) := by
  constructor
  · rintro ⟨hpass, -⟩ hinside
    obtain ⟨v1, v2, v3, world', hrun, -⟩ := hpass hinside
    rw [clipStage_apply ctx s p1 p2 p3 world hcull] at hrun
    simp at hrun
  · intro hinside
    refine ⟨fun h => absurd h hinside, ?_⟩
    intro _
    exact ⟨_, drawPrimitive_apply cfg calls ctx s p1 p2 p3 world hcull, rfl⟩

theorem rejectsExactly_right :
    RejectsExactly .source .source (.new (.new 800 600)) ⟨.newIdentity, .newIdentity, .newIdentity⟩
      ⟨⟨2, 0, 1 / 2, 1⟩, 0, ⟨0, 0⟩, ⟨0, 1, 0, 0⟩⟩ ⟨⟨1 / 2, 0, 1 / 2, 1⟩, 0, ⟨0, 0⟩, ⟨0, 1, 0, 0⟩⟩
      ⟨⟨0, 1 / 2, 1 / 2, 1⟩, 0, ⟨0, 0⟩, ⟨0, 1, 0, 0⟩⟩ (.initial ℚ) := by
  rw [rejectsExactly_iff _ _ _ _ _ _ _ _ rfl]
  intro h
  have hx := (h _ List.mem_cons_self).2.1.2
  norm_num at hx

theorem not_rejectsExactly :
    ¬ ∀ (ctx : DeviceContext ℚ (CubeShader (Matrix ℚ))) (s : CubeShader (Matrix ℚ))
      (p1 p2 p3 : MeshVertex ℚ) (world : World ℚ),
      (ctx.setShader s).backFaceCulling p1.toVertexIn p2.toVertexIn p3.toVertexIn = true →
        RejectsExactly .source .source ctx s p1 p2 p3 world := by
  intro h
  have hrejects := h (.new (.new 800 600)) ⟨.newIdentity, .newIdentity, .newIdentity⟩
    ⟨⟨0, 0, 1 / 2, 1⟩, 0, ⟨0, 0⟩, ⟨0, 1, 0, 0⟩⟩ ⟨⟨1 / 2, 0, 1 / 2, 1⟩, 0, ⟨0, 0⟩, ⟨0, 1, 0, 0⟩⟩
    ⟨⟨0, 1 / 2, 1 / 2, 1⟩, 0, ⟨0, 0⟩, ⟨0, 1, 0, 0⟩⟩ (.initial ℚ) rfl
  have hinside : ∀ p ∈ [(⟨⟨0, 0, 1 / 2, 1⟩, 0, ⟨0, 0⟩, ⟨0, 1, 0, 0⟩⟩ : MeshVertex ℚ),
      ⟨⟨1 / 2, 0, 1 / 2, 1⟩, 0, ⟨0, 0⟩, ⟨0, 1, 0, 0⟩⟩,
      ⟨⟨0, 1 / 2, 1 / 2, 1⟩, 0, ⟨0, 0⟩, ⟨0, 1, 0, 0⟩⟩],
      StrictlyInside (vector4Apply p.pos .newIdentity) := by
    norm_num [StrictlyInside]
  obtain ⟨v1, v2, v3, -, -, hclip, -⟩ := hrejects.1 hinside
  rw [clip_eq_false] at hclip
  exact absurd hclip Bool.false_ne_true

end DeviceContext
end SoftRenderer
