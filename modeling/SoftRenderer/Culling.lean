import SoftRenderer.Kit.Plane
import SoftRenderer.CubeDraw
import SoftRenderer.LookAt

/-!
# Back-face culling

The culling test measures from the first vertex, along the first two edges. What it decides is on
which side of the oriented plane of the triangle the camera lies.
-/

section

open scoped Matrix

namespace SoftRenderer

open Kit

variable {K : Type} [Field K]

theorem Cube.winding_eq (q1 q2 q3 camera : Vector4 K) :
    winding q1 q2 q3 camera =
      -(Plane.normal q1.xyz q2.xyz q3.xyz ⬝ᵥ (camera.xyz - q1.xyz)) := by
  rw [winding, Vector4.dot_eq_dotProduct, Vector4.xyz_cross, xyz_vector4Sub, xyz_vector4Sub,
    xyz_vector4Sub, ← Plane.normal, ← dotProduct_neg, neg_sub]

variable [LinearOrder K] [IsStrictOrderedRing K]

namespace DeviceContext

variable {S : Type} {ctx : DeviceContext K S} (hmode : ctx.renderMode ≠ renderStateWireframe)

include hmode

theorem backFaceCulling_iff (p1 p2 p3 : VertexIn K) :
    ctx.backFaceCulling p1 p2 p3 = true ↔
      Plane.StrictlyAbove p1.pos.xyz p2.pos.xyz p3.pos.xyz ctx.cameraPos.xyz := by
  rw [Cube.backFaceCulling_eq hmode, decide_eq_true_iff, Cube.winding_eq, neg_lt_zero,
    Plane.strictlyAbove_iff]

/-- What the culling test decides about a triangle, seen from both of its orders. -/
structure CullsByPlane (ctx : DeviceContext K S) (p1 p2 p3 : VertexIn K) : Prop where
  rotate : ctx.backFaceCulling p2 p3 p1 = ctx.backFaceCulling p1 p2 p3
  rotate_back : ctx.backFaceCulling p3 p1 p2 = ctx.backFaceCulling p1 p2 p3
  kept_iff : ctx.backFaceCulling p1 p2 p3 = true ↔
    Plane.StrictlyAbove p1.pos.xyz p2.pos.xyz p3.pos.xyz ctx.cameraPos.xyz
  reverse_kept_iff : ctx.backFaceCulling p1 p3 p2 = true ↔
    Plane.StrictlyBelow p1.pos.xyz p2.pos.xyz p3.pos.xyz ctx.cameraPos.xyz
  not_both : ¬ (ctx.backFaceCulling p1 p2 p3 = true ∧ ctx.backFaceCulling p1 p3 p2 = true)
  neither_iff : (ctx.backFaceCulling p1 p2 p3 = false ∧ ctx.backFaceCulling p1 p3 p2 = false) ↔
    Collinear K ({p1.pos.xyz, p2.pos.xyz, p3.pos.xyz} : Set (Fin 3 → K)) ∨
      ctx.cameraPos.xyz ∈ affineSpan K {p1.pos.xyz, p2.pos.xyz, p3.pos.xyz}

/-- Outside of wireframe mode the culling test depends on the oriented plane and the camera. -/
theorem backFaceCulling_plane (p1 p2 p3 : VertexIn K) : CullsByPlane ctx p1 p2 p3 := by
  have hrotate (q1 q2 q3 : VertexIn K) :
      ctx.backFaceCulling q2 q3 q1 = ctx.backFaceCulling q1 q2 q3 := by
    rw [Bool.eq_iff_iff, backFaceCulling_iff hmode, backFaceCulling_iff hmode,
      Plane.strictlyAbove_rotate]
  have hkept := backFaceCulling_iff hmode p1 p2 p3
  have hreverse : ctx.backFaceCulling p1 p3 p2 = true ↔
      Plane.StrictlyBelow p1.pos.xyz p2.pos.xyz p3.pos.xyz ctx.cameraPos.xyz := by
    rw [Plane.strictlyBelow_iff]
    exact backFaceCulling_iff hmode p1 p3 p2
  have habove := Plane.strictlyAbove_iff p1.pos.xyz p2.pos.xyz p3.pos.xyz ctx.cameraPos.xyz
  have hbelow := Plane.strictlyBelow_iff_neg p1.pos.xyz p2.pos.xyz p3.pos.xyz ctx.cameraPos.xyz
  refine ⟨hrotate p1 p2 p3, (hrotate p2 p3 p1).trans (hrotate p1 p2 p3), hkept, hreverse, ?_, ?_⟩
  · rw [hkept, hreverse, habove, hbelow]
    exact fun h => h.1.asymm h.2
  · rw [← Plane.normal_dotProduct_sub_eq_zero_iff, ← Bool.not_eq_true, ← Bool.not_eq_true, hkept,
      hreverse, habove, hbelow, not_lt, not_lt]
    exact antisymm_iff

omit hmode in
theorem backFaceCulling_plane_above :
    CullsByPlane (((DeviceContext.new (.new 800 600) : DeviceContext ℚ ℕ).setRenderMode
      renderStateColor).setCameraPos ⟨0, 5, 0, 1⟩)
      ⟨⟨0, 0, 0, 1⟩, .nil, ⟨0, 0⟩, .nil⟩ ⟨⟨0, 0, 1, 1⟩, .nil, ⟨0, 0⟩, .nil⟩
      ⟨⟨1, 0, 0, 1⟩, .nil, ⟨0, 0⟩, .nil⟩ :=
  backFaceCulling_plane (by decide) _ _ _

end DeviceContext
end SoftRenderer
end
