import SoftRenderer.Clipping

/-!
# The perspective division

`transform2proj` takes the reciprocal of the clip-space `w` of every vertex that survives culling,
and the clip test comes after it. Vertices on the plane of the camera or behind it are therefore
divided by a `w` that is not positive.
-/

namespace SoftRenderer.DeviceContext

open Kit Kit.Procedure

variable {K : Type} [Field K] [LinearOrder K] [FloorRing K]

def clipW (s : CubeShader (Matrix K)) (p : MeshVertex K) : K := (vector4Apply p.pos s.wvp).w

theorem drawPrimitive_divisors (cfg : Config K) (calls : RasterCalls K)
    (ctx : DeviceContext K (CubeShader (Matrix K))) (s : CubeShader (Matrix K))
    (p1 p2 p3 : MeshVertex K) :
    Appends World.divisors
      ((ctx.setShader s).drawPrimitive cfg calls p1.toVertexIn p2.toVertexIn p3.toVertexIn) ()
      (if (ctx.setShader s).backFaceCulling p1.toVertexIn p2.toVertexIn p3.toVertexIn
        then [clipW s p1, clipW s p2, clipW s p3] else []) := by
  intro world
  split_ifs with hcull
  · refine ⟨_, drawPrimitive_apply cfg calls ctx s p1 p2 p3 world hcull, ?_⟩
    simp [afterDivide, clipW]
  · have hstage : (ctx.setShader s).clipStage p1.toVertexIn p2.toVertexIn p3.toVertexIn world =
        (.ok none, world) := by
      rw [clipStage, if_neg hcull]
      rfl
    refine ⟨world, ?_, (List.append_nil _).symm⟩
    rw [drawPrimitive, bind_ok hstage]
    rfl

theorem appendsOnly_divisors_iff (P : K → Prop) (cfg : Config K) (calls : RasterCalls K)
    (ctx : DeviceContext K (CubeShader (Matrix K))) (s : CubeShader (Matrix K))
    (p1 p2 p3 : MeshVertex K) :
    AppendsOnly World.divisors P
        ((ctx.setShader s).drawPrimitive cfg calls p1.toVertexIn p2.toVertexIn p3.toVertexIn) ↔
      (ctx.setShader s).backFaceCulling p1.toVertexIn p2.toVertexIn p3.toVertexIn = false ∨
        ∀ p ∈ [p1, p2, p3], P (clipW s p) := by
  rw [(drawPrimitive_divisors cfg calls ctx s p1 p2 p3).appendsOnly_iff]
  cases (ctx.setShader s).backFaceCulling p1.toVertexIn p2.toVertexIn p3.toVertexIn <;> simp

/-- A triangle is drawn without a division by zero exactly when it is culled or no vertex has the
clip-space `w` zero, and without a reciprocal of a `w` that is not positive exactly when it is
culled or every vertex is in front of the camera. -/
theorem drawPrimitive_divides_iff (cfg : Config K) (calls : RasterCalls K)
    (ctx : DeviceContext K (CubeShader (Matrix K))) (s : CubeShader (Matrix K))
    (p1 p2 p3 : MeshVertex K) :
    (DividesSafely
        ((ctx.setShader s).drawPrimitive cfg calls p1.toVertexIn p2.toVertexIn p3.toVertexIn) ↔
      (ctx.setShader s).backFaceCulling p1.toVertexIn p2.toVertexIn p3.toVertexIn = false ∨
        ∀ p ∈ [p1, p2, p3], clipW s p ≠ 0) ∧
    (AppendsOnly World.divisors (0 < ·)
        ((ctx.setShader s).drawPrimitive cfg calls p1.toVertexIn p2.toVertexIn p3.toVertexIn) ↔
      (ctx.setShader s).backFaceCulling p1.toVertexIn p2.toVertexIn p3.toVertexIn = false ∨
        ∀ p ∈ [p1, p2, p3], 0 < clipW s p) :=
  ⟨appendsOnly_divisors_iff (· ≠ 0) cfg calls ctx s p1 p2 p3,
    appendsOnly_divisors_iff (0 < ·) cfg calls ctx s p1 p2 p3⟩

/-- A vertex on the plane of the camera, under a matrix that copies `z` to `w`. -/
theorem drawPrimitive_divides_by_zero :
    ¬ ∀ (ctx : DeviceContext ℚ (CubeShader (Matrix ℚ))) (s : CubeShader (Matrix ℚ))
      (p1 p2 p3 : MeshVertex ℚ),
      DividesSafely ((ctx.setShader s).drawPrimitive .source .source p1.toVertexIn p2.toVertexIn
        p3.toVertexIn) := by
  intro h
  have hsafe := h (.new (.new 800 600))
    ⟨.new 1 0 0 0 0 1 0 0 0 0 1 1 0 0 0 0, .newIdentity, .newIdentity⟩
    ⟨⟨0, 0, 0, 1⟩, 0, ⟨0, 0⟩, ⟨0, 1, 0, 0⟩⟩ ⟨⟨1, 0, 1, 1⟩, 0, ⟨0, 0⟩, ⟨0, 1, 0, 0⟩⟩
    ⟨⟨0, 1, 1, 1⟩, 0, ⟨0, 0⟩, ⟨0, 1, 0, 0⟩⟩
  rcases (appendsOnly_divisors_iff _ _ _ _ _ _ _ _).mp hsafe with hcull | hw
  · cases hcull
  · have h0 := hw _ List.mem_cons_self
    simp [clipW] at h0

end SoftRenderer.DeviceContext
