import SoftRenderer.Vertex

/-!
# Interpolation of vertices

What an interpolation of two vertices should do: every attribute runs along the segment between
its two values. `vertexoutLerp` does it for no pair of vertices, since it interpolates the position,
a table, where the colour and `oneDivZ` belong.
-/

namespace SoftRenderer

variable {K : Type} [Field K]

/-- A vertex whose attributes have the types that the drawing code expects. -/
structure TypedVertex (K : Type) where
  posWorld : Vector4 K
  posProj : Vector4 K
  tex : Vector2 K
  normal : Vector4 K
  color : K
  oneDivZ : K

theorem lerp_zero (a b : K) : lerp a b 0 = a := by
  simp [lerp]

theorem lerp_one (a b : K) : lerp a b 1 = b := by
  simp [lerp]

theorem lerp_lerp (a b s u t : K) : lerp (lerp a b s) (lerp a b u) t = lerp a b (lerp s u t) := by
  unfold lerp
  ring

namespace TypedVertex

def toVertexOut (v : TypedVertex K) : VertexOut K where
  posWorld := v.posWorld
  posProj := v.posProj
  tex := v.tex
  color := .number v.color
  normal := .vector4 v.normal
  oneDivZ := .number v.oneDivZ

/-- Field by field, `a + (b - a) * t`. -/
def lerp (a b : TypedVertex K) (t : K) : TypedVertex K where
  posWorld := vector4Lerp a.posWorld b.posWorld t
  posProj := vector4Lerp a.posProj b.posProj t
  tex := vector2Lerp a.tex b.tex t
  normal := vector4Lerp a.normal b.normal t
  color := SoftRenderer.lerp a.color b.color t
  oneDivZ := SoftRenderer.lerp a.oneDivZ b.oneDivZ t

theorem lerp_zero (a b : TypedVertex K) : a.lerp b 0 = a := by
  simp only [lerp, vector4Lerp, vector2Lerp, SoftRenderer.lerp_zero]

theorem lerp_one (a b : TypedVertex K) : a.lerp b 1 = b := by
  simp only [lerp, vector4Lerp, vector2Lerp, SoftRenderer.lerp_one]

theorem lerp_lerp (a b : TypedVertex K) (s u t : K) :
    (a.lerp b s).lerp (a.lerp b u) t = a.lerp b (SoftRenderer.lerp s u t) := by
  simp only [lerp, vector4Lerp, vector2Lerp, SoftRenderer.lerp_lerp]

end TypedVertex

abbrev VertexInterpolation (K : Type) :=
  VertexOut K → VertexOut K → K → Except LuaError (VertexOut K)

/-- The interpolation raises no error at `a`, `b` and `t`, and interpolates field by field. -/
def InterpolatesAt (interp : VertexInterpolation K) (a b : TypedVertex K) (t : K) : Prop :=
  interp a.toVertexOut b.toVertexOut t = .ok (a.lerp b t).toVertexOut

namespace InterpolatesAt

variable {interp : VertexInterpolation K} {a b : TypedVertex K}

theorem zero (h : InterpolatesAt interp a b 0) :
    interp a.toVertexOut b.toVertexOut 0 = .ok a.toVertexOut := by
  rw [h, a.lerp_zero b]

theorem one (h : InterpolatesAt interp a b 1) :
    interp a.toVertexOut b.toVertexOut 1 = .ok b.toVertexOut := by
  rw [h, a.lerp_one b]

theorem nested {s u t : K} (h : InterpolatesAt interp (a.lerp b s) (a.lerp b u) t) :
    interp (a.lerp b s).toVertexOut (a.lerp b u).toVertexOut t =
      .ok (a.lerp b (lerp s u t)).toVertexOut := by
  rw [h, a.lerp_lerp b]

end InterpolatesAt

/-- The calls of `vertexoutLerp` with every attribute in its own place. -/
def fieldwiseLerp (v1 v2 : VertexOut K) (t : K) : Except LuaError (VertexOut K) := do
  let normals ← Value.toVector4s "v1" "v2" v1.normal v2.normal
  let color ← Value.lerp v1.color v2.color t
  let oneDivZ ← Value.lerp v1.oneDivZ v2.oneDivZ t
  return {
    posWorld := vector4Lerp v1.posWorld v2.posWorld t
    posProj := vector4Lerp v1.posProj v2.posProj t
    tex := vector2Lerp v1.tex v2.tex t
    color := color
    normal := .vector4 (vector4Lerp normals.1 normals.2 t)
    oneDivZ := oneDivZ }

theorem fieldwiseLerp_interpolatesAt (a b : TypedVertex K) (t : K) :
    InterpolatesAt fieldwiseLerp a b t := rfl

theorem vertexoutLerp_toVertexOut (a b : TypedVertex K) (t : K) :
    vertexoutLerp a.toVertexOut b.toVertexOut t = .error (.arith .table) := rfl

/-- The position is subtracted from the position, so every interpolation fails: also at the ends
of the segment, and in the first of two nested interpolations. -/
theorem vertexoutLerp_never_interpolates (a b : TypedVertex K) :
    (∀ t, vertexoutLerp a.toVertexOut b.toVertexOut t = .error (.arith .table)) ∧
      (∀ t, ¬ InterpolatesAt vertexoutLerp a b t) ∧
      vertexoutLerp a.toVertexOut b.toVertexOut 0 ≠ .ok a.toVertexOut ∧
      vertexoutLerp a.toVertexOut b.toVertexOut 1 ≠ .ok b.toVertexOut ∧
      ∀ s u t v, (do
        let p ← vertexoutLerp a.toVertexOut b.toVertexOut s
        let q ← vertexoutLerp a.toVertexOut b.toVertexOut u
        vertexoutLerp p q t) ≠ .ok v := by
  have herror := vertexoutLerp_toVertexOut a b
  refine ⟨herror, ?_, ?_, ?_, ?_⟩
  · intro t h
    rw [InterpolatesAt, herror] at h
    cases h
  · rw [herror]
    exact nofun
  · rw [herror]
    exact nofun
  · intro s u t v h
    rw [herror] at h
    cases h

theorem vertexoutLerp_not_interpolatesAt :
    ¬ InterpolatesAt (K := ℚ) vertexoutLerp
      ⟨⟨0, 0, 0, 1⟩, ⟨0, 0, 0, 1⟩, ⟨0, 0⟩, ⟨0, 0, 1, 0⟩, 1, 1⟩
      ⟨⟨1, 0, 0, 1⟩, ⟨4, 0, 0, 1⟩, ⟨1, 0⟩, ⟨0, 1, 0, 0⟩, 3, 1⟩ (1 / 2) := by
  intro h
  rw [InterpolatesAt, vertexoutLerp_toVertexOut] at h
  cases h

end SoftRenderer
