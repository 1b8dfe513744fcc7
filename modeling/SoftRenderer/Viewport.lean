import SoftRenderer.DeviceContext

/-!
# The perspective divide and the viewport

`CVV` divides by the `w` of a global that does not exist, so it fails before it has changed
anything, and `transform2screen` is never reached.
-/

namespace SoftRenderer

open Kit Kit.Procedure

variable {K : Type} [Field K]

namespace DeviceContext

theorem CVV_apply (v : VertexOut K) (world : World K) :
    CVV v world = (.error (.index .globalVar "w" .nil), world) := rfl

def toScreen (width height : K) (v : VertexOut K) : LuaM K (VertexOut K) := do
  let v ← CVV v
  transform2screen (screenTransform width height) v

theorem toScreen_apply (width height : K) (v : VertexOut K) (world : World K) :
    toScreen width height v world = (.error (.index .globalVar "w" .nil), world) :=
  bind_error (CVV_apply v world)

variable [LinearOrder K]

def MapsToScreen (width height : K) (v : VertexOut K) (world : World K) : Prop :=
  ∃ v' world', toScreen width height v world = (.ok v', world') ∧
    v'.posProj = ⟨(v.posProj.x / v.posProj.w + 1) * (width * 0.5),
      (v.posProj.y / v.posProj.w + 1) * (height * 0.5), v.posProj.z / v.posProj.w, 1⟩ ∧
    (0 ≤ v'.posProj.x ∧ v'.posProj.x ≤ width) ∧ (0 ≤ v'.posProj.y ∧ v'.posProj.y ≤ height) ∧
    0 ≤ v'.posProj.z ∧ v'.posProj.z ≤ 1

/-- No vertex reaches the screen, whatever the size of the window. -/
theorem not_mapsToScreen (width height : K) (v : VertexOut K) (world : World K) :
    ¬ MapsToScreen width height v world := by
  rintro ⟨v', world', hrun, -⟩
  rw [toScreen_apply] at hrun
  cases hrun

theorem mapsToScreen_counterexample :
    ¬ ∀ (width height : ℚ) (v : VertexOut ℚ) (world : World ℚ), 0 < width → 0 < height →
      0 < v.posProj.w → (-v.posProj.w ≤ v.posProj.x ∧ v.posProj.x ≤ v.posProj.w) →
      (-v.posProj.w ≤ v.posProj.y ∧ v.posProj.y ≤ v.posProj.w) →
      (0 ≤ v.posProj.z ∧ v.posProj.z ≤ v.posProj.w) → MapsToScreen width height v world := by
  intro h
  obtain ⟨v', world', hrun, -⟩ := h 800 600
    ⟨⟨0, 0, 0, 1⟩, ⟨0, 0, 0, 1⟩, ⟨0, 0⟩, .number 0, .vector4 ⟨0, 1, 0, 0⟩, .number 1⟩ (.initial ℚ)
    (by norm_num) (by norm_num) (by norm_num) (by norm_num) (by norm_num) (by norm_num)
  rw [toScreen_apply] at hrun
  cases hrun

end DeviceContext
end SoftRenderer
