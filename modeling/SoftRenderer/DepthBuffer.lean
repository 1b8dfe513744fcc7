import SoftRenderer.Device

/-!
# The depth buffer

`Device:ctor` leaves the table `z_buff` empty and no method stores a row in it, so the first
fragment of a span indexes `nil`. A sequence of spans keeps its promise about depths only when none
of them has a column on the device.
-/

namespace SoftRenderer

open Kit Kit.Procedure

/-- The end of a span, with numbers and vectors where the pipeline puts them. -/
structure SpanEnd (K : Type) where
  posWorld : Vector4 K
  posProj : Vector4 K
  tex : Vector2 K
  color : K
  normal : Vector4 K
  oneDivZ : K

def SpanEnd.toVertexOut {K : Type} (v : SpanEnd K) : VertexOut K :=
  ⟨v.posWorld, v.posProj, v.tex, .number v.color, .vector4 v.normal, .number v.oneDivZ⟩

structure SpanCall (K : Type) where
  left : SpanEnd K
  right : SpanEnd K
  yIndex : K

variable {K : Type} [Field K] [LinearOrder K]

namespace SpanCall

def lerpFactor (c : SpanCall K) (x : K) : K :=
  let dx := c.right.posProj.x - c.left.posProj.x
  if dx ≠ 0 then (x - c.left.posProj.x) / dx else 0

/-- The loop reaches the column at `x`, and the column is one of the device. -/
def HasColumn (self : Device K) (c : SpanCall K) (x : K) : Prop :=
  (∃ k : ℕ, x = c.left.posProj.x + k ∧ x ≤ c.right.posProj.x) ∧ 0 ≤ x + 0.5 ∧ x + 0.5 < self.width

/-- The span has a fragment of the depth `d` at the place `(x, y)` of the buffer. -/
def Covers (self : Device K) (c : SpanCall K) (x y d : K) : Prop :=
  ∃ column, c.HasColumn self column ∧ x = column + 0.5 ∧ y = c.yIndex ∧
    d = lerp c.left.oneDivZ c.right.oneDivZ (c.lerpFactor column)

end SpanCall

namespace Device

variable [FloorRing K]

def fillSpans (self : Device K) (calls : List (SpanCall K)) : LuaM K Unit :=
  forEach calls fun c => self.scanlineFill c.left.toVertexOut c.right.toVertexOut c.yIndex

def storedDepth (world : World K) (x y : K) : Value K :=
  match world.zBuff x with
  | none => .nil
  | some row => row y

def shown (world : World K) (x y : K) : Option (Fragment K) :=
  (world.fragments.filter fun f => f.x = x ∧ f.y = y).getLast?

def IsDepth (self : Device K) (calls : List (SpanCall K)) (x y d : K) : Prop :=
  IsGreatest {d | ∃ c ∈ calls, c.Covers self x y d} d

/-- The spans are drawn without an error, every place that one of them covers holds the greatest
depth and shows a fragment of that depth, and the depths do not depend on the order. -/
structure KeepsDepths (device : Device K) (calls : List (SpanCall K)) (world : World K) :
    Prop where
  run : device.fillSpans calls (.initial K) = (.ok (), world)
  stored : ∀ c ∈ calls, ∀ x y d, c.Covers device x y d →
    ∃ d, storedDepth world x y = .number d ∧ device.IsDepth calls x y d
  painted : ∀ p ∈ world.pixels, ∃ f d, shown world p.x p.y = some f ∧ f.oneDivZ = .number d ∧
    device.IsDepth calls p.x p.y d
  order : ∀ calls' : List (SpanCall K), calls'.Perm calls →
    ∃ world', device.fillSpans calls' (.initial K) = (.ok (), world') ∧ world'.zBuff = world.zBuff

def OrderIndependent (self : Device K) (calls : List (SpanCall K)) : Prop :=
  ∃ world, self.KeepsDepths calls world

omit [LinearOrder K] [FloorRing K] in
theorem number_lerp (a b t : K) :
    Value.lerp (.number a) (.number b) t = .ok (.number (lerp a b t)) := rfl

variable [IsStrictOrderedRing K]

/-- As long as no row is stored, a span fails if it has a column and does nothing otherwise. -/
theorem scanlineFill_failsIf (self : Device K) (c : SpanCall K) {world : World K}
    (hbuff : world.zBuff = fun _ => none) :
    FailsIf (self.scanlineFill c.left.toVertexOut c.right.toVertexOut c.yIndex) world
      (∃ x, c.HasColumn self x) := by
  have hcolumns : (∃ x ∈ forValues c.left.posProj.x c.right.posProj.x,
      0 ≤ x + 0.5 ∧ x + 0.5 < self.width) ↔ ∃ x, c.HasColumn self x := by
    simp only [mem_forValues, SpanCall.HasColumn]
  refine FailsIf.congr (FailsIf.forEach fun x _ => FailsIf.ite ?_) hcolumns
  have hrow (y : K) : world.zBuff y = none := by
    rw [hbuff]
  -- the depth is computed without an error, whether the span has a length or not
  split_ifs
  · refine ⟨.index .field "?" .nil,
      { world with divisors := world.divisors ++ [c.right.posProj.x - c.left.posProj.x] }, ?_⟩
    simp only [divide, SpanEnd.toVertexOut, number_lerp, bind_apply, change_apply, pure_apply,
      lift_apply, read_apply, hrow, raise_apply]
  · refine ⟨.index .field "?" .nil, world, ?_⟩
    simp only [SpanEnd.toVertexOut, number_lerp, bind_apply, pure_apply, lift_apply, read_apply,
      hrow, raise_apply]

theorem fillSpans_failsIf (self : Device K) (calls : List (SpanCall K)) :
    FailsIf (self.fillSpans calls) (.initial K) (∃ c ∈ calls, ∃ x, c.HasColumn self x) :=
  FailsIf.forEach fun c _ => self.scanlineFill_failsIf c rfl

theorem OrderIndependent.no_column {self : Device K} {calls : List (SpanCall K)}
    (h : self.OrderIndependent calls) : ¬ ∃ c ∈ calls, ∃ x, c.HasColumn self x := by
  intro hcolumn
  obtain ⟨world, hkeeps⟩ := h
  obtain ⟨e, world', hrun⟩ := (self.fillSpans_failsIf calls).1 hcolumn
  rw [hkeeps.run] at hrun
  cases hrun

/-- The buffer keeps its promise exactly for the sequences in which no span has a column on the
device, so that there is nothing to draw. -/
theorem orderIndependent_iff (w h : K) (calls : List (SpanCall K)) :
    (Device.new w h).OrderIndependent calls ↔
      ¬ ∃ c ∈ calls, ∃ x, c.HasColumn (Device.new w h) x := by
  constructor
  · exact OrderIndependent.no_column
  · intro hnone
    have hrun (calls' : List (SpanCall K)) (hperm : calls'.Perm calls) :
        (Device.new w h).fillSpans calls' (.initial K) = (.ok (), .initial K) := by
      apply ((Device.new w h).fillSpans_failsIf calls').2
      rintro ⟨c, hc, hcolumn⟩
      exact hnone ⟨c, hperm.mem_iff.mp hc, hcolumn⟩
    refine ⟨.initial K, hrun calls (List.Perm.refl calls), ?_, ?_, ?_⟩
    · rintro c hc x y d ⟨column, hcolumn, -⟩
      exact absurd ⟨c, hc, column, hcolumn⟩ hnone
    · intro p hp
      cases hp
    · intro calls' hperm
      exact ⟨.initial K, hrun calls' hperm, rfl⟩

theorem orderIndependent_outside :
    (Device.new 800 600 : Device ℚ).OrderIndependent
      [⟨⟨⟨0, 0, 0, 1⟩, ⟨-20, 5, 0, 1⟩, ⟨0, 0⟩, 0, ⟨0, 1, 0, 0⟩, 1⟩,
        ⟨⟨1, 0, 0, 1⟩, ⟨-10, 5, 0, 1⟩, ⟨1, 0⟩, 0, ⟨0, 1, 0, 0⟩, 1⟩, 5.5⟩] := by
  rw [orderIndependent_iff]
  rintro ⟨c, hc, x, ⟨k, -, hx⟩, h0, -⟩
  rw [List.mem_singleton.mp hc] at hx
  norm_num at hx h0
  linarith

theorem not_orderIndependent :
    ¬ ∀ (w h : ℚ) (calls : List (SpanCall ℚ)),
      (∀ c ∈ calls, 0 ≤ c.yIndex ∧ c.yIndex < h) → (Device.new w h).OrderIndependent calls := by
  intro h
  have hindependent := h 800 600
    [⟨⟨⟨0, 0, 0, 1⟩, ⟨10, 5, 0, 1⟩, ⟨0, 0⟩, 0, ⟨0, 1, 0, 0⟩, 1⟩,
      ⟨⟨1, 0, 0, 1⟩, ⟨12, 5, 0, 1⟩, ⟨1, 0⟩, 0, ⟨0, 1, 0, 0⟩, 1⟩, 5.5⟩] (by norm_num)
  apply hindependent.no_column
  refine ⟨_, List.mem_cons_self, 10, ⟨0, ?_, ?_⟩, ?_, ?_⟩
  all_goals norm_num [Device.new]

end Device
end SoftRenderer
