import SoftRenderer.Kit.Calls
import SoftRenderer.TriangleInterpolation
import SoftRenderer.Fill

/-!
# The flat triangles that a triangle is split into

Both routines for triangles are programs that leave open what is done with a flat triangle.
`draw_triangle` splits a triangle at its middle vertex, whatever the order of the vertices.
`drawTriangle` takes the abscissa of the topmost point for that of the longest edge, and exchanges
two heights when its points come in ascending order, so it splits correctly only when that edge is
vertical and the points come in another order.
-/

namespace SoftRenderer

open Kit Kit.Procedure

theorem perm_pair_cases {α : Type} {a b x y : α} (h : [a, b].Perm [x, y]) :
    (a = x ∧ b = y) ∨ (a = y ∧ b = x) := by
  rcases List.mem_pair.mp (h.mem_iff.mp List.mem_cons_self) with rfl | rfl
  · rw [List.perm_cons, List.singleton_perm_singleton] at h
    exact Or.inl ⟨rfl, h⟩
  · have h' := h.trans (List.Perm.swap a x [])
    rw [List.perm_cons, List.singleton_perm_singleton] at h'
    exact Or.inr ⟨rfl, h'⟩

theorem perm_three_cases {α : Type} {a b c x y z : α} (h : [a, b, c].Perm [x, y, z]) :
    (a = x ∧ ((b = y ∧ c = z) ∨ (b = z ∧ c = y))) ∨
      (a = y ∧ ((b = x ∧ c = z) ∨ (b = z ∧ c = x))) ∨
      (a = z ∧ ((b = x ∧ c = y) ∨ (b = y ∧ c = x))) := by
  have hhead : a ∈ [a, b, c] := List.mem_cons_self
  have hmem : a = x ∨ a = y ∨ a = z := by
    simpa using h.mem_iff.mp hhead
  rcases hmem with rfl | rfl | rfl
  · exact Or.inl ⟨rfl, perm_pair_cases ((List.perm_cons a).mp h)⟩
  · have h' := h.trans (List.Perm.swap a x [z])
    exact Or.inr (Or.inl ⟨rfl, perm_pair_cases ((List.perm_cons a).mp h')⟩)
  · have hrotate : [x, y, a].Perm [a, x, y] := List.perm_append_comm_assoc [x, y] [a] []
    have h' := h.trans hrotate
    exact Or.inr (Or.inr ⟨rfl, perm_pair_cases ((List.perm_cons a).mp h')⟩)

inductive FlatCall (V : Type)
  | bottom (apex v w : V)
  | top (v w apex : V)

namespace FlatCall

variable {V : Type}

def swap : FlatCall V → FlatCall V
  | bottom apex v w => bottom apex w v
  | top v w apex => top w v apex

def SameTriangle (c d : FlatCall V) : Prop := d = c ∨ d = c.swap

def vertices : FlatCall V → List V
  | bottom apex v w => [apex, v, w]
  | top v w apex => [apex, v, w]

theorem sameTriangle_bottom {a v w a' v' w' : V} :
    SameTriangle (bottom a v w) (bottom a' v' w') ↔
      a' = a ∧ ((v' = v ∧ w' = w) ∨ (v' = w ∧ w' = v)) := by
  simp only [SameTriangle, swap, bottom.injEq]
  exact and_or_left.symm

theorem sameTriangle_top {a v w a' v' w' : V} :
    SameTriangle (top v w a) (top v' w' a') ↔
      a' = a ∧ ((v' = v ∧ w' = w) ∨ (v' = w ∧ w' = v)) := by
  simp only [SameTriangle, swap, top.injEq]
  rw [← and_assoc, ← and_assoc, ← or_and_right, and_comm]

theorem not_sameTriangle_bottom_top {a v w a' v' w' : V} :
    ¬ SameTriangle (bottom a v w) (top v' w' a') := by
  simp [SameTriangle, swap]

theorem sameTriangles_split_iff {t m e b T M E B : V} {cs : List (FlatCall V)}
    (hcs : cs = [bottom t m e, top m e b] ∨ cs = [bottom t e m, top e m b]) :
    (∃ ds, List.Forall₂ SameTriangle cs ds ∧ ds.Perm [bottom T M E, top M E B]) ↔
      T = t ∧ B = b ∧ ((M = m ∧ E = e) ∨ (M = e ∧ E = m)) := by
  constructor
  · rintro ⟨ds, hsame, hperm⟩
    have hlength : ds.length = 2 := hperm.length_eq
    obtain ⟨d1, d2, rfl⟩ := List.length_eq_two.mp hlength
    rcases perm_pair_cases hperm with ⟨rfl, rfl⟩ | ⟨rfl, rfl⟩
    · rcases hcs with rfl | rfl
      · simp only [List.forall₂_cons, sameTriangle_bottom,
          sameTriangle_top] at hsame
        exact ⟨hsame.1.1, hsame.2.1.1, hsame.1.2⟩
      · simp only [List.forall₂_cons, sameTriangle_bottom,
          sameTriangle_top] at hsame
        exact ⟨hsame.1.1, hsame.2.1.1, hsame.1.2.symm⟩
    · rcases hcs with rfl | rfl
      · rw [List.forall₂_cons] at hsame
        exact absurd hsame.1 not_sameTriangle_bottom_top
      · rw [List.forall₂_cons] at hsame
        exact absurd hsame.1 not_sameTriangle_bottom_top
  · rintro ⟨rfl, rfl, hside⟩
    refine ⟨_, ?_, List.Perm.refl _⟩
    rcases hcs with rfl | rfl
    · simp only [List.forall₂_cons, sameTriangle_bottom, sameTriangle_top,
        List.Forall₂.nil, true_and, and_true, and_self]
      exact hside
    · simp only [List.forall₂_cons, sameTriangle_bottom, sameTriangle_top,
        List.Forall₂.nil, true_and, and_true, and_self]
      exact hside.symm

end FlatCall

variable {K : Type} [Field K]

def World.counter (K : Type) [Field K] : Counter (World K) where
  count world := world.pixels.length
  tick world := { world with pixels := world.pixels ++ [⟨0, 0, .nil⟩] }
  count_tick world := by simp

theorem makesCalls_unique {γ : Type} {prog : (γ → LuaM K Unit) → LuaM K Unit} {cs ds : List γ}
    (hcs : MakesCalls prog cs) (hds : MakesCalls prog ds) : cs = ds :=
  MakesCalls.unique (World.counter K) (.arith .nil) hcs hds

theorem MakesCalls.divide {γ : Type} {a b : K} {prog : K → (γ → LuaM K Unit) → LuaM K Unit}
    {cs : List γ} (h : MakesCalls (prog (a / b)) cs) :
    MakesCalls (fun handler => divide a b >>= fun q => prog q handler) cs :=
  h.after fun _ => rfl

variable [LinearOrder K]

/-- `drawTriangle`, with what is done with a flat triangle left open. -/
def openDrawTriangle (pa pb pc : Vector2 K) (handler : FlatCall (Vector2 K) → LuaM K Unit) :
    LuaM K Unit :=
  pointCases (fun a b c => handler (.bottom a b c)) (fun a b c => handler (.top a b c)) pa pb pc

def Device.fillFlat [FloorRing K] (cfg : Config K) (self : Device K) (color : Value K) :
    FlatCall (Vector2 K) → LuaM K Unit
  | .bottom a b c => self.drawTriangleBottom cfg a b c color
  | .top a b c => self.drawTriangleTop cfg a b c color

theorem drawTriangle_eq [FloorRing K] (cfg : Config K) (self : Device K) (pa pb pc : Vector2 K)
    (color : Value K) :
    self.drawTriangle cfg pa pb pc color =
      openDrawTriangle pa pb pc (self.fillFlat cfg color) := rfl

/-- With `T` the topmost, `M` the middle and `B` the bottommost point, the calls are one on `T` and
one on `B`, each with `M` and the point of the edge from `T` to `B` at the height of `M`. Neither
the order of the calls nor that of these two points matters. -/
def SplitsAt (T M B pa pb pc : Vector2 K) : Prop :=
  ∃ cs ds, MakesCalls (openDrawTriangle pa pb pc) cs ∧
    List.Forall₂ FlatCall.SameTriangle cs ds ∧
    ds.Perm [.bottom T M ⟨edgeAt M.y T B, M.y⟩, .top M ⟨edgeAt M.y T B, M.y⟩ B]

theorem openDrawTriangle_calls {pa pb pc top mid bot : Vector2 K} (hab : pa.y ≠ pb.y)
    (hac : pa.y ≠ pc.y) (hbc : pb.y ≠ pc.y) (hordered : orderedPoints pa pb pc =
      some (top, mid, bot)) :
    MakesCalls (openDrawTriangle pa pb pc)
      (if pa.x < mid.x then
        [.bottom top ⟨top.x + 0.5, mid.y⟩ mid, .top ⟨top.x + 0.5, mid.y⟩ mid bot]
      else [.bottom top mid ⟨top.x + 0.5, mid.y⟩, .top mid ⟨top.x + 0.5, mid.y⟩ bot]) := by
  have hslope : (mid.y - top.y) * (top.x - top.x) / (bot.y - top.y) = 0 := by
    rw [sub_self, mul_zero, zero_div]
  have hopen : openDrawTriangle pa pb pc = fun handler =>
      SoftRenderer.divide ((mid.y - top.y) * (top.x - top.x)) (bot.y - top.y) >>= fun slope =>
        if pa.x < mid.x then
          handler (.bottom top ⟨slope + top.x + 0.5, mid.y⟩ mid) >>= fun _ =>
            handler (.top ⟨slope + top.x + 0.5, mid.y⟩ mid bot)
        else
          handler (.bottom top mid ⟨slope + top.x + 0.5, mid.y⟩) >>= fun _ =>
            handler (.top mid ⟨slope + top.x + 0.5, mid.y⟩ bot) := by
    funext handler
    rw [openDrawTriangle, pointCases, if_neg hab, if_neg hac, if_neg hbc, hordered]
  rw [hopen]
  apply MakesCalls.divide
  rw [hslope, zero_add]
  split_ifs
  · exact MakesCalls.pair _ _
  · exact MakesCalls.pair _ _

theorem splitsAt_iff_of_ordered {T M B pa pb pc top mid bot : Vector2 K} (hab : pa.y ≠ pb.y)
    (hac : pa.y ≠ pc.y) (hbc : pb.y ≠ pc.y)
    (hordered : orderedPoints pa pb pc = some (top, mid, bot)) :
    SplitsAt T M B pa pb pc ↔
      T = top ∧ B = bot ∧
        ((M = mid ∧ (⟨edgeAt M.y T B, M.y⟩ : Vector2 K) = ⟨top.x + 0.5, mid.y⟩) ∨
          (M = ⟨top.x + 0.5, mid.y⟩ ∧ ⟨edgeAt M.y T B, M.y⟩ = mid)) := by
  have hmade := openDrawTriangle_calls hab hac hbc hordered
  rw [← FlatCall.sameTriangles_split_iff (ite_eq_or_eq (pa.x < mid.x) _ _).symm]
  constructor
  · rintro ⟨cs, ds, hcs, hsame, hperm⟩
    rw [makesCalls_unique hcs hmade] at hsame
    exact ⟨ds, hsame, hperm⟩
  · rintro ⟨ds, hsame, hperm⟩
    exact ⟨_, ds, hmade, hsame, hperm⟩

omit [Field K] in
/-- In ascending order the last two heights are exchanged, in any other order the points are sorted
by height. -/
theorem orderedPoints_of_perm {T M B pa pb pc : Vector2 K} (hTM : T.y < M.y) (hMB : M.y < B.y)
    (hperm : [pa, pb, pc].Perm [T, M, B]) :
    orderedPoints pa pb pc = if pa.y < pb.y ∧ pb.y < pc.y then some (T, ⟨M.x, B.y⟩, M)
      else some (T, M, B) := by
  have hTB := hTM.trans hMB
  rcases perm_three_cases hperm with ⟨rfl, ⟨rfl, rfl⟩ | ⟨rfl, rfl⟩⟩ |
    ⟨rfl, ⟨rfl, rfl⟩ | ⟨rfl, rfl⟩⟩ | ⟨rfl, ⟨rfl, rfl⟩ | ⟨rfl, rfl⟩⟩
  all_goals simp [orderedPoints, hTM, hMB, hTB, hTM.not_gt, hMB.not_gt, hTB.not_gt]

omit [LinearOrder K] in
theorem edgeAt_eq_iff {T M B : Vector2 K} (hTM : T.y ≠ M.y) (hTB : T.y ≠ B.y) :
    edgeAt M.y T B = T.x + 0.5 ↔ T.x = B.x := by
  rw [edgeAt, add_left_inj, add_eq_right, div_eq_zero_iff, mul_eq_zero, sub_eq_zero, sub_eq_zero,
    sub_eq_zero]
  simp only [hTM.symm, hTB.symm, false_or, or_false]
  exact eq_comm

theorem splitsAt_iff {T M B pa pb pc : Vector2 K} (hTM : T.y < M.y) (hMB : M.y < B.y)
    (hperm : [pa, pb, pc].Perm [T, M, B]) :
    SplitsAt T M B pa pb pc ↔ ¬ (pa.y < pb.y ∧ pb.y < pc.y) ∧ T.x = B.x := by
  have hTB := hTM.trans hMB
  have hnodup : [pa.y, pb.y, pc.y].Nodup := by
    have hsorted : [T.y, M.y, B.y].Nodup := by simp [hTM.ne, hMB.ne, hTB.ne]
    exact (hperm.map Vector2.y).nodup_iff.mpr hsorted
  obtain ⟨hab, hac, hbc⟩ : pa.y ≠ pb.y ∧ pa.y ≠ pc.y ∧ pb.y ≠ pc.y := by
    simpa [and_assoc] using hnodup
  have hordered := orderedPoints_of_perm hTM hMB hperm
  by_cases hascending : pa.y < pb.y ∧ pb.y < pc.y
  · rw [if_pos hascending] at hordered
    rw [splitsAt_iff_of_ordered hab hac hbc hordered]
    simp only [hascending, not_true, false_and, iff_false, and_self]
    rintro ⟨-, rfl, -⟩
    exact hMB.false
  · rw [if_neg hascending] at hordered
    rw [splitsAt_iff_of_ordered hab hac hbc hordered, ← edgeAt_eq_iff hTM.ne hTB.ne]
    constructor
    · rintro ⟨-, -, ⟨-, hedge⟩ | ⟨hmid, hedge⟩⟩
      · exact ⟨hascending, congrArg Vector2.x hedge⟩
      · exact ⟨hascending, congrArg Vector2.x (hedge.trans hmid)⟩
    · rintro ⟨-, hedge⟩
      exact ⟨rfl, rfl, Or.inl ⟨rfl, by rw [hedge]⟩⟩

/-- What is asked of a triangle with three different heights, in all orders of its points. -/
structure SplitsInEveryOrder [FloorRing K] (cfg : Config K) (device : Device K) (color : Value K)
    (T M B : Vector2 K) : Prop where
  splits : ∀ pa pb pc, [pa, pb, pc].Perm [T, M, B] → SplitsAt T M B pa pb pc
  painted : ∀ pa pb pc, [pa, pb, pc].Perm [T, M, B] → ∀ p : Pixel K,
    p ∈ (device.drawTriangle cfg pa pb pc color (.initial K)).2.pixels ↔
      p ∈ (device.drawTriangle cfg T M B color (.initial K)).2.pixels

/-- In one order of its points `drawTriangle` splits a triangle correctly exactly when the points
do not ascend and the longest edge is vertical; so it never does in all orders. -/
theorem drawTriangle_splits_iff [FloorRing K] (cfg : Config K) (self : Device K) (color : Value K)
    {T M B : Vector2 K} (hTM : T.y < M.y) (hMB : M.y < B.y) :
    (∀ pa pb pc, [pa, pb, pc].Perm [T, M, B] →
      self.drawTriangle cfg pa pb pc color = openDrawTriangle pa pb pc (self.fillFlat cfg color) ∧
      (SplitsAt T M B pa pb pc ↔ ¬ (pa.y < pb.y ∧ pb.y < pc.y) ∧ T.x = B.x)) ∧
    ¬ SplitsInEveryOrder cfg self color T M B := by
  constructor
  · intro pa pb pc hperm
    exact ⟨drawTriangle_eq cfg self pa pb pc color, splitsAt_iff hTM hMB hperm⟩
  · intro h
    have hsplits := h.splits T M B (List.Perm.refl _)
    rw [splitsAt_iff hTM hMB (List.Perm.refl _)] at hsplits
    exact hsplits.1 ⟨hTM, hMB⟩

theorem drawTriangle_splits_vertical :
    SplitsAt (⟨10, 10⟩ : Vector2 ℚ) ⟨30, 20⟩ ⟨10, 40⟩ ⟨30, 20⟩ ⟨10, 10⟩ ⟨10, 40⟩ := by
  have hperm : ([⟨30, 20⟩, ⟨10, 10⟩, ⟨10, 40⟩] : List (Vector2 ℚ)).Perm
      [⟨10, 10⟩, ⟨30, 20⟩, ⟨10, 40⟩] := List.Perm.swap _ _ _
  have hsplits := (drawTriangle_splits_iff (.source : Config ℚ) (.new 800 600) .nil
    (by norm_num) (by norm_num)).1 _ _ _ hperm
  exact hsplits.2.mpr (by norm_num)

/-- The middle point comes first, and the longest edge is not vertical. -/
theorem drawTriangle_not_splits :
    ¬ ∀ T M B : Vector2 ℚ, T.y < M.y → M.y < B.y →
      SplitsInEveryOrder .source (.new 800 600) (.number 255) T M B := by
  intro h
  have hperm : ([⟨30, 20⟩, ⟨10, 10⟩, ⟨20, 40⟩] : List (Vector2 ℚ)).Perm
      [⟨10, 10⟩, ⟨30, 20⟩, ⟨20, 40⟩] := List.Perm.swap _ _ _
  have hsplits := (h ⟨10, 10⟩ ⟨30, 20⟩ ⟨20, 40⟩ (by norm_num) (by norm_num)).splits _ _ _ hperm
  rw [splitsAt_iff (by norm_num) (by norm_num) hperm] at hsplits
  norm_num at hsplits

/-- `draw_triangle`, with what is done with a flat triangle left open. -/
def openDraw_triangle (vertexoutLerp : VertexOut K → VertexOut K → K → LuaM K (VertexOut K))
    (v1 v2 v3 : VertexOut K) (handler : FlatCall (VertexOut K) → LuaM K Unit) : LuaM K Unit :=
  Device.triangleCases vertexoutLerp (fun a b c => handler (.bottom a b c))
    (fun a b c => handler (.top a b c)) v1 v2 v3

def Device.rasterFlat [FloorRing K] (calls : RasterCalls K) (self : Device K) :
    FlatCall (VertexOut K) → LuaM K Unit
  | .bottom a b c => self.drawTriangleFlatBottom calls a b c
  | .top a b c => self.drawTriangleFlatTop calls a b c

theorem draw_triangle_eq [FloorRing K] (calls : RasterCalls K) (self : Device K)
    (v1 v2 v3 : VertexOut K) :
    self.draw_triangle calls v1 v2 (some v3) =
      openDraw_triangle calls.vertexoutLerp v1 v2 v3 (self.rasterFlat calls) := rfl

/-- What the two helpers expect of their arguments. -/
def FlatCall.WellPlaced : FlatCall (VertexOut K) → Prop
  | bottom a b c => a.posProj.y < b.posProj.y ∧ b.posProj.y = c.posProj.y
  | top a b c => a.posProj.y = b.posProj.y ∧ b.posProj.y < c.posProj.y

omit [Field K] in
theorem FlatCall.WellPlaced.sameTriangle {c d : FlatCall (VertexOut K)} (hc : c.WellPlaced)
    (hd : d.WellPlaced) (hperm : c.vertices.Perm d.vertices) : SameTriangle c d := by
  cases c with
  | bottom a v w =>
      cases d with
      | bottom a' v' w' =>
          rw [sameTriangle_bottom]
          have hcases := perm_three_cases hperm
          simp only [WellPlaced] at hc hd
          grind
      | top v' w' a' =>
          have hcases := perm_three_cases hperm
          simp only [WellPlaced] at hc hd
          grind
  | top v w a =>
      cases d with
      | bottom a' v' w' =>
          have hcases := perm_three_cases hperm
          simp only [WellPlaced] at hc hd
          grind
      | top v' w' a' =>
          rw [sameTriangle_top]
          have hcases := perm_three_cases hperm
          simp only [WellPlaced] at hc hd
          grind

theorem openDraw_triangle_flat
    (vertexoutLerp : VertexOut K → VertexOut K → K → LuaM K (VertexOut K)) {v1 v2 v3 : VertexOut K}
    (hflat : ¬ (Device.heights v1 v2 v3).Nodup)
    (hne : ¬ (v1.posProj.y = v2.posProj.y ∧ v2.posProj.y = v3.posProj.y)) :
    ∃ c, MakesCalls (openDraw_triangle vertexoutLerp v1 v2 v3) [c] ∧ c.WellPlaced ∧
      c.vertices.Perm [v1, v2, v3] := by
  have hrotate : [v3, v1, v2].Perm [v1, v2, v3] := (List.perm_append_singleton v3 [v1, v2]).symm
  have hswap : [v2, v1, v3].Perm [v1, v2, v3] := List.Perm.swap v1 v2 [v3]
  rw [Device.heights_nodup_iff] at hflat
  unfold openDraw_triangle Device.triangleCases
  split_ifs with hab hc hac hb hbc ha
  · exact ⟨_, MakesCalls.call _, ⟨hc.lt_of_ne fun h => hne ⟨hab, hab.symm.trans h.symm⟩, hab⟩,
      hrotate⟩
  · exact ⟨_, MakesCalls.call _, ⟨hab, hab ▸ not_le.mp hc⟩, hrotate⟩
  · exact ⟨_, MakesCalls.call _, ⟨hb.lt_of_ne' hab, hac⟩, hswap⟩
  · exact ⟨_, MakesCalls.call _, ⟨hac, hac ▸ not_le.mp hb⟩, hswap⟩
  · exact ⟨_, MakesCalls.call _, ⟨ha.lt_of_ne hab, hbc⟩, List.Perm.refl _⟩
  · exact ⟨_, MakesCalls.call _, ⟨hbc, hbc ▸ not_le.mp ha⟩, List.Perm.refl _⟩
  · exact absurd ⟨hab, hac, hbc⟩ hflat

section Lerp

variable {lerp : VertexOut K → VertexOut K → K → VertexOut K}
  (hlerp : ∀ a b t, (lerp a b t).posProj = vector4Lerp a.posProj b.posProj t)

include hlerp

omit [LinearOrder K] in
theorem assigned_eq {top mid bot : VertexOut K} (htb : top.posProj.y ≠ bot.posProj.y) {t : K}
    (ht : t = (mid.posProj.y - top.posProj.y) / (bot.posProj.y - top.posProj.y)) :
    (lerp top bot t).posProj.y = mid.posProj.y ∧
      { lerp top bot t with
        posProj := { (lerp top bot t).posProj with
          x := (mid.posProj.y - top.posProj.y) * (bot.posProj.x - top.posProj.x) /
            (bot.posProj.y - top.posProj.y) + top.posProj.x
          y := mid.posProj.y } } = lerp top bot t := by
  have hne : bot.posProj.y - top.posProj.y ≠ 0 := sub_ne_zero.mpr htb.symm
  have hx : (lerp top bot t).posProj.x = (mid.posProj.y - top.posProj.y) *
      (bot.posProj.x - top.posProj.x) / (bot.posProj.y - top.posProj.y) + top.posProj.x := by
    rw [hlerp, vector4Lerp_x, SoftRenderer.lerp, ht]
    ring
  have hy : (lerp top bot t).posProj.y = mid.posProj.y := by
    rw [hlerp, vector4Lerp_y, SoftRenderer.lerp, ht, mul_div_cancel₀ _ hne]
    ring
  refine ⟨hy, ?_⟩
  rw [← hx, ← hy]

theorem openDraw_triangle_split {v1 v2 v3 : VertexOut K}
    (hnodup : (Device.heights v1 v2 v3).Nodup) :
    ∃ top mid bot t, [top, mid, bot].Perm [v1, v2, v3] ∧ top.posProj.y < mid.posProj.y ∧
      mid.posProj.y < bot.posProj.y ∧
      t = (mid.posProj.y - top.posProj.y) / (bot.posProj.y - top.posProj.y) ∧
      MakesCalls (openDraw_triangle (fun a b t => pure (lerp a b t)) v1 v2 v3)
        [.top mid (lerp top bot t) bot, .bottom top mid (lerp top bot t)] := by
  obtain ⟨hab, hac, hbc⟩ := Device.heights_nodup_iff.mp hnodup
  obtain ⟨top, mid, bot, hsort, hperm, htm, hmb⟩ := Device.exists_sorted_three hnodup
  refine ⟨top, mid, bot, _, hperm, htm, hmb, rfl, ?_⟩
  have hassigned := (assigned_eq hlerp (htm.trans hmb).ne
    (rfl : _ = (mid.posProj.y - top.posProj.y) / (bot.posProj.y - top.posProj.y))).2
  have hopen : openDraw_triangle (fun a b t => pure (lerp a b t)) v1 v2 v3 = fun handler =>
      SoftRenderer.divide ((mid.posProj.y - top.posProj.y) * (bot.posProj.x - top.posProj.x))
          (bot.posProj.y - top.posProj.y) >>= fun slope =>
        SoftRenderer.divide (mid.posProj.y - top.posProj.y)
            (bot.posProj.y - top.posProj.y) >>= fun t =>
          handler (.top mid { lerp top bot t with
            posProj := { (lerp top bot t).posProj with
              x := slope + top.posProj.x, y := mid.posProj.y } } bot) >>= fun _ =>
          handler (.bottom top mid { lerp top bot t with
            posProj := { (lerp top bot t).posProj with
              x := slope + top.posProj.x, y := mid.posProj.y } }) := by
    funext handler
    simp only [openDraw_triangle, Device.triangleCases, if_neg hab, if_neg hac, if_neg hbc, hsort,
      pure_bind]
  rw [hopen]
  apply MakesCalls.divide
  apply MakesCalls.divide
  rw [hassigned]
  exact MakesCalls.pair _ _

end Lerp

/-- What `draw_triangle` does with three vertices that are not all at one height. -/
structure Dispatches (lerp : VertexOut K → VertexOut K → K → VertexOut K) (v1 v2 v3 : VertexOut K)
    (cs : List (FlatCall (VertexOut K))) : Prop where
  makes : MakesCalls (openDraw_triangle (fun a b t => pure (lerp a b t)) v1 v2 v3) cs
  placed : ∀ c ∈ cs, c.WellPlaced
  split : (Device.heights v1 v2 v3).Nodup → ∃ top mid bot new t,
    [top, mid, bot].Perm [v1, v2, v3] ∧
    top.posProj.y < mid.posProj.y ∧ mid.posProj.y < bot.posProj.y ∧
    cs = [.top mid new bot, .bottom top mid new] ∧ new = lerp top bot t ∧
    t = (mid.posProj.y - top.posProj.y) / (bot.posProj.y - top.posProj.y) ∧ 0 < t ∧ t < 1 ∧
    new.posProj = vector4Lerp top.posProj bot.posProj t ∧ new.posProj.y = mid.posProj.y

section Lerp

variable {lerp : VertexOut K → VertexOut K → K → VertexOut K}

theorem Dispatches.perm {v1 v2 v3 w1 w2 w3 : VertexOut K} {cs ds : List (FlatCall (VertexOut K))}
    (h : Dispatches lerp v1 v2 v3 cs) (h' : Dispatches lerp w1 w2 w3 ds)
    (hne : ¬ (v1.posProj.y = v2.posProj.y ∧ v2.posProj.y = v3.posProj.y))
    (hne' : ¬ (w1.posProj.y = w2.posProj.y ∧ w2.posProj.y = w3.posProj.y))
    (hperm : [w1, w2, w3].Perm [v1, v2, v3]) : List.Forall₂ FlatCall.SameTriangle cs ds := by
  have hheights : (Device.heights w1 w2 w3).Perm (Device.heights v1 v2 v3) :=
    hperm.map fun v : VertexOut K => v.posProj.y
  by_cases hnodup : (Device.heights v1 v2 v3).Nodup
  · obtain ⟨top, mid, bot, new, t, hsort, htm, hmb, rfl, rfl, rfl, -⟩ := h.split hnodup
    obtain ⟨top', mid', bot', new', t', hsort', htm', hmb', rfl, rfl, rfl, -⟩ :=
      h'.split (hheights.nodup_iff.mpr hnodup)
    -- a list sorted by different heights is known from its elements
    have hsorted {a b c : VertexOut K} (hab : a.posProj.y < b.posProj.y)
        (hbc : b.posProj.y < c.posProj.y) :
        [a, b, c].Pairwise fun x y => x.posProj.y < y.posProj.y := by
      simp [hab, hbc, hab.trans hbc]
    have heq : [top, mid, bot] = [top', mid', bot'] :=
      List.Perm.eq_of_pairwise (fun _ _ _ _ hlt hgt => absurd hgt hlt.asymm) (hsorted htm hmb)
        (hsorted htm' hmb') (hsort.trans (hsort'.trans hperm).symm)
    cases heq
    exact List.forall₂_same.mpr fun c _ => Or.inl rfl
  · obtain ⟨c, hmakes, hplaced, hvertices⟩ := openDraw_triangle_flat _ hnodup hne
    obtain ⟨d, hmakes', hplaced', hvertices'⟩ :=
      openDraw_triangle_flat _ (mt hheights.nodup_iff.mp hnodup) hne'
    rw [makesCalls_unique h.makes hmakes, makesCalls_unique h'.makes hmakes']
    have hsame := hplaced.sameTriangle hplaced' (hvertices.trans (hvertices'.trans hperm).symm)
    exact List.Forall₂.cons hsame List.Forall₂.nil

variable (hlerp : ∀ a b t, (lerp a b t).posProj = vector4Lerp a.posProj b.posProj t)

include hlerp

variable [IsStrictOrderedRing K]

theorem exists_dispatches {v1 v2 v3 : VertexOut K}
    (hne : ¬ (v1.posProj.y = v2.posProj.y ∧ v2.posProj.y = v3.posProj.y)) :
    ∃ cs, Dispatches lerp v1 v2 v3 cs := by
  by_cases hnodup : (Device.heights v1 v2 v3).Nodup
  · obtain ⟨top, mid, bot, t, hperm, htm, hmb, ht, hmakes⟩ := openDraw_triangle_split hlerp hnodup
    have htb := htm.trans hmb
    have hy := (assigned_eq hlerp htb.ne ht).1
    refine ⟨_, hmakes, ?_, fun _ => ?_⟩
    · intro c hc
      rcases List.mem_pair.mp hc with rfl | rfl
      · exact ⟨hy.symm, hy.trans_lt hmb⟩
      · exact ⟨htm, hy.symm⟩
    · refine ⟨top, mid, bot, _, t, hperm, htm, hmb, rfl, rfl, ht, ?_, ?_, hlerp _ _ _, hy⟩
      · rw [ht]
        exact div_pos (sub_pos.mpr htm) (sub_pos.mpr htb)
      · rw [ht, div_lt_one (sub_pos.mpr htb)]
        exact sub_lt_sub_right hmb _
  · obtain ⟨c, hmakes, hplaced, -⟩ := openDraw_triangle_flat (fun a b t => pure (lerp a b t))
      hnodup hne
    refine ⟨[c], hmakes, ?_, fun h => absurd h hnodup⟩
    intro c' hc'
    rw [List.mem_singleton.mp hc']
    exact hplaced

/-- Whatever the order of three vertices that are not all at one height, `draw_triangle` hands its
helpers flat triangles as they expect them, and in another order the same ones. -/
theorem draw_triangle_dispatches [FloorRing K] {v1 v2 v3 : VertexOut K}
    (hne : ¬ (v1.posProj.y = v2.posProj.y ∧ v2.posProj.y = v3.posProj.y)) :
    ∃ cs, Dispatches lerp v1 v2 v3 cs ∧
      (∀ (self : Device K) (calls : RasterCalls K),
        calls.vertexoutLerp = (fun a b t => pure (lerp a b t)) → ∃ prepare : World K → World K,
          ∀ world, self.draw_triangle calls v1 v2 (some v3) world =
            forEach cs (self.rasterFlat calls) (prepare world)) ∧
      ∀ w1 w2 w3, [w1, w2, w3].Perm [v1, v2, v3] →
        ∃ ds, Dispatches lerp w1 w2 w3 ds ∧ List.Forall₂ FlatCall.SameTriangle cs ds := by
  obtain ⟨cs, hcs⟩ := exists_dispatches hlerp hne
  refine ⟨cs, hcs, ?_, ?_⟩
  · intro self calls hcalls
    obtain ⟨prepare, hrun⟩ := hcs.makes
    refine ⟨prepare, fun world => ?_⟩
    rw [draw_triangle_eq, hcalls, hrun]
  · intro w1 w2 w3 hperm
    have hne' : ¬ (w1.posProj.y = w2.posProj.y ∧ w2.posProj.y = w3.posProj.y) := by
      have hheights : (Device.heights w1 w2 w3).Perm (Device.heights v1 v2 v3) :=
        hperm.map fun v : VertexOut K => v.posProj.y
      rintro ⟨h12, h23⟩
      have hall : ∀ y ∈ Device.heights v1 v2 v3, y = w3.posProj.y := by
        intro y hy
        have hy' := hheights.mem_iff.mpr hy
        simpa [Device.heights, h12, h23] using hy'
      simp only [Device.heights, List.mem_cons, List.not_mem_nil, or_false, forall_eq_or_imp,
        forall_eq] at hall
      exact hne ⟨hall.1.trans hall.2.1.symm, hall.2.1.trans hall.2.2.symm⟩
    obtain ⟨ds, hds⟩ := exists_dispatches hlerp hne'
    exact ⟨ds, hds, hcs.perm hds hne hne' hperm⟩

end Lerp

theorem draw_triangle_dispatches_three :
    ∃ cs, Dispatches (K := ℚ)
      (fun a b t => { a with posProj := vector4Lerp a.posProj b.posProj t })
      ⟨⟨0, 0, 0, 1⟩, ⟨30, 20, 0, 1⟩, ⟨0, 0⟩, .nil, .nil, .nil⟩
      ⟨⟨1, 0, 0, 1⟩, ⟨10, 10, 0, 1⟩, ⟨1, 0⟩, .nil, .nil, .nil⟩
      ⟨⟨0, 1, 0, 1⟩, ⟨20, 40, 0, 1⟩, ⟨0, 1⟩, .nil, .nil, .nil⟩ cs := by
  refine (draw_triangle_dispatches ?_ ?_).imp fun cs hcs => hcs.1
  · intro a b t
    rfl
  · norm_num

end SoftRenderer
