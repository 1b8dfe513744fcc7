import SoftRenderer.FlatFill
import SoftRenderer.TriangleDispatch

/-!
# The two flat fills are mirror images

The fills of a triangle with a flat side are programs that leave open what is done with a segment.
Turned upside down, a triangle is filled with the mirrored segments in the opposite order, each
drawn in the same direction, and the points of a segment do not depend on its height.
-/

namespace SoftRenderer

open Kit Kit.Procedure

structure Segment (K : Type) where
  posBgn : Vector2 K
  posEnd : Vector2 K

variable {K : Type} [Field K]

def Vector2.mirror (p : Vector2 K) : Vector2 K := ⟨p.x, -p.y⟩

def Segment.mirror (s : Segment K) : Segment K := ⟨s.posBgn.mirror, s.posEnd.mirror⟩

/-- A row, with what is done with its segment left open. -/
def openEdgeRow (a1 b1 a2 b2 : Vector2 K) (line : Segment K → LuaM K Unit) (y : K) :
    LuaM K Unit := do
  let xs ← edgeX y a1 b1
  let xe ← edgeX y a2 b2
  line ⟨⟨xs, y⟩, ⟨xe, y⟩⟩

def edgeSegment (a1 b1 a2 b2 : Vector2 K) (y : K) : Segment K :=
  ⟨⟨edgeAt y a1 b1, y⟩, ⟨edgeAt y a2 b2, y⟩⟩

theorem edgeRows_passesCalls (ys : List K) (a1 b1 a2 b2 : Vector2 K) :
    PassesCalls (World.counter K) (fun line => forEach ys (openEdgeRow a1 b1 a2 b2 line))
      (ys.map (edgeSegment a1 b1 a2 b2)) := by
  refine ⟨fun world => { world with
    divisors := world.divisors ++ [b1.y - a1.y] ++ [b2.y - a2.y] }, fun _ => rfl, fun line => ?_⟩
  rw [forEach_map]
  rfl

variable [LinearOrder K] [FloorRing K]

def openDrawTriangleTop (pa pb pc : Vector2 K) (line : Segment K → LuaM K Unit) : LuaM K Unit :=
  forEach (forValues pa.y pc.y) (openEdgeRow pa pc pb pc line)

def openDrawTriangleBottom (pa pb pc : Vector2 K) (line : Segment K → LuaM K Unit) :
    LuaM K Unit :=
  forEach (forValues pa.y pb.y) (openEdgeRow pa pb pa pc line)

def Device.drawSegment (cfg : Config K) (self : Device K) (color : Value K) (s : Segment K) :
    LuaM K Unit :=
  self.drawLine cfg s.posBgn s.posEnd color

theorem drawTriangleTop_eq_open (cfg : Config K) (self : Device K) (pa pb pc : Vector2 K)
    (color : Value K) :
    self.drawTriangleTop cfg pa pb pc color =
      openDrawTriangleTop pa pb pc (self.drawSegment cfg color) := rfl

theorem drawTriangleBottom_eq_open (cfg : Config K) (self : Device K) (pa pb pc : Vector2 K)
    (color : Value K) :
    self.drawTriangleBottom cfg pa pb pc color =
      openDrawTriangleBottom pa pb pc (self.drawSegment cfg color) := rfl

/-- The points that `drawLine` visits, before it clips them. -/
def Segment.points (s : Segment K) : List (Vector2 K) := linePoints s.posBgn s.posEnd

omit [LinearOrder K] [FloorRing K] in
/-- An edge has the same abscissae from both of its ends. -/
theorem edgeAt_mirror {p q : Vector2 K} (h : p.y ≠ q.y) (y : K) :
    edgeAt (-y) q.mirror p.mirror = edgeAt y p q := by
  have hpq : -p.y - -q.y ≠ 0 := by
    rw [neg_sub_neg]
    exact sub_ne_zero.mpr h.symm
  have hqp : q.y - p.y ≠ 0 := sub_ne_zero.mpr h.symm
  simp only [edgeAt, Vector2.mirror, add_left_inj]
  rw [div_add' _ _ _ hpq, div_add' _ _ _ hqp, div_eq_div_iff hpq hqp]
  ring

omit [LinearOrder K] [FloorRing K] in
theorem edgeSegment_mirror {a b c : Vector2 K} (hac : a.y ≠ c.y) (hbc : b.y ≠ c.y) (y : K) :
    edgeSegment c.mirror a.mirror c.mirror b.mirror (-y) = (edgeSegment a c b c y).mirror := by
  simp only [edgeSegment, Segment.mirror, edgeAt_mirror hac, edgeAt_mirror hbc]
  rfl

variable [IsStrictOrderedRing K]

theorem linePoints_row (xs xe y : K) :
    linePoints ⟨xs, y⟩ ⟨xe, y⟩ =
      (List.range (forCount 0 |xe - xs|)).map fun i : ℕ => ⟨xs + toward xs xe * i, y⟩ := by
  apply List.ext_getElem
  · rw [length_linePoints, majorLength_row, List.length_map, List.length_range]
  · intro i hi _
    have hle := lt_length_linePoints.mp hi
    rw [majorLength_row] at hle
    rw [getElem_linePoints_eq_midpointAt, midpointAt_row hle, List.getElem_map,
      List.getElem_range]

theorem points_mirror {s : Segment K} (hs : s.posBgn.y = s.posEnd.y) :
    s.mirror.points = s.points.map Vector2.mirror := by
  obtain ⟨⟨xs, y⟩, ⟨xe, y'⟩⟩ := s
  obtain rfl : y = y' := hs
  simp only [Segment.points, Segment.mirror, Vector2.mirror, linePoints_row, List.map_map]
  rfl

theorem topSegments_mirror {a b c : Vector2 K} {k : ℕ} (hac : a.y ≠ c.y) (hbc : b.y ≠ c.y)
    (hk : c.y = a.y + k) :
    (forValues c.mirror.y a.mirror.y).map (edgeSegment c.mirror a.mirror c.mirror b.mirror) =
      (((forValues a.y c.y).map (edgeSegment a c b c)).map Segment.mirror).reverse := by
  have hrows : forValues c.mirror.y a.mirror.y = ((forValues a.y c.y).map Neg.neg).reverse := by
    rw [hk, ← forValues_neg, ← hk]
    rfl
  rw [hrows, List.map_reverse, List.map_map, List.map_map]
  congr 1
  apply List.map_congr_left
  intro y _
  exact edgeSegment_mirror hac hbc y

/-- Both fills pass their segments to `drawLine` in a determined order; that of the mirrored
triangle is the opposite one, row by row with the same points mirrored. -/
theorem flatFills_mirror {a b c : Vector2 K} {m n : ℤ} (ha : a.y = m) (hb : b.y = m) (hc : c.y = n)
    (hmn : m < n) :
    (∀ (cfg : Config K) (self : Device K) (color : Value K),
      self.drawTriangleTop cfg a b c color =
          openDrawTriangleTop a b c (self.drawSegment cfg color) ∧
        self.drawTriangleBottom cfg c.mirror a.mirror b.mirror color =
          openDrawTriangleBottom c.mirror a.mirror b.mirror (self.drawSegment cfg color)) ∧
    (∃ top, PassesCalls (World.counter K) (openDrawTriangleTop a b c) top) ∧
    (∃ bottom, PassesCalls (World.counter K)
      (openDrawTriangleBottom c.mirror a.mirror b.mirror) bottom) ∧
    ∀ top bottom, PassesCalls (World.counter K) (openDrawTriangleTop a b c) top →
      PassesCalls (World.counter K) (openDrawTriangleBottom c.mirror a.mirror b.mirror) bottom →
      bottom = (top.map Segment.mirror).reverse ∧
        bottom.map Segment.points = (top.map fun s => s.points.map Vector2.mirror).reverse := by
  have hlt : (m : K) < n := by exact_mod_cast hmn
  have hac : a.y ≠ c.y := by
    rw [ha, hc]
    exact hlt.ne
  have hbc : b.y ≠ c.y := by
    rw [hb, hc]
    exact hlt.ne
  obtain ⟨k, hk⟩ : ∃ k : ℕ, c.y = a.y + k := by
    refine ⟨(n - m).toNat, ?_⟩
    have hcast : (((n - m).toNat : ℤ) : K) = ((n - m : ℤ) : K) := by
      rw [Int.toNat_of_nonneg (by omega)]
    rw [ha, hc, ← Int.cast_natCast, hcast, Int.cast_sub]
    ring
  refine ⟨fun cfg self color => ⟨drawTriangleTop_eq_open .., drawTriangleBottom_eq_open ..⟩,
    ⟨_, edgeRows_passesCalls ..⟩, ⟨_, edgeRows_passesCalls ..⟩, ?_⟩
  intro top bottom htop hbottom
  have htop' : top = (forValues a.y c.y).map (edgeSegment a c b c) :=
    htop.unique (.arith .nil) (edgeRows_passesCalls ..)
  have hbottom' : bottom = (forValues c.mirror.y a.mirror.y).map
      (edgeSegment c.mirror a.mirror c.mirror b.mirror) :=
    hbottom.unique (.arith .nil) (edgeRows_passesCalls ..)
  have hmirror : bottom = (top.map Segment.mirror).reverse := by
    rw [htop', hbottom', topSegments_mirror hac hbc hk]
  refine ⟨hmirror, ?_⟩
  rw [hmirror, List.map_reverse, List.map_map]
  congr 1
  apply List.map_congr_left
  intro s hs
  rw [htop'] at hs
  obtain ⟨y, -, rfl⟩ := List.mem_map.mp hs
  exact points_mirror rfl

theorem flatFills_mirror_two_rows :
    (forValues (-2) (-0)).map (edgeSegment (⟨1, -2⟩ : Vector2 ℚ) ⟨0, -0⟩ ⟨1, -2⟩ ⟨3, -0⟩) =
      (((forValues 0 2).map (edgeSegment ⟨0, 0⟩ ⟨1, 2⟩ ⟨3, 0⟩ ⟨1, 2⟩)).map
        Segment.mirror).reverse :=
  ((flatFills_mirror (a := (⟨0, 0⟩ : Vector2 ℚ)) (b := ⟨3, 0⟩) (c := ⟨1, 2⟩) (m := 0) (n := 2)
    (by norm_num) (by norm_num) (by norm_num) (by norm_num)).2.2.2 _ _
      (edgeRows_passesCalls ..) (edgeRows_passesCalls ..)).1

end SoftRenderer
