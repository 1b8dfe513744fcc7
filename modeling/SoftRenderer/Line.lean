import SoftRenderer.Device
import SoftRenderer.Kit.Midpoint

/-!
# The points that the line routine visits

The loops of `drawLine` carry a midpoint accumulator: `LineSetup.nextX_iterate` and
`LineSetup.nextY_iterate` read their variables off `Midpoint`. The pixels handed to the host are
the visited points inside the window.
-/

namespace SoftRenderer

open Kit Kit.Procedure

variable {K : Type} [Field K] [LinearOrder K]

def LineCursor.point (c : LineCursor K) : Vector2 K := ⟨c.x1, c.y1⟩

namespace LineSetup

variable (s : LineSetup K)

def cursorX (a : Vector2 K) (i : ℕ) (m : Midpoint K) : LineCursor K :=
  ⟨a.x + s.stepx * i, a.y + s.stepy * m.minor, m.err⟩

def cursorY (a : Vector2 K) (i : ℕ) (m : Midpoint K) : LineCursor K :=
  ⟨a.x + s.stepx * m.minor, a.y + s.stepy * i, m.err⟩

theorem nextX_cursorX (a : Vector2 K) (i : ℕ) (m : Midpoint K) :
    s.nextX (s.cursorX a i m) = s.cursorX a (i + 1) (m.step s.dy s.dx) := by
  unfold nextX cursorX Midpoint.step
  split_ifs with h <;> simp only [Nat.cast_succ, mul_add, mul_one, add_assoc, two_mul]

theorem nextY_cursorY (a : Vector2 K) (i : ℕ) (m : Midpoint K) :
    s.nextY (s.cursorY a i m) = s.cursorY a (i + 1) (m.step s.dx s.dy) := by
  unfold nextY cursorY Midpoint.step
  split_ifs with h <;> simp only [Nat.cast_succ, mul_add, mul_one, add_assoc, two_mul]

theorem nextX_iterate (a : Vector2 K) (i : ℕ) :
    s.nextX^[i] (s.beginX a) =
      s.cursorX a i ((Midpoint.step s.dy s.dx)^[i] (Midpoint.start s.dy s.dx)) := by
  induction i with
  | zero => simp [beginX, cursorX, Midpoint.start, two_mul]
  | succ i ih => rw [Function.iterate_succ_apply', ih, nextX_cursorX, Function.iterate_succ_apply']

theorem nextY_iterate (a : Vector2 K) (i : ℕ) :
    s.nextY^[i] (s.beginY a) =
      s.cursorY a i ((Midpoint.step s.dx s.dy)^[i] (Midpoint.start s.dx s.dy)) := by
  induction i with
  | zero => simp [beginY, cursorY, Midpoint.start, two_mul]
  | succ i ih => rw [Function.iterate_succ_apply', ih, nextY_cursorY, Function.iterate_succ_apply']

end LineSetup

def clippedPixels (cfg : Config K) (color : Value K) (points : List (Vector2 K)) :
    List (Pixel K) :=
  (points.filter fun p => cfg.InWindow p.x p.y).map fun p => ⟨p.x, p.y, color⟩

theorem clippedPixels_cons (cfg : Config K) (color : Value K) (p : Vector2 K)
    (points : List (Vector2 K)) :
    clippedPixels cfg color (p :: points) =
      (if cfg.InWindow p.x p.y then [⟨p.x, p.y, color⟩] else []) ++
        clippedPixels cfg color points := by
  unfold clippedPixels
  by_cases h : cfg.InWindow p.x p.y <;> simp [h]

theorem forEach_plot (cfg : Config K) (self : Device K) (color : Value K)
    (cs : List (LineCursor K)) (world : World K) :
    forEach cs (self.plot cfg color) world =
      (.ok (), { world with
        pixels := world.pixels ++ clippedPixels cfg color (cs.map LineCursor.point) }) := by
  induction cs generalizing world with
  | nil => simp [clippedPixels]
  | cons c cs ih =>
      rw [forEach_cons, List.map_cons, clippedPixels_cons]
      by_cases h : cfg.InWindow c.x1 c.y1
      · have hplot : self.plot cfg color c world =
            (.ok (), { world with pixels := world.pixels ++ [⟨c.x1, c.y1, color⟩] }) := by
          rw [Device.plot, if_pos h]
          rfl
        rw [bind_ok hplot, ih]
        simp [LineCursor.point, h, List.append_assoc]
      · have hplot : self.plot cfg color c world = (.ok (), world) := by
          rw [Device.plot, if_neg h]
          rfl
        rw [bind_ok hplot, ih]
        simp [LineCursor.point, h]

variable [FloorRing K]

def lineCursors (a b : Vector2 K) : List (LineCursor K) :=
  let s := lineSetup a b
  if s.dx > s.dy then
    (List.range (forCount 0 s.dx)).map fun i => s.nextX^[i] (s.beginX a)
  else
    (List.range (forCount 0 s.dy)).map fun i => s.nextY^[i] (s.beginY a)

/-- The points that `drawLine` visits, in order. -/
def linePoints (a b : Vector2 K) : List (Vector2 K) := (lineCursors a b).map LineCursor.point

theorem drawLine_apply (cfg : Config K) (self : Device K) (a b : Vector2 K) (color : Value K)
    (world : World K) :
    self.drawLine cfg a b color world =
      (.ok (), { world with
        pixels := world.pixels ++ clippedPixels cfg color (linePoints a b) }) := by
  unfold Device.drawLine linePoints lineCursors
  by_cases h : (lineSetup a b).dx > (lineSetup a b).dy
  · simp only [if_pos h]
    rw [forFold_iterate, length_forValues, bind_assoc, bind_ok (forEach_plot ..)]
    rfl
  · simp only [if_neg h]
    rw [forFold_iterate, length_forValues, bind_assoc, bind_ok (forEach_plot ..)]
    rfl

theorem linePoints_self [IsStrictOrderedRing K] (p : Vector2 K) : linePoints p p = [p] := by
  simp [linePoints, lineCursors, lineSetup, LineSetup.beginY, LineCursor.point, forCount]

end SoftRenderer
