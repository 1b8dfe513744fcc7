import SoftRenderer.Kit.Cells
import SoftRenderer.ColourCodec
import SoftRenderer.World

/-!
# The framebuffer

The host function `draw_pixel`. It converts its arguments to `uint32` and drops a pixel outside the
screen; the comparison is unsigned. A framebuffer is read at `(x, y)`, where the host indexes rows
first, and has cells outside the screen as well, so that a stray write would show.
-/

namespace SoftRenderer

open Kit

/-- The globals `screen_w` and `screen_h`, as the comparison reads them. -/
structure Screen where
  w : BitVec 32
  h : BitVec 32

abbrev Framebuffer := ℕ × ℕ → BitVec 32

variable {K : Type} [Field K] [LinearOrder K] [FloorRing K]

def Config.screen (cfg : Config K) : Screen := ⟨uint32 cfg.winWidth, uint32 cfg.winHeight⟩

/-- `lua_tonumber` gives zero for a value that is not a number. -/
def Value.toUint32 : Value K → BitVec 32
  | .number n => uint32 n
  | _ => 0

namespace Pixel

def cell (p : Pixel K) : ℕ × ℕ := ((uint32 p.x).toNat, (uint32 p.y).toNat)

def OnScreen (screen : Screen) (p : Pixel K) : Prop :=
  uint32 p.x < screen.w ∧ uint32 p.y < screen.h

instance (screen : Screen) (p : Pixel K) : Decidable (p.OnScreen screen) := by
  unfold OnScreen
  infer_instance

end Pixel

namespace Screen

variable (screen : Screen)

def drawPixel (fb : Framebuffer) (p : Pixel K) : Framebuffer :=
  if p.OnScreen screen then Function.update fb p.cell p.color.toUint32 else fb

def paint (fb : Framebuffer) (ps : List (Pixel K)) : Framebuffer := ps.foldl screen.drawPixel fb

def writes (ps : List (Pixel K)) : List ((ℕ × ℕ) × BitVec 32) :=
  (ps.filter fun p => p.OnScreen screen).map fun p => (p.cell, p.color.toUint32)

theorem paint_eq_writeAll (fb : Framebuffer) (ps : List (Pixel K)) :
    screen.paint fb ps = writeAll fb (screen.writes ps) := by
  induction ps generalizing fb with
  | nil => rfl
  | cons p ps ih =>
      have hpaint : screen.paint fb (p :: ps) = screen.paint (screen.drawPixel fb p) ps := rfl
      rw [hpaint, ih]
      by_cases h : p.OnScreen screen <;> simp [drawPixel, writes, h]

theorem mem_writes {ps : List (Pixel K)} {w : (ℕ × ℕ) × BitVec 32} :
    w ∈ screen.writes ps ↔
      ∃ p ∈ ps, p.OnScreen screen ∧ (p.cell, p.color.toUint32) = w := by
  simp [writes, and_assoc]

def Cell (x y : ℕ) : Prop := x < screen.w.toNat ∧ y < screen.h.toNat

instance (x y : ℕ) : Decidable (screen.Cell x y) := by
  unfold Cell
  infer_instance

theorem cell_of_onScreen {p : Pixel K} (h : p.OnScreen screen) :
    screen.Cell p.cell.1 p.cell.2 :=
  ⟨BitVec.lt_def.mp h.1, BitVec.lt_def.mp h.2⟩

theorem paint_append (fb : Framebuffer) (ps qs : List (Pixel K)) :
    screen.paint fb (ps ++ qs) = screen.paint (screen.paint fb ps) qs :=
  List.foldl_append

/-- Pixels painted over two framebuffers leave them equal wherever they were. -/
theorem paint_congr {fb1 fb2 : Framebuffer} (ps : List (Pixel K)) {c : ℕ × ℕ}
    (h : fb1 c = fb2 c) : screen.paint fb1 ps c = screen.paint fb2 ps c := by
  rw [paint_eq_writeAll, paint_eq_writeAll, writeAll_congr _ h]

/-- No pixel is written outside the screen, whatever its coordinates. -/
theorem paint_of_not_cell (fb : Framebuffer) (ps : List (Pixel K)) {x y : ℕ}
    (h : ¬ screen.Cell x y) : screen.paint fb ps (x, y) = fb (x, y) := by
  rw [paint_eq_writeAll]
  apply writeAll_of_not_mem
  intro w hw heq
  obtain ⟨p, -, hp, rfl⟩ := (screen.mem_writes).mp hw
  have hxy : (x, y) = p.cell := heq
  have hcell := screen.cell_of_onScreen hp
  rw [← hxy] at hcell
  exact h hcell

end Screen
end SoftRenderer
