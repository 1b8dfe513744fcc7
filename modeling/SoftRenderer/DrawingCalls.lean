import SoftRenderer.Fill
import SoftRenderer.Framebuffer
import SoftRenderer.Line

/-!
# What drawing calls write

A run of drawing calls paints a list of pixels that does not depend on the framebuffer. `drawLine`
clips against the window and `clear` goes one past the device, so a device smaller than its window
draws outside of itself. Over a device of the window's size `clear` reaches every cell, and what
comes after it does not depend on what came before.
-/

namespace SoftRenderer

open Kit Kit.Procedure

inductive DeviceCall (K : Type)
  | drawPixel (x y : K) (color : Value K)
  | drawLine (posBgn posEnd : Vector2 K) (color : Value K)
  | drawTriangleTop (pa pb pc : Vector2 K) (color : Value K)
  | drawTriangleBottom (pa pb pc : Vector2 K) (color : Value K)
  | clear (color : Value K)

/-- The calls that test their own bounds. -/
def DeviceCall.Bounded {K : Type} : DeviceCall K → Prop
  | .drawPixel .. => False
  | _ => True

variable {K : Type} [Field K]

theorem edgeX_appends (y : K) (a b : Vector2 K) :
    Appends World.pixels (edgeX y a b) (edgeAt y a b) [] :=
  fun world => ⟨_, edgeX_apply y a b world, (List.append_nil world.pixels).symm⟩

omit [Field K] in
theorem drawPixel_appends (x y : K) (color : Value K) :
    Appends World.pixels (drawPixel x y color) () [⟨x, y, color⟩] :=
  fun _ => ⟨_, rfl, rfl⟩

variable [LinearOrder K] [FloorRing K]

namespace Device

variable (cfg : Config K) (self : Device K)

def clearPixels (color : Value K) : List (Pixel K) :=
  (forValues 0 self.width).flatMap fun i =>
    (forValues 0 self.height).flatMap fun j => [⟨i, j, color⟩]

theorem clear_appends (color : Value K) :
    Appends World.pixels (self.clear color) () (self.clearPixels color) :=
  Appends.forEach fun i _ => Appends.forEach fun j _ => drawPixel_appends i j color

theorem drawLine_appends (a b : Vector2 K) (color : Value K) :
    Appends World.pixels (self.drawLine cfg a b color) ()
      (clippedPixels cfg color (linePoints a b)) :=
  fun world => ⟨_, drawLine_apply cfg self a b color world, rfl⟩

def rowPixels (a1 b1 a2 b2 : Vector2 K) (color : Value K) (y : K) : List (Pixel K) :=
  clippedPixels cfg color (linePoints ⟨edgeAt y a1 b1, y⟩ ⟨edgeAt y a2 b2, y⟩)

theorem edgeRow_appends (a1 b1 a2 b2 : Vector2 K) (color : Value K) (y : K) :
    Appends World.pixels (self.edgeRow cfg a1 b1 a2 b2 color y) ()
      (rowPixels cfg a1 b1 a2 b2 color y) := by
  have hline := drawLine_appends cfg self ⟨edgeAt y a1 b1, y⟩ ⟨edgeAt y a2 b2, y⟩ color
  have hrow := (edgeX_appends y a1 b1).bind
    (k := fun xs => edgeX y a2 b2 >>= fun xe => self.drawLine cfg ⟨xs, y⟩ ⟨xe, y⟩ color)
    ((edgeX_appends y a2 b2).bind hline)
  exact hrow

end Device

namespace DeviceCall

def run (cfg : Config K) (self : Device K) : DeviceCall K → LuaM K Unit
  | .drawPixel x y color => self.drawPixel x y color
  | .drawLine posBgn posEnd color => self.drawLine cfg posBgn posEnd color
  | .drawTriangleTop pa pb pc color => self.drawTriangleTop cfg pa pb pc color
  | .drawTriangleBottom pa pb pc color => self.drawTriangleBottom cfg pa pb pc color
  | .clear color => self.clear color

def pixels (cfg : Config K) (self : Device K) : DeviceCall K → List (Pixel K)
  | .drawPixel x y color => [⟨x, y, color⟩]
  | .drawLine posBgn posEnd color => clippedPixels cfg color (linePoints posBgn posEnd)
  | .drawTriangleTop pa pb pc color =>
      (forValues pa.y pc.y).flatMap (Device.rowPixels cfg pa pc pb pc color)
  | .drawTriangleBottom pa pb pc color =>
      (forValues pa.y pb.y).flatMap (Device.rowPixels cfg pa pb pa pc color)
  | .clear color => self.clearPixels color

theorem run_appends (cfg : Config K) (self : Device K) (call : DeviceCall K) :
    Appends World.pixels (call.run cfg self) () (call.pixels cfg self) := by
  cases call with
  | drawPixel x y color => exact drawPixel_appends x y color
  | drawLine posBgn posEnd color => exact self.drawLine_appends cfg posBgn posEnd color
  | drawTriangleTop pa pb pc color =>
      exact Appends.forEach fun y _ => self.edgeRow_appends cfg pa pc pb pc color y
  | drawTriangleBottom pa pb pc color =>
      exact Appends.forEach fun y _ => self.edgeRow_appends cfg pa pb pa pc color y
  | clear color => exact self.clear_appends color

end DeviceCall

def runCalls (cfg : Config K) (self : Device K) (calls : List (DeviceCall K)) : LuaM K Unit :=
  forEach calls fun call => call.run cfg self

def callPixels (cfg : Config K) (self : Device K) (calls : List (DeviceCall K)) : List (Pixel K) :=
  calls.flatMap fun call => call.pixels cfg self

theorem runCalls_appends (cfg : Config K) (self : Device K) (calls : List (DeviceCall K)) :
    Appends World.pixels (runCalls cfg self calls) () (callPixels cfg self calls) :=
  Appends.forEach fun call _ => call.run_appends cfg self

/-- The framebuffer after a run that starts with nothing drawn. -/
def Screen.after (screen : Screen) (m : LuaM K Unit) (fb : Framebuffer) : Framebuffer :=
  screen.paint fb (m (.initial K)).2.pixels

theorem Screen.after_eq {screen : Screen} {m : LuaM K Unit} {out : List (Pixel K)}
    (h : Appends World.pixels m () out) (fb : Framebuffer) :
    screen.after m fb = screen.paint fb out := by
  rw [after, (h.run (.initial K)).2]
  rfl

section Window

variable [IsStrictOrderedRing K]

theorem lt_toNat_uint32_iff {size : K} (h0 : 0 ≤ size) (h1 : size < 2 ^ 31) {x : ℕ} :
    x < (uint32 size).toNat ↔ (x : K) + 1 ≤ size := by
  have hlt : size < 2 ^ 32 := h1.trans (by norm_num)
  have hpos : 0 ≤ ⌊size⌋ := Int.floor_nonneg.mpr h0
  have hfloor : ((x + 1 : ℤ) ≤ ⌊size⌋) ↔ (x : K) + 1 ≤ size := by
    rw [Int.le_floor]
    push_cast
    rfl
  rw [toNat_uint32_of_lt h0 hlt, ← hfloor]
  omega

theorem screen_cell_iff {cfg : Config K} (hw : 0 ≤ cfg.winWidth ∧ cfg.winWidth < 2 ^ 31)
    (hh : 0 ≤ cfg.winHeight ∧ cfg.winHeight < 2 ^ 31) {x y : ℕ} :
    cfg.screen.Cell x y ↔ (x : K) + 1 ≤ cfg.winWidth ∧ (y : K) + 1 ≤ cfg.winHeight :=
  and_congr (lt_toNat_uint32_iff hw.1 hw.2) (lt_toNat_uint32_iff hh.1 hh.2)

theorem cell_natCast {x y : ℕ} (hx : x < 2 ^ 32) (hy : y < 2 ^ 32) (color : Value K) :
    (⟨x, y, color⟩ : Pixel K).cell = (x, y) := by
  rw [Pixel.cell, toNat_uint32_natCast hx, toNat_uint32_natCast hy]

theorem onScreen_natCast (screen : Screen) {x y : ℕ} (hx : x < 2 ^ 32) (hy : y < 2 ^ 32)
    (color : Value K) : (⟨x, y, color⟩ : Pixel K).OnScreen screen ↔ screen.Cell x y := by
  rw [Pixel.OnScreen, BitVec.lt_def, BitVec.lt_def, toNat_uint32_natCast hx,
    toNat_uint32_natCast hy, Screen.Cell]

end Window

namespace Device

/-- Whatever calls with bounds of their own are made, a cell that they change is one of the
device. -/
def DrawsInside (cfg : Config K) (self : Device K) : Prop :=
  ∀ calls : List (DeviceCall K), (∀ call ∈ calls, call.Bounded) → ∀ (fb : Framebuffer) (x y : ℕ),
    cfg.screen.after (runCalls cfg self calls) fb (x, y) ≠ fb (x, y) →
      (x : K) < self.width ∧ (y : K) < self.height

variable [IsStrictOrderedRing K]

theorem after_drawLine_self {cfg : Config K} (hw : 0 ≤ cfg.winWidth ∧ cfg.winWidth < 2 ^ 31)
    (hh : 0 ≤ cfg.winHeight ∧ cfg.winHeight < 2 ^ 31) (self : Device K) {x y : ℕ}
    (hcell : cfg.screen.Cell x y) (color : Value K) (fb : Framebuffer) :
    cfg.screen.after (runCalls cfg self [.drawLine ⟨x, y⟩ ⟨x, y⟩ color]) fb (x, y) =
      color.toUint32 := by
  have hx : x < 2 ^ 32 := hcell.1.trans cfg.screen.w.isLt
  have hy : y < 2 ^ 32 := hcell.2.trans cfg.screen.h.isLt
  have hwindow : cfg.InWindow (x : K) (y : K) := by
    obtain ⟨h1, h2⟩ := (screen_cell_iff hw hh).mp hcell
    exact ⟨x.cast_nonneg, by linarith, y.cast_nonneg, by linarith⟩
  have hpixels : callPixels cfg self [.drawLine ⟨x, y⟩ ⟨x, y⟩ color] = [⟨x, y, color⟩] := by
    simp [callPixels, DeviceCall.pixels, linePoints_self, clippedPixels, hwindow]
  have hpaint : cfg.screen.paint fb [⟨(x : K), y, color⟩] =
      Function.update fb (x, y) color.toUint32 := by
    rw [← cell_natCast hx hy color]
    exact if_pos ((onScreen_natCast cfg.screen hx hy color).mpr hcell)
  rw [Screen.after_eq (runCalls_appends cfg self _), hpixels, hpaint, Function.update_self]

theorem DrawsInside.cell_lt {cfg : Config K} (hw : 0 ≤ cfg.winWidth ∧ cfg.winWidth < 2 ^ 31)
    (hh : 0 ≤ cfg.winHeight ∧ cfg.winHeight < 2 ^ 31) {self : Device K}
    (hinside : self.DrawsInside cfg) {x y : ℕ} (hcell : cfg.screen.Cell x y) :
    (x : K) < self.width ∧ (y : K) < self.height := by
  have hone : (Value.number 1 : Value K).toUint32 = 1 := by
    have h1 : (uint32 (1 : K)).toNat = 1 := by
      simpa using toNat_uint32_natCast (K := K) (n := 1) (by norm_num)
    exact BitVec.eq_of_toNat_eq h1
  apply hinside [.drawLine ⟨x, y⟩ ⟨x, y⟩ (.number 1)] (by simp [DeviceCall.Bounded]) fun _ => 0
  rw [after_drawLine_self hw hh self hcell, hone]
  decide

omit [FloorRing K] in
theorem natCast_lt_intCast {x : ℕ} {w : ℤ} : (x : K) < (w : K) ↔ (x : ℤ) < w := by
  rw [← Int.cast_natCast, Int.cast_lt]

/-- A device of integer size in a window of integer size is confined exactly when it fills the
window, or the window has no cell. -/
theorem drawsInside_iff (mode : ℕ) {W H : ℕ} {w h : ℤ} (hW : W < 2 ^ 31) (hH : H < 2 ^ 31)
    (hw : w ≤ W) (hh : h ≤ H) :
    DrawsInside (⟨W, H⟩ : Config K) ⟨w, h, mode⟩ ↔ W = 0 ∨ H = 0 ∨ (w = W ∧ h = H) := by
  have hWK : 0 ≤ (W : K) ∧ (W : K) < 2 ^ 31 := ⟨W.cast_nonneg, by exact_mod_cast hW⟩
  have hHK : 0 ≤ (H : K) ∧ (H : K) < 2 ^ 31 := ⟨H.cast_nonneg, by exact_mod_cast hH⟩
  have hcell (x y : ℕ) : (⟨W, H⟩ : Config K).screen.Cell x y ↔ x + 1 ≤ W ∧ y + 1 ≤ H := by
    rw [screen_cell_iff hWK hHK]
    simp only [← Nat.cast_add_one, Nat.cast_le]
  constructor
  · intro hinside
    by_contra hsize
    have hcorner : (⟨W, H⟩ : Config K).screen.Cell (W - 1) (H - 1) := by
      rw [hcell]
      omega
    obtain ⟨hx, hy⟩ := hinside.cell_lt hWK hHK hcorner
    have hx' := natCast_lt_intCast.mp hx
    have hy' := natCast_lt_intCast.mp hy
    omega
  · intro hsize calls _ fb x y hchanged
    have hin : (⟨W, H⟩ : Config K).screen.Cell x y := by
      by_contra hout
      rw [Screen.after_eq (runCalls_appends _ _ calls)] at hchanged
      exact hchanged (Screen.paint_of_not_cell _ _ _ hout)
    rw [hcell] at hin
    have hx : (x : ℤ) < w := by omega
    have hy : (y : ℤ) < h := by omega
    exact ⟨natCast_lt_intCast.mpr hx, natCast_lt_intCast.mpr hy⟩

theorem drawsInside_source : DrawsInside (⟨800, 600⟩ : Config ℚ) ⟨800, 600, 1⟩ := by
  have hinside := (drawsInside_iff (K := ℚ) 1 (W := 800) (H := 600) (w := 800) (h := 600)
    (by norm_num) (by norm_num) le_rfl le_rfl).mpr (by norm_num)
  simpa using hinside

theorem not_drawsInside :
    ¬ ∀ (W H : ℕ) (w h : ℤ), W < 2 ^ 31 → H < 2 ^ 31 → w ≤ W → h ≤ H →
      DrawsInside (⟨W, H⟩ : Config ℚ) ⟨w, h, renderStateWireframe⟩ := by
  intro h
  have hinside := h 2 2 1 1 (by norm_num) (by norm_num) (by norm_num) (by norm_num)
  have hcell : (⟨(2 : ℕ), (2 : ℕ)⟩ : Config ℚ).screen.Cell 1 1 := by
    rw [screen_cell_iff (by norm_num) (by norm_num)]
    norm_num
  have hlt := (hinside.cell_lt (by norm_num) (by norm_num) hcell).1
  norm_num at hlt

end Device

namespace Device

variable [IsStrictOrderedRing K]

theorem mem_clearPixels {self : Device K} {color : Value K} {p : Pixel K} :
    p ∈ self.clearPixels color ↔
      ∃ i j : ℕ, (i : K) ≤ self.width ∧ (j : K) ≤ self.height ∧ p = ⟨i, j, color⟩ := by
  simp only [clearPixels, List.mem_flatMap, List.mem_singleton, mem_forValues, zero_add]
  constructor
  · rintro ⟨_, ⟨i, rfl, hi⟩, _, ⟨j, rfl, hj⟩, hp⟩
    exact ⟨i, j, hi, hj, hp⟩
  · rintro ⟨i, j, hi, hj, hp⟩
    exact ⟨i, ⟨i, rfl, hi⟩, j, ⟨j, rfl, hj⟩, hp⟩

theorem natCast_lt_of_le {n : ℕ} {size : K} (h : (n : K) ≤ size) (hsize : size < 2 ^ 31) :
    n < 2 ^ 32 := by
  have hlt : (n : K) < 2 ^ 32 := h.trans_lt (hsize.trans (by norm_num))
  exact_mod_cast hlt

/-- The cells that `clear` reaches: those of the screen, up to the size itself. -/
theorem paint_clearPixels (screen : Screen) {self : Device K} (hw : self.width < 2 ^ 31)
    (hh : self.height < 2 ^ 31) (color : Value K) (fb : Framebuffer) (x y : ℕ) :
    screen.paint fb (self.clearPixels color) (x, y) =
      if (x : K) ≤ self.width ∧ (y : K) ≤ self.height ∧ screen.Cell x y then color.toUint32
      else fb (x, y) := by
  rw [Screen.paint_eq_writeAll, writeAll_apply]
  split_ifs with hreach
  · obtain ⟨hx, hy, hcell⟩ := hreach
    have hx32 := natCast_lt_of_le hx hw
    have hy32 := natCast_lt_of_le hy hh
    have hmem : ((x, y), color.toUint32) ∈ screen.writes (self.clearPixels color) := by
      refine screen.mem_writes.mpr ⟨⟨x, y, color⟩, mem_clearPixels.mpr ⟨x, y, hx, hy, rfl⟩, ?_, ?_⟩
      · exact (onScreen_natCast screen hx32 hy32 color).mpr hcell
      · rw [cell_natCast hx32 hy32]
    cases hlast : lastWrite (screen.writes (self.clearPixels color)) (x, y) with
    | none => exact absurd rfl (lastWrite_eq_none_iff.mp hlast _ hmem)
    | some v =>
        obtain ⟨p, hp, -, hv⟩ := screen.mem_writes.mp (lastWrite_mem hlast)
        obtain ⟨i, j, -, -, rfl⟩ := mem_clearPixels.mp hp
        exact (congrArg Prod.snd hv).symm
  · have hnone : lastWrite (screen.writes (self.clearPixels color)) (x, y) = none := by
      rw [lastWrite_eq_none_iff]
      intro w hmem heq
      obtain ⟨p, hp, hon, rfl⟩ := screen.mem_writes.mp hmem
      obtain ⟨i, j, hi, hj, rfl⟩ := mem_clearPixels.mp hp
      have hi32 := natCast_lt_of_le hi hw
      have hj32 := natCast_lt_of_le hj hh
      rw [cell_natCast hi32 hj32] at heq
      obtain ⟨rfl, rfl⟩ := Prod.mk.inj heq
      exact hreach ⟨hi, hj, (onScreen_natCast screen hi32 hj32 color).mp hon⟩
    rw [hnone, Option.getD_none]

theorem paint_clearPixels_window {cfg : Config K}
    (hw : 0 ≤ cfg.winWidth ∧ cfg.winWidth < 2 ^ 31)
    (hh : 0 ≤ cfg.winHeight ∧ cfg.winHeight < 2 ^ 31) {self : Device K}
    (hwidth : self.width = cfg.winWidth) (hheight : self.height = cfg.winHeight) (c : BitVec 32)
    (fb : Framebuffer) (x y : ℕ) :
    cfg.screen.paint fb (self.clearPixels (.number (c.toNat : K))) (x, y) =
      if cfg.screen.Cell x y then c else fb (x, y) := by
  have hcolor : (Value.number (c.toNat : K)).toUint32 = c :=
    BitVec.eq_of_toNat_eq (toNat_uint32_natCast c.isLt)
  have hreach : ((x : K) ≤ self.width ∧ (y : K) ≤ self.height ∧ cfg.screen.Cell x y) ↔
      cfg.screen.Cell x y := by
    constructor
    · exact fun h => h.2.2
    · intro hcell
      obtain ⟨hx, hy⟩ := (screen_cell_iff hw hh).mp hcell
      rw [hwidth, hheight]
      exact ⟨by linarith, by linarith, hcell⟩
  rw [paint_clearPixels _ (hwidth ▸ hw.2) (hheight ▸ hh.2), hcolor]
  simp only [hreach]

omit [IsStrictOrderedRing K] in
theorem after_clear_cons (cfg : Config K) (self : Device K) (color : Value K)
    (calls : List (DeviceCall K)) (fb : Framebuffer) :
    cfg.screen.after (runCalls cfg self (.clear color :: calls)) fb =
      cfg.screen.paint (cfg.screen.paint fb (self.clearPixels color))
        (callPixels cfg self calls) := by
  rw [Screen.after_eq (runCalls_appends cfg self _), ← Screen.paint_append]
  rfl

/-- What a device of the window's size does to two framebuffers when it is cleared with the colour
`c` and drawn on. A cell that no pixel of the drawing reaches is not touched. -/
structure ErasesHistory (cfg : Config K) (self : Device K) (c : BitVec 32)
    (calls : List (DeviceCall K)) (fb1 fb2 : Framebuffer) : Prop where
  fills : ∀ fb ∈ [fb1, fb2], ∀ x y, cfg.screen.Cell x y →
    cfg.screen.after (self.clear (.number (c.toNat : K))) fb (x, y) = c
  stays_inside : ∀ fb ∈ [fb1, fb2], ∀ x y, ¬ cfg.screen.Cell x y →
    cfg.screen.after (self.clear (.number (c.toNat : K))) fb (x, y) = fb (x, y)
  agree : ∀ x y, cfg.screen.Cell x y →
    cfg.screen.after (runCalls cfg self (.clear (.number (c.toNat : K)) :: calls)) fb1 (x, y) =
      cfg.screen.after (runCalls cfg self (.clear (.number (c.toNat : K)) :: calls)) fb2 (x, y)
  untouched : ∀ fb ∈ [fb1, fb2], ∀ x y, cfg.screen.Cell x y →
    (∀ p ∈ callPixels cfg self calls, p.OnScreen cfg.screen → p.cell ≠ (x, y)) →
    cfg.screen.after (runCalls cfg self (.clear (.number (c.toNat : K)) :: calls)) fb (x, y) = c

/-- Clearing a device of the window's size erases what was drawn before, whatever is drawn next. -/
theorem erasesHistory {cfg : Config K} (hw : 0 ≤ cfg.winWidth ∧ cfg.winWidth < 2 ^ 31)
    (hh : 0 ≤ cfg.winHeight ∧ cfg.winHeight < 2 ^ 31) {self : Device K}
    (hwidth : self.width = cfg.winWidth) (hheight : self.height = cfg.winHeight) (c : BitVec 32)
    (calls : List (DeviceCall K)) (fb1 fb2 : Framebuffer) :
    self.ErasesHistory cfg c calls fb1 fb2 := by
  have hclear := paint_clearPixels_window hw hh hwidth hheight c
  constructor
  · intro fb _ x y hcell
    rw [Screen.after_eq (self.clear_appends _), hclear, if_pos hcell]
  · intro fb _ x y hcell
    rw [Screen.after_eq (self.clear_appends _), hclear, if_neg hcell]
  · intro x y hcell
    rw [after_clear_cons, after_clear_cons]
    apply Screen.paint_congr
    rw [hclear, hclear, if_pos hcell, if_pos hcell]
  · intro fb _ x y hcell huntouched
    rw [after_clear_cons, Screen.paint_eq_writeAll, writeAll_of_not_mem, hclear, if_pos hcell]
    intro w hmem heq
    obtain ⟨p, hp, hon, rfl⟩ := cfg.screen.mem_writes.mp hmem
    exact huntouched p hp hon heq.symm

theorem erasesHistory_source :
    ErasesHistory (.source : Config ℚ) (.new 800 600) 0xff333333#32
      [.drawPixel 3 4 (.number 5), .drawLine ⟨0, 0⟩ ⟨9, 5⟩ .nil] (fun _ => 0) (fun _ => 1) :=
  erasesHistory (by norm_num [Config.source]) (by norm_num [Config.source]) rfl rfl _ _ _ _

end Device
end SoftRenderer
