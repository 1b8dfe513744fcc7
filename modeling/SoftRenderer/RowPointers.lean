import SoftRenderer.BitFunctions
import SoftRenderer.Framebuffer
import SoftRenderer.Kit.Bytes

/-!
# The row pointers of the framebuffer

`device_init` allocates a table of row pointers, and `draw_pixel` stores through them into the
pixel area, which is bytes. The size of the table is computed in `size_t` but kept in an `int`, so
for a large screen the block is refused or too small, although no byte offset overflows.
-/

namespace SoftRenderer

open Kit

/-- `malloc` tells whether a request of so many bytes is granted. -/
structure Host where
  pointerSize : ℕ
  pointerSize_eq : pointerSize = 4 ∨ pointerSize = 8
  malloc : ℕ → Bool

/-- Where the pixels are: in the area that the caller passes, or behind the table. -/
inductive PixelArea
  | external
  | block
  deriving DecidableEq

/-- `framebuffer` after `device_init`: for each row the offset of its first byte in the area. -/
structure RowPointers where
  area : PixelArea
  rows : List ℤ

namespace Host

variable (host : Host)

/-- `int need`: a sum of `size_t`, converted. -/
def need (width height : BitVec 32) : BitVec 32 :=
  (BitVec.ofNat (8 * host.pointerSize) host.pointerSize *
      (height * 2 + 1024).signExtend (8 * host.pointerSize) +
    (width * height * 8).signExtend (8 * host.pointerSize)).setWidth 32

/-- The argument of `malloc`, which is a `size_t` again. -/
def request (width height : BitVec 32) : ℕ :=
  ((host.need width height + 64).signExtend (8 * host.pointerSize)).toNat

def blockSize (width height : BitVec 32) : ℕ :=
  if host.malloc (host.request width height) then host.request width height else 0

def tableBytes (height : BitVec 32) : ℕ :=
  (BitVec.ofNat (8 * host.pointerSize) host.pointerSize *
      height.signExtend (8 * host.pointerSize) * 2 +
    BitVec.ofNat (8 * host.pointerSize) (host.pointerSize * 1024)).toNat

def rowOffset (width : BitVec 32) (j : ℕ) : ℤ := (width * 4 * BitVec.ofNat 32 j).toInt

/-- The flag tells whether `fb` is not `NULL`. There is no result where a row pointer is stored
outside the block. -/
def deviceInit (width height : BitVec 32) (fb : Bool) : Option RowPointers := do
  let framebuf : ℤ := if fb then 0 else host.tableBytes height
  let rows ← (List.range height.toInt.toNat).mapM fun j =>
    if host.pointerSize * j + host.pointerSize ≤ host.blockSize width height then
      some (framebuf + rowOffset width j)
    else none
  return ⟨if fb then .external else .block, rows⟩

end Host

variable {K : Type} [Field K] [LinearOrder K] [FloorRing K]

namespace RowPointers

variable (table : RowPointers) (size : ℕ) (screen : Screen)

/-- `framebuffer[y][x] = cr` in an area of `size` bytes. There is no result where the pointer is
not one of the table or the word not inside the area. -/
def drawPixel (mem : Bytes) (p : Pixel K) : Option Bytes :=
  if p.OnScreen screen then
    match table.rows[p.cell.2]? with
    | some row =>
        if 0 ≤ row + 4 * p.cell.1 ∧ row + 4 * p.cell.1 + 4 ≤ size then
          some (storeWord mem (row + 4 * p.cell.1).toNat p.color.toUint32)
        else none
    | none => none
  else some mem

def drawPixels (mem : Bytes) (ps : List (Pixel K)) : Option Bytes :=
  ps.foldlM (table.drawPixel size screen) mem

end RowPointers

theorem mapM_guard {α β : Type} (q : α → Prop) [DecidablePred q] (f : α → β) (xs : List α) :
    xs.mapM (fun x => if q x then some (f x) else none) =
      if ∀ x ∈ xs, q x then some (xs.map f) else none := by
  induction xs with
  | nil => simp
  | cons x xs ih =>
      rw [List.mapM_cons, ih]
      by_cases hx : q x
      · by_cases hxs : ∀ y ∈ xs, q y
        · rw [if_pos hx, if_pos hxs, if_pos (List.forall_mem_cons.mpr ⟨hx, hxs⟩)]
          rfl
        · rw [if_pos hx, if_neg hxs, if_neg fun h => hxs (List.forall_mem_cons.mp h).2]
          rfl
      · rw [if_neg hx, if_neg fun h => hx (List.forall_mem_cons.mp h).1]
        rfl

theorem signExtend_ofNat {n v : ℕ} (hn : n < 2 ^ 31) (hv : 32 ≤ v) :
    (BitVec.ofNat 32 n).signExtend v = BitVec.ofNat v n := by
  have hmsb : (BitVec.ofNat 32 n).msb = false := by
    rw [BitVec.msb_eq_decide, BitVec.toNat_ofNat]
    simp only [decide_eq_false_iff_not, not_le]
    omega
  rw [BitVec.signExtend_eq_setWidth_of_msb_false hmsb,
    BitVec.setWidth_ofNat_of_le_of_lt hv (by omega)]

namespace Host

variable (host : Host)

def wantedBytes (w h : ℕ) : ℕ := host.pointerSize * (h * 2 + 1024) + w * h * 8 + 64

theorem addressSpace_eq : 2 ^ (8 * host.pointerSize) = 2 * 2 ^ (8 * host.pointerSize - 1) ∧
    2 ^ 31 ≤ 2 ^ (8 * host.pointerSize - 1) := by
  rcases host.pointerSize_eq with hP | hP
  · rw [hP]
    norm_num
  · rw [hP]
    norm_num

theorem need_add {w h : ℕ} (hh : h < 2 ^ 28) (hsize : 8 * w * h < 2 ^ 31) :
    host.need (BitVec.ofNat 32 w) (BitVec.ofNat 32 h) + 64 =
      BitVec.ofNat 32 (host.wantedBytes w h) := by
  have hbits : 32 ≤ 8 * host.pointerSize := by
    rcases host.pointerSize_eq with hP | hP <;> omega
  have htable : BitVec.ofNat 32 h * 2 + 1024 = BitVec.ofNat 32 (h * 2 + 1024) := by
    rw [BitVec.ofNat_add, BitVec.ofNat_mul]
    rfl
  have hpixels : BitVec.ofNat 32 w * BitVec.ofNat 32 h * 8 = BitVec.ofNat 32 (w * h * 8) := by
    rw [BitVec.ofNat_mul, BitVec.ofNat_mul]
    rfl
  have hpixels_lt : w * h * 8 < 2 ^ 31 := by
    rw [mul_comm, ← mul_assoc]
    exact hsize
  rw [need, htable, hpixels, signExtend_ofNat (by omega) hbits, signExtend_ofNat hpixels_lt hbits,
    ← BitVec.ofNat_mul, ← BitVec.ofNat_add, BitVec.setWidth_ofNat_of_le hbits, wantedBytes,
    BitVec.ofNat_add _ 64]
  rfl

theorem request_eq {w h : ℕ} (hh : h < 2 ^ 28) (hsize : 8 * w * h < 2 ^ 31) :
    host.request (BitVec.ofNat 32 w) (BitVec.ofNat 32 h) =
      if host.wantedBytes w h % 2 ^ 32 < 2 ^ 31 then host.wantedBytes w h % 2 ^ 32
      else host.wantedBytes w h % 2 ^ 32 + (2 ^ (8 * host.pointerSize) - 2 ^ 32) := by
  have hmod : host.wantedBytes w h % 2 ^ 32 % 2 ^ (8 * host.pointerSize) =
      host.wantedBytes w h % 2 ^ 32 := by
    obtain ⟨hbits, hhalf⟩ := host.addressSpace_eq
    apply Nat.mod_eq_of_lt
    omega
  rw [request, need_add host hh hsize, BitVec.toNat_signExtend, BitVec.toNat_setWidth,
    BitVec.msb_eq_decide, BitVec.toNat_ofNat, hmod]
  simp only [decide_eq_true_eq]
  split_ifs <;> omega

/-- The table fits where the wanted size does not overflow, or overflows to a size that is still
large enough, and the block is granted. -/
def TableFits (w h : ℕ) : Prop :=
  (host.wantedBytes w h < 2 ^ 31 ∧ host.malloc (host.wantedBytes w h)) ∨
    (2 ^ 32 + host.pointerSize * h ≤ host.wantedBytes w h ∧
      host.wantedBytes w h < 2 ^ 32 + 2 ^ 31 ∧ host.malloc (host.wantedBytes w h - 2 ^ 32))

theorem wantedBytes_bounds {w h : ℕ} (hh : h < 2 ^ 28) (hsize : 8 * w * h < 2 ^ 31) :
    host.pointerSize * h ≤ host.wantedBytes w h ∧ host.wantedBytes w h < 2 ^ 33 := by
  have hpixels : w * h * 8 < 2 ^ 31 := by
    rw [mul_comm, ← mul_assoc]
    exact hsize
  unfold wantedBytes
  rcases host.pointerSize_eq with hP | hP
  · rw [hP]
    omega
  · rw [hP]
    omega

theorem blockSize_of_negative
    (hmalloc : ∀ n, 2 ^ (8 * host.pointerSize - 1) ≤ n → host.malloc n = false) {w h : ℕ}
    (hh : h < 2 ^ 28) (hsize : 8 * w * h < 2 ^ 31)
    (hneg : 2 ^ 31 ≤ host.wantedBytes w h % 2 ^ 32) :
    host.blockSize (BitVec.ofNat 32 w) (BitVec.ofNat 32 h) = 0 := by
  have hrequest : 2 ^ (8 * host.pointerSize - 1) ≤
      host.request (BitVec.ofNat 32 w) (BitVec.ofNat 32 h) := by
    obtain ⟨hbits, hhalf⟩ := host.addressSpace_eq
    rw [request_eq host hh hsize, if_neg (by omega)]
    omega
  rw [blockSize, hmalloc _ hrequest]
  rfl

theorem blockSize_of_nonneg {w h : ℕ} (hh : h < 2 ^ 28) (hsize : 8 * w * h < 2 ^ 31)
    (hpos : host.wantedBytes w h % 2 ^ 32 < 2 ^ 31) :
    host.blockSize (BitVec.ofNat 32 w) (BitVec.ofNat 32 h) =
      if host.malloc (host.wantedBytes w h % 2 ^ 32) then host.wantedBytes w h % 2 ^ 32 else 0 := by
  rw [blockSize, request_eq host hh hsize, if_pos hpos]

theorem le_blockSize_iff
    (hmalloc : ∀ n, 2 ^ (8 * host.pointerSize - 1) ≤ n → host.malloc n = false) {w h : ℕ}
    (hh1 : 1 ≤ h) (hh : h < 2 ^ 28) (hsize : 8 * w * h < 2 ^ 31) :
    host.pointerSize * h ≤ host.blockSize (BitVec.ofNat 32 w) (BitVec.ofNat 32 h) ↔
      host.TableFits w h := by
  obtain ⟨hroom, hlt⟩ := host.wantedBytes_bounds hh hsize
  have hpos : 0 < host.pointerSize * h := by
    rcases host.pointerSize_eq with hP | hP <;> rw [hP] <;> omega
  unfold TableFits
  by_cases hsmall : host.wantedBytes w h < 2 ^ 31
  · have hmod : host.wantedBytes w h % 2 ^ 32 = host.wantedBytes w h := by omega
    rw [host.blockSize_of_nonneg hh hsize (by omega), hmod]
    split_ifs with hgrant
    · simp only [hroom, hsmall, hgrant, and_self, true_or]
    · simp only [hgrant, Bool.false_eq_true, and_false, false_or]
      omega
  · by_cases hneg : 2 ^ 31 ≤ host.wantedBytes w h % 2 ^ 32
    · rw [host.blockSize_of_negative hmalloc hh hsize hneg]
      omega
    · have hmod : host.wantedBytes w h % 2 ^ 32 = host.wantedBytes w h - 2 ^ 32 := by omega
      rw [host.blockSize_of_nonneg hh hsize (by omega), hmod]
      split_ifs with hgrant
      · simp only [hsmall, false_and, false_or, hgrant, and_true]
        omega
      · simp only [hsmall, false_and, hgrant, Bool.false_eq_true, and_false, or_self, iff_false]
        omega

theorem rowOffset_eq {w h j : ℕ} (hj : j < h) (hsize : 8 * w * h < 2 ^ 31) :
    rowOffset (BitVec.ofNat 32 w) j = ((w * 4 * j : ℕ) : ℤ) := by
  have hlt : w * 4 * j < 2 ^ 31 := by
    have hle : w * j ≤ w * h := Nat.mul_le_mul_left w hj.le
    rw [mul_assoc] at hsize
    rw [mul_right_comm]
    omega
  have hword : BitVec.ofNat 32 w * 4 * BitVec.ofNat 32 j = BitVec.ofNat 32 (w * 4 * j) := by
    rw [BitVec.ofNat_mul, BitVec.ofNat_mul]
    rfl
  rw [rowOffset, hword, toInt_ofNat_eq_iff _ hlt]
  omega

theorem deviceInit_external {w h : ℕ} (hh1 : 1 ≤ h) (hh : h < 2 ^ 28) (hsize : 8 * w * h < 2 ^ 31) :
    host.deviceInit (BitVec.ofNat 32 w) (BitVec.ofNat 32 h) true =
      if host.pointerSize * h ≤ host.blockSize (BitVec.ofNat 32 w) (BitVec.ofNat 32 h) then
        some ⟨.external, (List.range h).map fun j => ((w * 4 * j : ℕ) : ℤ)⟩
      else none := by
  have hheight : (BitVec.ofNat 32 h).toInt.toNat = h := by
    rw [(toInt_ofNat_eq_iff h (k := h) (by omega)).mpr (by omega), Int.toNat_natCast]
  have hfits : (∀ j ∈ List.range h, host.pointerSize * j + host.pointerSize ≤
      host.blockSize (BitVec.ofNat 32 w) (BitVec.ofNat 32 h)) ↔
      host.pointerSize * h ≤ host.blockSize (BitVec.ofNat 32 w) (BitVec.ofNat 32 h) := by
    constructor
    · intro hall
      have hlast := hall (h - 1) (List.mem_range.mpr (by omega))
      rwa [← Nat.mul_succ, Nat.succ_eq_add_one, Nat.sub_add_cancel hh1] at hlast
    · intro hle j hj
      rw [← Nat.mul_succ]
      exact (Nat.mul_le_mul_left _ (List.mem_range.mp hj)).trans hle
  have hrows : (List.range h).map (fun j => (0 : ℤ) + rowOffset (BitVec.ofNat 32 w) j) =
      (List.range h).map fun j => ((w * 4 * j : ℕ) : ℤ) := by
    apply List.map_congr_left
    intro j hj
    rw [zero_add, rowOffset_eq (List.mem_range.mp hj) hsize]
  simp only [deviceInit, hheight, mapM_guard, hfits, if_true, hrows]
  split_ifs <;> rfl

end Host

def cellOffset (w : ℕ) (c : ℕ × ℕ) : ℕ := w * 4 * c.2 + 4 * c.1

theorem cellOffset_inside {w h : ℕ} {c : ℕ × ℕ} (hx : c.1 < w) (hy : c.2 < h) :
    cellOffset w c + 4 ≤ 4 * w * h := by
  have hrow : w * (c.2 + 1) ≤ w * h := Nat.mul_le_mul_left w hy
  rw [Nat.mul_succ] at hrow
  rw [cellOffset, mul_right_comm, mul_assoc 4]
  omega

theorem cellOffset_lt {w : ℕ} {c d : ℕ × ℕ} (hx : c.1 < w) (hy : c.2 < d.2) :
    cellOffset w c + 4 ≤ cellOffset w d := by
  have hrow : w * (c.2 + 1) ≤ w * d.2 := Nat.mul_le_mul_left w hy
  rw [Nat.mul_succ] at hrow
  rw [cellOffset, cellOffset, mul_right_comm, mul_right_comm w 4 d.2]
  omega

theorem cellOffset_apart {w : ℕ} {c d : ℕ × ℕ} (hc : c.1 < w) (hd : d.1 < w) (h : c ≠ d) :
    cellOffset w c + 4 ≤ cellOffset w d ∨ cellOffset w d + 4 ≤ cellOffset w c := by
  rcases lt_trichotomy c.2 d.2 with hy | hy | hy
  · exact .inl (cellOffset_lt hc hy)
  · have hx : c.1 ≠ d.1 := fun hx => h (Prod.ext hx hy)
    rw [cellOffset, cellOffset, hy]
    omega
  · exact .inr (cellOffset_lt hd hy)

def cellLayout (w h : ℕ) : Layout {c : ℕ × ℕ // c.1 < w ∧ c.2 < h} where
  addr c := cellOffset w c.1
  apart c d hcd := cellOffset_apart c.2.1 d.2.1 fun h => hcd (Subtype.ext h)

section Runs

def intScreen (w h : ℕ) : Screen := ⟨BitVec.ofNat 32 w, BitVec.ofNat 32 h⟩

theorem onScreen_iff {w h : ℕ} (hw : w < 2 ^ 32) (hh : h < 2 ^ 32) (p : Pixel K) :
    p.OnScreen (intScreen w h) ↔ p.cell.1 < w ∧ p.cell.2 < h := by
  have hwidth : (BitVec.ofNat 32 w).toNat = w := Nat.mod_eq_of_lt hw
  have hheight : (BitVec.ofNat 32 h).toNat = h := Nat.mod_eq_of_lt hh
  rw [Pixel.OnScreen, BitVec.lt_def, BitVec.lt_def, intScreen, hwidth, hheight]
  rfl

def RowPointers.HasRows (table : RowPointers) (w h : ℕ) : Prop :=
  ∀ y < h, table.rows[y]? = some ((w * 4 * y : ℕ) : ℤ)

namespace RowPointers.HasRows

variable {table : RowPointers} {w h : ℕ} (hrows : table.HasRows w h) (hw : w < 2 ^ 32)
  (hh : h < 2 ^ 32)

include hrows hw hh

theorem drawPixel_eq (mem : Bytes) (p : Pixel K) :
    table.drawPixel (4 * w * h) (intScreen w h) mem p =
      some (if p.OnScreen (intScreen w h) then
        storeWord mem (cellOffset w p.cell) p.color.toUint32 else mem) := by
  by_cases hp : p.OnScreen (intScreen w h)
  · obtain ⟨hx, hy⟩ := (onScreen_iff hw hh p).mp hp
    have haddr : ((w * 4 * p.cell.2 : ℕ) : ℤ) + 4 * p.cell.1 = (cellOffset w p.cell : ℕ) := by
      rw [cellOffset]
      push_cast
      rfl
    have hinside := cellOffset_inside hx hy
    simp only [drawPixel, if_pos hp, hrows p.cell.2 hy, haddr, Int.toNat_natCast]
    rw [if_pos]
    constructor <;> omega
  · rw [drawPixel, if_neg hp, if_neg hp]

theorem drawPixels_paint (ps : List (Pixel K)) {mem : Bytes} {fb : Framebuffer}
    (hfb : ∀ c, (cellLayout w h).read mem c = fb c.1) :
    ∃ mem', table.drawPixels (4 * w * h) (intScreen w h) mem ps = some mem' ∧
      ∀ c, (cellLayout w h).read mem' c = (intScreen w h).paint fb ps c.1 := by
  induction ps generalizing mem fb with
  | nil => exact ⟨mem, rfl, hfb⟩
  | cons p ps ih =>
      have hstep : ∀ c, (cellLayout w h).read (if p.OnScreen (intScreen w h) then
          storeWord mem (cellOffset w p.cell) p.color.toUint32 else mem) c =
            (intScreen w h).drawPixel fb p c.1 := by
        intro c
        by_cases hp : p.OnScreen (intScreen w h)
        · have hcell := (onScreen_iff hw hh p).mp hp
          have hread := congrFun ((cellLayout w h).read_storeWord mem ⟨p.cell, hcell⟩
            p.color.toUint32) c
          rw [if_pos hp, Screen.drawPixel, if_pos hp]
          refine hread.trans ?_
          by_cases hc : c.1 = p.cell
          · obtain rfl : c = ⟨p.cell, hcell⟩ := Subtype.ext hc
            rw [Function.update_self, Function.update_self]
          · have hne : c ≠ ⟨p.cell, hcell⟩ := fun h => hc (congrArg Subtype.val h)
            rw [Function.update_of_ne hne, Function.update_of_ne hc, hfb]
        · rw [if_neg hp, Screen.drawPixel, if_neg hp, hfb]
      obtain ⟨mem', hrun, hpaint⟩ := ih hstep
      refine ⟨mem', ?_, hpaint⟩
      rw [drawPixels, List.foldlM_cons, hrows.drawPixel_eq hw hh]
      exact hrun

end RowPointers.HasRows

def Pixel.InRange (p : Pixel K) : Prop :=
  (0 ≤ p.x ∧ p.x < (2 ^ 32 : ℕ)) ∧ 0 ≤ p.y ∧ p.y < (2 ^ 32 : ℕ)

def lastColour (ps : List (Pixel K)) (x y : ℕ) : Option (BitVec 32) :=
  (ps.filter fun p => ⌊p.x⌋ = (x : ℤ) ∧ ⌊p.y⌋ = (y : ℤ)).getLast?.map fun p => p.color.toUint32

theorem Pixel.InRange.cell_eq_iff {p : Pixel K} (hp : p.InRange) (c : ℕ × ℕ) :
    c = p.cell ↔ ⌊p.x⌋ = (c.1 : ℤ) ∧ ⌊p.y⌋ = (c.2 : ℤ) := by
  obtain ⟨⟨hx0, hx1⟩, hy0, hy1⟩ := hp
  have hx := toNat_uint32_of_lt hx0 (by exact_mod_cast hx1)
  have hy := toNat_uint32_of_lt hy0 (by exact_mod_cast hy1)
  have hxpos : 0 ≤ ⌊p.x⌋ := Int.floor_nonneg.mpr hx0
  have hypos : 0 ≤ ⌊p.y⌋ := Int.floor_nonneg.mpr hy0
  rw [Prod.ext_iff, Pixel.cell, hx, hy]
  omega

theorem lastWrite_writes {w h : ℕ} (hw : w < 2 ^ 32) (hh : h < 2 ^ 32) {c : ℕ × ℕ}
    (hc : c.1 < w ∧ c.2 < h) (ps : List (Pixel K)) (hps : ∀ p ∈ ps, p.InRange) :
    lastWrite ((intScreen w h).writes ps) c = lastColour ps c.1 c.2 := by
  induction ps with
  | nil => rfl
  | cons p ps ih =>
      have hp := (hps p List.mem_cons_self).cell_eq_iff c
      have hrest := ih fun q hq => hps q (List.mem_cons_of_mem p hq)
      by_cases hpc : c = p.cell
      · have hon : p.OnScreen (intScreen w h) := by
          rw [onScreen_iff hw hh, ← hpc]
          exact hc
        have hwrites : (intScreen w h).writes (p :: ps) =
            (p.cell, p.color.toUint32) :: (intScreen w h).writes ps := by
          simp [Screen.writes, hon]
        have hlast : lastColour (p :: ps) c.1 c.2 =
            (lastColour ps c.1 c.2).or (some p.color.toUint32) := by
          unfold lastColour
          rw [List.filter_cons_of_pos (by simpa using hp.mp hpc), List.getLast?_cons]
          cases (ps.filter fun p => ⌊p.x⌋ = (c.1 : ℤ) ∧ ⌊p.y⌋ = (c.2 : ℤ)).getLast? <;> rfl
        rw [hwrites, lastWrite, hrest, if_pos hpc, hlast]
      · have hlast : lastColour (p :: ps) c.1 c.2 = lastColour ps c.1 c.2 := by
          unfold lastColour
          rw [List.filter_cons_of_neg (by simpa using fun hx hy => hpc (hp.mpr ⟨hx, hy⟩))]
        rw [hlast, ← hrest]
        by_cases hon : p.OnScreen (intScreen w h)
        · have hwrites : (intScreen w h).writes (p :: ps) =
              (p.cell, p.color.toUint32) :: (intScreen w h).writes ps := by
            simp [Screen.writes, hon]
          rw [hwrites, lastWrite, if_neg hpc, Option.or_none]
        · have hwrites : (intScreen w h).writes (p :: ps) = (intScreen w h).writes ps := by
            simp [Screen.writes, hon]
          rw [hwrites]

/-- The area behind the row pointers is a map of `w` times `h` pixels: every cell has its own four
bytes, and after any calls holds the colour of the last one that hit it. -/
structure IsPixelMap (K : Type) [Field K] [LinearOrder K] [FloorRing K] (table : RowPointers)
    (w h : ℕ) : Prop where
  external : table.area = .external
  /-- The offset of a row is exact. -/
  rows : table.HasRows w h
  inside : ∀ x < w, ∀ y < h, cellOffset w (x, y) + 4 ≤ 4 * w * h
  apart : ∀ c d : ℕ × ℕ, c.1 < w → d.1 < w → c ≠ d →
    cellOffset w c + 4 ≤ cellOffset w d ∨ cellOffset w d + 4 ≤ cellOffset w c
  last : ∀ (mem : Bytes) (ps : List (Pixel K)), (∀ p ∈ ps, p.InRange) →
    ∃ mem', table.drawPixels (4 * w * h) (intScreen w h) mem ps = some mem' ∧
      ∀ x < w, ∀ y < h, loadWord mem' (cellOffset w (x, y)) =
        (lastColour ps x y).getD (loadWord mem (cellOffset w (x, y)))
  outside : ∀ (mem : Bytes) (p : Pixel K), p.InRange → (w : ℤ) ≤ ⌊p.x⌋ ∨ (h : ℤ) ≤ ⌊p.y⌋ →
    table.drawPixel (4 * w * h) (intScreen w h) mem p = some mem

theorem RowPointers.HasRows.isPixelMap {table : RowPointers} {w h : ℕ} (hrows : table.HasRows w h)
    (harea : table.area = .external) (hw : w < 2 ^ 32) (hh : h < 2 ^ 32) :
    IsPixelMap K table w h where
  external := harea
  rows := hrows
  inside x hx y hy := cellOffset_inside hx hy
  apart c d hc hd hcd := cellOffset_apart hc hd hcd
  last mem ps hps := by
    let fb : ℕ × ℕ → BitVec 32 := fun c => loadWord mem (cellOffset w c)
    have hread : ∀ c, (cellLayout w h).read mem c = fb c.1 := fun c => rfl
    obtain ⟨mem', hrun, hpaint⟩ := hrows.drawPixels_paint hw hh ps hread
    refine ⟨mem', hrun, fun x hx y hy => ?_⟩
    have hlast : lastWrite ((intScreen w h).writes ps) (x, y) = lastColour ps x y :=
      lastWrite_writes hw hh ⟨hx, hy⟩ ps hps
    rw [← hlast]
    refine (hpaint ⟨(x, y), hx, hy⟩).trans ?_
    rw [Screen.paint_eq_writeAll, writeAll_apply]
  outside mem p hp hout := by
    have hcell := (hp.cell_eq_iff p.cell).mp rfl
    have hoff : ¬ p.OnScreen (intScreen w h) := by
      rw [onScreen_iff hw hh]
      omega
    rw [hrows.drawPixel_eq hw hh, if_neg hoff]

variable (K)

/-- With an external pixel area, `device_init` succeeds exactly when the table of row pointers
fits, and then the framebuffer is a map of pixels. -/
theorem deviceInit_isPixelMap_iff (host : Host)
    (hmalloc : ∀ n, 2 ^ (8 * host.pointerSize - 1) ≤ n → host.malloc n = false) {w h : ℕ}
    (hw1 : 1 ≤ w) (hh1 : 1 ≤ h) (hsize : 8 * w * h < 2 ^ 31) :
    (∃ table, host.deviceInit (BitVec.ofNat 32 w) (BitVec.ofNat 32 h) true = some table ∧
      IsPixelMap K table w h) ↔ host.TableFits w h := by
  have hw : w < 2 ^ 28 := by nlinarith
  have hh : h < 2 ^ 28 := by nlinarith
  rw [← host.le_blockSize_iff hmalloc hh1 hh hsize, host.deviceInit_external hh1 hh hsize]
  split_ifs with hfits
  · simp only [hfits, iff_true]
    refine ⟨_, rfl, RowPointers.HasRows.isPixelMap ?_ rfl (by omega) (by omega)⟩
    intro y hy
    simp [hy]
  · simp [hfits]

end Runs

def Host.wide : Host := ⟨8, .inr rfl, fun n => decide (n < 2 ^ 47)⟩

theorem Host.wide_malloc (n : ℕ) (hn : 2 ^ (8 * Host.wide.pointerSize - 1) ≤ n) :
    Host.wide.malloc n = false := by
  have hbits : 8 * Host.wide.pointerSize - 1 = 63 := rfl
  rw [hbits] at hn
  simp only [Host.wide, decide_eq_false_iff_not, not_lt]
  omega

theorem deviceInit_isPixelMap_window :
    ∃ table, Host.wide.deviceInit (BitVec.ofNat 32 800) (BitVec.ofNat 32 600) true = some table ∧
      IsPixelMap ℚ table 800 600 :=
  (deviceInit_isPixelMap_iff ℚ Host.wide Host.wide_malloc (by norm_num) (by norm_num)
    (by norm_num)).mpr (.inl ⟨by decide, by decide⟩)

theorem deviceInit_large :
    8 * 16383 * 16383 < 2 ^ 31 ∧
      Host.wide.deviceInit (BitVec.ofNat 32 16383) (BitVec.ofNat 32 16383) true = none := by
  refine ⟨by norm_num, ?_⟩
  have hblock := Host.wide.blockSize_of_negative Host.wide_malloc (w := 16383) (h := 16383)
    (by norm_num) (by norm_num) (by decide)
  rw [Host.wide.deviceInit_external (by norm_num) (by norm_num) (by norm_num), hblock]
  exact if_neg (by decide)

end SoftRenderer
