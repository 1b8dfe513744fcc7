import Mathlib

/-!
# The packed colour

`rgba2hex` and `hex2rgba` of the host. A colour is a 32-bit word with alpha in the highest byte,
then red, green and blue. The floating-point channels are exact numbers here, and the conversion to
`uint32` truncates.
-/

namespace SoftRenderer

variable {K : Type} [Field K]

structure Rgba (K : Type) where
  r : K
  g : K
  b : K
  a : K

namespace BitMask

def inv255 : K := 1 / 255

end BitMask

/-- The alpha channel is read from the byte of the red one. -/
def hex2rgba (rc : BitVec 32) : Rgba K where
  r := (((rc >>> 16) &&& 0xff#32).toNat : K) * BitMask.inv255
  g := (((rc >>> 8) &&& 0xff#32).toNat : K) * BitMask.inv255
  b := (((rc >>> 0) &&& 0xff#32).toNat : K) * BitMask.inv255
  a := (((rc >>> 16) &&& 0xff#32).toNat : K) * BitMask.inv255

theorem toNat_byte (rc : BitVec 32) (n : ℕ) :
    ((rc >>> n) &&& 0xff#32).toNat = rc.toNat / 2 ^ n % 256 := by
  rw [BitVec.toNat_and, BitVec.toNat_ushiftRight, Nat.shiftRight_eq_div_pow,
    show (0xff#32).toNat = 2 ^ 8 - 1 from rfl, Nat.and_two_pow_sub_one_eq_mod]

theorem hex2rgba_eq (rc : BitVec 32) :
    (hex2rgba rc : Rgba K) =
      ⟨(rc.toNat / 2 ^ 16 % 256 : ℕ) * BitMask.inv255,
        (rc.toNat / 2 ^ 8 % 256 : ℕ) * BitMask.inv255,
        (rc.toNat % 256 : ℕ) * BitMask.inv255,
        (rc.toNat / 2 ^ 16 % 256 : ℕ) * BitMask.inv255⟩ := by
  simp only [hex2rgba, toNat_byte, pow_zero, Nat.div_one]

variable [LinearOrder K] [FloorRing K]

def uint32 (f : K) : BitVec 32 := BitVec.ofInt 32 (if 0 ≤ f then ⌊f⌋ else ⌈f⌉)

def rgba2hex (r g b a : K) : BitVec 32 :=
  (uint32 (r * 255) <<< 16) + (uint32 (g * 255) <<< 8) + uint32 (b * 255) +
    (uint32 (a * 255) <<< 24)

def Rgba.toHex (d : Rgba K) : BitVec 32 := rgba2hex d.r d.g d.b d.a

def channelByte (f : K) : ℕ := ⌊f * 255⌋.toNat

theorem inv255_mul (m : ℕ) : (m : K) * BitMask.inv255 * 255 = m := by
  rw [BitMask.inv255, mul_assoc, one_div_mul_cancel (by norm_num), mul_one]

section Encode

variable [IsStrictOrderedRing K]

theorem channelByte_le {f : K} (h1 : f ≤ 1) : channelByte f ≤ 255 := by
  have hf : ⌊f * 255⌋ ≤ 255 := by
    have hle : f * 255 ≤ 255 := by linarith
    simpa using Int.floor_le_floor hle
  unfold channelByte
  omega

theorem channelByte_eq_floor {f : K} (h0 : 0 ≤ f) : (channelByte f : ℤ) = ⌊f * 255⌋ := by
  have hf : 0 ≤ ⌊f * 255⌋ := Int.floor_nonneg.mpr (by positivity)
  unfold channelByte
  omega

omit [IsStrictOrderedRing K] in
theorem toNat_uint32_of_lt {f : K} (h0 : 0 ≤ f) (h1 : f < 2 ^ 32) :
    (uint32 f).toNat = ⌊f⌋.toNat := by
  have hpos : 0 ≤ ⌊f⌋ := Int.floor_nonneg.mpr h0
  have hlt : ⌊f⌋ < 2 ^ 32 := by
    rw [Int.floor_lt]
    exact_mod_cast h1
  rw [uint32, if_pos h0, ← Int.toNat_of_nonneg hpos, BitVec.ofInt_natCast, BitVec.toNat_ofNat]
  exact Nat.mod_eq_of_lt (by omega)

theorem toNat_uint32_natCast {n : ℕ} (h : n < 2 ^ 32) : (uint32 (n : K)).toNat = n := by
  have hlt : (n : K) < 2 ^ 32 := by exact_mod_cast h
  rw [toNat_uint32_of_lt n.cast_nonneg hlt, Int.floor_natCast, Int.toNat_natCast]

theorem toNat_uint32 {f : K} (h0 : 0 ≤ f) (h1 : f ≤ 1) :
    (uint32 (f * 255)).toNat = channelByte f :=
  toNat_uint32_of_lt (by positivity) (by linarith)

theorem toNat_rgba2hex {r g b a : K} (hr : 0 ≤ r ∧ r ≤ 1) (hg : 0 ≤ g ∧ g ≤ 1)
    (hb : 0 ≤ b ∧ b ≤ 1) (ha : 0 ≤ a ∧ a ≤ 1) :
    (rgba2hex r g b a).toNat =
      channelByte a * 2 ^ 24 + channelByte r * 2 ^ 16 + channelByte g * 2 ^ 8 + channelByte b := by
  have hr' := channelByte_le hr.2
  have hg' := channelByte_le hg.2
  have hb' := channelByte_le hb.2
  have ha' := channelByte_le ha.2
  simp only [rgba2hex, BitVec.toNat_add, BitVec.toNat_shiftLeft, toNat_uint32 hr.1 hr.2,
    toNat_uint32 hg.1 hg.2, toNat_uint32 hb.1 hb.2, toNat_uint32 ha.1 ha.2, Nat.shiftLeft_eq]
  omega

end Encode

variable [IsStrictOrderedRing K]

theorem channelByte_inv255 (m : ℕ) : channelByte ((m : K) * BitMask.inv255) = m := by
  rw [channelByte, inv255_mul, Int.floor_natCast, Int.toNat_natCast]

theorem inv255_mem {m : ℕ} (hm : m < 256) :
    0 ≤ (m : K) * BitMask.inv255 ∧ (m : K) * BitMask.inv255 ≤ 1 := by
  have hle : (m : K) ≤ 255 := by exact_mod_cast Nat.le_of_lt_succ hm
  have hscale := inv255_mul (K := K) m
  constructor
  · unfold BitMask.inv255
    positivity
  · linarith

theorem toNat_toHex_hex2rgba (c : BitVec 32) :
    (hex2rgba c : Rgba K).toHex.toNat =
      c.toNat / 2 ^ 16 % 256 * 2 ^ 24 + c.toNat / 2 ^ 16 % 256 * 2 ^ 16 +
        c.toNat / 2 ^ 8 % 256 * 2 ^ 8 + c.toNat % 256 := by
  have hr := inv255_mem (K := K) (Nat.mod_lt (c.toNat / 2 ^ 16) (by norm_num : 0 < 256))
  have hg := inv255_mem (K := K) (Nat.mod_lt (c.toNat / 2 ^ 8) (by norm_num : 0 < 256))
  have hb := inv255_mem (K := K) (Nat.mod_lt c.toNat (by norm_num : 0 < 256))
  rw [hex2rgba_eq, Rgba.toHex, toNat_rgba2hex hr hg hb hr]
  simp only [channelByte_inv255]

/-- The decoded channel lies at most one step of the byte below the original. -/
def WithinStep (original decoded : K) : Prop := decoded ≤ original ∧ original - decoded ≤ 1 / 255

theorem withinStep_iff (f : K) (m : ℕ) :
    WithinStep f ((m : K) * BitMask.inv255) ↔ (m : K) ≤ f * 255 ∧ f * 255 ≤ (m : K) + 1 := by
  have hscale := inv255_mul (K := K) m
  unfold WithinStep
  constructor
  · rintro ⟨h1, h2⟩
    constructor <;> linarith
  · rintro ⟨h1, h2⟩
    constructor <;> linarith

theorem withinStep_channelByte {f : K} (h0 : 0 ≤ f) :
    WithinStep f ((channelByte f : K) * BitMask.inv255) := by
  have hfloor : ((channelByte f : ℤ) : K) = (⌊f * 255⌋ : K) := by
    rw [channelByte_eq_floor h0]
  rw [Int.cast_natCast] at hfloor
  rw [withinStep_iff, hfloor]
  exact ⟨Int.floor_le _, (Int.lt_floor_add_one _).le⟩

/-- The sum of the shifted channels has no carry and does not wrap, and each channel comes back in
its own position. -/
structure ChannelsRoundTrip (r g b a : K) : Prop where
  sum_eq : (rgba2hex r g b a).toNat =
    channelByte a * 2 ^ 24 + channelByte r * 2 ^ 16 + channelByte g * 2 ^ 8 + channelByte b
  no_carry : channelByte r < 256 ∧ channelByte g < 256 ∧ channelByte b < 256 ∧ channelByte a < 256
  red : WithinStep r (hex2rgba (rgba2hex r g b a)).r
  green : WithinStep g (hex2rgba (rgba2hex r g b a)).g
  blue : WithinStep b (hex2rgba (rgba2hex r g b a)).b
  alpha : WithinStep a (hex2rgba (rgba2hex r g b a)).a

theorem hex2rgba_rgba2hex {r g b a : K} (hr : 0 ≤ r ∧ r ≤ 1) (hg : 0 ≤ g ∧ g ≤ 1)
    (hb : 0 ≤ b ∧ b ≤ 1) (ha : 0 ≤ a ∧ a ≤ 1) :
    hex2rgba (rgba2hex r g b a) =
      (⟨channelByte r * BitMask.inv255, channelByte g * BitMask.inv255,
        channelByte b * BitMask.inv255, channelByte r * BitMask.inv255⟩ : Rgba K) := by
  have hr' := channelByte_le hr.2
  have hg' := channelByte_le hg.2
  have hb' := channelByte_le hb.2
  have hred : (rgba2hex r g b a).toNat / 2 ^ 16 % 256 = channelByte r := by
    rw [toNat_rgba2hex hr hg hb ha]
    omega
  have hgreen : (rgba2hex r g b a).toNat / 2 ^ 8 % 256 = channelByte g := by
    rw [toNat_rgba2hex hr hg hb ha]
    omega
  have hblue : (rgba2hex r g b a).toNat % 256 = channelByte b := by
    rw [toNat_rgba2hex hr hg hb ha]
    omega
  rw [hex2rgba_eq, hred, hgreen, hblue]

theorem channelsRoundTrip_iff {r g b a : K} (hr : 0 ≤ r ∧ r ≤ 1) (hg : 0 ≤ g ∧ g ≤ 1)
    (hb : 0 ≤ b ∧ b ≤ 1) (ha : 0 ≤ a ∧ a ≤ 1) :
    ChannelsRoundTrip r g b a ↔
      (channelByte r : K) ≤ a * 255 ∧ a * 255 ≤ (channelByte r : K) + 1 := by
  have hdecode := hex2rgba_rgba2hex hr hg hb ha
  constructor
  · intro h
    have halpha := h.alpha
    rw [hdecode] at halpha
    exact (withinStep_iff a (channelByte r)).mp halpha
  · intro h
    have hr' := channelByte_le hr.2
    have hg' := channelByte_le hg.2
    have hb' := channelByte_le hb.2
    have ha' := channelByte_le ha.2
    refine ⟨toNat_rgba2hex hr hg hb ha, by omega, ?_, ?_, ?_, ?_⟩
    · rw [hdecode]
      exact withinStep_channelByte hr.1
    · rw [hdecode]
      exact withinStep_channelByte hg.1
    · rw [hdecode]
      exact withinStep_channelByte hb.1
    · rw [hdecode]
      exact (withinStep_iff a (channelByte r)).mpr h

theorem toHex_hex2rgba_iff (c : BitVec 32) :
    (hex2rgba c : Rgba K).toHex = c ↔ c.toNat / 2 ^ 24 = c.toNat / 2 ^ 16 % 256 := by
  have hlt := c.isLt
  rw [← BitVec.toNat_inj, toNat_toHex_hex2rgba]
  omega

/-- The codec round-trips exactly where alpha agrees with red: byte for byte when a colour is
decoded and encoded again, and up to one step when channels are encoded and decoded. -/
theorem colourCodec_roundTrip_iff :
    (∀ c : BitVec 32, (hex2rgba c : Rgba K).toHex = c ↔
      c.toNat / 2 ^ 24 = c.toNat / 2 ^ 16 % 256) ∧
    (∀ r g b a : K, 0 ≤ r ∧ r ≤ 1 → 0 ≤ g ∧ g ≤ 1 → 0 ≤ b ∧ b ≤ 1 → 0 ≤ a ∧ a ≤ 1 →
      (ChannelsRoundTrip r g b a ↔
        (⌊r * 255⌋ : K) ≤ a * 255 ∧ a * 255 ≤ (⌊r * 255⌋ : K) + 1)) := by
  constructor
  · exact toHex_hex2rgba_iff
  · intro r g b a hr hg hb ha
    rw [channelsRoundTrip_iff hr hg hb ha, ← channelByte_eq_floor hr.1, Int.cast_natCast]

theorem colourCodec_roundTrip_bytes :
    (hex2rgba 0x34345678#32 : Rgba ℚ).toHex = 0x34345678#32 :=
  (colourCodec_roundTrip_iff.1 0x34345678#32).mpr (by decide)

theorem colourCodec_not_roundTrip : ¬ ∀ c : BitVec 32, (hex2rgba c : Rgba ℚ).toHex = c := by
  intro h
  have hred := (toHex_hex2rgba_iff 0x00ff0000#32).mp (h 0x00ff0000#32)
  revert hred
  decide

end SoftRenderer
