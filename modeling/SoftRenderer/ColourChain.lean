import SoftRenderer.Framebuffer
import SoftRenderer.Kit.Digits
import SoftRenderer.TriangleInterpolation
import SoftRenderer.VertexLerp

/-!
# The colour of a fragment

A packed colour is interpolated as one number, divided by `w` before and multiplied by `w` after.
With an interpolation that works, the channels of every fragment lie between those of the two
vertices only if no carry can cross a byte between the two colours; with `vertexoutLerp` there is
no colour at all.
-/

namespace SoftRenderer

open Kit Kit.Procedure

variable {K : Type} [Field K]

def Value.div (a b : Value K) : Except LuaError (Value K) := arith (· / ·) a b

/-- The steps of `scanlineFill` from two vertices to the colour that it draws. -/
def fragmentColor (interp : VertexInterpolation K) (left right : VertexOut K) (lerpFactor : K) :
    Except LuaError (Value K) := do
  let oneDivZ ← Value.lerp left.oneDivZ right.oneDivZ lerpFactor
  let w ← Value.div (.number 1) oneDivZ
  let out ← interp left right lerpFactor
  Value.mul out.color w

/-- The calls of `scanlineFill` that fail on every pair of vertices. -/
structure FragmentCalls (K : Type) where
  vertexoutLerp : VertexInterpolation K
  texTimes : Vector2 K → K → Except LuaError (Value K)
  normalOperands : Value K → K → Except LuaError (Vector4 K × Vector4 K)

def FragmentCalls.source : FragmentCalls K where
  vertexoutLerp := SoftRenderer.vertexoutLerp
  texTimes tex w := Value.mul (.vector2 tex) (.number w)
  normalOperands normal w := Value.toVector4s "p1" "p2" normal (.number w)

variable [LinearOrder K]

/-- The part of `scanlineFill` after the interpolation factor. -/
def openFragment (calls : FragmentCalls K) (self : Device K) (left right : VertexOut K)
    (xIndex yIndex lerpFactor : K) : LuaM K Unit := do
  let oneDivZ ← lift (Value.lerp left.oneDivZ right.oneDivZ lerpFactor)
  let world ← read
  match world.zBuff xIndex with
  | none => raise (.index .field "?" .nil)
  | some row =>
      let visible ← lift (oneDivZ.ge (row yIndex))
      if visible then
        change fun world => { world with
          zBuff := Function.update world.zBuff xIndex
            (some (Function.update row yIndex oneDivZ)) }
        let w ← divideBy 1 oneDivZ
        let out ← lift (calls.vertexoutLerp left right lerpFactor)
        let out := { out with posProj := { out.posProj with y := yIndex } }
        let tex ← lift (calls.texTimes out.tex w)
        let p ← lift (calls.normalOperands out.normal w)
        let _normal := vector4Mul p.1 p.2
        let color ← lift (Value.mul out.color (.number w))
        change fun world => { world with
          fragments := world.fragments ++ [⟨xIndex, yIndex, oneDivZ, tex⟩] }
        self.drawPixel xIndex yIndex color

def openScanlineFill [FloorRing K] (calls : FragmentCalls K) (self : Device K)
    (left right : VertexOut K) (yIndex : K) : LuaM K Unit := do
  let dx := right.posProj.x - left.posProj.x
  forEach (forValues left.posProj.x right.posProj.x) fun x => do
    let xIndex := x + 0.5
    if 0 ≤ xIndex ∧ xIndex < self.width then
      let lerpFactor ← if dx ≠ 0 then divide (x - left.posProj.x) dx else pure 0
      openFragment calls self left right xIndex yIndex lerpFactor

theorem scanlineFill_eq_open [FloorRing K] (self : Device K) (left right : VertexOut K)
    (yIndex : K) : self.scanlineFill left right yIndex =
      openScanlineFill .source self left right yIndex := rfl

omit [LinearOrder K] in
theorem divideBy_ok {a b : K} {v : Value K} {world world' : World K}
    (h : divideBy a v world = (.ok b, world')) : Value.div (.number a) v = .ok (.number b) := by
  cases v with
  | number n =>
      cases h
      rfl
  | nil | vector2 | vector4 | matrix => cases h

omit [LinearOrder K] in
theorem divideBy_preserves_pixels (a : K) (v : Value K) :
    Preserves World.pixels (divideBy a v) := by
  intro world
  cases v <;> rfl

theorem openFragment_adds (calls : FragmentCalls K) (self : Device K) (left right : VertexOut K)
    (xIndex yIndex lerpFactor : K) :
    Adds World.pixels
      (fun p => fragmentColor calls.vertexoutLerp left right lerpFactor = .ok p.color)
      (openFragment calls self left right xIndex yIndex lerpFactor) := by
  refine Adds.lift_bind fun oneDivZ hz => ?_
  refine (Adds.of_preserves fun _ => rfl).bind fun world _ _ _ => ?_
  cases world.zBuff xIndex with
  | none => exact Adds.of_preserves fun _ => rfl
  | some row =>
      refine Adds.lift_bind fun visible _ => ?_
      cases visible with
      | false => exact Adds.of_preserves (Preserves.pure _ ())
      | true =>
          refine (Adds.of_preserves fun _ => rfl).bind fun _ _ _ _ => ?_
          refine (Adds.of_preserves (divideBy_preserves_pixels 1 oneDivZ)).bind fun w _ _ hw => ?_
          refine Adds.lift_bind fun out hout => ?_
          refine Adds.lift_bind fun tex _ => ?_
          refine Adds.lift_bind fun p _ => ?_
          refine Adds.lift_bind fun color hcolor => ?_
          refine (Adds.of_preserves fun _ => rfl).bind fun _ _ _ _ world => ?_
          have hfragment :
              fragmentColor calls.vertexoutLerp left right lerpFactor = .ok color := by
            simp only [fragmentColor, hz, hout]
            change (Value.div (.number 1) oneDivZ >>= fun w => Value.mul out.color w) = .ok color
            rw [divideBy_ok hw]
            exact hcolor
          exact ⟨[⟨xIndex, yIndex, color⟩], rfl, by simpa using hfragment⟩

theorem openScanlineFill_adds [FloorRing K] (calls : FragmentCalls K) (self : Device K)
    (left right : VertexOut K) (yIndex : K) :
    Adds World.pixels (fun p => ∃ t, fragmentColor calls.vertexoutLerp left right t = .ok p.color)
      (openScanlineFill calls self left right yIndex) := by
  have hfragment : ∀ xIndex t, Adds World.pixels
      (fun p => ∃ t, fragmentColor calls.vertexoutLerp left right t = .ok p.color)
      (openFragment calls self left right xIndex yIndex t) :=
    fun xIndex t => (openFragment_adds calls self left right xIndex yIndex t).mono
      fun p hp => ⟨t, hp⟩
  refine Adds.forEach fun x _ => ?_
  dsimp only
  split_ifs with hin hdx
  · exact (Adds.of_preserves fun _ => rfl).bind fun t _ _ _ => hfragment (x + 0.5) t
  · exact (Adds.of_preserves fun _ => rfl).bind fun t _ _ _ => hfragment (x + 0.5) t
  · exact Adds.of_preserves (Preserves.pure _ ())

def PreparedVertex.typed (v : PreparedVertex K) : TypedVertex K where
  posWorld := v.posWorld
  posProj := v.posProj
  tex := vector2Scl v.tex (1 / v.w)
  normal := vector4Scl v.normal (1 / v.w)
  color := v.color * (1 / v.w)
  oneDivZ := 1 / v.w

theorem PreparedVertex.typed_toVertexOut (v : PreparedVertex K) :
    v.typed.toVertexOut = v.toVertexOut := rfl

theorem fragmentColor_vertexoutLerp (left right : PreparedVertex K) (t : K) :
    fragmentColor vertexoutLerp left.toVertexOut right.toVertexOut t = .error (.arith .table) :=
  rfl

/-- A scanline between two prepared vertices draws nothing, since no fragment has a colour. -/
theorem scanlineFill_preserves_pixels [FloorRing K] (self : Device K)
    (left right : PreparedVertex K) (yIndex : K) :
    Preserves World.pixels (self.scanlineFill left.toVertexOut right.toVertexOut yIndex) := by
  rw [scanlineFill_eq_open]
  apply (openScanlineFill_adds .source self left.toVertexOut right.toVertexOut yIndex).preserves
  rintro p ⟨t, hcolor⟩
  change fragmentColor vertexoutLerp left.toVertexOut right.toVertexOut t = .ok p.color at hcolor
  rw [fragmentColor_vertexoutLerp] at hcolor
  cases hcolor

theorem fragmentColor_interpolatesAt {interp : VertexInterpolation K}
    {left right : PreparedVertex K} (hw : left.w = right.w) {t : K}
    (h : InterpolatesAt interp left.typed right.typed t) :
    fragmentColor interp left.toVertexOut right.toVertexOut t =
      .ok (.number (lerp left.color right.color t)) := by
  rw [InterpolatesAt, left.typed_toVertexOut, right.typed_toVertexOut] at h
  have hpos := right.w_pos.ne'
  have hnum : lerp (left.color * (1 / right.w)) (right.color * (1 / right.w)) t *
      (1 / lerp (1 / right.w) (1 / right.w) t) = lerp left.color right.color t := by
    unfold lerp
    field_simp
    ring
  have hcolor : fragmentColor interp left.toVertexOut right.toVertexOut t =
      .ok (.number (lerp (left.color * (1 / left.w)) (right.color * (1 / right.w)) t *
        (1 / lerp (1 / left.w) (1 / right.w) t))) := by
    simp only [fragmentColor, h]
    rfl
  rw [hcolor, hw, hnum]

def channel (c : BitVec 32) (k : ℕ) : ℕ := ((c >>> (8 * k)) &&& 0xff#32).toNat

theorem channel_eq_digit (c : BitVec 32) (k : ℕ) : channel c k = digit 256 c.toNat k := by
  rw [channel, toNat_byte, digit, pow_mul, show 2 ^ 8 = 256 from rfl]

def ChannelsBetween (c1 c2 c : BitVec 32) : Prop :=
  ∀ k < 4, channel c k ∈ Set.uIcc (channel c1 k) (channel c2 k)

/-- Below a channel that changes, one colour has `0` and the other one `255`. -/
def NoCarry (c1 c2 : BitVec 32) : Prop :=
  ∀ k < 4, channel c1 k ≠ channel c2 k →
    ∀ j < k, min (channel c1 j) (channel c2 j) = 0 ∧ max (channel c1 j) (channel c2 j) = 255

instance (c1 c2 : BitVec 32) : Decidable (NoCarry c1 c2) := by
  unfold NoCarry
  infer_instance

theorem channelsBetween_iff_noCarry (c1 c2 : BitVec 32) :
    (∀ c : BitVec 32, c.toNat ∈ Set.uIcc c1.toNat c2.toNat → ChannelsBetween c1 c2 c) ↔
      NoCarry c1 c2 := by
  have hdigits := digit_mem_uIcc_iff (b := 256) (m := 4) (by norm_num) c1.isLt c2.isLt
  simp only [ChannelsBetween, NoCarry, channel_eq_digit]
  refine Iff.trans ⟨?_, ?_⟩ hdigits
  · intro h n hn
    have hlt : n < 2 ^ 32 := hn.2.trans_lt (max_lt c1.isLt c2.isLt)
    have hmod : (BitVec.ofNat 32 n).toNat = n := Nat.mod_eq_of_lt hlt
    have hbetween := h (BitVec.ofNat 32 n)
    rw [hmod] at hbetween
    exact hbetween hn
  · intro h c hc
    exact h c.toNat hc

section Interpolation

variable [IsStrictOrderedRing K]

theorem lerp_mem_uIcc (a b : K) {t : K} (h0 : 0 ≤ t) (h1 : t ≤ 1) :
    lerp a b t ∈ Set.uIcc a b := by
  unfold lerp
  rcases le_total a b with hab | hab
  · exact Set.mem_uIcc_of_le (by nlinarith) (by nlinarith)
  · exact Set.mem_uIcc_of_ge (by nlinarith) (by nlinarith)

theorem exists_lerp_eq {a b c : K} (hc : c ∈ Set.uIcc a b) :
    ∃ t, 0 ≤ t ∧ t ≤ 1 ∧ lerp a b t = c := by
  by_cases hab : a = b
  · subst hab
    rw [Set.uIcc_self, Set.mem_singleton_iff] at hc
    exact ⟨0, le_rfl, zero_le_one, by rw [lerp_zero, hc]⟩
  · have hne : b - a ≠ 0 := sub_ne_zero.mpr (Ne.symm hab)
    have hlerp : lerp a b ((c - a) / (b - a)) = c := by
      unfold lerp
      field_simp
      ring
    rcases Set.mem_uIcc.mp hc with ⟨hac, hcb⟩ | ⟨hbc, hca⟩
    · have hpos : 0 < b - a := lt_of_le_of_ne (by linarith) hne.symm
      exact ⟨_, div_nonneg (by linarith) hpos.le, (div_le_one hpos).mpr (by linarith), hlerp⟩
    · have hneg : b - a < 0 := lt_of_le_of_ne (by linarith) hne
      exact ⟨_, div_nonneg_of_nonpos (by linarith) hneg.le,
        (div_le_one_of_neg hneg).mpr (by linarith), hlerp⟩

variable [FloorRing K]

/-- The colours that truncate a number between two colours are the words between the two. -/
theorem exists_uint32_lerp_iff (c1 c2 c : BitVec 32) :
    (∃ t : K, 0 ≤ t ∧ t ≤ 1 ∧ uint32 (lerp (c1.toNat : K) c2.toNat t) = c) ↔
      c.toNat ∈ Set.uIcc c1.toNat c2.toNat := by
  constructor
  · intro h
    obtain ⟨t, h0, h1, rfl⟩ := h
    have hmem := lerp_mem_uIcc (c1.toNat : K) c2.toNat h0 h1
    set x := lerp (c1.toNat : K) c2.toNat t
    have hlow : ((min c1.toNat c2.toNat : ℕ) : K) ≤ x := by
      rw [Nat.cast_min]
      exact hmem.1
    have hhigh : x ≤ ((max c1.toNat c2.toNat : ℕ) : K) := by
      rw [Nat.cast_max]
      exact hmem.2
    have hmax : max c1.toNat c2.toNat < 2 ^ 32 := max_lt c1.isLt c2.isLt
    have hlt : x < 2 ^ 32 := hhigh.trans_lt (by exact_mod_cast hmax)
    have hfloor1 : ((min c1.toNat c2.toNat : ℕ) : ℤ) ≤ ⌊x⌋ :=
      Int.le_floor.mpr (by exact_mod_cast hlow)
    have hfloor2 : ⌊x⌋ ≤ ((max c1.toNat c2.toNat : ℕ) : ℤ) := by
      have hle := Int.floor_le_floor hhigh
      rwa [Int.floor_natCast] at hle
    rw [toNat_uint32_of_lt ((Nat.cast_nonneg _).trans hlow) hlt]
    constructor
    · change min c1.toNat c2.toNat ≤ ⌊x⌋.toNat
      omega
    · change ⌊x⌋.toNat ≤ max c1.toNat c2.toNat
      omega
  · intro hc
    have hcast : (c.toNat : K) ∈ Set.uIcc (c1.toNat : K) c2.toNat := by
      rcases Set.mem_uIcc.mp hc with ⟨h1, h2⟩ | ⟨h1, h2⟩
      · exact Set.mem_uIcc_of_le (by exact_mod_cast h1) (by exact_mod_cast h2)
      · exact Set.mem_uIcc_of_ge (by exact_mod_cast h1) (by exact_mod_cast h2)
    obtain ⟨t, h0, h1, ht⟩ := exists_lerp_eq hcast
    refine ⟨t, h0, h1, BitVec.eq_of_toNat_eq ?_⟩
    rw [ht, toNat_uint32_natCast c.isLt]

theorem fragmentColor_channels_iff {interp : VertexInterpolation K} {left right : PreparedVertex K}
    (hw : left.w = right.w) {c1 c2 : BitVec 32} (h1 : left.color = c1.toNat)
    (h2 : right.color = c2.toNat)
    (hinterp : ∀ t, 0 ≤ t → t ≤ 1 → InterpolatesAt interp left.typed right.typed t) :
    (∀ t, 0 ≤ t → t ≤ 1 → ∃ v, fragmentColor interp left.toVertexOut right.toVertexOut t = .ok v ∧
      ChannelsBetween c1 c2 v.toUint32) ↔ NoCarry c1 c2 := by
  rw [← channelsBetween_iff_noCarry]
  have hcolor : ∀ t, 0 ≤ t → t ≤ 1 →
      fragmentColor interp left.toVertexOut right.toVertexOut t =
        .ok (.number (lerp (c1.toNat : K) c2.toNat t)) := by
    intro t ht0 ht1
    rw [fragmentColor_interpolatesAt hw (hinterp t ht0 ht1), h1, h2]
  constructor
  · intro h c hc
    obtain ⟨t, ht0, ht1, rfl⟩ := (exists_uint32_lerp_iff (K := K) c1 c2 c).mpr hc
    obtain ⟨v, hv, hbetween⟩ := h t ht0 ht1
    rw [hcolor t ht0 ht1] at hv
    cases hv
    exact hbetween
  · intro h t ht0 ht1
    refine ⟨_, hcolor t ht0 ht1, h _ ?_⟩
    exact (exists_uint32_lerp_iff (K := K) c1 c2 _).mp ⟨t, ht0, ht1, rfl⟩

/-- The renderer has no colour for any fragment, and its scanlines draw nothing. With an
interpolation that works, the channels stay between those of the two colours for all `t` exactly
when no carry can cross a byte. -/
theorem fragmentColor_channels (left right : PreparedVertex K) (hw : left.w = right.w)
    (c1 c2 : BitVec 32) (h1 : left.color = c1.toNat) (h2 : right.color = c2.toNat) :
    (∀ (self : Device K) (yIndex : K),
      Preserves World.pixels (self.scanlineFill left.toVertexOut right.toVertexOut yIndex)) ∧
    (∀ t, ¬ ∃ v, fragmentColor vertexoutLerp left.toVertexOut right.toVertexOut t = .ok v ∧
      ChannelsBetween c1 c2 v.toUint32) ∧
    ∀ interp : VertexInterpolation K,
      (∀ t, 0 ≤ t → t ≤ 1 → InterpolatesAt interp left.typed right.typed t) →
      ((∀ t, 0 ≤ t → t ≤ 1 →
        ∃ v, fragmentColor interp left.toVertexOut right.toVertexOut t = .ok v ∧
          ChannelsBetween c1 c2 v.toUint32) ↔ NoCarry c1 c2) := by
  refine ⟨?_, ?_, ?_⟩
  · intro self yIndex
    exact scanlineFill_preserves_pixels self left right yIndex
  · intro t h
    obtain ⟨v, hv, -⟩ := h
    rw [fragmentColor_vertexoutLerp] at hv
    cases hv
  · intro interp hinterp
    exact fragmentColor_channels_iff hw h1 h2 hinterp

end Interpolation

def PreparedVertex.packed (c : BitVec 32) : PreparedVertex ℚ :=
  ⟨⟨0, 0, 0, 1⟩, ⟨0, 0, 0, 1⟩, ⟨0, 0⟩, c.toNat, ⟨0, 0, 1, 0⟩, 1, one_pos⟩

theorem fragmentColor_channels_blue :
    ∃ v, fragmentColor fieldwiseLerp (PreparedVertex.packed 0xff000000#32).toVertexOut
        (PreparedVertex.packed 0xff0000ff#32).toVertexOut (1 / 2) = .ok v ∧
      ChannelsBetween 0xff000000#32 0xff0000ff#32 v.toUint32 :=
  ((fragmentColor_channels (.packed 0xff000000#32) (.packed 0xff0000ff#32) rfl
    0xff000000#32 0xff0000ff#32 rfl rfl).2.2 fieldwiseLerp
      (fun t _ _ => fieldwiseLerp_interpolatesAt _ _ t)).mpr (by decide) (1 / 2)
        (by norm_num) (by norm_num)

/-- Halfway from red to black, half of the red runs over into the green channel. -/
theorem fragmentColor_red_black :
    fragmentColor vertexoutLerp (PreparedVertex.packed 0xffff0000#32).toVertexOut
        (PreparedVertex.packed 0xff000000#32).toVertexOut (1 / 2) = .error (.arith .table) ∧
      fragmentColor fieldwiseLerp (PreparedVertex.packed 0xffff0000#32).toVertexOut
        (PreparedVertex.packed 0xff000000#32).toVertexOut (1 / 2) =
          .ok (.number ((0xff7f8000#32).toNat : ℚ)) ∧
      channel 0xffff0000#32 1 = 0 ∧ channel 0xff7f8000#32 1 = 0x80 ∧
      channel 0xff000000#32 1 = 0 := by
  refine ⟨rfl, ?_, by decide, by decide, by decide⟩
  have hw : (PreparedVertex.packed 0xffff0000#32).w = (PreparedVertex.packed 0xff000000#32).w := rfl
  rw [fragmentColor_interpolatesAt hw (fieldwiseLerp_interpolatesAt _ _ _)]
  norm_num [PreparedVertex.packed, lerp]

end SoftRenderer
