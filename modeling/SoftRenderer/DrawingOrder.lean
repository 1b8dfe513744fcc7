import SoftRenderer.Divisors
import SoftRenderer.DrawingCalls
import SoftRenderer.Kit.Overlap

/-!
# The order of drawing calls

Later calls paint over earlier ones, so the order of two series of calls shows exactly in the cells
that both of them paint. Calls that overlap in one colour only can be made in any order and any
number of times. Both are said of calls that divide by no zero: after a zero divisor the source
draws from an infinite or an undefined end.
-/

namespace SoftRenderer

open Kit Kit.Procedure

variable {K : Type} [Field K] [LinearOrder K] [FloorRing K]

def DeviceCall.colour : DeviceCall K → Value K
  | .drawPixel _ _ color => color
  | .drawLine _ _ color => color
  | .drawTriangleTop _ _ _ color => color
  | .drawTriangleBottom _ _ _ color => color
  | .clear color => color

def Paints (cfg : Config K) (self : Device K) (calls : List (DeviceCall K)) (c : ℕ × ℕ) : Prop :=
  ∃ p ∈ callPixels cfg self calls, p.OnScreen cfg.screen ∧ p.cell = c

variable (cfg : Config K) (self : Device K)

def callWrites (calls : List (DeviceCall K)) : List ((ℕ × ℕ) × BitVec 32) :=
  cfg.screen.writes (callPixels cfg self calls)

theorem callWrites_append (calls1 calls2 : List (DeviceCall K)) :
    callWrites cfg self (calls1 ++ calls2) =
      callWrites cfg self calls1 ++ callWrites cfg self calls2 := by
  simp [callWrites, callPixels, Screen.writes]

theorem after_runCalls (calls : List (DeviceCall K)) (fb : Framebuffer) :
    cfg.screen.after (runCalls cfg self calls) fb = writeAll fb (callWrites cfg self calls) := by
  rw [Screen.after_eq (runCalls_appends cfg self calls), Screen.paint_eq_writeAll]
  rfl

theorem lastWrite_isSome_iff_paints {calls : List (DeviceCall K)} {c : ℕ × ℕ} :
    (lastWrite (callWrites cfg self calls) c).isSome ↔ Paints cfg self calls c := by
  rw [lastWrite_isSome_iff, Paints]
  constructor
  · rintro ⟨w, hw, rfl⟩
    obtain ⟨p, hp, hon, rfl⟩ := cfg.screen.mem_writes.mp hw
    exact ⟨p, hp, hon, rfl⟩
  · rintro ⟨p, hp, hon, rfl⟩
    exact ⟨_, cfg.screen.mem_writes.mpr ⟨p, hp, hon, rfl⟩, rfl⟩

/-- A call that divides by no zero. After another call the source may never come to the next. -/
abbrev SafeCall : Type := {call : DeviceCall K // DividesSafely (call.run cfg self)}

/-- A triangle that has a row has no horizontal edge beside it. -/
def DeviceCall.RowsApart : DeviceCall K → Prop
  | .drawTriangleTop pa pb pc _ => pa.y ≤ pc.y → pa.y ≠ pc.y ∧ pb.y ≠ pc.y
  | .drawTriangleBottom pa pb pc _ => pa.y ≤ pb.y → pa.y ≠ pb.y ∧ pa.y ≠ pc.y
  | _ => True

theorem DeviceCall.run_safely_iff [IsStrictOrderedRing K] (call : DeviceCall K) :
    DividesSafely (call.run cfg self) ↔ call.RowsApart := by
  have hpixel (x y : K) (color : Value K) : DividesSafely (self.drawPixel x y color) :=
    fun world => ⟨(), _, [], rfl, (List.append_nil _).symm, by simp⟩
  cases call with
  | drawPixel x y color => exact iff_of_true (hpixel x y color) trivial
  | drawLine posBgn posEnd color =>
      refine iff_of_true (fun world => ?_) trivial
      exact ⟨(), _, [], drawLine_apply cfg self posBgn posEnd color world,
        (List.append_nil _).symm, by simp⟩
  | drawTriangleTop pa pb pc color =>
      rw [run, Device.drawTriangleTop, Device.forEach_edgeRow_safely_iff, forValues_ne_nil]
      rfl
  | drawTriangleBottom pa pb pc color =>
      rw [run, Device.drawTriangleBottom, Device.forEach_edgeRow_safely_iff, forValues_ne_nil]
      rfl
  | clear color =>
      refine iff_of_true ?_ trivial
      exact AppendsOnly.forEach fun i _ => AppendsOnly.forEach fun j _ => hpixel i j color

/-- Two series of calls can be exchanged exactly when each of them alone leaves the same colours in
the cells that both paint. -/
theorem runCalls_exchange_iff (calls1 calls2 : List (SafeCall cfg self)) :
    (∀ fb, cfg.screen.after (runCalls cfg self (calls1 ++ calls2).unattach) fb =
        cfg.screen.after (runCalls cfg self (calls2 ++ calls1).unattach) fb) ↔
      ∀ c, Paints cfg self calls1.unattach c → Paints cfg self calls2.unattach c → ∀ fb,
        cfg.screen.after (runCalls cfg self calls1.unattach) fb c =
          cfg.screen.after (runCalls cfg self calls2.unattach) fb c := by
  simp only [List.unattach_append, after_runCalls, callWrites_append, writeAll_append_comm_iff,
    ← lastWrite_isSome_iff_paints]
  refine forall_congr' fun c => ⟨?_, ?_⟩
  · intro h h1 h2 fb
    obtain ⟨v1, hv1⟩ := Option.isSome_iff_exists.mp h1
    obtain ⟨v2, hv2⟩ := Option.isSome_iff_exists.mp h2
    rw [writeAll_apply, writeAll_apply, hv1, hv2, h v1 v2 hv1 hv2]
  · intro h v1 v2 hv1 hv2
    have hcell := h (by rw [hv1, Option.isSome_some]) (by rw [hv2, Option.isSome_some]) fun _ => 0
    rw [writeAll_apply, writeAll_apply, hv1, hv2] at hcell
    exact hcell

theorem DeviceCall.color_of_mem_pixels {call : DeviceCall K} {p : Pixel K}
    (hp : p ∈ call.pixels cfg self) : p.color = call.colour := by
  cases call with
  | drawPixel x y color =>
      obtain rfl := List.mem_singleton.mp hp
      rfl
  | drawLine posBgn posEnd color =>
      obtain ⟨r, -, rfl⟩ := List.mem_map.mp hp
      rfl
  | drawTriangleTop pa pb pc color =>
      obtain ⟨y, -, hrow⟩ := List.mem_flatMap.mp hp
      obtain ⟨r, -, rfl⟩ := List.mem_map.mp hrow
      rfl
  | drawTriangleBottom pa pb pc color =>
      obtain ⟨y, -, hrow⟩ := List.mem_flatMap.mp hp
      obtain ⟨r, -, rfl⟩ := List.mem_map.mp hrow
      rfl
  | clear color =>
      obtain ⟨i, -, hi⟩ := List.mem_flatMap.mp hp
      obtain ⟨j, -, hj⟩ := List.mem_flatMap.mp hi
      obtain rfl := List.mem_singleton.mp hj
      rfl

theorem mem_callWrites_iff {calls : List (DeviceCall K)} {w : (ℕ × ℕ) × BitVec 32} :
    w ∈ callWrites cfg self calls ↔
      ∃ call ∈ calls, Paints cfg self [call] w.1 ∧ call.colour.toUint32 = w.2 := by
  rw [callWrites, Screen.mem_writes]
  simp only [callPixels, Paints, List.mem_flatMap, List.flatMap_singleton]
  constructor
  · rintro ⟨p, ⟨call, hcall, hp⟩, hon, rfl⟩
    exact ⟨call, hcall, ⟨p, hp, hon, rfl⟩, by rw [call.color_of_mem_pixels cfg self hp]⟩
  · rintro ⟨call, hcall, ⟨p, hp, hon, hcell⟩, hcolour⟩
    refine ⟨p, ⟨call, hcall, hp⟩, hon, Prod.ext hcell ?_⟩
    rw [call.color_of_mem_pixels cfg self hp, hcolour]

/-- If no two of the calls paint one cell in two colours, the picture depends on which calls are
made, and neither on their order nor on their number. -/
theorem runCalls_unordered {calls calls' : List (SafeCall cfg self)}
    (hcolours : ∀ call1 ∈ calls, ∀ call2 ∈ calls, ∀ c, Paints cfg self [call1.val] c →
      Paints cfg self [call2.val] c → call1.val.colour.toUint32 = call2.val.colour.toUint32)
    (hmem : ∀ call, call ∈ calls' ↔ call ∈ calls) (fb : Framebuffer) :
    cfg.screen.after (runCalls cfg self calls'.unattach) fb =
      cfg.screen.after (runCalls cfg self calls.unattach) fb := by
  have hconsistent : Consistent (callWrites cfg self calls.unattach) := by
    intro v hv w hw hcell
    obtain ⟨call1, hcall1, hpaint1, hcolour1⟩ := (mem_callWrites_iff cfg self).mp hv
    obtain ⟨call2, hcall2, hpaint2, hcolour2⟩ := (mem_callWrites_iff cfg self).mp hw
    obtain ⟨hsafe1, hmem1⟩ := List.mem_unattach.mp hcall1
    obtain ⟨hsafe2, hmem2⟩ := List.mem_unattach.mp hcall2
    rw [← hcell] at hpaint2
    rw [← hcolour1, ← hcolour2]
    exact hcolours _ hmem1 _ hmem2 v.1 hpaint1 hpaint2
  rw [after_runCalls, after_runCalls]
  apply hconsistent.writeAll_eq
  intro w
  simp only [mem_callWrites_iff, List.mem_unattach, hmem]

theorem runCalls_unordered_cross :
    (.source : Config ℚ).screen.after (runCalls (.source : Config ℚ) (.new 800 600)
        [.drawLine ⟨0, 4⟩ ⟨8, 4⟩ (.number 255), .drawLine ⟨4, 0⟩ ⟨4, 8⟩ (.number 255),
          .drawTriangleBottom ⟨2, 1⟩ ⟨0, 5⟩ ⟨6, 5⟩ (.number 255),
          .drawLine ⟨0, 4⟩ ⟨8, 4⟩ (.number 255)]) (fun _ => 0) =
      (.source : Config ℚ).screen.after (runCalls (.source : Config ℚ) (.new 800 600)
        [.drawTriangleBottom ⟨2, 1⟩ ⟨0, 5⟩ ⟨6, 5⟩ (.number 255),
          .drawLine ⟨4, 0⟩ ⟨4, 8⟩ (.number 255), .drawLine ⟨0, 4⟩ ⟨8, 4⟩ (.number 255)])
          fun _ => 0 := by
  have hsafe (call : DeviceCall ℚ) (h : call.RowsApart) :
      DividesSafely (call.run .source (.new 800 600)) := (call.run_safely_iff _ _).mpr h
  let safe1 : SafeCall (.source : Config ℚ) (.new 800 600) :=
    ⟨.drawLine ⟨0, 4⟩ ⟨8, 4⟩ (.number 255), hsafe _ trivial⟩
  let safe2 : SafeCall (.source : Config ℚ) (.new 800 600) :=
    ⟨.drawLine ⟨4, 0⟩ ⟨4, 8⟩ (.number 255), hsafe _ trivial⟩
  let safe3 : SafeCall (.source : Config ℚ) (.new 800 600) :=
    ⟨.drawTriangleBottom ⟨2, 1⟩ ⟨0, 5⟩ ⟨6, 5⟩ (.number 255),
      hsafe _ (by norm_num [DeviceCall.RowsApart])⟩
  have hcolours : ∀ call1 ∈ [safe3, safe2, safe1], ∀ call2 ∈ [safe3, safe2, safe1],
      call1.val.colour.toUint32 = call2.val.colour.toUint32 := by
    intro call1 h1 call2 h2
    simp only [List.mem_cons, List.not_mem_nil, or_false] at h1 h2
    rcases h1 with rfl | rfl | rfl <;> rcases h2 with rfl | rfl | rfl <;> rfl
  have hmem (call : SafeCall (.source : Config ℚ) (.new 800 600)) :
      call ∈ [safe1, safe2, safe3, safe1] ↔ call ∈ [safe3, safe2, safe1] := by
    simp only [List.mem_cons, List.not_mem_nil, or_false]
    tauto
  exact runCalls_unordered .source (.new 800 600)
    (fun call1 h1 call2 h2 _ _ _ => hcolours call1 h1 call2 h2) hmem _

end SoftRenderer
