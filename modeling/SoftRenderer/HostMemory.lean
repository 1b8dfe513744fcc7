import SoftRenderer.Kit.Simulation
import SoftRenderer.Program
import SoftRenderer.RowPointers

/-!
# The program in the memory of the host

`draw_pixel` stores words through the table of rows that `device_init` made, and `screen_update`
copies the bytes of the bitmap. A run over these bytes is simulated by the run over framebuffers, so
no store of it misses the bitmap and the window shows what the framebuffers hold.
-/

namespace SoftRenderer

open Kit Kit.Procedure

variable {K : Type} [Field K] [LinearOrder K] [FloorRing K]

/-- The program and the Lua stack of the host, the bytes of the bitmap, and the copies that were
shown. -/
structure ByteHost (K : Type) where
  program : Program K
  stack : LuaStack
  mem : Bytes
  shown : List Bytes

namespace ByteHost

/-- One iteration of the loop. There is no result where a pixel is stored outside of the table or
the bitmap of `size` bytes. -/
def onMessage (math : LuaMath K) (cfg : Config K) (calls : RasterCalls K) (table : RowPointers)
    (size : ℕ) (host : ByteHost K) : Option (ByteHost K) :=
  let shown := host.shown ++ [host.mem]
  let (result, program) := Program.tick math cfg calls host.program
  let drawn := program.world.pixels.drop host.program.world.pixels.length
  (table.drawPixels size cfg.screen host.mem drawn).map fun mem =>
    ⟨program, loopBody (.function (.of result)) host.stack, mem, shown⟩

def windowConfig (K : Type) [NatCast K] (w h : ℕ) : Config K := ⟨w, h⟩

def Holds (w h : ℕ) (mem : Bytes) (fb : Framebuffer) : Prop :=
  ∀ c, (cellLayout w h).read mem c = fb c.1

/-- A run over bytes and a run over framebuffers agree after `n` messages. -/
structure Refines (w h : ℕ) (blank : Framebuffer) (stack : LuaStack) (ms : List (MeshVertex K))
    (n : ℕ) (bytes : ByteHost K) (host : HostState K) : Prop where
  after : host.After (windowConfig K w h) blank stack ms n
  program : bytes.program = host.program
  stack_eq : bytes.stack = host.stack
  mem : Holds w h bytes.mem (HostState.framebuffer (windowConfig K w h) blank host.program)
  shown : List.Forall₂ (Holds w h) bytes.shown host.shown

theorem Refines.holds {w h : ℕ} {blank : Framebuffer} {stack : LuaStack}
    {ms : List (MeshVertex K)} {n : ℕ} {bytes : ByteHost K} {host : HostState K}
    (hR : Refines w h blank stack ms n bytes host) {k : ℕ} {copy : Bytes}
    (hcopy : bytes.shown[k]? = some copy) :
    Holds w h copy (HostState.frame (windowConfig K w h).screen blank k) := by
  obtain ⟨hk, rfl⟩ := List.getElem?_eq_some_iff.mp hcopy
  have hlength := hR.shown.length_eq
  have hframe : host.shown[k]? = some (HostState.frame (windowConfig K w h).screen blank k) := by
    have hn : k < n := by
      rw [hlength, hR.after.shown, List.length_map, List.length_range] at hk
      exact hk
    rw [hR.after.shown, List.getElem?_map, List.getElem?_range hn, Option.map_some]
  obtain ⟨hk', hget⟩ := List.getElem?_eq_some_iff.mp hframe
  rw [← hget]
  exact hR.shown.get hk hk'

variable [IsStrictOrderedRing K]

theorem screen_windowConfig {w h : ℕ} (hw : w < 2 ^ 32) (hh : h < 2 ^ 32) :
    (windowConfig K w h).screen = intScreen w h := by
  have huint {n : ℕ} (hn : n < 2 ^ 32) : uint32 (n : K) = BitVec.ofNat 32 n := by
    apply BitVec.eq_of_toNat_eq
    rw [toNat_uint32_natCast hn, BitVec.toNat_ofNat, Nat.mod_eq_of_lt hn]
  rw [Config.screen, windowConfig, huint hw, huint hh, intScreen]

theorem inRange_windowConfig {w h : ℕ} (hw : 1 ≤ w ∧ w < 2 ^ 31) (hh : 1 ≤ h ∧ h < 2 ^ 31) :
    HostState.InRange (windowConfig K w h) := by
  have hrange {n : ℕ} (hn : 1 ≤ n ∧ n < 2 ^ 31) : 0 < (n : K) ∧ (n : K) < 2 ^ 31 :=
    ⟨by exact_mod_cast hn.1, by exact_mod_cast hn.2⟩
  exact ⟨hrange hw, hrange hh⟩

theorem Refines.onMessage {math : LuaMath K} (hm : math.ExactSqrt) (calls : RasterCalls K)
    {w h : ℕ} (hw : 1 ≤ w ∧ w < 2 ^ 31) (hh : 1 ≤ h ∧ h < 2 ^ 31) {table : RowPointers}
    (hrows : table.HasRows w h) {blank : Framebuffer} {stack : LuaStack}
    {ms : List (MeshVertex K)} (hms : Program.weights ms = List.replicate 8 1) {n : ℕ}
    {bytes : ByteHost K} {host : HostState K} (hR : Refines w h blank stack ms n bytes host) :
    ∃ bytes', bytes.onMessage math (windowConfig K w h) calls table (4 * w * h) = some bytes' ∧
      Refines w h blank stack ms (n + 1) bytes'
        (host.onMessage math (windowConfig K w h) calls blank) := by
  have hnext := hR.after.onMessage hm (inRange_windowConfig hw hh) calls hms
  have hscreen : (windowConfig K w h).screen = intScreen w h :=
    screen_windowConfig (by omega) (by omega)
  have hpixels : (host.onMessage math (windowConfig K w h) calls blank).program.world.pixels =
      host.program.world.pixels ++ HostState.framePixels (windowConfig K w h) := by
    rw [hnext.pixels, hR.after.pixels, List.replicate_succ', List.flatten_append,
      List.flatten_singleton]
  obtain ⟨mem, hdrawn, hmem⟩ := hrows.drawPixels_paint (by omega) (by omega)
    (HostState.framePixels (windowConfig K w h)) hR.mem
  have hstep : bytes.onMessage math (windowConfig K w h) calls table (4 * w * h) =
      (table.drawPixels (4 * w * h) (windowConfig K w h).screen bytes.mem
        ((host.onMessage math (windowConfig K w h) calls blank).program.world.pixels.drop
          host.program.world.pixels.length)).map fun mem =>
        ⟨(host.onMessage math (windowConfig K w h) calls blank).program,
          (host.onMessage math (windowConfig K w h) calls blank).stack, mem,
          bytes.shown ++ [bytes.mem]⟩ := by
    rw [ByteHost.onMessage, hR.program, hR.stack_eq]
    rfl
  rw [hpixels, List.drop_left, hscreen, hdrawn] at hstep
  refine ⟨_, hstep, hnext, rfl, rfl, ?_, ?_⟩
  · rw [HostState.framebuffer, hpixels, Screen.paint_append, hscreen]
    rw [HostState.framebuffer, hscreen] at hmem
    exact hmem
  · exact List.rel_append hR.shown (.cons hR.mem .nil)

/-- The window shows the bytes that the bitmap was created with, and from the second message on
opaque gray in every cell; no store ever misses the bitmap. -/
theorem steps_onMessage {math : LuaMath K} (hm : math.ExactSqrt) (calls : RasterCalls K)
    (platform : Host)
    (hmalloc : ∀ n, 2 ^ (8 * platform.pointerSize - 1) ≤ n → platform.malloc n = false) {w h : ℕ}
    (hw1 : 1 ≤ w) (hh1 : 1 ≤ h) (hsize : 8 * w * h < 2 ^ 31) (hfits : platform.TableFits w h)
    (mem : Bytes) (stack : LuaStack) :
    ∃ table program,
      platform.deviceInit (BitVec.ofNat 32 w) (BitVec.ofNat 32 h) true = some table ∧
      Program.start (windowConfig K w h) = .ok program ∧
      ∀ n, ∃ host, steps (onMessage math (windowConfig K w h) calls table (4 * w * h)) n
          ⟨program, stack, mem, []⟩ = some host ∧
        host.stack = stack ∧ host.shown.length = n ∧
        ∀ k copy, host.shown[k]? = some copy → ∀ x < w, ∀ y < h,
          loadWord copy (cellOffset w (x, y)) =
            if k = 0 then loadWord mem (cellOffset w (x, y)) else 0xff333333#32 := by
  have hw : w < 2 ^ 28 := by nlinarith
  have hh : h < 2 ^ 28 := by nlinarith
  have htable := platform.deviceInit_external hh1 hh hsize
  rw [if_pos ((platform.le_blockSize_iff hmalloc hh1 hh hsize).mpr hfits)] at htable
  have hrows : RowPointers.HasRows ⟨.external, (List.range h).map fun j => ((w * 4 * j : ℕ) : ℤ)⟩
      w h := by
    intro y hy
    simp [hy]
  let blank : Framebuffer := fun c => loadWord mem (cellOffset w c)
  have hcfg : HostState.InRange (windowConfig K w h) :=
    inRange_windowConfig ⟨hw1, by omega⟩ ⟨hh1, by omega⟩
  obtain ⟨program, ms, hstart, -, hweights, hafter⟩ := HostState.start_after hcfg
  refine ⟨_, program, htable, hstart, fun n => ?_⟩
  have hstart : Refines w h blank stack ms 0 ⟨program, stack, mem, []⟩ ⟨program, stack, []⟩ := by
    refine ⟨hafter blank stack, rfl, rfl, ?_, .nil⟩
    intro c
    rw [HostState.framebuffer, (hafter blank stack).pixels]
    rfl
  obtain ⟨host, hrun, hR⟩ := exists_steps (fun n _ _ hR =>
    Refines.onMessage hm calls ⟨hw1, by omega⟩ ⟨hh1, by omega⟩ hrows hweights hR) hstart n
  have hlength : host.shown.length = n := by
    rw [hR.shown.length_eq, hR.after.shown, List.length_map, List.length_range]
  refine ⟨host, hrun, hR.stack_eq.trans hR.after.stack_eq, hlength, ?_⟩
  intro k copy hcopy x hx y hy
  refine (hR.holds hcopy ⟨(x, y), hx, hy⟩).trans ?_
  cases k with
  | zero => rfl
  | succ k =>
      have hcell : (windowConfig K w h).screen.Cell x y := by
        rw [screen_windowConfig (by omega) (by omega)]
        simp only [Screen.Cell, intScreen, BitVec.toNat_ofNat]
        omega
      rw [if_neg (Nat.succ_ne_zero k)]
      exact if_pos hcell

theorem steps_onMessage_window :
    ∃ table program,
      Host.wide.deviceInit (BitVec.ofNat 32 800) (BitVec.ofNat 32 600) true = some table ∧
      Program.start (windowConfig ℝ 800 600) = .ok program ∧
      ∀ n, ∃ host, steps (onMessage LuaMath.real (windowConfig ℝ 800 600) .source table
          (4 * 800 * 600)) n ⟨program, [.other, .other, .other], fun _ => 0, []⟩ = some host ∧
        host.stack = [.other, .other, .other] ∧ host.shown.length = n ∧
        ∀ k copy, host.shown[k]? = some copy → ∀ x < 800, ∀ y < 600,
          loadWord copy (cellOffset 800 (x, y)) =
            if k = 0 then loadWord (fun _ => 0) (cellOffset 800 (x, y)) else 0xff333333#32 :=
  steps_onMessage LuaMath.exactSqrt_real .source Host.wide Host.wide_malloc (by norm_num)
    (by norm_num) (by norm_num) (.inl ⟨by decide, by decide⟩) _ _

end ByteHost
end SoftRenderer
