import SoftRenderer.CubeFrame
import SoftRenderer.CubeRuns
import SoftRenderer.MessageLoop

/-!
# The program under its message loop

`main.lua` constructs one cube, and every message makes the host show the framebuffer and then call
`tick`, which prepares and draws a frame. What holds between two messages is an invariant of the
cube and its mesh; each frame keeps it, so a run of any length is known exactly.
-/

namespace SoftRenderer

open Kit Kit.Procedure

theorem Matrix.IsAffine.inverse {K : Type} [Field K] [LinearOrder K] {A : Matrix K}
    (h : A.IsAffine) : A.inverse.2.IsAffine := by
  by_cases hd : A.det = 0
  · rw [Matrix.inverse, if_pos hd]
    exact h
  · rw [Matrix.inverse_of_det_ne_zero hd]
    exact h.invert

/-- The local `cube` of `main.lua`, the shared objects, and what drawing leaves behind. -/
structure Program (K : Type) where
  cube : Cube K
  objs : Objects K
  world : World K

abbrev ProgramM K α := Kit.Procedure LuaError (Program K) α

namespace Program

variable {K : Type}

def onObjects {α : Type} (m : ObjectM K α) : ProgramM K α :=
  zoom Program.objs (fun objs program => { program with objs := objs }) m

def onWorld {α : Type} (m : LuaM K α) : ProgramM K α :=
  zoom Program.world (fun world program => { program with world := world }) m

def setCube (cube : Cube K) : ProgramM K Unit := change fun program => { program with cube := cube }

variable [Field K] [LinearOrder K] [FloorRing K]

def start (cfg : Config K) : Except LuaError (Program K) :=
  match Cube.new cfg .empty with
  | (.ok cube, objs) => .ok ⟨cube, objs, .initial K⟩
  | (.error e, _) => .error e

/-- The global `tick`. It passes the local `nt`, which stays zero; the two readings of the clock
are not used. -/
def tick (math : LuaMath K) (cfg : Config K) (calls : RasterCalls K) : ProgramM K Unit := do
  let program ← read
  let cube ← onObjects (program.cube.tick math 0)
  setCube cube
  let program ← read
  let cube ← onWorld (cube.draw cfg calls program.objs)
  setCube cube

/-- The mesh consists of the vertices `ms`. -/
structure Running (ms : List (MeshVertex K)) (program : Program K) : Prop where
  wellFormed : program.cube.WellFormed program.objs
  shader : program.cube.deviceContext.shader = some program.cube.shader
  mesh : program.cube.mesh = ms.map MeshVertex.toVertexIn
  eight_le : 8 ≤ ms.length
  isAffine : (program.objs.matrix program.cube.world).IsAffine

omit [Field K] [LinearOrder K] [FloorRing K] in
theorem onObjects_ok {α : Type} {m : ObjectM K α} {program : Program K} {a : α} {objs : Objects K}
    (h : m program.objs = (.ok a, objs)) :
    onObjects m program = (.ok a, { program with objs := objs }) := zoom_apply h

omit [Field K] [LinearOrder K] [FloorRing K] in
theorem onWorld_ok {α : Type} {m : LuaM K α} {program : Program K} {a : α} {world : World K}
    (h : m program.world = (.ok a, world)) :
    onWorld m program = (.ok a, { program with world := world }) := zoom_apply h

omit [Field K] [LinearOrder K] [FloorRing K] in
theorem setCube_apply (cube : Cube K) (program : Program K) :
    setCube cube program = (.ok (), { program with cube := cube }) := rfl

def weights (ms : List (MeshVertex K)) : List K := ms.map fun v => v.pos.w

def afterFrame (device : Device K) (ms : List (MeshVertex K)) (world : World K) : World K :=
  { world with
    pixels := world.pixels ++ device.clearPixels Cube.colorGray
    divisors := world.divisors ++ Cube.drawDivisors (weights ms) }

variable [IsStrictOrderedRing K]

theorem tick_running {math : LuaMath K} (hm : math.ExactSqrt) (cfg : Config K)
    (calls : RasterCalls K) {ms : List (MeshVertex K)} {program : Program K}
    (h : Running ms program) :
    ∃ program', tick math cfg calls program = (.ok (), program') ∧
      Running (Cube.drawnMesh ms) program' ∧
      program'.cube.device = program.cube.device ∧
      program'.world = afterFrame program.cube.device ms program.world := by
  obtain ⟨F, l, hV, -⟩ := Cube.view_eq hm
  obtain ⟨cube, objs, htick, hticked⟩ := Cube.tick_ticked hV h.wellFormed.world_lt 0
  obtain ⟨hmesh, hshader⟩ := Cube.tick_keeps hV htick
  have hmatrix : (objs.matrix cube.world).IsAffine := by
    rw [hticked.world, hticked.matrix_world]
    exact h.isAffine.inverse
  have hdepths : MeshVertex.depths (objs.shader cube.shader) ms = weights ms := by
    rw [hticked.shader_eq h.wellFormed]
    exact List.map_congr_left fun v _ => vector4Apply_w_of_isAffine h.isAffine.inverse v.pos
  have hdraw : cube.draw cfg calls objs program.world =
      (.ok (cube.drawn ms), afterFrame program.cube.device ms program.world) := by
    rw [Cube.draw_performs cfg calls objs hshader (hmesh.trans h.mesh) h.eight_le, hdepths,
      List.foldl_append, World.foldl_record_pixels, World.foldl_record_divisors, hticked.device]
    rfl
  have hframe : onWorld (cube.draw cfg calls objs) ⟨cube, objs, program.world⟩ =
      (.ok (cube.drawn ms), ⟨cube, objs, afterFrame program.cube.device ms program.world⟩) :=
    onWorld_ok hdraw
  refine ⟨⟨cube.drawn ms, objs, afterFrame program.cube.device ms program.world⟩, ?_, ?_,
    hticked.device, rfl⟩
  · rw [tick, bind_ok (read_apply _), bind_ok (onObjects_ok htick), bind_ok (setCube_apply _ _),
      bind_ok (read_apply _)]
    exact (bind_ok hframe).trans rfl
  · have hwf := hticked.wellFormed h.wellFormed
    refine ⟨⟨hwf.world_lt, hwf.shader_lt, hwf.shaderWorld_lt, hwf.width_pos, hwf.height_pos⟩,
      hshader, ?_, ?_, hmatrix⟩
    · rw [Cube.drawn]
    · rw [Cube.length_drawnMesh]
      exact h.eight_le

omit [IsStrictOrderedRing K] in
theorem mesh0_numbers : ∃ ms : List (MeshVertex K),
    Cube.mesh0 = ms.map MeshVertex.toVertexIn ∧ weights ms = List.replicate 8 1 :=
  ⟨[⟨_, _, _, _⟩, ⟨_, _, _, _⟩, ⟨_, _, _, _⟩, ⟨_, _, _, _⟩, ⟨_, _, _, _⟩, ⟨_, _, _, _⟩,
    ⟨_, _, _, _⟩, ⟨_, _, _, _⟩], rfl, rfl⟩

omit [IsStrictOrderedRing K] in
theorem start_running {cfg : Config K} (hwidth : 0 < cfg.winWidth) (hheight : 0 < cfg.winHeight) :
    ∃ program ms, start cfg = .ok program ∧ Running ms program ∧
      weights ms = List.replicate 8 1 ∧ program.cube.mesh = Cube.mesh0 ∧
      program.cube.device = .new cfg.winWidth cfg.winHeight ∧ program.world = .initial K := by
  obtain ⟨ms, hms, hweights⟩ := mesh0_numbers (K := K)
  have hlength : ms.length = 8 := by
    simpa [weights] using congrArg List.length hweights
  obtain ⟨cube, objs, hnew, hwf, hworld, -⟩ := Cube.new_wellFormed hwidth hheight .empty
  have haffine : (objs.matrix cube.world).IsAffine := hworld ▸ Matrix.isAffine_newIdentity
  have hfields : cube.mesh = Cube.mesh0 ∧ cube.deviceContext.shader = some cube.shader ∧
      cube.device = .new cfg.winWidth cfg.winHeight := by
    cases hnew
    exact ⟨rfl, rfl, rfl⟩
  obtain ⟨hmesh, hshader, hdevice⟩ := hfields
  refine ⟨⟨cube, objs, .initial K⟩, ms, ?_, ⟨hwf, hshader, hmesh.trans hms, hlength.ge, haffine⟩,
    hweights, hmesh, hdevice, rfl⟩
  rw [start, hnew]

end Program

/-- The program, the Lua stack of the host, and the framebuffers that it has shown. -/
structure HostState (K : Type) where
  program : Program K
  stack : LuaStack
  shown : List Framebuffer

def CallOutcome.of {ε α : Type} : Except ε α → CallOutcome
  | .ok _ => .returns
  | .error _ => .raises

namespace HostState

variable {K : Type} [Field K] [LinearOrder K] [FloorRing K]

/-- `blank` is what the bitmap holds when it is created. -/
def framebuffer (cfg : Config K) (blank : Framebuffer) (program : Program K) : Framebuffer :=
  cfg.screen.paint blank program.world.pixels

/-- One iteration of the loop: `screen_update`, then the call of `tick`. -/
def onMessage (math : LuaMath K) (cfg : Config K) (calls : RasterCalls K) (blank : Framebuffer)
    (self : HostState K) : HostState K :=
  let shown := self.shown ++ [framebuffer cfg blank self.program]
  let (result, program) := Program.tick math cfg calls self.program
  ⟨program, loopBody (.function (.of result)) self.stack, shown⟩

def grayOver (screen : Screen) (fb : Framebuffer) : Framebuffer := fun c =>
  if screen.Cell c.1 c.2 then 0xff333333#32 else fb c

variable [IsStrictOrderedRing K]

variable (K) in
theorem colorGray_eq :
    (Cube.colorGray : Value K) = .number (((0xff333333#32).toNat : ℕ) : K) := by
  have hfifth : channelByte (0.2 : K) = 51 := by
    rw [channelByte, show (0.2 : K) * 255 = ((51 : ℕ) : K) by norm_num, Int.floor_natCast]
    rfl
  have hone : channelByte (1 : K) = 255 := by
    rw [channelByte, show (1 : K) * 255 = ((255 : ℕ) : K) by norm_num, Int.floor_natCast]
    rfl
  have hgray : (rgba2hex (0.2 : K) 0.2 0.2 1).toNat = (0xff333333#32).toNat := by
    rw [toNat_rgba2hex (by norm_num) (by norm_num) (by norm_num) (by norm_num), hfifth, hone]
    rfl
  rw [Cube.colorGray, Cube.colorRgba2hex, hgray]

/-- The window has an area, and its sizes are in the range of `int`. -/
structure InRange (cfg : Config K) : Prop where
  width : 0 < cfg.winWidth ∧ cfg.winWidth < 2 ^ 31
  height : 0 < cfg.winHeight ∧ cfg.winHeight < 2 ^ 31

def framePixels (cfg : Config K) : List (Pixel K) :=
  (Device.new cfg.winWidth cfg.winHeight).clearPixels Cube.colorGray

theorem paint_framePixels {cfg : Config K} (h : InRange cfg) (fb : Framebuffer) :
    cfg.screen.paint fb (framePixels cfg) = grayOver cfg.screen fb := by
  funext c
  rw [framePixels, colorGray_eq]
  exact Device.paint_clearPixels_window ⟨h.width.1.le, h.width.2⟩ ⟨h.height.1.le, h.height.2⟩
    rfl rfl _ fb c.1 c.2

theorem paint_frames {cfg : Config K} (h : InRange cfg) (fb : Framebuffer) (n : ℕ) :
    cfg.screen.paint fb (List.replicate (n + 1) (framePixels cfg)).flatten =
      grayOver cfg.screen fb := by
  induction n with
  | zero => simpa using paint_framePixels h fb
  | succ n ih =>
      rw [List.replicate_succ', List.flatten_append, Screen.paint_append, ih,
        List.flatten_singleton, paint_framePixels h]
      funext c
      simp only [grayOver]
      split_ifs <;> rfl

def meshAfter (ms : List (MeshVertex K)) : ℕ → List (MeshVertex K)
  | 0 => ms
  | _ + 1 => Cube.drawnMesh ms

omit [LinearOrder K] [FloorRing K] [IsStrictOrderedRing K] in
theorem drawnMesh_meshAfter (ms : List (MeshVertex K)) (n : ℕ) :
    Cube.drawnMesh (meshAfter ms n) = meshAfter ms (n + 1) := by
  cases n with
  | zero => rfl
  | succ n => exact Cube.drawnMesh_idem ms

omit [LinearOrder K] [FloorRing K] [IsStrictOrderedRing K] in
theorem weights_meshAfter (ms : List (MeshVertex K)) (n : ℕ) :
    Program.weights (meshAfter ms n) = Program.weights ms := by
  cases n with
  | zero => rfl
  | succ n => exact Cube.map_drawnMesh _ (fun _ _ => rfl) ms

def frame (screen : Screen) (blank : Framebuffer) : ℕ → Framebuffer
  | 0 => blank
  | _ + 1 => grayOver screen blank

/-- What holds after `n` messages. -/
structure After (cfg : Config K) (blank : Framebuffer) (stack : LuaStack)
    (ms : List (MeshVertex K)) (n : ℕ) (host : HostState K) : Prop where
  running : Program.Running (meshAfter ms n) host.program
  device : host.program.cube.device = .new cfg.winWidth cfg.winHeight
  pixels : host.program.world.pixels = (List.replicate n (framePixels cfg)).flatten
  divisors : host.program.world.divisors = List.replicate (36 * n) 1
  fragments : host.program.world.fragments = []
  zBuff : host.program.world.zBuff = fun _ => none
  stack_eq : host.stack = stack
  shown : host.shown = (List.range n).map (frame cfg.screen blank)

theorem After.framebuffer_eq {cfg : Config K} (hcfg : InRange cfg) {blank : Framebuffer}
    {stack : LuaStack} {ms : List (MeshVertex K)} {n : ℕ} {host : HostState K}
    (h : After cfg blank stack ms n host) :
    framebuffer cfg blank host.program = frame cfg.screen blank n := by
  rw [framebuffer, h.pixels]
  cases n with
  | zero => rfl
  | succ n => exact paint_frames hcfg blank n

theorem After.onMessage {math : LuaMath K} (hm : math.ExactSqrt) {cfg : Config K}
    (hcfg : InRange cfg) (calls : RasterCalls K) {blank : Framebuffer} {stack : LuaStack}
    {ms : List (MeshVertex K)} (hms : Program.weights ms = List.replicate 8 1) {n : ℕ}
    {host : HostState K} (h : After cfg blank stack ms n host) :
    After cfg blank stack ms (n + 1) (host.onMessage math cfg calls blank) := by
  obtain ⟨program, htick, hrunning, hdevice, hworld⟩ :=
    Program.tick_running hm cfg calls h.running
  have hmessage : host.onMessage math cfg calls blank =
      ⟨program, host.stack, host.shown ++ [framebuffer cfg blank host.program]⟩ := by
    rw [HostState.onMessage, htick]
    rfl
  rw [hmessage]
  constructor
  · rw [← drawnMesh_meshAfter]
    exact hrunning
  · exact hdevice.trans h.device
  · simp only
    rw [hworld, Program.afterFrame, h.pixels, h.device, List.replicate_succ', List.flatten_append,
      List.flatten_singleton, framePixels]
  · have hdivisors : Cube.drawDivisors (List.replicate 8 (1 : K)) = List.replicate 36 1 := rfl
    simp only
    rw [hworld, Program.afterFrame, h.divisors, weights_meshAfter, hms, hdivisors,
      List.replicate_append_replicate, Nat.mul_succ]
  · simp only
    rw [hworld, Program.afterFrame, h.fragments]
  · simp only
    rw [hworld, Program.afterFrame, h.zBuff]
  · exact h.stack_eq
  · simp only
    rw [h.shown, h.framebuffer_eq hcfg, List.range_succ, List.map_append, List.map_singleton]

omit [IsStrictOrderedRing K] in
theorem start_after {cfg : Config K} (hcfg : InRange cfg) :
    ∃ program ms, Program.start cfg = .ok program ∧
      program.cube.mesh = ms.map MeshVertex.toVertexIn ∧
      Program.weights ms = List.replicate 8 1 ∧
      ∀ blank stack, After cfg blank stack ms 0 ⟨program, stack, []⟩ := by
  obtain ⟨program, ms, hstart, hrunning, hweights, -, hdevice, hworld⟩ :=
    Program.start_running hcfg.width.1 hcfg.height.1
  refine ⟨program, ms, hstart, hrunning.mesh, hweights, fun blank stack => ?_⟩
  exact ⟨hrunning, hdevice, congrArg World.pixels hworld, congrArg World.divisors hworld,
    congrArg World.fragments hworld, congrArg World.zBuff hworld, rfl, rfl⟩

/-- In every run of the program, each call of `tick` returns, and after the first one the window
shows gray and nothing else. -/
theorem onMessage_iterate {math : LuaMath K} (hm : math.ExactSqrt) {cfg : Config K}
    (hcfg : InRange cfg) (calls : RasterCalls K) (blank : Framebuffer) (stack : LuaStack) :
    ∃ program ms, Program.start cfg = .ok program ∧
      program.cube.mesh = ms.map MeshVertex.toVertexIn ∧
      ∀ n, After cfg blank stack ms n
        ((onMessage math cfg calls blank)^[n] ⟨program, stack, []⟩) := by
  obtain ⟨program, ms, hstart, hmesh, hweights, hafter⟩ := start_after hcfg
  refine ⟨program, ms, hstart, hmesh, ?_⟩
  intro n
  induction n with
  | zero => exact hafter blank stack
  | succ n ih =>
      rw [Function.iterate_succ_apply']
      exact ih.onMessage hm hcfg calls hweights

theorem onMessage_iterate_source :
    ∃ program ms, Program.start (.source : Config ℝ) = .ok program ∧
      program.cube.mesh = ms.map MeshVertex.toVertexIn ∧
      ∀ n, After .source (fun _ => 0) [.other, .other, .other] ms n
        ((onMessage LuaMath.real .source .source fun _ => 0)^[n]
          ⟨program, [.other, .other, .other], []⟩) :=
  onMessage_iterate LuaMath.exactSqrt_real
    ⟨by norm_num [Config.source], by norm_num [Config.source]⟩ _ _ _

end HostState
end SoftRenderer
