import SoftRenderer.DrawingCalls
import SoftRenderer.Kit.Performs
import SoftRenderer.RenderMode

/-!
# The pipeline beside the device

A script may drive the context and draw on its device in any order. The pipeline stops at its clip
test or fails, so whatever it is given, the pixels are those of the calls on the device alone; a
failure can only cut them short.
-/

namespace SoftRenderer

open Kit Kit.Procedure

variable {K : Type} [Field K] [LinearOrder K]

namespace DeviceContext

def drawn (world : World K) : List (Pixel K) × List (Fragment K) × ZBuffer K :=
  (world.pixels, world.fragments, world.zBuff)

omit [LinearOrder K] in
theorem divide_preserves (a b : K) : Preserves drawn (divide a b) := fun _ => rfl

omit [LinearOrder K] in
theorem transform2proj_preserves (self : DeviceContext K (CubeShader (Matrix K)))
    (p : VertexIn K) : Preserves drawn (self.transform2proj p) := by
  unfold transform2proj
  split
  · exact fun _ => rfl
  · exact (divide_preserves _ _).bind fun _ => (Preserves.lift _ _).bind fun _ =>
      (Preserves.lift _ _).bind fun _ => Preserves.pure _ _

theorem preparePrimitive_preserves (self : DeviceContext K (CubeShader (Matrix K)))
    (p1 p2 p3 : VertexIn K) : Preserves drawn (self.preparePrimitive .source p1 p2 p3) := by
  unfold preparePrimitive
  simp only [Stages.source, clip_eq_false]
  split_ifs with hcull hclip
  · exact (self.transform2proj_preserves p1).bind fun _ =>
      (self.transform2proj_preserves p2).bind fun _ =>
        (self.transform2proj_preserves p3).bind fun _ => Preserves.pure _ _
  · exact absurd rfl hclip
  · exact Preserves.pure _ _

/-- Whatever its vertices are, the pipeline divides or fails, and does nothing else. -/
theorem drawPrimitive_preserves [FloorRing K] (cfg : Config K) (calls : RasterCalls K)
    (self : DeviceContext K (CubeShader (Matrix K))) (p1 p2 p3 : VertexIn K) :
    Preserves drawn (self.drawPrimitive cfg calls p1 p2 p3) := by
  intro world
  have hprepare := self.preparePrimitive_preserves p1 p2 p3 world
  rw [drawPrimitive_eq, drawPrimitiveWith]
  cases hrun : self.preparePrimitive .source p1 p2 p3 world with
  | mk r world' =>
      rw [hrun] at hprepare
      cases r with
      | error e =>
          rw [bind_error hrun]
          exact hprepare
      | ok vertices =>
          obtain rfl := self.preparePrimitive_source p1 p2 p3 world vertices world' hrun
          rw [bind_ok hrun]
          exact hprepare

end DeviceContext

namespace DeviceCall

variable [FloorRing K]

theorem run_preserves (cfg : Config K) (self : Device K) (call : DeviceCall K) :
    Preserves (fun world => (world.fragments, world.zBuff)) (call.run cfg self) := by
  have hline (a b : Vector2 K) (color : Value K) :
      Preserves (fun world => (world.fragments, world.zBuff)) (self.drawLine cfg a b color) := by
    intro world
    rw [drawLine_apply]
  have hrow (a1 b1 a2 b2 : Vector2 K) (color : Value K) (y : K) :
      Preserves (fun world => (world.fragments, world.zBuff))
        (self.edgeRow cfg a1 b1 a2 b2 color y) :=
    Preserves.bind (fun _ => rfl) fun _ => Preserves.bind (fun _ => rfl) fun _ => hline _ _ _
  cases call with
  | drawPixel x y color => exact fun _ => rfl
  | drawLine posBgn posEnd color => exact hline posBgn posEnd color
  | drawTriangleTop pa pb pc color => exact Preserves.forEach fun y _ => hrow pa pc pb pc color y
  | drawTriangleBottom pa pb pc color =>
      exact Preserves.forEach fun y _ => hrow pa pb pa pc color y
  | clear color => exact Preserves.forEach fun _ _ => Preserves.forEach fun _ _ => fun _ => rfl

theorem run_drawn (cfg : Config K) (self : Device K) (call : DeviceCall K) (world : World K) :
    (call.run cfg self world).1 = .ok () ∧
      DeviceContext.drawn (call.run cfg self world).2 =
        (world.pixels ++ call.pixels cfg self, world.fragments, world.zBuff) := by
  obtain ⟨hok, hpixels⟩ := (call.run_appends cfg self).run world
  exact ⟨hok, Prod.ext hpixels (call.run_preserves cfg self world)⟩

end DeviceCall

inductive RendererCall (K : Type)
  | setRenderMode (mode : ℕ)
  | setShader (shader : CubeShader (Matrix K))
  | setCameraPos (pos : Vector4 K)
  | drawPrimitive (p1 p2 p3 : VertexIn K)
  | device (call : DeviceCall K)

namespace RendererCall

variable [FloorRing K]

def run (cfg : Config K) (calls : RasterCalls K) (self : DeviceContext K (CubeShader (Matrix K))) :
    RendererCall K → LuaM K (DeviceContext K (CubeShader (Matrix K)))
  | .setRenderMode mode => pure (self.setRenderMode mode)
  | .setShader shader => pure (self.setShader shader)
  | .setCameraPos pos => pure (self.setCameraPos pos)
  | .drawPrimitive p1 p2 p3 => do
      self.drawPrimitive cfg calls p1 p2 p3
      return self
  | .device call => do
      call.run cfg self.device
      return self

/-- A script that makes the calls in order; a call that fails ends it. -/
def runAll (cfg : Config K) (calls : RasterCalls K) (self : DeviceContext K (CubeShader (Matrix K)))
    (script : List (RendererCall K)) : LuaM K (DeviceContext K (CubeShader (Matrix K))) :=
  forFold script self fun call self => call.run cfg calls self

def deviceCalls (script : List (RendererCall K)) : List (DeviceCall K) :=
  script.filterMap fun call => match call with
    | .device call => some call
    | _ => none

omit [Field K] [LinearOrder K] [FloorRing K] in
theorem deviceCalls_cons (call : RendererCall K) (script : List (RendererCall K)) :
    deviceCalls (call :: script) = deviceCalls [call] ++ deviceCalls script := by
  rw [← List.singleton_append, deviceCalls, List.filterMap_append]
  rfl

variable (cfg : Config K) (calls : RasterCalls K)

theorem run_drawn (self : DeviceContext K (CubeShader (Matrix K))) (call : RendererCall K)
    (world : World K) :
    DeviceContext.drawn (call.run cfg calls self world).2 =
        (world.pixels ++ callPixels cfg self.device (deviceCalls [call]), world.fragments,
          world.zBuff) ∧
      ∀ self', (call.run cfg calls self world).1 = .ok self' → self'.device = self.device := by
  have hset {self' : DeviceContext K (CubeShader (Matrix K))} (h : self'.device = self.device) :
      DeviceContext.drawn world = (world.pixels ++ [], world.fragments, world.zBuff) ∧
        ∀ self'', (.ok self' : Except LuaError (DeviceContext K (CubeShader (Matrix K)))) =
          .ok self'' → self''.device = self.device := by
    refine ⟨Prod.ext (List.append_nil _).symm rfl, ?_⟩
    rintro _ ⟨⟩
    exact h
  cases call with
  | setRenderMode mode => exact hset rfl
  | setShader shader => exact hset rfl
  | setCameraPos pos => exact hset rfl
  | drawPrimitive p1 p2 p3 =>
      have hkeep := self.drawPrimitive_preserves cfg calls p1 p2 p3 world
      rw [run, bind_pure_apply]
      refine ⟨hkeep.trans (Prod.ext (List.append_nil _).symm rfl), ?_⟩
      intro self' h
      cases hrun : (self.drawPrimitive cfg calls p1 p2 p3 world).1 with
      | error e =>
          rw [hrun] at h
          cases h
      | ok a =>
          rw [hrun] at h
          cases h
          rfl
  | device call =>
      obtain ⟨hok, hdrawn⟩ := call.run_drawn cfg self.device world
      rw [run, bind_pure_apply, hok]
      constructor
      · rw [hdrawn]
        simp [deviceCalls, callPixels]
      · rintro _ ⟨⟩
        rfl

/-- The pixels of a script are those of its device calls, up to the call at which it fails. -/
structure DrawsAlone (device : Device K) (script : List (RendererCall K)) (world world' : World K)
    (returned : Prop) : Prop where
  pixels : ∃ done, done <+: deviceCalls script ∧ (returned → done = deviceCalls script) ∧
    world'.pixels = world.pixels ++ callPixels cfg device done
  fragments : world'.fragments = world.fragments
  zBuff : world'.zBuff = world.zBuff

/-- No interleaving of pipeline calls with calls on the device draws more than the device calls
alone. -/
theorem runAll_drawsAlone (self : DeviceContext K (CubeShader (Matrix K)))
    (script : List (RendererCall K)) (world : World K) :
    DrawsAlone cfg self.device script world (runAll cfg calls self script world).2
      (∃ self', (runAll cfg calls self script world).1 = .ok self') := by
  induction script generalizing self world with
  | nil => exact ⟨⟨[], List.prefix_rfl, fun _ => rfl, (List.append_nil _).symm⟩, rfl, rfl⟩
  | cons call script ih =>
      obtain ⟨hdrawn, hdevice⟩ := run_drawn cfg calls self call world
      cases hrun : call.run cfg calls self world with
      | mk r world1 =>
          rw [hrun] at hdrawn hdevice
          obtain ⟨hpixels, hdepth⟩ := Prod.ext_iff.mp hdrawn
          obtain ⟨hfragments, hzBuff⟩ := Prod.ext_iff.mp hdepth
          rw [runAll, forFold_cons]
          cases r with
          | error e =>
              rw [bind_error hrun]
              refine ⟨⟨deviceCalls [call], ?_, ?_, hpixels⟩, hfragments, hzBuff⟩
              · rw [deviceCalls_cons call script]
                exact List.prefix_append _ _
              · rintro ⟨self', ⟨⟩⟩
          | ok self1 =>
              rw [bind_ok hrun]
              obtain ⟨⟨done, hprefix, hall, hrest⟩, hfragments', hzBuff'⟩ := ih self1 world1
              rw [hdevice self1 rfl] at hrest
              refine ⟨⟨deviceCalls [call] ++ done, ?_, ?_, ?_⟩, hfragments'.trans hfragments,
                hzBuff'.trans hzBuff⟩
              · rw [deviceCalls_cons call script]
                exact (List.prefix_append_right_inj _).mpr hprefix
              · intro hreturned
                rw [deviceCalls_cons call script, hall hreturned]
              · rw [callPixels, List.flatMap_append, ← List.append_assoc]
                exact hrest.trans (congrArg (· ++ _) hpixels)

end RendererCall
end SoftRenderer
