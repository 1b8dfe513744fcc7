import SoftRenderer.Cube
import SoftRenderer.Fill

/-!
# Drawing the cube

`Cube:draw` submits the six planes of its mesh, two triangles each. Outside of wireframe mode the
culling test keeps the triangles of a plane when the camera is on the side that their order of
vertices winds around, and only one of the six planes is wound outward.
-/

namespace SoftRenderer

open Kit Kit.Procedure

variable {K : Type} [Field K] [LinearOrder K]

def DeviceContext.map {S T : Type} (f : S → T) (self : DeviceContext K S) : DeviceContext K T :=
  ⟨self.device, self.renderMode, self.shader.map f, self.cameraPos⟩

namespace Cube

section Source

def vertexAt (name : String) (mesh : List (VertexIn K)) (i : ℕ) : Except LuaError (VertexIn K) :=
  match mesh[i]? with
  | none => .error (.index .localVar name .nil)
  | some p => .ok p

def setTex (name : String) (mesh : List (VertexIn K)) (i : ℕ) (x y : K) :
    Except LuaError (List (VertexIn K)) := do
  let p ← vertexAt name mesh i
  return mesh.set i { p with tex := ⟨x, y⟩ }

/-- The mesh after `drawPlane` has set the texture coordinates, and the triangles it submits. -/
def plane (mesh : List (VertexIn K)) (a b c d : ℕ) :
    Except LuaError (List (VertexIn K) × List (VertexIn K × VertexIn K × VertexIn K)) := do
  let mesh ← setTex "p1" mesh a 0 0
  let mesh ← setTex "p2" mesh b 0 1
  let mesh ← setTex "p3" mesh c 1 1
  let mesh ← setTex "p4" mesh d 1 0
  let p1 ← vertexAt "p1" mesh a
  let p2 ← vertexAt "p2" mesh b
  let p3 ← vertexAt "p3" mesh c
  let p4 ← vertexAt "p4" mesh d
  return (mesh, [(p1, p2, p3), (p3, p4, p1)])

def planes : List (ℕ × ℕ × ℕ × ℕ) :=
  [(0, 1, 2, 3), (4, 5, 6, 7), (0, 4, 5, 1), (1, 5, 6, 2), (2, 6, 7, 3), (3, 7, 4, 0)]

variable [FloorRing K]

def drawPlane (cfg : Config K) (calls : RasterCalls K) (objs : Objects K) (self : Cube K)
    (a b c d : ℕ) : LuaM K (Cube K) := do
  let (mesh, triangles) ← lift (plane self.mesh a b c d)
  let self := { self with mesh := mesh }
  forEach triangles fun (p1, p2, p3) =>
    (self.deviceContext.map objs.shader).drawPrimitive cfg calls p1 p2 p3
  return self

def colorGray : Value K := colorRgba2hex 0.2 0.2 0.2 1

def draw (cfg : Config K) (calls : RasterCalls K) (objs : Objects K) (self : Cube K) :
    LuaM K (Cube K) := do
  self.device.clear colorGray
  let self := { self with
    deviceContext := self.deviceContext.setRenderMode renderStateWireframe }
  forFold planes self fun (a, b, c, d) self => self.drawPlane cfg calls objs a b c d

end Source

def positions (mesh : List (VertexIn K)) : List (Vector4 K) := mesh.map VertexIn.pos

omit [Field K] [LinearOrder K] in
theorem vertexAt_ok (name : String) {mesh : List (VertexIn K)} {i : ℕ} {q : Vector4 K}
    (h : (positions mesh)[i]? = some q) : ∃ p, vertexAt name mesh i = .ok p ∧ p.pos = q := by
  rw [positions, List.getElem?_map, Option.map_eq_some_iff] at h
  obtain ⟨p, hp, rfl⟩ := h
  exact ⟨p, by rw [vertexAt, hp], rfl⟩

omit [Field K] [LinearOrder K] in
theorem setTex_ok (name : String) {mesh : List (VertexIn K)} {i : ℕ} {q : Vector4 K}
    (h : (positions mesh)[i]? = some q) (x y : K) :
    ∃ mesh', setTex name mesh i x y = .ok mesh' ∧ positions mesh' = positions mesh := by
  rw [positions, List.getElem?_map, Option.map_eq_some_iff] at h
  obtain ⟨p, hp, rfl⟩ := h
  refine ⟨mesh.set i { p with tex := ⟨x, y⟩ }, ?_, ?_⟩
  · rw [setTex, vertexAt, hp]
    rfl
  · have hpos : (positions mesh)[i]? = some p.pos := by
      rw [positions, List.getElem?_map, hp, Option.map_some]
    obtain ⟨hi, hget⟩ := List.getElem?_eq_some_iff.mp hpos
    rw [positions, List.map_set]
    change (positions mesh).set i p.pos = positions mesh
    rw [← hget, List.set_getElem_self]

omit [LinearOrder K] in
theorem plane_ok {mesh : List (VertexIn K)} {a b c d : ℕ} {q1 q2 q3 q4 : Vector4 K}
    (ha : (positions mesh)[a]? = some q1) (hb : (positions mesh)[b]? = some q2)
    (hc : (positions mesh)[c]? = some q3) (hd : (positions mesh)[d]? = some q4) :
    ∃ mesh' p1 p2 p3 p4, plane mesh a b c d = .ok (mesh', [(p1, p2, p3), (p3, p4, p1)]) ∧
      positions mesh' = positions mesh ∧
      p1.pos = q1 ∧ p2.pos = q2 ∧ p3.pos = q3 ∧ p4.pos = q4 := by
  obtain ⟨mesh1, h1, hpos1⟩ := setTex_ok "p1" ha 0 0
  rw [← hpos1] at ha hb hc hd
  obtain ⟨mesh2, h2, hpos2⟩ := setTex_ok "p2" hb 0 1
  rw [← hpos2] at ha hb hc hd
  obtain ⟨mesh3, h3, hpos3⟩ := setTex_ok "p3" hc 1 1
  rw [← hpos3] at ha hb hc hd
  obtain ⟨mesh4, h4, hpos4⟩ := setTex_ok "p4" hd 1 0
  rw [← hpos4] at ha hb hc hd
  obtain ⟨p1, h5, hp1⟩ := vertexAt_ok "p1" ha
  obtain ⟨p2, h6, hp2⟩ := vertexAt_ok "p2" hb
  obtain ⟨p3, h7, hp3⟩ := vertexAt_ok "p3" hc
  obtain ⟨p4, h8, hp4⟩ := vertexAt_ok "p4" hd
  refine ⟨mesh4, p1, p2, p3, p4, ?_, ?_, hp1, hp2, hp3, hp4⟩
  · rw [plane, h1]
    simp only [bind, Except.bind, h2, h3, h4, h5, h6, h7, h8]
    rfl
  · rw [hpos4, hpos3, hpos2, hpos1]

/-- The six planes, each with the normal that points out of the cube; the cube's own points have a
product of at most one with it. -/
def faces : List ((ℕ × ℕ × ℕ × ℕ) × Vector4 K) :=
  [((0, 1, 2, 3), ⟨0, 0, 1, 0⟩), ((4, 5, 6, 7), ⟨0, 0, -1, 0⟩), ((0, 4, 5, 1), ⟨0, -1, 0, 0⟩),
    ((1, 5, 6, 2), ⟨-1, 0, 0, 0⟩), ((2, 6, 7, 3), ⟨0, 1, 0, 0⟩), ((3, 7, 4, 0), ⟨1, 0, 0, 0⟩)]

omit [LinearOrder K] in
theorem faces_planes : (faces (K := K)).map Prod.fst = planes := rfl

def corners : List (Vector4 K) :=
  [⟨1, -1, 1, 1⟩, ⟨-1, -1, 1, 1⟩, ⟨-1, 1, 1, 1⟩, ⟨1, 1, 1, 1⟩, ⟨1, -1, -1, 1⟩, ⟨-1, -1, -1, 1⟩,
    ⟨-1, 1, -1, 1⟩, ⟨1, 1, -1, 1⟩]

theorem positions_mesh0 [FloorRing K] : positions (mesh0 (K := K)) = corners := rfl

/-- The triangles of a plane survive when the camera is outside of its face, and are culled when it
is inside. -/
def CulledRightly {S : Type} (ctx : DeviceContext K S) (mesh : List (VertexIn K))
    (f : (ℕ × ℕ × ℕ × ℕ) × Vector4 K) : Prop :=
  ∃ mesh' triangles, plane mesh f.1.1 f.1.2.1 f.1.2.2.1 f.1.2.2.2 = .ok (mesh', triangles) ∧
    ∀ t ∈ triangles,
      (1 < f.2.dot ctx.cameraPos → ctx.backFaceCulling t.1 t.2.1 t.2.2 = true) ∧
      (f.2.dot ctx.cameraPos < 1 → ctx.backFaceCulling t.1 t.2.1 t.2.2 = false)

/-- What the culling test compares with zero. -/
def winding (q1 q2 q3 camera : Vector4 K) : K :=
  ((vector4Sub q2 q1).cross (vector4Sub q3 q2)).dot (vector4Sub q1 camera)

theorem backFaceCulling_eq {S : Type} {ctx : DeviceContext K S}
    (hmode : ctx.renderMode ≠ renderStateWireframe) (p1 p2 p3 : VertexIn K) :
    ctx.backFaceCulling p1 p2 p3 = decide (winding p1.pos p2.pos p3.pos ctx.cameraPos < 0) := by
  rw [DeviceContext.backFaceCulling, if_neg hmode]
  rfl

section Faces

variable {S : Type} {ctx : DeviceContext K S} (hmode : ctx.renderMode ≠ renderStateWireframe)
  {mesh : List (VertexIn K)} {a b c d : ℕ} {q1 q2 q3 q4 : Vector4 K}
  (ha : (positions mesh)[a]? = some q1) (hb : (positions mesh)[b]? = some q2)
  (hc : (positions mesh)[c]? = some q3) (hd : (positions mesh)[d]? = some q4)

include hmode ha hb hc hd

theorem culledRightly_iff_winding (n : Vector4 K) :
    CulledRightly ctx mesh ((a, b, c, d), n) ↔
      ∀ w ∈ [winding q1 q2 q3 ctx.cameraPos, winding q3 q4 q1 ctx.cameraPos],
        (1 < n.dot ctx.cameraPos → w < 0) ∧ (n.dot ctx.cameraPos < 1 → ¬ w < 0) := by
  obtain ⟨mesh', p1, p2, p3, p4, hplane, -, rfl, rfl, rfl, rfl⟩ := plane_ok ha hb hc hd
  constructor
  · rintro ⟨_, triangles, hplane', hculled⟩
    rw [hplane] at hplane'
    cases hplane'
    simpa [backFaceCulling_eq hmode] using hculled
  · intro hculled
    refine ⟨mesh', _, hplane, ?_⟩
    simpa [backFaceCulling_eq hmode] using hculled

variable [IsStrictOrderedRing K]

theorem culledRightly_of_outward {n : Vector4 K}
    (h1 : winding q1 q2 q3 ctx.cameraPos = 4 * (1 - n.dot ctx.cameraPos))
    (h2 : winding q3 q4 q1 ctx.cameraPos = 4 * (1 - n.dot ctx.cameraPos)) :
    CulledRightly ctx mesh ((a, b, c, d), n) := by
  rw [culledRightly_iff_winding hmode ha hb hc hd, h1, h2]
  intro w hw
  rcases List.mem_pair.mp hw with rfl | rfl
  all_goals exact ⟨fun h => by linarith, fun h => by linarith⟩

theorem not_culledRightly_of_inward {n : Vector4 K} (hcamera : n.dot ctx.cameraPos ≠ 1)
    (h1 : winding q1 q2 q3 ctx.cameraPos = 4 * (n.dot ctx.cameraPos - 1)) :
    ¬ CulledRightly ctx mesh ((a, b, c, d), n) := by
  rw [culledRightly_iff_winding hmode ha hb hc hd, h1]
  intro h
  obtain ⟨houter, hinner⟩ := h _ List.mem_cons_self
  rcases lt_or_gt_of_ne hcamera with hlt | hgt
  · exact hinner hlt (by linarith)
  · have hneg := houter hgt
    linarith

end Faces

variable [FloorRing K] [IsStrictOrderedRing K]

theorem culledRightly_iff {S : Type} {ctx : DeviceContext K S}
    (hmode : ctx.renderMode ≠ renderStateWireframe) {mesh : List (VertexIn K)}
    (hmesh : positions mesh = positions mesh0) {f : (ℕ × ℕ × ℕ × ℕ) × Vector4 K} (hf : f ∈ faces)
    (hcamera : f.2.dot ctx.cameraPos ≠ 1) :
    CulledRightly ctx mesh f ↔ f.1 = (4, 5, 6, 7) := by
  have hq {i : ℕ} {q : Vector4 K} (h : corners[i]? = some q) : (positions mesh)[i]? = some q := by
    rw [hmesh, positions_mesh0, h]
  simp only [faces, List.mem_cons, List.not_mem_nil, or_false] at hf
  rcases hf with rfl | rfl | rfl | rfl | rfl | rfl
  pick_goal 2
  · refine iff_of_true
      (culledRightly_of_outward hmode (hq rfl) (hq rfl) (hq rfl) (hq rfl) ?_ ?_) rfl
    · simp only [winding, Vector4.dot, Vector4.cross, vector4Sub]
      ring
    · simp only [winding, Vector4.dot, Vector4.cross, vector4Sub]
      ring
  all_goals
    refine iff_of_false
      (not_culledRightly_of_inward hmode (hq rfl) (hq rfl) (hq rfl) (hq rfl) hcamera ?_) (by simp)
    simp only [winding, Vector4.dot, Vector4.cross, vector4Sub]
    ring

/-- Exactly one of the six planes is culled as its face requires, so never all of them. -/
theorem faces_culledRightly_iff {S : Type} {ctx : DeviceContext K S}
    (hmode : ctx.renderMode ≠ renderStateWireframe) {mesh : List (VertexIn K)}
    (hmesh : positions mesh = positions mesh0)
    (hcamera : ∀ f ∈ faces, f.2.dot ctx.cameraPos ≠ 1) :
    (∀ f ∈ faces, CulledRightly ctx mesh f ↔ f.1 = (4, 5, 6, 7)) ∧
      ¬ ∀ f ∈ faces, CulledRightly ctx mesh f := by
  refine ⟨fun f hf => culledRightly_iff hmode hmesh hf (hcamera f hf), ?_⟩
  intro h
  have hfront : ((0, 1, 2, 3), (⟨0, 0, 1, 0⟩ : Vector4 K)) ∈ faces := List.mem_cons_self
  have heq := (culledRightly_iff hmode hmesh hfront (hcamera _ hfront)).mp (h _ hfront)
  simp at heq

theorem faces_culledRightly_color :
    ¬ ∀ f ∈ faces, CulledRightly
      (((DeviceContext.new (.new 800 600) : DeviceContext ℚ ℕ).setRenderMode
        renderStateColor).setCameraPos ⟨0, 3, -5, 1⟩) mesh0 f := by
  refine (faces_culledRightly_iff (by decide) rfl ?_).2
  norm_num [faces, Vector4.dot, DeviceContext.setCameraPos]

/-- The camera is in front of the first plane, whose triangles are culled. -/
theorem not_culledRightly :
    ¬ ∀ (ctx : DeviceContext ℚ ℕ), ctx.renderMode ≠ renderStateWireframe →
      (∃ f ∈ faces, 1 < f.2.dot ctx.cameraPos) → (∀ f ∈ faces, f.2.dot ctx.cameraPos ≠ 1) →
      ∀ f ∈ faces, CulledRightly ctx mesh0 f := by
  intro h
  have hfront : ((0, 1, 2, 3), (⟨0, 0, 1, 0⟩ : Vector4 ℚ)) ∈ faces := List.mem_cons_self
  have hculled := h (((DeviceContext.new (.new 800 600)).setRenderMode
    renderStateColor).setCameraPos ⟨0, 0, 5, 1⟩) (by decide)
    ⟨_, hfront, by norm_num [Vector4.dot, DeviceContext.setCameraPos]⟩
    (by norm_num [faces, Vector4.dot, DeviceContext.setCameraPos]) _ hfront
  rw [culledRightly_iff (by decide) rfl hfront
    (by norm_num [Vector4.dot, DeviceContext.setCameraPos])] at hculled
  simp at hculled

end Cube
end SoftRenderer
