import SoftRenderer.CubeDraw
import SoftRenderer.Clipping
import SoftRenderer.DrawingCalls
import SoftRenderer.Kit.Performs

/-!
# What drawing the cube does

`Cube:draw` clears the device and submits twelve triangles, of which none passes the clip test. For
a mesh of numbers and vectors the run is known exactly: it returns, paints the pixels of the clear
and no others, divides by the depths of the submitted vertices, and leaves nothing else behind but
new texture coordinates.
-/

namespace SoftRenderer

open Kit Kit.Procedure

variable {K : Type} [Field K]

/-- The steps that a run records in the world. -/
inductive WorldEvent (K : Type)
  | pixel (p : Pixel K)
  | divisor (b : K)

namespace World

omit [Field K]

def record (world : World K) : WorldEvent K → World K
  | .pixel p => { world with pixels := world.pixels ++ [p] }
  | .divisor b => { world with divisors := world.divisors ++ [b] }

theorem foldl_record_pixels (ps : List (Pixel K)) (world : World K) :
    (ps.map WorldEvent.pixel).foldl record world = { world with pixels := world.pixels ++ ps } := by
  induction ps generalizing world with
  | nil => simp
  | cons p ps ih => simp [record, ih]

theorem foldl_record_divisors (bs : List K) (world : World K) :
    (bs.map WorldEvent.divisor).foldl record world =
      { world with divisors := world.divisors ++ bs } := by
  induction bs generalizing world with
  | nil => simp
  | cons b bs ih => simp [record, ih]

end World

namespace MeshVertex

def setTex (ms : List (MeshVertex K)) (i : ℕ) (x y : K) : List (MeshVertex K) :=
  ms.modify i fun v => { v with tex := ⟨x, y⟩ }

/-- What a plane does to the texture coordinates. -/
def setPlane (ms : List (MeshVertex K)) (a b c d : ℕ) : List (MeshVertex K) :=
  setTex (setTex (setTex (setTex ms a 0 0) b 0 1) c 1 1) d 1 0

def depths (s : CubeShader (Matrix K)) (ms : List (MeshVertex K)) : List K :=
  ms.map fun v => (vector4Apply v.pos s.wvp).w

omit [Field K] in
@[simp] theorem length_setTex (ms : List (MeshVertex K)) (i : ℕ) (x y : K) :
    (setTex ms i x y).length = ms.length := List.length_modify _ _ _

omit [Field K] in
theorem map_setTex {α : Type} (f : MeshVertex K → α)
    (hf : ∀ (v : MeshVertex K) (tex : Vector2 K), f { v with tex := tex } = f v)
    (ms : List (MeshVertex K)) (i : ℕ) (x y : K) : (setTex ms i x y).map f = ms.map f := by
  apply List.ext_getElem
  · simp
  · intro j hj hj'
    rw [List.getElem_map, List.getElem_map]
    simp only [setTex, List.getElem_modify]
    split_ifs
    · exact hf _ _
    · rfl

theorem length_setPlane (ms : List (MeshVertex K)) (a b c d : ℕ) :
    (setPlane ms a b c d).length = ms.length := by
  simp [setPlane]

theorem map_setPlane {α : Type} (f : MeshVertex K → α)
    (hf : ∀ (v : MeshVertex K) (tex : Vector2 K), f { v with tex := tex } = f v)
    (ms : List (MeshVertex K)) (a b c d : ℕ) : (setPlane ms a b c d).map f = ms.map f := by
  simp only [setPlane, map_setTex f hf]

theorem depths_setPlane (s : CubeShader (Matrix K)) (ms : List (MeshVertex K)) (a b c d : ℕ) :
    depths s (setPlane ms a b c d) = depths s ms := map_setPlane _ (fun _ _ => rfl) ms a b c d

end MeshVertex

open MeshVertex

namespace Cube

omit [Field K] in
theorem vertexAt_mesh (name : String) {ms : List (MeshVertex K)} {i : ℕ} (hi : i < ms.length) :
    vertexAt name (ms.map toVertexIn) i = .ok ms[i].toVertexIn := by
  have hget : (ms.map toVertexIn)[i]? = some ms[i].toVertexIn := by simp [hi]
  rw [vertexAt, hget]

omit [Field K] in
theorem setTex_mesh (name : String) {ms : List (MeshVertex K)} {i : ℕ} (hi : i < ms.length)
    (x y : K) :
    setTex name (ms.map toVertexIn) i x y = .ok ((MeshVertex.setTex ms i x y).map toVertexIn) := by
  have hset : (ms.map toVertexIn).set i { ms[i].toVertexIn with tex := ⟨x, y⟩ } =
      (MeshVertex.setTex ms i x y).map toVertexIn := by
    apply List.ext_getElem
    · simp
    · intro j hj hj'
      simp only [List.getElem_set, List.getElem_map, MeshVertex.setTex, List.getElem_modify]
      split_ifs with hij
      · subst hij
        rfl
      · rfl
  rw [setTex, vertexAt_mesh name hi]
  exact congrArg Except.ok hset

theorem plane_mesh {ms : List (MeshVertex K)} {a b c d : ℕ} (ha : a < ms.length)
    (hb : b < ms.length) (hc : c < ms.length) (hd : d < ms.length) :
    ∃ v1 v2 v3 v4 : MeshVertex K,
      plane (ms.map toVertexIn) a b c d = .ok ((setPlane ms a b c d).map toVertexIn,
        [(v1.toVertexIn, v2.toVertexIn, v3.toVertexIn),
          (v3.toVertexIn, v4.toVertexIn, v1.toVertexIn)]) ∧
      (setPlane ms a b c d)[a]? = some v1 ∧ (setPlane ms a b c d)[b]? = some v2 ∧
      (setPlane ms a b c d)[c]? = some v3 ∧ (setPlane ms a b c d)[d]? = some v4 := by
  have hlen : (setPlane ms a b c d).length = ms.length := length_setPlane ms a b c d
  have hget {i : ℕ} (hi : i < ms.length) :
      (setPlane ms a b c d)[i]? = some (setPlane ms a b c d)[i] :=
    List.getElem?_eq_getElem (hlen.symm ▸ hi)
  refine ⟨_, _, _, _, ?_, hget ha, hget hb, hget hc, hget hd⟩
  rw [plane, setTex_mesh "p1" ha]
  simp only [bind, Except.bind]
  rw [setTex_mesh "p2" (by simpa using hb)]
  simp only
  rw [setTex_mesh "p3" (by simpa using hc)]
  simp only
  rw [setTex_mesh "p4" (by simpa using hd)]
  simp only
  rw [← setPlane, vertexAt_mesh "p1" (hlen.symm ▸ ha), vertexAt_mesh "p2" (hlen.symm ▸ hb),
    vertexAt_mesh "p3" (hlen.symm ▸ hc), vertexAt_mesh "p4" (hlen.symm ▸ hd)]
  rfl

variable [LinearOrder K]

/-- The vertices of the two triangles of a plane. -/
def submitted (a b c d : ℕ) : List ℕ := [a, b, c, c, d, a]

def planeDivisors (zs : List K) (a b c d : ℕ) : List K :=
  (submitted a b c d).filterMap fun i => zs[i]?

theorem drawPrimitive_performs [FloorRing K] (cfg : Config K) (calls : RasterCalls K)
    {ctx : DeviceContext K (CubeShader (Matrix K))} {s : CubeShader (Matrix K)}
    (hshader : ctx.shader = some s) (hmode : ctx.renderMode = renderStateWireframe)
    (v1 v2 v3 : MeshVertex K) :
    Performs World.record
      (ctx.drawPrimitive cfg calls v1.toVertexIn v2.toVertexIn v3.toVertexIn) ()
      ((depths s [v1, v2, v3]).map WorldEvent.divisor) := by
  have hctx : ctx = ctx.setShader s := by
    rw [DeviceContext.setShader, ← hshader]
  intro world
  rw [hctx, DeviceContext.drawPrimitive_apply cfg calls ctx s v1 v2 v3 world (if_pos hmode),
    World.foldl_record_divisors]
  simp [DeviceContext.afterDivide, depths]

def withMesh (cube : Cube K) (ms : List (MeshVertex K)) : Cube K :=
  { cube with mesh := ms.map toVertexIn }

variable [FloorRing K]

theorem drawPlane_performs (cfg : Config K) (calls : RasterCalls K) (objs : Objects K)
    {cube : Cube K} {r : ℕ} (hshader : cube.deviceContext.shader = some r)
    (hmode : cube.deviceContext.renderMode = renderStateWireframe) {ms : List (MeshVertex K)}
    {a b c d : ℕ} (ha : a < ms.length) (hb : b < ms.length) (hc : c < ms.length)
    (hd : d < ms.length) :
    Performs World.record ((cube.withMesh ms).drawPlane cfg calls objs a b c d)
      (cube.withMesh (setPlane ms a b c d))
      ((planeDivisors (depths (objs.shader r) ms) a b c d).map WorldEvent.divisor) := by
  obtain ⟨v1, v2, v3, v4, hplane, h1, h2, h3, h4⟩ := plane_mesh ha hb hc hd
  have hcontext : (cube.deviceContext.map objs.shader).shader = some (objs.shader r) := by
    rw [DeviceContext.map, hshader]
    rfl
  have hdepth {i : ℕ} {v : MeshVertex K} (hv : (setPlane ms a b c d)[i]? = some v) :
      (depths (objs.shader r) ms)[i]? = some (vector4Apply v.pos (objs.shader r).wvp).w := by
    rw [← depths_setPlane (objs.shader r) ms a b c d, depths, List.getElem?_map, hv]
    rfl
  have htriangles := Performs.forEach
    fun (t : MeshVertex K × MeshVertex K × MeshVertex K)
        (_ : t ∈ [(v1, v2, v3), (v3, v4, v1)]) =>
      drawPrimitive_performs cfg calls hcontext hmode t.1 t.2.1 t.2.2
  have hdivisors : planeDivisors (depths (objs.shader r) ms) a b c d =
      depths (objs.shader r) [v1, v2, v3] ++ depths (objs.shader r) [v3, v4, v1] := by
    simp only [planeDivisors, submitted, List.filterMap_cons, hdepth h1, hdepth h2, hdepth h3,
      hdepth h4]
    rfl
  have hrun := htriangles.bind (k := fun _ => pure (cube.withMesh (setPlane ms a b c d)))
    (Performs.pure _)
  rw [drawPlane, withMesh, hplane, hdivisors, List.map_append]
  rw [List.append_nil] at hrun
  exact hrun

theorem clear_performs (self : Device K) (color : Value K) :
    Performs World.record (self.clear color) ()
      ((self.clearPixels color).map WorldEvent.pixel) := by
  have hpixels : (self.clearPixels color).map WorldEvent.pixel =
      (forValues 0 self.width).flatMap fun i =>
        (forValues 0 self.height).flatMap fun j => [WorldEvent.pixel ⟨i, j, color⟩] := by
    simp only [Device.clearPixels, List.map_flatMap, List.map_singleton]
  rw [hpixels]
  exact Performs.forEach fun i _ => Performs.forEach fun j _ =>
    Performs.action (WorldEvent.pixel ⟨i, j, color⟩)

def drawnMesh (ms : List (MeshVertex K)) : List (MeshVertex K) :=
  planes.foldl (fun ms t => setPlane ms t.1 t.2.1 t.2.2.1 t.2.2.2) ms

def drawDivisors (zs : List K) : List K :=
  planes.flatMap fun t => planeDivisors zs t.1 t.2.1 t.2.2.1 t.2.2.2

def drawn (cube : Cube K) (ms : List (MeshVertex K)) : Cube K :=
  { cube with
    deviceContext := cube.deviceContext.setRenderMode renderStateWireframe
    mesh := (drawnMesh ms).map toVertexIn }

omit [FloorRing K] in
theorem lt_eight_of_mem_planes {a b c d : ℕ} (h : (a, b, c, d) ∈ planes) :
    a < 8 ∧ b < 8 ∧ c < 8 ∧ d < 8 := by
  simp only [planes, List.mem_cons, Prod.mk.injEq, List.not_mem_nil, or_false] at h
  omega

theorem drawPlanes_performs (cfg : Config K) (calls : RasterCalls K) (objs : Objects K)
    {cube : Cube K} {r : ℕ} (hshader : cube.deviceContext.shader = some r)
    (hmode : cube.deviceContext.renderMode = renderStateWireframe) {ms : List (MeshVertex K)}
    (h8 : 8 ≤ ms.length) :
    Performs World.record
      (forFold planes (cube.withMesh ms) fun (a, b, c, d) self =>
        self.drawPlane cfg calls objs a b c d)
      (cube.withMesh (drawnMesh ms))
      ((drawDivisors (depths (objs.shader r) ms)).map WorldEvent.divisor) := by
  rw [drawDivisors, List.map_flatMap]
  apply Performs.forFold (f := cube.withMesh)
    (P := fun ms' => ms'.length = ms.length ∧
      depths (objs.shader r) ms' = depths (objs.shader r) ms)
  · intro t ht ms' hms'
    obtain ⟨a, b, c, d⟩ := t
    obtain ⟨hlength, hdepths⟩ := hms'
    obtain ⟨ha, hb, hc, hd⟩ := lt_eight_of_mem_planes ht
    rw [← hlength] at h8
    have hplane := drawPlane_performs cfg calls objs hshader hmode (ha.trans_le h8)
      (hb.trans_le h8) (hc.trans_le h8) (hd.trans_le h8)
    rw [hdepths] at hplane
    exact ⟨⟨(length_setPlane ..).trans hlength, (depths_setPlane ..).trans hdepths⟩, hplane⟩
  · exact ⟨rfl, rfl⟩

/-- A frame returns, paints the clear and nothing else, and divides by the depths of the vertices
that it submits. -/
theorem draw_performs (cfg : Config K) (calls : RasterCalls K) (objs : Objects K) {cube : Cube K}
    {r : ℕ} (hshader : cube.deviceContext.shader = some r) {ms : List (MeshVertex K)}
    (hmesh : cube.mesh = ms.map toVertexIn) (h8 : 8 ≤ ms.length) :
    Performs World.record (cube.draw cfg calls objs) (cube.drawn ms)
      ((cube.device.clearPixels colorGray).map WorldEvent.pixel ++
        (drawDivisors (depths (objs.shader r) ms)).map WorldEvent.divisor) := by
  let cleared : Cube K :=
    { cube with deviceContext := cube.deviceContext.setRenderMode renderStateWireframe }
  have hcleared : cleared.deviceContext.shader = some r := hshader
  have hplanes := drawPlanes_performs cfg calls objs hcleared rfl h8
  rw [withMesh, ← hmesh] at hplanes
  exact (clear_performs cube.device colorGray).bind hplanes

/-- The texture coordinates that a vertex gets from the last plane that it belongs to. -/
def lastTex : ℕ → Option (Vector2 K)
  | 0 => some ⟨1, 0⟩
  | 1 | 2 | 3 => some ⟨0, 0⟩
  | 4 => some ⟨1, 1⟩
  | 5 | 6 | 7 => some ⟨0, 1⟩
  | _ => none

omit [LinearOrder K] [FloorRing K] in
theorem getElem?_drawnMesh (ms : List (MeshVertex K)) (j : ℕ) :
    (drawnMesh ms)[j]? = ms[j]?.map fun v => { v with tex := (lastTex j).getD v.tex } := by
  cases hv : ms[j]? with
  | none => simp [drawnMesh, planes, setPlane, MeshVertex.setTex, List.getElem?_modify, hv]
  | some v =>
      by_cases hj : j < 8
      · interval_cases j <;> simp [drawnMesh, planes, setPlane, MeshVertex.setTex, hv, lastTex]
      · obtain ⟨k, rfl⟩ := Nat.exists_eq_add_of_le' (not_lt.mp hj)
        have hlast : lastTex (K := K) (k + 8) = none := rfl
        simp [drawnMesh, planes, setPlane, MeshVertex.setTex, hv, hlast]

omit [LinearOrder K] [FloorRing K] in
theorem drawnMesh_idem (ms : List (MeshVertex K)) : drawnMesh (drawnMesh ms) = drawnMesh ms := by
  apply List.ext_getElem?
  intro j
  simp only [getElem?_drawnMesh, Option.map_map]
  congr 1
  funext v
  cases lastTex (K := K) j <;> simp

omit [LinearOrder K] [FloorRing K] in
theorem length_drawnMesh (ms : List (MeshVertex K)) : (drawnMesh ms).length = ms.length := by
  simp [drawnMesh, planes, setPlane]

omit [LinearOrder K] [FloorRing K] in
theorem map_drawnMesh {α : Type} (f : MeshVertex K → α)
    (hf : ∀ (v : MeshVertex K) (tex : Vector2 K), f { v with tex := tex } = f v)
    (ms : List (MeshVertex K)) : (drawnMesh ms).map f = ms.map f := by
  simp only [drawnMesh, planes, List.foldl_cons, List.foldl_nil, map_setPlane f hf]

end Cube
end SoftRenderer
