import SoftRenderer.Cube

/-!
# The box of the geometry creator

`create_cube` lists the vertices and triangles of a box. It takes the half of its depth from the
height, and a misplaced parenthesis leaves one vertex without a normal; everything else is as it
should be for a box whose depth is its height.
-/

namespace SoftRenderer

open SoftRenderer.Cube (colorRgba2hex)

/-- A `Vector4` made with three arguments, whose `w` is `nil`. -/
structure ShortVector4 (K : Type) where
  x : K
  y : K
  z : K

/-- A `VertexIn` as `create_cube` makes it, with a short normal or none. -/
structure GeometryVertex (K : Type) where
  pos : Vector4 K
  color : Value K
  tex : Vector2 K
  normal : Option (ShortVector4 K)

structure MeshData (K : Type) where
  vertices : List (GeometryVertex K)
  indices : List ℕ

variable {K : Type} [Field K]

section Source

variable [LinearOrder K] [FloorRing K]

def createCube (width height _depth : K) : MeshData K :=
  let halfW := width * 0.5
  let halfH := height * 0.5
  let halfD := height * 0.5
  { vertices :=
    -- front
    [⟨⟨-halfW, -halfH, -halfD, 1⟩, colorRgba2hex 1.0 0.0 0.0 1.0, ⟨0, 1⟩, some ⟨0, 0, -1⟩⟩,
      ⟨⟨-halfW, halfH, -halfD, 1⟩, colorRgba2hex 0.0 0.0 0.0 1.0, ⟨0, 0⟩, some ⟨0, 0, -1⟩⟩,
      ⟨⟨halfW, halfH, -halfD, 1⟩, colorRgba2hex 1.0 0.0 0.0 1.0, ⟨1, 0⟩, some ⟨0, 0, -1⟩⟩,
      ⟨⟨halfW, -halfH, -halfD, 1⟩, colorRgba2hex 0.0 1.0 0.0 1.0, ⟨1, 1⟩, some ⟨0, 0, -1⟩⟩,
      -- left
      ⟨⟨-halfW, -halfH, halfD, 1⟩, colorRgba2hex 0.0 0.0 1.0 1.0, ⟨0, 1⟩, some ⟨-1, 0, 0⟩⟩,
      ⟨⟨-halfW, halfH, halfD, 1⟩, colorRgba2hex 1.0 1.0 0.0 1.0, ⟨0, 0⟩, some ⟨-1, 0, 0⟩⟩,
      ⟨⟨-halfW, halfH, -halfD, 1⟩, colorRgba2hex 0.0 0.0 0.0 1.0, ⟨1, 0⟩, some ⟨-1, 0, 0⟩⟩,
      ⟨⟨-halfW, -halfH, -halfD, 1⟩, colorRgba2hex 1.0 1.0 1.0 1.0, ⟨1, 1⟩, some ⟨-1, 0, 0⟩⟩,
      -- back
      ⟨⟨halfW, -halfH, halfD, 1⟩, colorRgba2hex 1.0 0.0 1.0 1.0, ⟨0, 1⟩, some ⟨0, 0, 1⟩⟩,
      ⟨⟨halfW, halfH, halfD, 1⟩, colorRgba2hex 0.0 1.0 1.0 1.0, ⟨0, 0⟩, some ⟨0, 0, 1⟩⟩,
      ⟨⟨-halfW, halfH, halfD, 1⟩, colorRgba2hex 1.0 1.0 0.0 1.0, ⟨1, 0⟩, some ⟨0, 0, 1⟩⟩,
      ⟨⟨-halfW, -halfH, halfD, 1⟩, colorRgba2hex 0.0 0.0 1.0 1.0, ⟨1, 1⟩, some ⟨0, 0, 1⟩⟩,
      -- right
      ⟨⟨halfW, -halfH, -halfD, 1⟩, colorRgba2hex 0.0 1.0 0.0 1.0, ⟨0, 1⟩, some ⟨1, 0, 0⟩⟩,
      ⟨⟨halfW, halfH, -halfD, 1⟩, colorRgba2hex 1.0 0.0 0.0 1.0, ⟨0, 0⟩, some ⟨1, 0, 0⟩⟩,
      ⟨⟨halfW, halfH, halfD, 1⟩, colorRgba2hex 0.0 1.0 1.0 1.0, ⟨1, 0⟩, some ⟨1, 0, 0⟩⟩,
      ⟨⟨halfW, -halfH, halfD, 1⟩, colorRgba2hex 1.0 0.0 1.0 1.0, ⟨1, 1⟩, some ⟨1, 0, 0⟩⟩,
      -- top
      ⟨⟨-halfW, halfH, -halfD, 1⟩, colorRgba2hex 0.0 0.0 0.0 1.0, ⟨0, 1⟩, some ⟨0, 1, 0⟩⟩,
      ⟨⟨-halfW, halfH, halfD, 1⟩, colorRgba2hex 1.0 1.0 0.0 1.0, ⟨0, 0⟩, some ⟨0, 1, 0⟩⟩,
      ⟨⟨halfW, halfH, halfD, 1⟩, colorRgba2hex 0.0 1.0 1.0 1.0, ⟨1, 0⟩, some ⟨0, 1, 0⟩⟩,
      ⟨⟨halfW, halfH, -halfD, 1⟩, colorRgba2hex 1.0 0.0 0.0 1.0, ⟨1, 1⟩, some ⟨0, 1, 0⟩⟩,
      -- bottom
      -- the call ends before its last argument, which becomes a second value that is dropped
      ⟨⟨-halfW, -halfH, halfD, 1⟩, colorRgba2hex 0.0 0.0 1.0 1.0, ⟨0, 1⟩, none⟩,
      ⟨⟨-halfW, -halfH, -halfD, 1⟩, colorRgba2hex 1.0 1.0 1.0 1.0, ⟨0, 0⟩, some ⟨0, -1, 0⟩⟩,
      ⟨⟨halfW, -halfH, -halfD, 1⟩, colorRgba2hex 0.0 1.0 0.0 1.0, ⟨1, 0⟩, some ⟨0, -1, 0⟩⟩,
      ⟨⟨halfW, -halfH, halfD, 1⟩, colorRgba2hex 1.0 0.0 1.0 1.0, ⟨1, 1⟩, some ⟨0, -1, 0⟩⟩]
    indices :=
      [0, 1, 2, 0, 2, 3,
        4, 5, 6, 4, 6, 7,
        8, 9, 10, 8, 10, 11,
        12, 13, 14, 12, 14, 15,
        16, 17, 18, 16, 18, 19,
        20, 21, 22, 20, 22, 23] }

end Source

@[simps] def ShortVector4.toVector4 (n : ShortVector4 K) : Vector4 K := ⟨n.x, n.y, n.z, 0⟩

theorem ShortVector4.toVector4_dot (n : ShortVector4 K) (v : Vector4 K) :
    n.toVector4.dot v = n.x * v.x + n.y * v.y + n.z * v.z := rfl

/-- A corner of the box with the given half sizes; `true` stands for the positive side. -/
def boxCorner (x y z : K) (s : Bool × Bool × Bool) : Vector4 K :=
  ⟨if s.1 then x else -x, if s.2.1 then y else -y, if s.2.2 then z else -z, 1⟩

def boxSides : List (Bool × Bool × Bool) :=
  [(false, false, false), (false, false, true), (false, true, false), (false, true, true),
    (true, false, false), (true, false, true), (true, true, false), (true, true, true)]

def triangles : List ℕ → List (ℕ × ℕ × ℕ)
  | a :: b :: c :: rest => (a, b, c) :: triangles rest
  | _ => []

namespace MeshData

/-- The indices count the vertices from 0, as their names in the source do. -/
def triangle (mesh : MeshData K) (t : ℕ × ℕ × ℕ) :
    Option (GeometryVertex K × GeometryVertex K × GeometryVertex K) := do
  let a ← mesh.vertices[t.1]?
  let b ← mesh.vertices[t.2.1]?
  let c ← mesh.vertices[t.2.2]?
  return (a, b, c)

def signedVolume (mesh : MeshData K) : K :=
  ((triangles mesh.indices).map fun t =>
    match mesh.triangle t with
    | some (a, b, c) => a.pos.dot (b.pos.cross c.pos) / 6
    | none => 0).sum

/-- Three vertices at each of the corners. -/
def HasCorners (mesh : MeshData K) (width height depth : K) : Prop :=
  (mesh.vertices.map GeometryVertex.pos).Perm
    ((boxSides.map (boxCorner (width * 0.5) (height * 0.5) (depth * 0.5))).flatMap
      (List.replicate 3))

omit [Field K] in
theorem triangle_eq_some {mesh : MeshData K} {t : ℕ × ℕ × ℕ} {a b c : GeometryVertex K} :
    mesh.triangle t = some (a, b, c) ↔ mesh.vertices[t.1]? = some a ∧
      mesh.vertices[t.2.1]? = some b ∧ mesh.vertices[t.2.2]? = some c := by
  simp [triangle, Option.bind_eq_some_iff]

omit [Field K] in
theorem exists_of_mem_triangle {mesh : MeshData K} {t : ℕ × ℕ × ℕ} {a b c : GeometryVertex K}
    (htri : mesh.triangle t = some (a, b, c)) {i : ℕ} (hi : i ∈ [t.1, t.2.1, t.2.2]) :
    ∃ v, mesh.vertices[i]? = some v ∧ v ∈ [a, b, c] := by
  obtain ⟨ha, hb, hc⟩ := triangle_eq_some.mp htri
  simp only [List.mem_cons, List.not_mem_nil, or_false] at hi
  obtain rfl | rfl | rfl := hi
  · exact ⟨a, ha, by simp⟩
  · exact ⟨b, hb, by simp⟩
  · exact ⟨c, hc, by simp⟩

omit [Field K] in
theorem exists_index_of_mem {mesh : MeshData K} {t : ℕ × ℕ × ℕ} {a b c : GeometryVertex K}
    (htri : mesh.triangle t = some (a, b, c)) {v : GeometryVertex K} (hv : v ∈ [a, b, c]) :
    ∃ i ∈ [t.1, t.2.1, t.2.2], mesh.vertices[i]? = some v := by
  obtain ⟨ha, hb, hc⟩ := triangle_eq_some.mp htri
  simp only [List.mem_cons, List.not_mem_nil, or_false] at hv
  obtain rfl | rfl | rfl := hv
  · exact ⟨t.1, by simp, ha⟩
  · exact ⟨t.2.1, by simp, hb⟩
  · exact ⟨t.2.2, by simp, hc⟩

variable [LinearOrder K]

/-- A unit vector at a right angle to the triangle, with the whole mesh behind its plane. -/
structure IsFaceNormal (mesh : MeshData K) (a b c : GeometryVertex K) (n : Vector4 K) : Prop where
  unit : n.dot n = 1
  flat : n.dot (vector4Sub b.pos a.pos) = 0 ∧ n.dot (vector4Sub c.pos a.pos) = 0
  outward : ∀ q ∈ mesh.vertices, n.dot (vector4Sub q.pos a.pos) ≤ 0

/-- The vertex has a normal, which is that of the face it belongs to. -/
def HasFaceNormal (mesh : MeshData K) (i : ℕ) : Prop :=
  ∃ v n, mesh.vertices[i]? = some v ∧ v.normal = some n ∧
    (∃ t ∈ triangles mesh.indices, i ∈ [t.1, t.2.1, t.2.2]) ∧
    ∀ t ∈ triangles mesh.indices, i ∈ [t.1, t.2.1, t.2.2] →
      ∃ a b c, mesh.triangle t = some (a, b, c) ∧ mesh.IsFaceNormal a b c n.toVector4

def WoundOutward (mesh : MeshData K) (t : ℕ × ℕ × ℕ) : Prop :=
  ∃ a b c r, mesh.triangle t = some (a, b, c) ∧ 0 < r ∧ ∀ v ∈ [a, b, c], ∃ n, v.normal = some n ∧
    (vector4Sub b.pos a.pos).cross (vector4Sub c.pos a.pos) = vector4Scl n.toVector4 r

structure IsClosedBox (mesh : MeshData K) (width height depth : K) : Prop where
  corners : mesh.HasCorners width height depth
  normals : ∀ i < mesh.vertices.length, mesh.HasFaceNormal i
  indices_lt : ∀ i ∈ mesh.indices, i < mesh.vertices.length
  count : (triangles mesh.indices).length = 12
  winding : ∀ t ∈ triangles mesh.indices, mesh.WoundOutward t
  volume : mesh.signedVolume = width * height * depth

end MeshData

/-- The sides on which the vertices lie, in their order. -/
def cubeSides : List (Bool × Bool × Bool) :=
  [(false, false, false), (false, true, false), (true, true, false), (true, false, false),
    (false, false, true), (false, true, true), (false, true, false), (false, false, false),
    (true, false, true), (true, true, true), (false, true, true), (false, false, true),
    (true, false, false), (true, true, false), (true, true, true), (true, false, true),
    (false, true, false), (false, true, true), (true, true, true), (true, true, false),
    (false, false, true), (false, false, false), (true, false, false), (true, false, true)]

def faceNormals : List (ShortVector4 K) :=
  [⟨0, 0, -1⟩, ⟨-1, 0, 0⟩, ⟨0, 0, 1⟩, ⟨1, 0, 0⟩, ⟨0, 1, 0⟩, ⟨0, -1, 0⟩]

theorem cubeSides_perm : cubeSides.Perm (boxSides.flatMap (List.replicate 3)) := by
  decide

section CreateCube

variable [LinearOrder K] [FloorRing K] (width height depth : K)

theorem positions_createCube :
    (createCube width height depth).vertices.map GeometryVertex.pos =
      cubeSides.map (boxCorner (width * 0.5) (height * 0.5) (height * 0.5)) := rfl

theorem hasCorners_createCube :
    (createCube width height height).HasCorners width height height := by
  rw [MeshData.HasCorners, positions_createCube, List.flatMap_map]
  have hperm := cubeSides_perm.map (boxCorner (width * 0.5) (height * 0.5) (height * 0.5))
  rw [List.map_flatMap] at hperm
  simpa using hperm

theorem indices_lt_createCube :
    ∀ i ∈ (createCube width height depth).indices,
      i < (createCube width height depth).vertices.length := by
  simp [createCube]

theorem signedVolume_createCube [CharZero K] :
    (createCube width height depth).signedVolume = width * height * height := by
  have half : (0.5 : K) = 1 / 2 := by norm_num
  simp [MeshData.signedVolume, triangles, createCube, MeshData.triangle, Vector4.dot,
    Vector4.cross, half]
  ring

theorem normals_createCube :
    (createCube width height depth).vertices.map GeometryVertex.normal =
      (List.range 24).map fun i => if i = 20 then none else faceNormals[i / 4]? := rfl

variable {width height depth}

theorem normal_createCube {i : ℕ} {v : GeometryVertex K}
    (hv : (createCube width height depth).vertices[i]? = some v) :
    v.normal = if i = 20 then none else faceNormals[i / 4]? := by
  have hi : i < 24 := (List.getElem?_eq_some_iff.mp hv).1
  have hn := congrArg (fun l => l[i]?) (normals_createCube width height depth)
  simpa [hv, hi] using hn

theorem triangles_createCube : triangles (createCube width height depth).indices =
    (List.range 6).flatMap fun k =>
      [(4 * k, 4 * k + 1, 4 * k + 2), (4 * k, 4 * k + 2, 4 * k + 3)] := rfl

theorem mem_triangles_createCube {t : ℕ × ℕ × ℕ} :
    t ∈ triangles (createCube width height depth).indices ↔
      ∃ k < 6, t = (4 * k, 4 * k + 1, 4 * k + 2) ∨ t = (4 * k, 4 * k + 2, 4 * k + 3) := by
  simp [triangles_createCube]

theorem div_four_createCube {t : ℕ × ℕ × ℕ}
    (ht : t ∈ triangles (createCube width height depth).indices) {i : ℕ}
    (hi : i ∈ [t.1, t.2.1, t.2.2]) : i / 4 = t.1 / 4 := by
  obtain ⟨k, hk, hcases⟩ := mem_triangles_createCube.mp ht
  obtain rfl | rfl := hcases <;> simp at hi <;> omega

variable [IsStrictOrderedRing K]

theorem abs_pos_createCube (hw : 0 < width) (hh : 0 < height) {q : GeometryVertex K}
    (hq : q ∈ (createCube width height depth).vertices) :
    |q.pos.x| = width * 0.5 ∧ |q.pos.y| = height * 0.5 ∧ |q.pos.z| = height * 0.5 := by
  have hx : |width * 0.5| = width * (0.5 : K) := abs_of_pos (by positivity)
  have hy : |height * 0.5| = height * (0.5 : K) := abs_of_pos (by positivity)
  have hmem := List.mem_map_of_mem (f := GeometryVertex.pos) hq
  rw [positions_createCube] at hmem
  obtain ⟨⟨s1, s2, s3⟩, -, hs⟩ := List.mem_map.mp hmem
  rw [← hs]
  refine ⟨?_, ?_, ?_⟩
  · cases s1 <;> simp [boxCorner, hx]
  · cases s2 <;> simp [boxCorner, hy]
  · cases s3 <;> simp [boxCorner, hy]

theorem hasCorners_createCube_iff (hw : 0 < width) (hh : 0 < height) (hd : 0 < depth) :
    (createCube width height depth).HasCorners width height depth ↔ depth = height := by
  refine ⟨fun hc => ?_, fun hc => hc ▸ hasCorners_createCube width height⟩
  have hmem : boxCorner (width * 0.5) (height * 0.5) (depth * 0.5) (true, true, true) ∈
      (createCube width height depth).vertices.map GeometryVertex.pos :=
    hc.mem_iff.mpr (List.mem_flatMap.mpr
      ⟨_, List.mem_map_of_mem (by decide), List.mem_replicate.mpr ⟨by decide, rfl⟩⟩)
  obtain ⟨q, hq, hpos⟩ := List.mem_map.mp hmem
  have hz := (abs_pos_createCube hw hh hq).2.2
  rw [hpos] at hz
  have hdepth : |depth * 0.5| = depth * (0.5 : K) := abs_of_pos (by positivity)
  simp only [boxCorner, if_true, hdepth] at hz
  exact mul_right_cancel₀ (by norm_num) hz

theorem behind_createCube (hw : 0 < width) (hh : 0 < height) {q : GeometryVertex K}
    (hq : q ∈ (createCube width height depth).vertices) :
    (-(width * 0.5) ≤ q.pos.x ∧ q.pos.x ≤ width * 0.5) ∧
    (-(height * 0.5) ≤ q.pos.y ∧ q.pos.y ≤ height * 0.5) ∧
    (-(height * 0.5) ≤ q.pos.z ∧ q.pos.z ≤ height * 0.5) := by
  obtain ⟨hx, hy, hz⟩ := abs_pos_createCube hw hh hq
  exact ⟨abs_le.mp hx.le, abs_le.mp hy.le, abs_le.mp hz.le⟩

theorem face_createCube (hw : 0 < width) (hh : 0 < height) {t : ℕ × ℕ × ℕ}
    (ht : t ∈ triangles (createCube width height depth).indices) :
    ∃ a b c n r, (createCube width height depth).triangle t = some (a, b, c) ∧
      faceNormals[t.1 / 4]? = some n ∧
      (createCube width height depth).IsFaceNormal a b c n.toVector4 ∧ 0 < r ∧
      (vector4Sub b.pos a.pos).cross (vector4Sub c.pos a.pos) = vector4Scl n.toVector4 r := by
  obtain ⟨k, hk, hcases⟩ := mem_triangles_createCube.mp ht
  -- the area of the face, which for the left and the right one takes `height` for the depth
  have harea : 0 < (if k = 1 ∨ k = 3 then height * height else width * height) := by
    split <;> positivity
  interval_cases k <;> obtain rfl | rfl := hcases <;>
    refine ⟨_, _, _, _, _, rfl, rfl, ⟨by simp [ShortVector4.toVector4_dot],
      by simp [ShortVector4.toVector4_dot], fun q hq => ?_⟩, harea, by ext <;> simp; ring⟩
  all_goals
    have := behind_createCube hw hh hq
    simp only [ShortVector4.toVector4_dot, vector4Sub_x, vector4Sub_y, vector4Sub_z]
    linarith

theorem hasFaceNormal_createCube_iff (hw : 0 < width) (hh : 0 < height) {i : ℕ} (hi : i < 24) :
    (createCube width height depth).HasFaceNormal i ↔ i ≠ 20 := by
  refine ⟨?_, fun hne => ?_⟩
  · intro ⟨v, n, hv, hn, _⟩ h20
    rw [normal_createCube hv, if_pos h20] at hn
    exact Option.some_ne_none n hn.symm
  · have hlt : i / 4 < (faceNormals (K := K)).length := by
      simp only [faceNormals, List.length_cons, List.length_nil]
      omega
    obtain ⟨v, hv⟩ : ∃ v, (createCube width height depth).vertices[i]? = some v :=
      ⟨_, List.getElem?_eq_getElem hi⟩
    have hn := normal_createCube hv
    rw [if_neg hne, List.getElem?_eq_getElem hlt] at hn
    refine ⟨_, _, hv, hn, ?_, fun t ht hit => ?_⟩
    · have hsome : ∃ t, (t = (4 * (i / 4), 4 * (i / 4) + 1, 4 * (i / 4) + 2) ∨
          t = (4 * (i / 4), 4 * (i / 4) + 2, 4 * (i / 4) + 3)) ∧ i ∈ [t.1, t.2.1, t.2.2] := by
        by_cases h3 : i % 4 = 3
        · exact ⟨_, .inr rfl, by simp; omega⟩
        · exact ⟨_, .inl rfl, by simp; omega⟩
      obtain ⟨t, ht, hit⟩ := hsome
      exact ⟨t, mem_triangles_createCube.mpr ⟨i / 4, by omega, ht⟩, hit⟩
    · obtain ⟨a, b, c, n, r, htri, hface, hplane, -⟩ := face_createCube hw hh ht
      refine ⟨a, b, c, htri, ?_⟩
      rw [← div_four_createCube ht hit, List.getElem?_eq_getElem hlt] at hface
      exact Option.some.inj hface ▸ hplane

theorem woundOutward_createCube_iff (hw : 0 < width) (hh : 0 < height) {t : ℕ × ℕ × ℕ}
    (ht : t ∈ triangles (createCube width height depth).indices) :
    (createCube width height depth).WoundOutward t ↔ 20 ∉ [t.1, t.2.1, t.2.2] := by
  refine ⟨?_, fun h20 => ?_⟩
  · intro ⟨a, b, c, r, htri, hr, hnormals⟩ h20
    have ⟨v, hv, hmem⟩ := MeshData.exists_of_mem_triangle htri h20
    obtain ⟨n, hn, -⟩ := hnormals v hmem
    rw [normal_createCube hv, if_pos rfl] at hn
    exact Option.some_ne_none n hn.symm
  · obtain ⟨a, b, c, n, r, htri, hface, -, hr, hcross⟩ := face_createCube hw hh ht
    refine ⟨a, b, c, r, htri, hr, fun v hv => ⟨n, ?_, hcross⟩⟩
    obtain ⟨i, hi, hiv⟩ := MeshData.exists_index_of_mem htri hv
    have hne : i ≠ 20 := fun h => h20 (h ▸ hi)
    rw [normal_createCube hiv, if_neg hne, div_four_createCube ht hi, hface]

/-- The mesh is never the closed box: the normal is missing from the vertex `v20`, and the depth
is right for the boxes that are as deep as high. -/
theorem not_isClosedBox_createCube (hw : 0 < width) (hh : 0 < height) (hd : 0 < depth) :
    ¬ (createCube width height depth).IsClosedBox width height depth ∧
    ((createCube width height depth).HasCorners width height depth ↔ depth = height) ∧
    ((createCube width height depth).signedVolume = width * height * depth ↔ depth = height) ∧
    (∀ i < 24, (createCube width height depth).HasFaceNormal i ↔ i ≠ 20) ∧
    (∀ t ∈ triangles (createCube width height depth).indices,
      (createCube width height depth).WoundOutward t ↔ 20 ∉ [t.1, t.2.1, t.2.2]) ∧
    (createCube width height depth).vertices.length = 24 ∧
    (∀ i ∈ (createCube width height depth).indices, i < 24) ∧
    (triangles (createCube width height depth).indices).length = 12 := by
  refine ⟨fun hbox => ?_, hasCorners_createCube_iff hw hh hd, ?_,
    fun i hi => hasFaceNormal_createCube_iff hw hh hi,
    fun t ht => woundOutward_createCube_iff hw hh ht, rfl,
    indices_lt_createCube width height depth, rfl⟩
  · have h20 : 20 < (createCube width height depth).vertices.length := by
      simp [createCube]
    exact (hasFaceNormal_createCube_iff hw hh h20).mp (hbox.normals 20 h20) rfl
  · rw [signedVolume_createCube]
    refine ⟨fun hv => ?_, fun hdepth => hdepth ▸ rfl⟩
    exact (mul_left_cancel₀ (mul_pos hw hh).ne' hv).symm

theorem not_isClosedBox_createCube_three :
    ¬ (createCube (1 : ℚ) 2 3).IsClosedBox 1 2 3 :=
  (not_isClosedBox_createCube (by norm_num) (by norm_num) (by norm_num)).1

end CreateCube

theorem not_forall_isClosedBox_createCube :
    ¬ ∀ width height depth : ℚ, 0 < width → 0 < height → 0 < depth →
      (createCube width height depth).IsClosedBox width height depth := by
  intro h
  have hbox := (h 1 2 3 (by norm_num) (by norm_num) (by norm_num)).volume
  rw [signedVolume_createCube] at hbox
  norm_num at hbox

end SoftRenderer
