import SoftRenderer.Matrix

/-!
# The perspective matrix

The four components of a projected point, and from them the frustum that the canonical volume
stands for and the order of depths.
-/

namespace SoftRenderer

variable {K : Type} [Field K]

/-- `math.cos(fov * 0.5) / math.sin(fov * 0.5)`, the height scale of a perspective matrix. -/
def LuaMath.cotHalf (math : LuaMath K) (fov : K) : K := math.cos (fov * 0.5) / math.sin (fov * 0.5)

def LuaMath.project (math : LuaMath K) (fov aspect near far x y z : K) : Vector4 K :=
  vector4Apply ⟨x, y, z, 1⟩ (matrixPerspectiveFovLh math fov aspect near far)

theorem vector4Apply_matrixPerspectiveFovLh_w (math : LuaMath K) (fov aspect near far : K)
    (p : Vector4 K) :
    (vector4Apply p (matrixPerspectiveFovLh math fov aspect near far)).w = p.z := by
  simp [matrixPerspectiveFovLh]

section Components

variable (math : LuaMath K) (fov aspect near far x y z : K)

theorem project_x :
    (math.project fov aspect near far x y z).x = x * (math.cotHalf fov / aspect) := by
  simp [LuaMath.project, matrixPerspectiveFovLh, LuaMath.cotHalf]

theorem project_y : (math.project fov aspect near far x y z).y = y * math.cotHalf fov := by
  simp [LuaMath.project, matrixPerspectiveFovLh, LuaMath.cotHalf]

theorem project_w : (math.project fov aspect near far x y z).w = z :=
  vector4Apply_matrixPerspectiveFovLh_w math fov aspect near far ⟨x, y, z, 1⟩

variable {near far} in
theorem project_z (h : near ≠ far) :
    (math.project fov aspect near far x y z).z = far * (z - near) / (far - near) := by
  have h1 : far - near ≠ 0 := sub_ne_zero.mpr h.symm
  have h2 : near - far ≠ 0 := sub_ne_zero.mpr h
  simp only [LuaMath.project, matrixPerspectiveFovLh, vector4Apply_z, Matrix.new_m13,
    Matrix.new_m23, Matrix.new_m33, Matrix.new_m43]
  rw [← neg_sub far near, div_neg]
  ring

end Components

variable [LinearOrder K]

def InCanonicalVolume (q : Vector4 K) : Prop :=
  0 < q.w ∧ (-q.w ≤ q.x ∧ q.x ≤ q.w) ∧ (-q.w ≤ q.y ∧ q.y ≤ q.w) ∧ 0 ≤ q.z ∧ q.z ≤ q.w

def InFrustum (h aspect near far : K) (p : Vector4 K) : Prop :=
  (near ≤ p.z ∧ p.z ≤ far) ∧ |p.x| * h / aspect ≤ p.z ∧ |p.y| * h ≤ p.z

variable [IsStrictOrderedRing K]

theorem neg_le_and_le_iff_abs_le {a s w : K} (hs : 0 ≤ s) :
    (-w ≤ a * s ∧ a * s ≤ w) ↔ |a| * s ≤ w := by
  rw [← abs_le, abs_mul, abs_of_nonneg hs]

variable {math : LuaMath K} {fov aspect near far : K}

theorem project_inCanonicalVolume_iff (hnear : 0 < near) (hfar : near < far) (haspect : 0 < aspect)
    (hh : 0 < math.cotHalf fov) (x y z : K) :
    InCanonicalVolume (math.project fov aspect near far x y z) ↔
      InFrustum (math.cotHalf fov) aspect near far ⟨x, y, z, 1⟩ := by
  have hd : 0 < far - near := sub_pos.mpr hfar
  have hfar0 : 0 < far := hnear.trans hfar
  have hlow : 0 ≤ far * (z - near) / (far - near) ↔ near ≤ z := by
    rw [le_div_iff₀ hd, zero_mul, mul_nonneg_iff_of_pos_left hfar0, sub_nonneg]
  have hhigh : far * (z - near) / (far - near) ≤ z ↔ z ≤ far := by
    rw [div_le_iff₀ hd, ← sub_nonneg, show z * (far - near) - far * (z - near) = near * (far - z) by
      ring, mul_nonneg_iff_of_pos_left hnear, sub_nonneg]
  unfold InCanonicalVolume InFrustum
  rw [project_x, project_y, project_z math fov aspect x y z hfar.ne, project_w,
    neg_le_and_le_iff_abs_le (div_pos hh haspect).le, neg_le_and_le_iff_abs_le hh.le, hlow, hhigh,
    mul_div_assoc]
  constructor
  · rintro ⟨-, hx, hy, hz⟩
    exact ⟨hz, hx, hy⟩
  · rintro ⟨hz, hx, hy⟩
    exact ⟨hnear.trans_le hz.1, hx, hy, hz⟩

theorem project_depth (hfar : near < far) {x y z : K} (hz : z ≠ 0) :
    (math.project fov aspect near far x y z).z / (math.project fov aspect near far x y z).w =
      far / (far - near) * (1 - near / z) := by
  rw [project_z math fov aspect x y z hfar.ne, project_w]
  field_simp

theorem perspective_depth_lt (hnear : 0 < near) (hfar : near < far) {z1 z2 : K}
    (h1 : 0 < z1) (h2 : z1 < z2) :
    far / (far - near) * (1 - near / z1) < far / (far - near) * (1 - near / z2) := by
  have hscale : 0 < far / (far - near) := div_pos (hnear.trans hfar) (sub_pos.mpr hfar)
  apply mul_lt_mul_of_pos_left _ hscale
  exact sub_lt_sub_left (div_lt_div_of_pos_left hnear h1 h2) 1

/-- The perspective matrix sends exactly the points of the frustum into the canonical volume. The
depth grows from zero on the near plane to one on the far plane, and `oneDivZ` falls. -/
theorem matrixPerspectiveFovLh_frustum (hnear : 0 < near) (hfar : near < far)
    (haspect : 0 < aspect) (hh : 0 < math.cotHalf fov) :
    (∀ x y z, (math.project fov aspect near far x y z).w = z ∧
      (InFrustum (math.cotHalf fov) aspect near far ⟨x, y, z, 1⟩ ↔
        InCanonicalVolume (math.project fov aspect near far x y z))) ∧
    (∀ x y,
      (math.project fov aspect near far x y near).z /
        (math.project fov aspect near far x y near).w = 0 ∧
      (math.project fov aspect near far x y far).z /
        (math.project fov aspect near far x y far).w = 1) ∧
    (∀ x1 y1 z1 x2 y2 z2, 0 < z1 → z1 < z2 →
      (math.project fov aspect near far x1 y1 z1).z /
          (math.project fov aspect near far x1 y1 z1).w <
        (math.project fov aspect near far x2 y2 z2).z /
          (math.project fov aspect near far x2 y2 z2).w ∧
      1 / (math.project fov aspect near far x2 y2 z2).w <
        1 / (math.project fov aspect near far x1 y1 z1).w) := by
  refine ⟨?_, ?_, ?_⟩
  · intro x y z
    exact ⟨project_w math fov aspect near far x y z,
      (project_inCanonicalVolume_iff hnear hfar haspect hh x y z).symm⟩
  · intro x y
    have hfar0 : far ≠ 0 := (hnear.trans hfar).ne'
    have hd : far - near ≠ 0 := (sub_pos.mpr hfar).ne'
    constructor
    · rw [project_depth hfar hnear.ne', div_self hnear.ne', sub_self, mul_zero]
    · rw [project_depth hfar hfar0]
      field_simp
  · intro x1 y1 z1 x2 y2 z2 h1 h2
    have hz2 : 0 < z2 := h1.trans h2
    constructor
    · rw [project_depth hfar h1.ne', project_depth hfar hz2.ne']
      exact perspective_depth_lt hnear hfar h1 h2
    · rw [project_w, project_w]
      exact one_div_lt_one_div_of_lt h1 h2

theorem matrixPerspectiveFovLh_frustum_one_hundred :
    (LuaMath.real.project 1 1 1 100 0 0 100).z / (LuaMath.real.project 1 1 1 100 0 0 100).w =
      1 := by
  have hcos : 0 < Real.cos (1 * 0.5) := Real.cos_pos_of_le_one (by norm_num [abs_of_pos])
  have hsin : 0 < Real.sin (1 * 0.5) := Real.sin_pos_of_pos_of_le_one (by norm_num) (by norm_num)
  have hcot : 0 < LuaMath.real.cotHalf 1 := div_pos hcos hsin
  have hfrustum := matrixPerspectiveFovLh_frustum (one_pos : (0 : ℝ) < 1)
    (by norm_num : (1 : ℝ) < 100) one_pos hcot
  exact (hfrustum.2.1 0 0).2

end SoftRenderer
