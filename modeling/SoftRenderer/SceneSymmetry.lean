import SoftRenderer.Culling
import SoftRenderer.Kit.Motion

/-!
# Views and culling under changes of the scene

Two cameras have the same view exactly when they stand at one point, look along one ray and have
their `up` in one half-plane behind that ray. If the camera and the scene are moved together by a
rigid motion, every point keeps its place in the view. The culling test only asks for less: any
matrix that does not mirror keeps its answers.
-/

section

open scoped Matrix

namespace SoftRenderer

open Kit

variable {K : Type} [Field K]

theorem xyz_vector4Apply_viewMatrix_smul (F : Frame K) (eye : Fin 3 → K) (p : Vector4 K) :
    (vector4Apply p (viewMatrix F eye)).xyz = F.coords (p.xyz - p.w • eye) := by
  rw [F.coords_eq]
  ext i
  fin_cases i <;>
    simp [viewMatrix, Vector4.xyz, dotProduct, Fin.sum_univ_three] <;> ring

theorem viewMatrix_inj {F G : Frame K} {eye1 eye2 : Fin 3 → K}
    (h : viewMatrix F eye1 = viewMatrix G eye2) : F = G ∧ eye1 = eye2 := by
  have hx : F.xaxis = G.xaxis := by
    ext i
    fin_cases i
    · exact congrArg Matrix.m11 h
    · exact congrArg Matrix.m21 h
    · exact congrArg Matrix.m31 h
  have hz : F.zaxis = G.zaxis := by
    ext i
    fin_cases i
    · exact congrArg Matrix.m13 h
    · exact congrArg Matrix.m23 h
    · exact congrArg Matrix.m33 h
  obtain rfl := Frame.eq_of_axes hx hz
  have horigin := congrArg (fun V => (vector4Apply ⟨0, 0, 0, 1⟩ V).xyz) h
  simp only [xyz_vector4Apply_viewMatrix_smul, Vector4.xyz_zero, zero_sub, one_smul] at horigin
  exact ⟨rfl, neg_injective (F.coords_injective horigin)⟩

variable [LinearOrder K] [IsStrictOrderedRing K]

/-- The frame looks along `dir`, and its first axis is at right angles to `up`, on the right. -/
structure CameraFrame (F : Frame K) (dir up : Fin 3 → K) : Prop where
  ahead : ∃ l : K, 0 < l ∧ dir = l • F.zaxis
  across : ∃ a : K, 0 < a ∧ up ⨯₃ dir = a • F.xaxis

namespace CameraFrame

variable {F G : Frame K} {dir up : Fin 3 → K}

theorem cross_ne_zero (h : CameraFrame F dir up) : up ⨯₃ dir ≠ 0 := by
  obtain ⟨a, ha, hacross⟩ := h.across
  intro hzero
  have hxaxis : F.xaxis = 0 := by
    rw [hzero] at hacross
    exact (smul_eq_zero.mp hacross.symm).resolve_left ha.ne'
  have hunit := F.xaxis_unit
  rw [hxaxis, dotProduct_zero] at hunit
  exact zero_ne_one hunit

theorem unique (hF : CameraFrame F dir up) (hG : CameraFrame G dir up) : F = G := by
  obtain ⟨l1, hl1, hahead1⟩ := hF.ahead
  obtain ⟨l2, hl2, hahead2⟩ := hG.ahead
  obtain ⟨a1, ha1, hacross1⟩ := hF.across
  obtain ⟨a2, ha2, hacross2⟩ := hG.across
  exact Frame.eq_of_axes
    (Frame.eq_of_ray F.xaxis_unit G.xaxis_unit ha1 ha2 (hacross1.symm.trans hacross2))
    (Frame.eq_of_ray F.zaxis_unit G.zaxis_unit hl1 hl2 (hahead1.symm.trans hahead2))

omit [IsStrictOrderedRing K] in
theorem turn (h : CameraFrame F dir up) (M : Motion K) :
    CameraFrame (F.turn M) (M.turn dir) (M.turn up) := by
  obtain ⟨l, hl, hahead⟩ := h.ahead
  obtain ⟨a, ha, hacross⟩ := h.across
  refine ⟨⟨l, hl, ?_⟩, ⟨a, ha, ?_⟩⟩
  · rw [hahead, M.turn_smul]
    rfl
  · rw [M.turn_cross, hacross, M.turn_smul]
    rfl

end CameraFrame

/-- The second camera looks along the ray of the first one and holds its `up` in the same
half-plane. -/
structure SameAim (dir1 up1 dir2 up2 : Fin 3 → K) : Prop where
  ray : ∃ c : K, 0 < c ∧ dir2 = c • dir1
  halfPlane : ∃ a b : K, 0 < a ∧ up2 = a • up1 + b • dir1

theorem SameAim.cameraFrame {dir1 up1 dir2 up2 : Fin 3 → K} (h : SameAim dir1 up1 dir2 up2)
    {F : Frame K} (hF : CameraFrame F dir1 up1) : CameraFrame F dir2 up2 := by
  obtain ⟨c, hc, rfl⟩ := h.ray
  obtain ⟨a, b, ha, rfl⟩ := h.halfPlane
  obtain ⟨l, hl, hahead⟩ := hF.ahead
  obtain ⟨s, hs, hacross⟩ := hF.across
  refine ⟨⟨c * l, mul_pos hc hl, ?_⟩, ⟨c * (a * s), by positivity, ?_⟩⟩
  · rw [hahead, smul_smul]
  · rw [map_smul, map_add, map_smul, map_smul, LinearMap.add_apply, LinearMap.smul_apply,
      LinearMap.smul_apply, cross_self, hacross, smul_zero, add_zero, smul_smul, smul_smul,
      mul_assoc]

theorem CameraFrame.sameAim {F : Frame K} {dir1 up1 dir2 up2 : Fin 3 → K}
    (h1 : CameraFrame F dir1 up1) (h2 : CameraFrame F dir2 up2) : SameAim dir1 up1 dir2 up2 := by
  obtain ⟨l1, hl1, rfl⟩ := h1.ahead
  obtain ⟨l2, hl2, rfl⟩ := h2.ahead
  obtain ⟨s1, hs1, hacross1⟩ := h1.across
  obtain ⟨s2, hs2, hacross2⟩ := h2.across
  rw [map_smul] at hacross1 hacross2
  have hcross1 : up1 ⨯₃ F.zaxis = (s1 / l1) • F.xaxis := by
    rw [div_eq_inv_mul, ← smul_smul, ← hacross1, inv_smul_smul₀ hl1.ne']
  have hcross2 : up2 ⨯₃ F.zaxis = (s2 / l2) • F.xaxis := by
    rw [div_eq_inv_mul, ← smul_smul, ← hacross2, inv_smul_smul₀ hl2.ne']
  -- what `up2` has beside the right multiple of `up1` is along the axis
  set a : K := s2 / l2 / (s1 / l1) with ha
  have hscale : a * (s1 / l1) = s2 / l2 := div_mul_cancel₀ _ (div_pos hs1 hl1).ne'
  have hrest : (up2 - a • up1) ⨯₃ F.zaxis = 0 := by
    rw [map_sub, map_smul, LinearMap.sub_apply, LinearMap.smul_apply, hcross1, hcross2, smul_smul,
      hscale, sub_self]
  refine ⟨⟨l2 / l1, div_pos hl2 hl1, ?_⟩, ⟨a, (F.zaxis ⬝ᵥ (up2 - a • up1)) / l1, ?_, ?_⟩⟩
  · rw [smul_smul, div_mul_cancel₀ _ hl1.ne']
  · exact div_pos (div_pos hs2 hl2) (div_pos hs1 hl1)
  · rw [smul_smul, div_mul_cancel₀ _ hl1.ne', ← F.eq_smul_of_cross_eq_zero hrest,
      add_sub_cancel]

variable {math : LuaMath K} (hm : math.ExactSqrt)

include hm

theorem matrixLookAtLh_cameraFrame {eyePos lookAt up : Vector4 K}
    (hup : (up.cross (vector4Sub lookAt eyePos)).xyz ≠ 0) :
    ∃ F : Frame K, CameraFrame F (vector4Sub lookAt eyePos).xyz up.xyz ∧
      matrixLookAtLh math eyePos lookAt up = .ok (viewMatrix F eyePos.xyz) := by
  obtain ⟨F, hV, hlen, hahead⟩ := matrixLookAtLh_eq_viewMatrix hm hup
  refine ⟨F, ⟨⟨_, hlen, hahead⟩, ?_⟩, hV⟩
  have hne : (vector4Sub lookAt eyePos).xyz ≠ 0 := by
    intro h
    rw [Vector4.xyz_cross, h, map_zero] at hup
    exact hup rfl
  obtain ⟨zaxis, hz, hzxyz, -⟩ := Vector4.normalize_spec hm hne
  have hcross : (up.cross (vector4Sub lookAt eyePos)).xyz =
      (vector4Sub lookAt eyePos).length math • (up.cross zaxis).xyz := by
    rw [Vector4.xyz_cross, Vector4.xyz_cross, hzxyz, map_smul, smul_smul,
      mul_one_div_cancel hlen.ne', one_smul]
  have hxne : (up.cross zaxis).xyz ≠ 0 := by
    intro h
    rw [hcross, h, smul_zero] at hup
    exact hup rfl
  obtain ⟨xaxis, hx, hxxyz, -⟩ := Vector4.normalize_spec hm hxne
  have hxlen := Vector4.length_pos hm hxne
  -- the first column of the matrix that is returned
  have hfirst : F.xaxis = xaxis.xyz := by
    simp only [matrixLookAtLh, hz, hx] at hV
    have hmatrix := Except.ok.inj hV
    ext i
    fin_cases i
    · exact (congrArg Matrix.m11 hmatrix).symm
    · exact (congrArg Matrix.m21 hmatrix).symm
    · exact (congrArg Matrix.m31 hmatrix).symm
  refine ⟨_, mul_pos hlen hxlen, ?_⟩
  rw [← Vector4.xyz_cross, hcross, hfirst, hxxyz, smul_smul, mul_assoc,
    mul_one_div_cancel hxlen.ne', mul_one]

theorem CameraFrame.matrixLookAtLh_eq {F : Frame K} {eyePos lookAt up : Vector4 K}
    (h : CameraFrame F (vector4Sub lookAt eyePos).xyz up.xyz) :
    matrixLookAtLh math eyePos lookAt up = .ok (viewMatrix F eyePos.xyz) := by
  have hup : (up.cross (vector4Sub lookAt eyePos)).xyz ≠ 0 := by
    rw [Vector4.xyz_cross]
    exact h.cross_ne_zero
  obtain ⟨G, hG, hV⟩ := matrixLookAtLh_cameraFrame hm hup
  rw [hV, h.unique hG]

/-- Two cameras get the same answer exactly when both fail, or they stand at one point, look along
one ray and have their `up` in one half-plane. -/
theorem matrixLookAtLh_eq_iff (eye1 lookAt1 up1 eye2 lookAt2 up2 : Vector4 K) :
    matrixLookAtLh math eye1 lookAt1 up1 = matrixLookAtLh math eye2 lookAt2 up2 ↔
      ((up1.cross (vector4Sub lookAt1 eye1)).xyz = 0 ∧
          (up2.cross (vector4Sub lookAt2 eye2)).xyz = 0) ∨
        (up1.cross (vector4Sub lookAt1 eye1)).xyz ≠ 0 ∧ eye1.xyz = eye2.xyz ∧
          SameAim (vector4Sub lookAt1 eye1).xyz up1.xyz (vector4Sub lookAt2 eye2).xyz up2.xyz := by
  by_cases h1 : (up1.cross (vector4Sub lookAt1 eye1)).xyz = 0
  · rw [matrixLookAtLh_of_cross_eq_zero hm h1]
    by_cases h2 : (up2.cross (vector4Sub lookAt2 eye2)).xyz = 0
    · rw [matrixLookAtLh_of_cross_eq_zero hm h2]
      exact iff_of_true rfl (.inl ⟨h1, h2⟩)
    · obtain ⟨G, -, hG⟩ := matrixLookAtLh_cameraFrame hm h2
      rw [hG]
      simp [h1, h2]
  · obtain ⟨F, hF, hV1⟩ := matrixLookAtLh_cameraFrame hm h1
    rw [hV1]
    simp only [h1, false_and, false_or, ne_eq, not_false_eq_true, true_and]
    constructor
    · intro heq
      have h2 : (up2.cross (vector4Sub lookAt2 eye2)).xyz ≠ 0 := by
        intro h2
        rw [matrixLookAtLh_of_cross_eq_zero hm h2] at heq
        cases heq
      obtain ⟨G, hG, hV2⟩ := matrixLookAtLh_cameraFrame hm h2
      rw [hV2] at heq
      obtain ⟨rfl, heye⟩ := viewMatrix_inj (Except.ok.inj heq)
      exact ⟨heye, hF.sameAim hG⟩
    · rintro ⟨heye, haim⟩
      rw [(haim.cameraFrame hF).matrixLookAtLh_eq hm, heye]

omit hm in
theorem matrixLookAtLh_eq_iff_tilted :
    matrixLookAtLh LuaMath.real ⟨0, 0, 0, 1⟩ ⟨0, 0, 2, 1⟩ ⟨0, 1, 0, 0⟩ =
      matrixLookAtLh LuaMath.real ⟨0, 0, 0, 1⟩ ⟨0, 0, 1, 1⟩ ⟨0, 3, 4, 0⟩ := by
  refine (matrixLookAtLh_eq_iff LuaMath.exactSqrt_real _ _ _ _ _ _).mpr (.inr ⟨?_, rfl, ?_, ?_⟩)
  · intro h
    have hx := congrFun h 0
    norm_num [Vector4.xyz] at hx
  · refine ⟨1 / 2, by norm_num, ?_⟩
    ext i
    fin_cases i <;> norm_num [Vector4.xyz]
  · refine ⟨3, 2, by norm_num, ?_⟩
    ext i
    fin_cases i <;> norm_num [Vector4.xyz]

/-- A point is carried along, a direction is turned only. -/
def Vector4.moved (M : Motion K) (p : Vector4 K) : Vector4 K :=
  let q := M.turn p.xyz + p.w • M.shift
  ⟨Matrix.vecHead q, Matrix.vecHead (Matrix.vecTail q),
    Matrix.vecHead (Matrix.vecTail (Matrix.vecTail q)), p.w⟩

omit [LinearOrder K] [IsStrictOrderedRing K] hm in
theorem Vector4.xyz_moved (M : Motion K) (p : Vector4 K) :
    (p.moved M).xyz = M.turn p.xyz + p.w • M.shift := by
  ext i
  fin_cases i <;> rfl

omit [LinearOrder K] [IsStrictOrderedRing K] hm in
theorem xyz_vector4Sub_moved (M : Motion K) {p q : Vector4 K} (h : p.w = q.w) :
    (vector4Sub (p.moved M) (q.moved M)).xyz = M.turn (vector4Sub p q).xyz := by
  rw [xyz_vector4Sub, xyz_vector4Sub, Vector4.xyz_moved, Vector4.xyz_moved, h,
    add_sub_add_right_eq_sub, M.turn_sub]

/-- If the camera moves with the scene, every point and every direction keeps its place in the view;
a camera without a view stays one. -/
theorem matrixLookAtLh_moved (M : Motion K) {eyePos lookAt up : Vector4 K} (heye : eyePos.w = 1)
    (hlookAt : lookAt.w = 1) (hup : up.w = 0) :
    (matrixLookAtLh math (eyePos.moved M) (lookAt.moved M) (up.moved M)).map
        (fun V p => vector4Apply (p.moved M) V) =
      (matrixLookAtLh math eyePos lookAt up).map fun V p => vector4Apply p V := by
  have hdir := xyz_vector4Sub_moved M (hlookAt.trans heye.symm)
  have hupTurned : (up.moved M).xyz = M.turn up.xyz := by
    rw [Vector4.xyz_moved, hup, zero_smul, add_zero]
  by_cases hcross : (up.cross (vector4Sub lookAt eyePos)).xyz = 0
  · have hmoved :
        ((up.moved M).cross (vector4Sub (lookAt.moved M) (eyePos.moved M))).xyz = 0 := by
      rw [Vector4.xyz_cross] at hcross ⊢
      rw [hupTurned, hdir, M.turn_cross, hcross]
      exact M.turn_zero
    rw [matrixLookAtLh_of_cross_eq_zero hm hcross, matrixLookAtLh_of_cross_eq_zero hm hmoved]
    rfl
  · obtain ⟨F, hF, hV⟩ := matrixLookAtLh_cameraFrame hm hcross
    have hmoved := hF.turn M
    rw [← hdir, ← hupTurned] at hmoved
    rw [hV, hmoved.matrixLookAtLh_eq hm]
    refine congrArg Except.ok (funext fun p => Vector4.ext_xyz ?_ ?_)
    · have hcarried : M.turn p.xyz + p.w • M.shift - p.w • (M.turn eyePos.xyz + M.shift) =
          M.turn (p.xyz - p.w • eyePos.xyz) := by
        rw [M.turn_sub, M.turn_smul, smul_add]
        abel
      rw [xyz_vector4Apply_viewMatrix_smul, xyz_vector4Apply_viewMatrix_smul, Vector4.xyz_moved,
        Vector4.xyz_moved, heye, one_smul]
      exact (congrArg (F.turn M).coords hcarried).trans (F.coords_turn M _)
    · rw [vector4Apply_viewMatrix_w, vector4Apply_viewMatrix_w]
      rfl

def quarterTurn : Motion ℝ where
  linear := !![0, -1, 0; 1, 0, 0; 0, 0, 1]
  shift := ![0, 0, 1]
  transpose_mul := by
    ext i j
    fin_cases i <;> fin_cases j <;> simp [Matrix.mul_apply, Fin.sum_univ_three]
  det_linear := by simp [Matrix.det_fin_three]

omit hm in
theorem matrixLookAtLh_moved_quarterTurn :
    (matrixLookAtLh LuaMath.real ((⟨0, 0, 0, 1⟩ : Vector4 ℝ).moved quarterTurn)
        ((⟨0, 0, 2, 1⟩ : Vector4 ℝ).moved quarterTurn)
        ((⟨0, 1, 0, 0⟩ : Vector4 ℝ).moved quarterTurn)).map
          (fun V p => vector4Apply (p.moved quarterTurn) V) =
      (matrixLookAtLh LuaMath.real ⟨0, 0, 0, 1⟩ ⟨0, 0, 2, 1⟩ ⟨0, 1, 0, 0⟩).map
        fun V p => vector4Apply p V :=
  matrixLookAtLh_moved LuaMath.exactSqrt_real quarterTurn rfl rfl rfl

section Culling

omit [LinearOrder K] [IsStrictOrderedRing K] hm

def Matrix.linear (A : Matrix K) : LinearPart K :=
  !![A.m11, A.m21, A.m31; A.m12, A.m22, A.m32; A.m13, A.m23, A.m33]

theorem Matrix.det_linear (A : Matrix K) : A.linear.det = A.det := by
  rw [Matrix.linear, Matrix.det_fin_three]
  simp [Matrix.det]
  ring

theorem xyz_vector4Sub_vector4Apply (A : Matrix K) {p q : Vector4 K} (h : p.w = q.w) :
    (vector4Sub (vector4Apply p A) (vector4Apply q A)).xyz =
      A.linear *ᵥ (vector4Sub p q).xyz := by
  ext i
  fin_cases i <;>
    simp [Vector4.xyz, Matrix.linear, h] <;> ring

/-- All that the culling test looks at is multiplied by the determinant. -/
theorem Cube.winding_vector4Apply (A : Matrix K) {q1 q2 q3 camera : Vector4 K}
    (h1 : q1.w = camera.w) (h2 : q2.w = camera.w) (h3 : q3.w = camera.w) :
    Cube.winding (vector4Apply q1 A) (vector4Apply q2 A) (vector4Apply q3 A)
      (vector4Apply camera A) = A.det * Cube.winding q1 q2 q3 camera := by
  have htriple (p1 p2 p3 c : Vector4 K) : Cube.winding p1 p2 p3 c =
      (vector4Sub p1 c).xyz ⬝ᵥ (vector4Sub p2 p1).xyz ⨯₃ (vector4Sub p3 p2).xyz := by
    rw [Cube.winding, Vector4.dot_eq_dotProduct, Vector4.xyz_cross, dotProduct_comm]
  rw [htriple, htriple, xyz_vector4Sub_vector4Apply A h1,
    xyz_vector4Sub_vector4Apply A (h2.trans h1.symm),
    xyz_vector4Sub_vector4Apply A (h3.trans h2.symm), mulVec_triple, A.det_linear]

theorem Cube.winding_reverse (q1 q2 q3 camera : Vector4 K) :
    Cube.winding q1 q3 q2 camera = -Cube.winding q1 q2 q3 camera := by
  rw [Cube.winding_eq, Cube.winding_eq, Plane.normal_reverse, neg_dotProduct]

def VertexIn.transformed (A : Matrix K) (v : VertexIn K) : VertexIn K :=
  { v with pos := vector4Apply v.pos A }

end Culling

omit hm in
/-- A matrix with a positive determinant keeps every answer of the culling test, one that mirrors
gives the answer for the reversed triangle, and one that flattens space culls everything. -/
theorem backFaceCulling_transformed {S : Type} {ctx : DeviceContext K S}
    (hmode : ctx.renderMode ≠ renderStateWireframe) (A : Matrix K) {p1 p2 p3 : VertexIn K}
    (h1 : p1.pos.w = ctx.cameraPos.w) (h2 : p2.pos.w = ctx.cameraPos.w)
    (h3 : p3.pos.w = ctx.cameraPos.w) :
    (ctx.setCameraPos (vector4Apply ctx.cameraPos A)).backFaceCulling (p1.transformed A)
        (p2.transformed A) (p3.transformed A) =
      if 0 < A.det then ctx.backFaceCulling p1 p2 p3
      else if A.det < 0 then ctx.backFaceCulling p1 p3 p2
      else false := by
  have hmode' : (ctx.setCameraPos (vector4Apply ctx.cameraPos A)).renderMode ≠
      renderStateWireframe := hmode
  have hscaled : Cube.winding (p1.transformed A).pos (p2.transformed A).pos
      (p3.transformed A).pos (ctx.setCameraPos (vector4Apply ctx.cameraPos A)).cameraPos =
        A.det * Cube.winding p1.pos p2.pos p3.pos ctx.cameraPos :=
    Cube.winding_vector4Apply A h1 h2 h3
  rw [Cube.backFaceCulling_eq hmode', Cube.backFaceCulling_eq hmode, Cube.backFaceCulling_eq hmode,
    hscaled, Cube.winding_reverse p1.pos p2.pos p3.pos]
  rcases lt_trichotomy A.det 0 with hneg | hzero | hpos
  · rw [if_neg hneg.not_gt, if_pos hneg, decide_eq_decide, ← smul_eq_mul,
      smul_neg_iff_of_neg_left hneg, neg_lt_zero]
  · simp [hzero]
  · rw [if_pos hpos, decide_eq_decide, ← smul_eq_mul, smul_neg_iff_of_pos_left hpos]

omit hm in
theorem backFaceCulling_transformed_mirror :
    ((((DeviceContext.new (.new 800 600) : DeviceContext ℚ ℕ).setRenderMode
        renderStateColor).setCameraPos ⟨0, 5, 0, 1⟩).setCameraPos
          (vector4Apply ⟨0, 5, 0, 1⟩ (.new (-1) 0 0 0 0 1 0 0 0 0 1 0 0 0 0 1))).backFaceCulling
        ((⟨⟨0, 0, 0, 1⟩, .nil, ⟨0, 0⟩, .nil⟩ : VertexIn ℚ).transformed
          (.new (-1) 0 0 0 0 1 0 0 0 0 1 0 0 0 0 1))
        ((⟨⟨0, 0, 1, 1⟩, .nil, ⟨0, 0⟩, .nil⟩ : VertexIn ℚ).transformed
          (.new (-1) 0 0 0 0 1 0 0 0 0 1 0 0 0 0 1))
        ((⟨⟨1, 0, 0, 1⟩, .nil, ⟨0, 0⟩, .nil⟩ : VertexIn ℚ).transformed
          (.new (-1) 0 0 0 0 1 0 0 0 0 1 0 0 0 0 1)) =
      (((DeviceContext.new (.new 800 600) : DeviceContext ℚ ℕ).setRenderMode
        renderStateColor).setCameraPos ⟨0, 5, 0, 1⟩).backFaceCulling
          ⟨⟨0, 0, 0, 1⟩, .nil, ⟨0, 0⟩, .nil⟩ ⟨⟨1, 0, 0, 1⟩, .nil, ⟨0, 0⟩, .nil⟩
          ⟨⟨0, 0, 1, 1⟩, .nil, ⟨0, 0⟩, .nil⟩ :=
  (backFaceCulling_transformed (by decide) _ rfl rfl rfl).trans (by norm_num [Matrix.det])

end SoftRenderer
end
