import SoftRenderer.Matrix

/-!
# Composing and inverting transforms

`matrixMul` reads `m33` of its second argument where the second column of a product needs `m32`,
so the image of a vector under a product is off in its second component, by an amount that
`vector4Apply_matrixMul` gives. `inverse` is a two-sided inverse of an affine matrix, or reports
that there is none.
-/

namespace SoftRenderer

variable {K : Type} [Field K]

/-- The product moves the second component by the third component of the first image times the
difference of the two entries that were exchanged. -/
theorem vector4Apply_matrixMul (p : Vector4 K) (A B : Matrix K) :
    vector4Apply p (matrixMul A B) =
      { vector4Apply (vector4Apply p A) B with
        y := (vector4Apply (vector4Apply p A) B).y + (vector4Apply p A).z * (B.m33 - B.m32) } := by
  ext <;> simp only [vector4Apply, matrixMul, Matrix.new] <;> ring

theorem vector4Apply_identity (A : Matrix K) (p : Vector4 K) : vector4Apply p A.identity = p := by
  ext <;> simp

theorem vector4Apply_newIdentity (p : Vector4 K) : vector4Apply p .newIdentity = p :=
  vector4Apply_identity _ p

theorem vector4Apply_add_y (p : Vector4 K) (e : K) (M : Matrix K) :
    vector4Apply { p with y := p.y + e } M =
      ⟨(vector4Apply p M).x + e * M.m21, (vector4Apply p M).y + e * M.m22,
        (vector4Apply p M).z + e * M.m23, (vector4Apply p M).w + e * M.m24⟩ := by
  ext <;> simp only [vector4Apply] <;> ring

theorem matrixMul_composes_at_iff (A B : Matrix K) (p : Vector4 K) :
    vector4Apply p (matrixMul A B) = vector4Apply (vector4Apply p A) B ↔
      (vector4Apply p A).z = 0 ∨ B.m32 = B.m33 := by
  rw [vector4Apply_matrixMul, Vector4.ext_iff]
  simp only [add_eq_left, mul_eq_zero, sub_eq_zero, true_and, and_true, eq_comm (a := B.m33)]

theorem vector4Apply_z_eq_zero_iff (A : Matrix K) :
    (∀ p, (vector4Apply p A).z = 0) ↔ A.m13 = 0 ∧ A.m23 = 0 ∧ A.m33 = 0 ∧ A.m43 = 0 := by
  constructor
  · intro h
    have hx := h ⟨1, 0, 0, 0⟩
    have hy := h ⟨0, 1, 0, 0⟩
    have hz := h ⟨0, 0, 1, 0⟩
    have hw := h ⟨0, 0, 0, 1⟩
    simp only [vector4Apply_z, one_mul, zero_mul, add_zero, zero_add] at hx hy hz hw
    exact ⟨hx, hy, hz, hw⟩
  · rintro ⟨h1, h2, h3, h4⟩ p
    simp only [vector4Apply_z, h1, h2, h3, h4, mul_zero, add_zero]

theorem matrixMul_composes_everywhere_iff (A B : Matrix K) :
    (∀ p, vector4Apply p (matrixMul A B) = vector4Apply (vector4Apply p A) B) ↔
      (A.m13 = 0 ∧ A.m23 = 0 ∧ A.m33 = 0 ∧ A.m43 = 0) ∨ B.m32 = B.m33 := by
  simp only [matrixMul_composes_at_iff, forall_or_right, vector4Apply_z_eq_zero_iff]

theorem matrixMul_chain_iff (W V P : Matrix K) (p : Vector4 K) :
    vector4Apply p (matrixMul (matrixMul W V) P) =
        vector4Apply (vector4Apply (vector4Apply p W) V) P ↔
      (vector4Apply p W).z * (V.m33 - V.m32) * P.m21 = 0 ∧
      (vector4Apply p W).z * (V.m33 - V.m32) * P.m22 +
        (vector4Apply (vector4Apply p W) V).z * (P.m33 - P.m32) = 0 ∧
      (vector4Apply p W).z * (V.m33 - V.m32) * P.m23 = 0 ∧
      (vector4Apply p W).z * (V.m33 - V.m32) * P.m24 = 0 := by
  rw [vector4Apply_matrixMul, vector4Apply_matrixMul, vector4Apply_add_y, Vector4.ext_iff]
  simp only [add_eq_left, add_assoc]

/-- Exactly when the product of two matrices composes their transforms: at one vector, at every
vector, and for the product of three that `Cube.tick` forms. -/
theorem matrixMul_composes_iff :
    (∀ (A B : Matrix K) (p : Vector4 K),
      vector4Apply p (matrixMul A B) = vector4Apply (vector4Apply p A) B ↔
        (vector4Apply p A).z = 0 ∨ B.m32 = B.m33) ∧
    (∀ A B : Matrix K,
      (∀ p, vector4Apply p (matrixMul A B) = vector4Apply (vector4Apply p A) B) ↔
        (A.m13 = 0 ∧ A.m23 = 0 ∧ A.m33 = 0 ∧ A.m43 = 0) ∨ B.m32 = B.m33) ∧
    (∀ (W V P : Matrix K) (p : Vector4 K),
      vector4Apply p (matrixMul (matrixMul W V) P) =
          vector4Apply (vector4Apply (vector4Apply p W) V) P ↔
        (vector4Apply p W).z * (V.m33 - V.m32) * P.m21 = 0 ∧
        (vector4Apply p W).z * (V.m33 - V.m32) * P.m22 +
          (vector4Apply (vector4Apply p W) V).z * (P.m33 - P.m32) = 0 ∧
        (vector4Apply p W).z * (V.m33 - V.m32) * P.m23 = 0 ∧
        (vector4Apply p W).z * (V.m33 - V.m32) * P.m24 = 0) :=
  ⟨matrixMul_composes_at_iff, matrixMul_composes_everywhere_iff, matrixMul_chain_iff⟩

theorem matrixMul_not_composes :
    ¬ ∀ (A B : Matrix ℚ) (p : Vector4 ℚ),
      vector4Apply p (matrixMul A B) = vector4Apply (vector4Apply p A) B := by
  intro h
  have hp := h .newIdentity (.new 1 0 0 0 0 1 0 0 0 1 0 0 0 0 0 1) ⟨0, 0, 1, 1⟩
  have hy := congrArg Vector4.y hp
  simp at hy

namespace Matrix

/-- The fourth column is that of the identity. -/
def IsAffine (A : Matrix K) : Prop := A.m14 = 0 ∧ A.m24 = 0 ∧ A.m34 = 0 ∧ A.m44 = 1

theorem isAffine_identity (A : Matrix K) : A.identity.IsAffine := ⟨rfl, rfl, rfl, rfl⟩

theorem det_identity_ne_zero (A : Matrix K) : A.identity.det ≠ 0 := by
  simp [det]

theorem isAffine_newIdentity : (newIdentity : Matrix K).IsAffine := isAffine_identity _

theorem det_newIdentity_ne_zero : (newIdentity : Matrix K).det ≠ 0 := det_identity_ne_zero _

theorem IsAffine.invert {A : Matrix K} (h : A.IsAffine) : A.invert.IsAffine := h

theorem inverse_of_det_ne_zero [LinearOrder K] {A : Matrix K} (h : A.det ≠ 0) :
    A.inverse = (true, A.invert) := by
  simp only [inverse, if_neg h]

theorem one_div_det_mul {A : Matrix K} (hd : A.det ≠ 0) :
    1 / A.det * (A.m11 * (A.m22 * A.m33 - A.m23 * A.m32) - A.m12 * (A.m21 * A.m33 - A.m23 * A.m31) +
      A.m13 * (A.m21 * A.m32 - A.m22 * A.m31)) = 1 := by
  have hdet : A.m11 * (A.m22 * A.m33 - A.m23 * A.m32) - A.m12 * (A.m21 * A.m33 - A.m23 * A.m31) +
      A.m13 * (A.m21 * A.m32 - A.m22 * A.m31) = A.det := by
    simp only [det, zero_add]
  rw [hdet, one_div_mul_cancel hd]

theorem vector4Apply_invert_left {A : Matrix K} (ha : A.IsAffine) (hd : A.det ≠ 0)
    (p : Vector4 K) : vector4Apply (vector4Apply p A.invert) A = p := by
  obtain ⟨h1, h2, h3, h4⟩ := ha
  have hr := one_div_det_mul hd
  ext <;> simp only [vector4Apply, Matrix.invert, h1, h2, h3, h4]
  · linear_combination (p.x - p.w * A.m41) * hr
  · linear_combination (p.y - p.w * A.m42) * hr
  · linear_combination (p.z - p.w * A.m43) * hr
  · ring

theorem vector4Apply_invert_right {A : Matrix K} (ha : A.IsAffine) (hd : A.det ≠ 0)
    (p : Vector4 K) : vector4Apply (vector4Apply p A) A.invert = p := by
  obtain ⟨h1, h2, h3, h4⟩ := ha
  have hr := one_div_det_mul hd
  ext <;> simp only [vector4Apply, Matrix.invert, h1, h2, h3, h4]
  · linear_combination p.x * hr
  · linear_combination p.y * hr
  · linear_combination p.z * hr
  · ring

theorem det_invert_mul {A : Matrix K} (hd : A.det ≠ 0) : A.invert.det * A.det = 1 := by
  have hcube : A.invert.det = (1 / A.det) ^ 3 * A.det ^ 2 := by
    simp only [invert, det]
    ring
  rw [hcube]
  field_simp

theorem det_invert_ne_zero {A : Matrix K} (hd : A.det ≠ 0) : A.invert.det ≠ 0 :=
  left_ne_zero_of_mul_eq_one (det_invert_mul hd)

/-- A matrix is known from its table and from what it does to vectors. -/
theorem ext_apply {A B : Matrix K} (hm : A.m = B.m) (h : ∀ p, vector4Apply p A = vector4Apply p B) :
    A = B := by
  have hx := h ⟨1, 0, 0, 0⟩
  have hy := h ⟨0, 1, 0, 0⟩
  have hz := h ⟨0, 0, 1, 0⟩
  have hw := h ⟨0, 0, 0, 1⟩
  cases A
  cases B
  simp_all [vector4Apply]

theorem IsAffine.invert_invert {A : Matrix K} (ha : A.IsAffine) (hd : A.det ≠ 0) :
    A.invert.invert = A := by
  refine ext_apply (A := A.invert.invert) (B := A) rfl ?_
  intro p
  have hp := vector4Apply_invert_right ha.invert (det_invert_ne_zero hd) (vector4Apply p A)
  rwa [vector4Apply_invert_right ha hd] at hp

/-- The matrix with the fourth column of the identity: `inverse` uses no more of it. -/
def affinePart (A : Matrix K) : Matrix K := { A with m14 := 0, m24 := 0, m34 := 0, m44 := 1 }

theorem isAffine_affinePart (A : Matrix K) : A.affinePart.IsAffine := ⟨rfl, rfl, rfl, rfl⟩

theorem affinePart_invert (A : Matrix K) : A.invert.affinePart = A.affinePart.invert := rfl

theorem eq_of_affinePart_eq {A B : Matrix K} (h : A.affinePart = B.affinePart)
    (h1 : A.m14 = B.m14) (h2 : A.m24 = B.m24) (h3 : A.m34 = B.m34) (h4 : A.m44 = B.m44) :
    A = B := by
  cases A
  cases B
  simp_all [affinePart]

/-- The fourth column is neither read nor written. -/
theorem invert_eq_iff_affinePart (A : Matrix K) :
    A.invert = A ↔ A.affinePart.invert = A.affinePart := by
  constructor
  · intro h
    rw [← affinePart_invert, h]
  · exact fun h => eq_of_affinePart_eq h rfl rfl rfl rfl

theorem invert_invert {A : Matrix K} (hd : A.det ≠ 0) : A.invert.invert = A := by
  have haffine : A.invert.invert.affinePart = A.affinePart := by
    rw [affinePart_invert, affinePart_invert]
    exact A.isAffine_affinePart.invert_invert hd
  exact eq_of_affinePart_eq haffine rfl rfl rfl rfl

theorem inverse_involutive [LinearOrder K] :
    Function.Involutive fun A : Matrix K => A.inverse.2 := by
  intro A
  by_cases hd : A.det = 0
  · simp only [inverse, if_pos hd]
  · simp only [inverse_of_det_ne_zero hd, inverse_of_det_ne_zero (det_invert_ne_zero hd),
      invert_invert hd]

end Matrix

theorem vector4Apply_invert_eq_iff {A : Matrix K} (ha : A.IsAffine) (hd : A.det ≠ 0)
    (p q : Vector4 K) : vector4Apply p A.invert = q ↔ p = vector4Apply q A := by
  constructor
  · rintro rfl
    exact (Matrix.vector4Apply_invert_left ha hd p).symm
  · rintro rfl
    exact Matrix.vector4Apply_invert_right ha hd q

/-- An affine matrix is its own inverse when applying it twice changes nothing. -/
theorem Matrix.IsAffine.invert_eq_iff {A : Matrix K} (ha : A.IsAffine) (hd : A.det ≠ 0) :
    A.invert = A ↔ ∀ p, vector4Apply (vector4Apply p A) A = p := by
  constructor
  · intro h p
    have hp := Matrix.vector4Apply_invert_left ha hd p
    rwa [h] at hp
  · intro htwice
    refine Matrix.ext_apply (A := A.invert) (B := A) rfl ?_
    intro p
    rw [vector4Apply_invert_eq_iff ha hd, htwice]

theorem Matrix.inverse_iterate_eq_iff [LinearOrder K] (A : Matrix K) (n : ℕ) :
    (fun A : Matrix K => A.inverse.2)^[n] A = A ↔ Even n ∨ A.inverse.2 = A := by
  rcases Nat.even_or_odd n with hn | hn
  · simp [Matrix.inverse_involutive.iterate_even hn, hn]
  · simp [Matrix.inverse_involutive.iterate_odd hn, Nat.not_even_iff_odd.mpr hn]

/-- On an affine matrix `inverse` leaves a two-sided inverse, which a second call undoes, or reports
a zero determinant and changes nothing. -/
theorem Matrix.inverse_affine [LinearOrder K] {A : Matrix K} (ha : A.IsAffine) :
    (A.det ≠ 0 → ∃ N : Matrix K, A.inverse = (true, N) ∧ N.IsAffine ∧
      (∀ p, vector4Apply (vector4Apply p A) N = p) ∧
      (∀ p, vector4Apply (vector4Apply p N) A = p) ∧ N.inverse = (true, A)) ∧
    (A.det = 0 → A.inverse = (false, A)) := by
  constructor
  · intro hd
    refine ⟨A.invert, inverse_of_det_ne_zero hd, ha.invert, ?_, ?_, ?_⟩
    · exact vector4Apply_invert_right ha hd
    · exact vector4Apply_invert_left ha hd
    · rw [inverse_of_det_ne_zero (det_invert_ne_zero hd), ha.invert_invert hd]
  · intro hd
    simp only [inverse, if_pos hd]

/-- A shear with a translation. -/
theorem Matrix.inverse_affine_shear :
    ∃ N : Matrix ℚ, (Matrix.new 2 1 0 0 0 1 0 0 0 3 1 0 5 0 7 1).inverse = (true, N) ∧
      N.IsAffine ∧ N.inverse = (true, .new 2 1 0 0 0 1 0 0 0 3 1 0 5 0 7 1) := by
  have hshear := inverse_affine (A := (.new 2 1 0 0 0 1 0 0 0 3 1 0 5 0 7 1 : Matrix ℚ))
    ⟨rfl, rfl, rfl, rfl⟩
  obtain ⟨N, hN, haffine, -, -, hback⟩ := hshear.1 (by norm_num [det])
  exact ⟨N, hN, haffine, hback⟩

theorem vector4Apply_w_of_isAffine {A : Matrix K} (ha : A.IsAffine) (p : Vector4 K) :
    (vector4Apply p A).w = p.w := by
  obtain ⟨h1, h2, h3, h4⟩ := ha
  simp [h1, h2, h3, h4]

end SoftRenderer
