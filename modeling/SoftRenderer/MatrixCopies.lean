import SoftRenderer.Transform

/-!
# The two copies of a matrix

`Matrix.new` writes the table and the fields alike, and every function that makes a matrix ends in
`Matrix.new`. The two methods that change a matrix in place write the fields only, so the copies
agree afterwards exactly when the calls have brought the fields back to what they were. An argument
that a caller leaves out is `nil` in both copies.
-/

namespace SoftRenderer

variable {K : Type}

namespace Matrix

def field (A : Matrix K) : Fin 4 → Fin 4 → K :=
  ![![A.m11, A.m12, A.m13, A.m14], ![A.m21, A.m22, A.m23, A.m24],
    ![A.m31, A.m32, A.m33, A.m34], ![A.m41, A.m42, A.m43, A.m44]]

def ofFields (f : Fin 4 → Fin 4 → K) : Matrix K :=
  new (f 0 0) (f 0 1) (f 0 2) (f 0 3) (f 1 0) (f 1 1) (f 1 2) (f 1 3)
    (f 2 0) (f 2 1) (f 2 2) (f 2 3) (f 3 0) (f 3 1) (f 3 2) (f 3 3)

theorem field_ofFields (f : Fin 4 → Fin 4 → K) : (ofFields f).field = f := by
  funext i j
  fin_cases i <;> fin_cases j <;> rfl

theorem eq_of_field {A B : Matrix K} (h : A.field = B.field) : { A with m := B.m } = B := by
  have h1 := fun j => congrFun (congrFun h 0) j
  have h2 := fun j => congrFun (congrFun h 1) j
  have h3 := fun j => congrFun (congrFun h 2) j
  have h4 := fun j => congrFun (congrFun h 3) j
  simp only [field, Fin.forall_fin_succ] at h1 h2 h3 h4
  cases A
  cases B
  simp_all

variable [Field K]

theorem det_congr {A B : Matrix K} (h : A.field = B.field) : A.det = B.det := by
  rw [← eq_of_field h]
  rfl

theorem field_invert_congr {A B : Matrix K} (h : A.field = B.field) :
    A.invert.field = B.invert.field := by
  rw [← eq_of_field h]
  rfl

theorem field_invert_three (A : Matrix K) (i : Fin 4) : A.invert.field i 3 = A.field i 3 := by
  have h1 : A.invert.m14 = A.m14 := rfl
  have h2 : A.invert.m24 = A.m24 := rfl
  have h3 : A.invert.m34 = A.m34 := rfl
  have h4 : A.invert.m44 = A.m44 := rfl
  fin_cases i
  · exact h1
  · exact h2
  · exact h3
  · exact h4

theorem inverse_eq_iff [LinearOrder K] (A : Matrix K) :
    A.inverse.2 = A ↔
      A.det = 0 ∨ ∀ p, vector4Apply (vector4Apply p A.affinePart) A.affinePart = p := by
  by_cases hd : A.det = 0
  · simp [inverse, hd]
  · rw [inverse_of_det_ne_zero hd, invert_eq_iff_affinePart, or_iff_right hd]
    exact A.isAffine_affinePart.invert_eq_iff hd

theorem invert_identity {A : Matrix K} (h : A.field = fun i j => if i = j then 1 else 0) :
    A.det ≠ 0 ∧ A.invert.field = A.field := by
  have hid : A.field = A.identity.field := by
    rw [h]
    funext i j
    fin_cases i <;> fin_cases j <;> rfl
  have hd : A.identity.det ≠ 0 := A.det_identity_ne_zero
  refine ⟨det_congr hid ▸ hd, ?_⟩
  have hself : A.identity.invert = A.identity := by
    rw [A.isAffine_identity.invert_eq_iff hd]
    intro p
    rw [vector4Apply_identity, vector4Apply_identity]
  rw [field_invert_congr hid, hself, ← hid]

end Matrix

/-- A matrix as the scripts can make it: an entry is a number or `nil`, at row `i` and column `j`
of the table `m` and as the field `mij`. -/
structure MatrixObject (K : Type) where
  m : Fin 4 → Fin 4 → Option K
  field : Fin 4 → Fin 4 → Option K

inductive InPlace where
  | identity
  | inverse
  deriving DecidableEq

namespace MatrixObject

def new (args : Fin 4 → Fin 4 → Option K) : MatrixObject K := ⟨args, args⟩

def ofMatrix (A : Matrix K) : MatrixObject K := new fun i j => some (A.field i j)

def CopiesAgree (self : MatrixObject K) : Prop := ∀ i j, self.m i j = self.field i j

def transpose (self : MatrixObject K) : MatrixObject K := new fun i j => self.field j i

theorem eq_of_fields {A B : MatrixObject K} (hm : B.m = A.m)
    (hfield : ∀ i j, B.field i j = A.field i j) : B = A := by
  obtain ⟨m, field⟩ := B
  obtain rfl : m = A.m := hm
  congr 1
  funext i j
  exact hfield i j

variable [Field K]

def identity (self : MatrixObject K) : MatrixObject K :=
  { self with field := fun i j => some (if i = j then 1 else 0) }

/-- The fields as numbers, where those that no operation may read count as zero. -/
def filled (self : MatrixObject K) : Matrix K := .ofFields fun i j => (self.field i j).getD 0

theorem field_filled (self : MatrixObject K) (i j : Fin 4) :
    self.filled.field i j = (self.field i j).getD 0 := by
  rw [filled, Matrix.field_ofFields]

/-- Arithmetic on the fields that `reads` names fails if one of them is `nil`. -/
def numbers (self : MatrixObject K) (reads : Fin 4 → Fin 4 → Bool) :
    Except LuaError (Matrix K) :=
  if ∀ i j, reads i j → self.field i j ≠ none then .ok self.filled else .error (.arith .nil)

/-- The determinant reads the upper block of nine entries, and what comes after it also the first
three entries of the fourth row. -/
def inverse [LinearOrder K] (self : MatrixObject K) : Except LuaError (Bool × MatrixObject K) := do
  let matrix ← self.numbers fun i j => i ≠ 3 ∧ j ≠ 3
  if matrix.det = 0 then
    return (false, self)
  else
    let matrix ← self.numbers fun _ j => j ≠ 3
    return (matrix.inverse.1, { self with
      field := fun i j => if j = 3 then self.field i j else some (matrix.inverse.2.field i j) })

/-- A function that combines two matrices, where `reads` are the fields that it reads of the second
one. -/
def combine (op : Matrix K → Matrix K → Matrix K) (reads : Fin 4 → Fin 4 → Bool)
    (v1 v2 : MatrixObject K) : Except LuaError (MatrixObject K) := do
  let A ← v1.numbers fun _ _ => true
  let B ← v2.numbers reads
  return ofMatrix (op A B)

def matrixAdd (v1 v2 : MatrixObject K) : Except LuaError (MatrixObject K) :=
  combine SoftRenderer.matrixAdd (fun _ _ => true) v1 v2

def matrixSub (v1 v2 : MatrixObject K) : Except LuaError (MatrixObject K) :=
  combine SoftRenderer.matrixSub (fun _ _ => true) v1 v2

/-- The product does not read `m32` of its second argument. -/
def matrixMul (v1 v2 : MatrixObject K) : Except LuaError (MatrixObject K) :=
  combine SoftRenderer.matrixMul (fun i j => ¬ (i = 2 ∧ j = 1)) v1 v2

theorem copiesAgree_combine {op : Matrix K → Matrix K → Matrix K} {reads : Fin 4 → Fin 4 → Bool}
    {v1 v2 C : MatrixObject K} (h : combine op reads v1 v2 = .ok C) : C.CopiesAgree := by
  unfold combine at h
  cases h1 : v1.numbers fun _ _ => true with
  | error e =>
      rw [h1] at h
      cases h
  | ok A =>
      cases h2 : v2.numbers reads with
      | error e =>
          rw [h1, h2] at h
          cases h
      | ok B =>
          rw [h1, h2] at h
          cases h
          exact fun _ _ => rfl

variable [LinearOrder K]

/-- `Obtained math A calls B`: the matrix was made as `A`, the methods `calls` have been called on
it since, all of which returned, and it is `B` now. -/
inductive Obtained (math : LuaMath K) : MatrixObject K → List InPlace → MatrixObject K → Prop where
  | new (args : Fin 4 → Fin 4 → Option K) : Obtained math (new args) [] (new args)
  | identity {A calls B} (h : Obtained math A calls B) :
      Obtained math A (calls ++ [.identity]) B.identity
  | inverse {A calls B result B'} (h : Obtained math A calls B)
      (hrun : B.inverse = .ok (result, B')) : Obtained math A (calls ++ [.inverse]) B'
  | transpose {A calls B} (h : Obtained math A calls B) : Obtained math B.transpose [] B.transpose
  | add {A1 A2 calls1 calls2 B1 B2 C} (h1 : Obtained math A1 calls1 B1)
      (h2 : Obtained math A2 calls2 B2) (hrun : B1.matrixAdd B2 = .ok C) : Obtained math C [] C
  | sub {A1 A2 calls1 calls2 B1 B2 C} (h1 : Obtained math A1 calls1 B1)
      (h2 : Obtained math A2 calls2 B2) (hrun : B1.matrixSub B2 = .ok C) : Obtained math C [] C
  | mul {A1 A2 calls1 calls2 B1 B2 C} (h1 : Obtained math A1 calls1 B1)
      (h2 : Obtained math A2 calls2 B2) (hrun : B1.matrixMul B2 = .ok C) : Obtained math C [] C
  | lookAt {eyePos lookAt up A} (h : matrixLookAtLh math eyePos lookAt up = .ok A) :
      Obtained math (ofMatrix A) [] (ofMatrix A)
  | perspective (fov aspect near far : K) :
      Obtained math (ofMatrix (matrixPerspectiveFovLh math fov aspect near far)) []
        (ofMatrix (matrixPerspectiveFovLh math fov aspect near far))
  | screen (width height : K) :
      Obtained math (ofMatrix (screenTransform width height)) []
        (ofMatrix (screenTransform width height))

omit [LinearOrder K] in
theorem numbers_eq_ok {self : MatrixObject K} {reads : Fin 4 → Fin 4 → Bool} {A : Matrix K}
    (h : self.numbers reads = .ok A) :
    A = self.filled ∧ ∀ i j, reads i j → self.field i j = some (A.field i j) := by
  rw [numbers] at h
  split_ifs at h with hreads
  obtain rfl := (Except.ok.inj h).symm
  refine ⟨rfl, fun i j hij => ?_⟩
  obtain ⟨x, hx⟩ := Option.ne_none_iff_exists'.mp (hreads i j hij)
  rw [field_filled, hx]
  rfl

theorem inverse_cases {self B : MatrixObject K} {result : Bool}
    (h : self.inverse = .ok (result, B)) :
    (self.filled.det = 0 ∧ B = self) ∨
      self.filled.det ≠ 0 ∧ B.m = self.m ∧
        (∀ i j, j ≠ 3 → self.field i j = some (self.filled.field i j)) ∧
        ∀ i j, B.field i j =
          if j = 3 then self.field i j else some (self.filled.invert.field i j) := by
  rw [inverse] at h
  cases hupper : self.numbers fun i j => i ≠ 3 ∧ j ≠ 3 with
  | error e =>
      rw [hupper] at h
      cases h
  | ok A =>
      obtain ⟨rfl, -⟩ := numbers_eq_ok hupper
      rw [hupper] at h
      simp only [bind, Except.bind, pure, Except.pure] at h
      split_ifs at h with hd
      · cases h
        exact .inl ⟨hd, rfl⟩
      · cases hleft : self.numbers fun _ j => j ≠ 3 with
        | error e =>
            rw [hleft] at h
            cases h
        | ok A =>
            obtain ⟨rfl, hread⟩ := numbers_eq_ok hleft
            rw [hleft] at h
            cases h
            refine .inr ⟨hd, rfl, fun i j hj => hread i j (by simpa using hj), fun i j => ?_⟩
            rw [Matrix.inverse_of_det_ne_zero hd]

omit [LinearOrder K] in
theorem field_filled_of {self B : MatrixObject K}
    (hB : ∀ i j, B.field i j =
      if j = 3 then self.field i j else some (self.filled.invert.field i j)) :
    B.filled.field = self.filled.invert.field := by
  funext i j
  rw [field_filled, hB]
  split_ifs with hj
  · rw [hj, Matrix.field_invert_three, field_filled]
  · rfl

theorem inverse_inverse {A B C : MatrixObject K} {result result' : Bool}
    (hB : A.inverse = .ok (result, B)) (hC : B.inverse = .ok (result', C)) : C = A := by
  rcases inverse_cases hB with ⟨hd, rfl⟩ | ⟨hd, hm, hread, hfield⟩
  · rw [hB] at hC
    cases hC
    rfl
  · have hfilled := field_filled_of hfield
    rcases inverse_cases hC with ⟨hd', -⟩ | ⟨-, hm', -, hfield'⟩
    · rw [Matrix.det_congr hfilled] at hd'
      exact absurd hd' (Matrix.det_invert_ne_zero hd)
    · have hback : B.filled.invert.field = A.filled.field := by
        rw [Matrix.field_invert_congr hfilled, Matrix.invert_invert hd]
      apply eq_of_fields (hm'.trans hm)
      intro i j
      rw [hfield', hfield, hback]
      split_ifs with hj
      · rfl
      · exact (hread i j hj).symm

theorem inverse_of_identity {self B : MatrixObject K} {result : Bool}
    (hself : ∀ i j, self.field i j = some (if i = j then 1 else 0))
    (h : self.inverse = .ok (result, B)) : B = self := by
  have hfilled : self.filled.field = fun i j => if i = j then 1 else 0 := by
    funext i j
    rw [field_filled, hself]
    rfl
  obtain ⟨hd, hinvert⟩ := Matrix.invert_identity hfilled
  rcases inverse_cases h with ⟨-, rfl⟩ | ⟨-, hm, -, hfield⟩
  · rfl
  · apply eq_of_fields hm
    intro i j
    rw [hfield, hinvert, hfilled, hself, ite_self]

theorem inverse_eq_self_iff {A B : MatrixObject K} {result : Bool}
    (h : A.inverse = .ok (result, B)) :
    B = A ↔ A.filled.det = 0 ∨ ∀ p,
      vector4Apply (vector4Apply p A.filled.affinePart) A.filled.affinePart = p := by
  rw [← Matrix.inverse_eq_iff]
  rcases inverse_cases h with ⟨hd, rfl⟩ | ⟨hd, hm, hread, hfield⟩
  · simp [Matrix.inverse, hd]
  · rw [Matrix.inverse_of_det_ne_zero hd]
    constructor
    · rintro rfl
      exact Matrix.eq_of_field (field_filled_of hfield).symm
    · intro hself
      have hfix : A.filled.invert = A.filled := hself
      apply eq_of_fields hm
      intro i j
      rw [hfield, hfix]
      split_ifs with hj
      · rfl
      · exact (hread i j hj).symm

/-- What is known of a matrix that was made as `A`. -/
structure Kept (A : MatrixObject K) (calls : List InPlace) (B : MatrixObject K) : Prop where
  made : A.CopiesAgree
  m_eq : B.m = A.m
  reset : .identity ∈ calls → ∀ i j, B.field i j = some (if i = j then 1 else 0)
  even : .identity ∉ calls → Even calls.length → B = A
  odd : .identity ∉ calls → ¬ Even calls.length → ∃ result, A.inverse = .ok (result, B)

theorem Kept.made_self {A : MatrixObject K} (h : A.CopiesAgree) : Kept A [] A :=
  ⟨h, rfl, by simp, fun _ _ => rfl, by simp⟩

theorem Obtained.kept {math : LuaMath K} {A B : MatrixObject K} {calls : List InPlace}
    (h : Obtained math A calls B) : Kept A calls B := by
  induction h with
  | identity _ ih =>
      have hmem (calls : List InPlace) : .identity ∈ calls ++ [.identity] := by simp
      exact ⟨ih.made, ih.m_eq, fun _ _ _ => rfl, fun hnot => absurd (hmem _) hnot,
        fun hnot => absurd (hmem _) hnot⟩
  | @inverse A calls B result B' _ hrun ih =>
      have hm : B'.m = B.m := by
        rcases inverse_cases hrun with ⟨-, rfl⟩ | ⟨-, hm, -⟩
        · rfl
        · exact hm
      have hmem : InPlace.identity ∈ calls ++ [.inverse] ↔ .identity ∈ calls := by simp
      have heven : Even (calls ++ [InPlace.inverse]).length ↔ ¬ Even calls.length := by
        rw [List.length_append, List.length_singleton, Nat.even_add_one]
      refine ⟨ih.made, hm.trans ih.m_eq, fun hid => ?_, fun hid hlen => ?_, fun hid hlen => ?_⟩
      · rw [inverse_of_identity (ih.reset (hmem.mp hid)) hrun]
        exact ih.reset (hmem.mp hid)
      · obtain ⟨result', hB⟩ := ih.odd (hid ∘ hmem.mpr) (heven.mp hlen)
        exact inverse_inverse hB hrun
      · obtain rfl := ih.even (hid ∘ hmem.mpr) (by_contra (hlen ∘ heven.mpr))
        exact ⟨result, hrun⟩
  | add _ _ hrun => exact .made_self (copiesAgree_combine hrun)
  | sub _ _ hrun => exact .made_self (copiesAgree_combine hrun)
  | mul _ _ hrun => exact .made_self (copiesAgree_combine hrun)
  | _ => exact .made_self fun _ _ => rfl

omit [Field K] [LinearOrder K] in
theorem copiesAgree_iff_eq {A B : MatrixObject K} (hA : A.CopiesAgree) (hm : B.m = A.m) :
    B.CopiesAgree ↔ B = A := by
  constructor
  · intro hB
    apply eq_of_fields hm
    intro i j
    rw [← hB i j, hm, hA i j]
  · rintro rfl
    exact hA

/-- The copies agree exactly when the calls since the matrix was made have left the fields alone: a
reset of the identity, inversions that cancel, or inversions of a matrix that has no inverse or is
its own. -/
theorem copiesAgree_iff {math : LuaMath K} {A B : MatrixObject K} {calls : List InPlace}
    (h : Obtained math A calls B) :
    B.CopiesAgree ↔
      if InPlace.identity ∈ calls then ∀ i j, A.field i j = some (if i = j then 1 else 0)
      else Even calls.length ∨ A.filled.det = 0 ∨ ∀ p,
        vector4Apply (vector4Apply p A.filled.affinePart) A.filled.affinePart = p := by
  have hkept := h.kept
  rw [copiesAgree_iff_eq hkept.made hkept.m_eq]
  split_ifs with hmem
  · have hfield := hkept.reset hmem
    constructor
    · rintro rfl
      exact hfield
    · intro hA
      apply eq_of_fields hkept.m_eq
      intro i j
      rw [hfield, hA]
  · by_cases heven : Even calls.length
    · exact iff_of_true (hkept.even hmem heven) (.inl heven)
    · obtain ⟨result, hrun⟩ := hkept.odd hmem heven
      rw [inverse_eq_self_iff hrun, or_iff_right heven]

def HasFields (self : MatrixObject K) (A : Matrix K) : Prop :=
  ∀ i j, self.field i j = some (A.field i j)

theorem HasFields.inverse {self : MatrixObject K} {A : Matrix K} (h : self.HasFields A) :
    ∃ B, self.inverse = .ok (A.inverse.1, B) ∧ B.HasFields A.inverse.2 ∧ B.m = self.m := by
  have hfilled : self.filled.field = A.field := by
    funext i j
    rw [field_filled, h i j]
    rfl
  have hnumbers (reads : Fin 4 → Fin 4 → Bool) : self.numbers reads = .ok self.filled := by
    refine if_pos fun i j _ => ?_
    rw [h i j]
    exact Option.some_ne_none _
  have hdet := Matrix.det_congr hfilled
  rw [MatrixObject.inverse, hnumbers, hnumbers]
  simp only [bind, Except.bind, pure, Except.pure, hdet]
  by_cases hd : A.det = 0
  · rw [if_pos hd, Matrix.inverse, if_pos hd]
    exact ⟨self, rfl, h, rfl⟩
  · rw [if_neg hd, Matrix.inverse_of_det_ne_zero hd, Matrix.inverse_of_det_ne_zero (hdet ▸ hd)]
    refine ⟨_, rfl, fun i j => ?_, rfl⟩
    have hinvert := congrFun (congrFun (Matrix.field_invert_congr hfilled) i) j
    change (if j = 3 then _ else _) = _
    split_ifs with hj
    · subst hj
      rw [h, Matrix.field_invert_three]
    · rw [hinvert]

theorem copiesAgree_translation :
    ∃ B, Obtained LuaMath.real (ofMatrix (.new 1 0 0 0 0 1 0 0 0 0 1 0 1 0 0 1))
      [.inverse, .inverse] B ∧ B.CopiesAgree := by
  have hfields : (ofMatrix (.new 1 0 0 0 0 1 0 0 0 0 1 0 1 0 0 1 : Matrix ℝ)).HasFields
      (.new 1 0 0 0 0 1 0 0 0 0 1 0 1 0 0 1) := fun _ _ => rfl
  obtain ⟨B, hrun, hB, -⟩ := hfields.inverse
  obtain ⟨C, hrun', -, -⟩ := hB.inverse
  have hmade : Obtained LuaMath.real (ofMatrix (.new 1 0 0 0 0 1 0 0 0 0 1 0 1 0 0 1))
      [.inverse, .inverse] C := .inverse (.inverse (.new _) hrun) hrun'
  refine ⟨C, hmade, ?_⟩
  rw [copiesAgree_iff hmade, if_neg (by decide)]
  exact .inl (by decide)

/-- A scaling, inverted once. -/
theorem not_copiesAgree :
    ¬ ∀ (A : MatrixObject ℝ) (calls : List InPlace) (B : MatrixObject ℝ),
      Obtained LuaMath.real A calls B → B.CopiesAgree := by
  intro h
  let A : Matrix ℝ := .new 2 0 0 0 0 1 0 0 0 0 1 0 0 0 0 1
  have hfields : (ofMatrix A).HasFields A := fun _ _ => rfl
  obtain ⟨B, hrun, hB, hm⟩ := hfields.inverse
  have hentry := h _ _ B (.inverse (.new _) hrun) 0 0
  have hd : A.det ≠ 0 := by norm_num [A, Matrix.det]
  rw [hm, hB, Matrix.inverse_of_det_ne_zero hd] at hentry
  norm_num [ofMatrix, new, Matrix.field, Matrix.invert, Matrix.det, A] at hentry

end MatrixObject
end SoftRenderer
