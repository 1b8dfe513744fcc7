import SoftRenderer.LtableGetn

/-!
# The table library

`table.insert`, `table.remove` and `table.concat`. On a table that holds a sequence they do what the
same operations do on a list, and leave all other keys alone.
-/

namespace SoftRenderer.Ltable

open Kit Table

variable {K S O V : Type} [Field K] [LinearOrder K] [FloorRing K] [DecidableEq S] [DecidableEq O]
  (hs : Hashes K S O)

def luaRawgeti (t : Table (Key K S O) V) (n : ℤ) : Option V := (luaHGetnum hs t n).bind t.read

def luaRawseti (depth : ℕ) (t : Table (Key K S O) V) (n : ℤ) (v : Option V) :
    Except TableError (Table (Key K S O) V) := do
  let (p, t) ← luaHSetnum hs depth t n
  return t.write p v

/-- The loop of `tinsert`, which moves up the `n` elements from `pos` on, the last one first. -/
def moveUp (depth : ℕ) (pos : ℤ) : ℕ → Table (Key K S O) V →
    Except TableError (Table (Key K S O) V)
  | 0, t => .ok t
  | n + 1, t => do
      let i := pos + n + 1
      let t ← luaRawseti hs depth t i (luaRawgeti hs t (i - 1))
      moveUp depth pos n t

/-- Without a position, the element goes to the end. -/
def tinsert (depth : ℕ) (t : Table (Key K S O) V) (pos : Option ℤ) (v : Option V) :
    Except TableError (Table (Key K S O) V) := do
  let e := ((← luaHGetn hs t) : ℤ) + 1
  match pos with
  | none => luaRawseti hs depth t e v
  | some pos =>
      let e := if pos > e then pos else e
      let t ← moveUp hs depth pos (e - pos).toNat t
      luaRawseti hs depth t pos v

/-- The loop of `tremove`, which moves down the `n` elements behind `pos`. -/
def moveDown (depth : ℕ) : ℕ → ℤ → Table (Key K S O) V →
    Except TableError (Table (Key K S O) V)
  | 0, _, t => .ok t
  | n + 1, pos, t => do
      let t ← luaRawseti hs depth t pos (luaRawgeti hs t (pos + 1))
      moveDown depth n (pos + 1) t

def tremove (depth : ℕ) (t : Table (Key K S O) V) (pos : Option ℤ) :
    Except TableError (Option V × Table (Key K S O) V) := do
  let e : ℤ ← luaHGetn hs t
  let pos := pos.getD e
  if ¬ (1 ≤ pos ∧ pos ≤ e) then return (none, t)
  else
    let result := luaRawgeti hs t pos
    let t ← moveDown hs depth (e - pos).toNat pos t
    let t ← luaRawseti hs depth t e none
    return (result, t)

/-- Strings and numbers have a text. -/
def addfield (text : V → Option String) (t : Table (Key K S O) V) (b : String) (i : ℤ) :
    Except TableError String :=
  match (luaRawgeti hs t i).bind text with
  | some s => .ok (b ++ s)
  | none => .error (.invalidValue i)

def concatLoop (text : V → Option String) (t : Table (Key K S O) V) (sep : String) :
    ℕ → ℤ → String → Except TableError String
  | 0, _, b => .ok b
  | n + 1, i, b => do
      let b ← addfield hs text t b i
      concatLoop text t sep n (i + 1) (b ++ sep)

def tconcat (text : V → Option String) (t : Table (Key K S O) V) (sep : String)
    (i last : Option ℤ) : Except TableError String := do
  let i := i.getD 1
  let last ← match last with
    | some last => pure last
    | none => (luaHGetn hs t).map fun n => (n : ℤ)
  let b ← concatLoop hs text t sep (last - i).toNat i ""
  if max i last = last then addfield hs text t b last else return b

def numAt (t : Table (Key K S O) V) (i : ℤ) : Option V := get hs t (.number (i : K))

def IsSequence (t : Table (Key K S O) V) (xs : List V) : Prop :=
  ∀ i : ℕ, numAt hs t (i + 1) = xs[i]?

variable {hs} [IsStrictOrderedRing K] {t : Table (Key K S O) V} {xs : List V}

theorem WellFormed.luaRawgeti_eq (h : WellFormed hs t) (n : ℤ) :
    luaRawgeti hs t n = numAt hs t n := by
  rw [luaRawgeti, h.luaHGetnum_eq, numAt, get]

theorem WellFormed.luaRawseti_eq (h : WellFormed hs t) (depth : ℕ) (n : ℤ) (v : Option V) :
    luaRawseti hs depth t n v = assign hs depth t (.number (n : K)) v := by
  rw [luaRawseti, luaHSetnum, setnumWith, h.luaHGetnum_eq, assign, luaHSet, setWith]

theorem IsSequence.luaHGetn_eq (hseq : IsSequence hs t xs) (h : WellFormed hs t) :
    luaHGetn hs t = .ok xs.length := by
  obtain ⟨n, hrun, hn⟩ := h.luaHGetn_spec
  rw [hrun, hn.unique fun i hi => ?_]
  obtain ⟨j, rfl⟩ := Nat.exists_eq_add_of_le' hi
  have hget := hseq j
  rw [numAt] at hget
  push_cast at hget
  rw [h.hasnum_eq, Nat.cast_add, Nat.cast_one, hget, Option.isSome_iff_ne_none, ne_eq,
    List.getElem?_eq_none_iff, not_le, Nat.lt_iff_add_one_le]

omit [DecidableEq S] [DecidableEq O] [IsStrictOrderedRing K] in
theorem number_ne {i j : ℤ} (h : i ≠ j) : (.number (i : K) : Key K S O) ≠ .number (j : K) :=
  fun heq => h (Int.cast_injective (Key.number.inj heq))

omit [IsStrictOrderedRing K] in
theorem IsSequence.get_ne_none (hseq : IsSequence hs t xs) {i : ℤ} (h1 : 1 ≤ i)
    (h2 : i ≤ xs.length) : get hs t (.number (i : K)) ≠ none := by
  obtain ⟨j, rfl⟩ : ∃ j : ℕ, i = j + 1 := ⟨(i - 1).toNat, by omega⟩
  have hval := hseq j
  rw [numAt, List.getElem?_eq_getElem (by omega)] at hval
  rw [hval]
  exact Option.some_ne_none _

def Within (hs : Hashes K S O) (t : Table (Key K S O) V) (F : Finset (Key K S O)) : Prop :=
  ∀ k, get hs t k ≠ none → k ∈ F

variable {F : Finset (Key K S O)}

theorem WellFormed.assign_within (h : WellFormed hs t) (hF : F.card ≤ maxasize)
    (hin : Within hs t F) (depth : ℕ) {k : Key K S O} (hk : k ∈ F) (v : Option V) :
    ∃ t', assign hs (depth + 2) t k v = .ok t' ∧ WellFormed hs t' ∧
      get hs t' = Function.update (get hs t) k v ∧ Within hs t' F := by
  have hsub : insert k {k' | get hs t k' ≠ none} ⊆ (↑F : Set (Key K S O)) := by
    rintro k' (rfl | hk')
    · exact hk
    · exact hin k' hk'
  have hcard : (insert k {k' | get hs t k' ≠ none}).ncard ≤ maxasize :=
    ((Set.ncard_le_ncard hsub F.finite_toSet).trans_eq (Set.ncard_coe_finset F)).trans hF
  obtain ⟨t', hrun, hwf, hget⟩ := h.assign_spec depth k v hcard
  refine ⟨t', hrun, hwf, hget, fun k' hk' => ?_⟩
  by_cases hkk : k' = k
  · rwa [hkk]
  · rw [hget, Function.update_of_ne hkk] at hk'
    exact hin k' hk'

theorem WellFormed.moveUp_spec (h : WellFormed hs t) (hF : F.card ≤ maxasize)
    (hin : Within hs t F) (depth : ℕ) (pos : ℤ) (n : ℕ)
    (hkeys : ∀ i : ℤ, pos < i → i ≤ pos + n → .number (i : K) ∈ F) :
    ∃ t', moveUp hs (depth + 2) pos n t = .ok t' ∧ WellFormed hs t' ∧ Within hs t' F ∧
      (∀ i : ℤ, pos < i → i ≤ pos + n → numAt hs t' i = numAt hs t (i - 1)) ∧
      ∀ k, (∀ i : ℤ, pos < i → i ≤ pos + n → k ≠ .number (i : K)) →
        get hs t' k = get hs t k := by
  induction n generalizing t with
  | zero => exact ⟨t, rfl, h, hin, fun i h1 h2 => by omega, fun _ _ => rfl⟩
  | succ n ih =>
      push_cast at hkeys ⊢
      obtain ⟨t₁, hassign, hwf, hget, hin₁⟩ := h.assign_within hF hin depth
        (hkeys (pos + n + 1) (by omega) (by omega)) (numAt hs t (pos + n))
      obtain ⟨t', hrun, hwf', hin', hmoved, hrest⟩ := ih hwf hin₁
        fun i h1 h2 => hkeys i h1 (by omega)
      have hold {i : ℤ} (hi : i ≠ pos + n + 1) : numAt hs t₁ i = numAt hs t i := by
        rw [numAt, hget, Function.update_of_ne (number_ne hi)]
        rfl
      refine ⟨t', ?_, hwf', hin', fun i h1 h2 => ?_, fun k hk => ?_⟩
      · simp only [moveUp, add_sub_cancel_right, h.luaRawgeti_eq, h.luaRawseti_eq, hassign]
        exact hrun
      · by_cases hi : i = pos + n + 1
        · subst hi
          have hlast := hrest (.number ((pos + n + 1 : ℤ) : K)) fun i _ h2 => number_ne (by omega)
          rw [numAt, hlast, hget, Function.update_self, add_sub_cancel_right]
        · rw [hmoved i h1 (by omega), hold (by omega)]
      · rw [hrest k fun i h1 h2 => hk i h1 (by omega), hget,
          Function.update_of_ne (hk (pos + n + 1) (by omega) (by omega))]

omit [IsStrictOrderedRing K] in
theorem IsSequence.insertIdx (hseq : IsSequence hs t xs) {t₁ t' : Table (Key K S O) V}
    {pos : ℕ} (hpos : pos ≤ xs.length) {v : V}
    (hmoved : ∀ i : ℤ, (pos : ℤ) + 1 < i → i ≤ (pos : ℤ) + 1 + (xs.length - pos : ℕ) →
      numAt hs t₁ i = numAt hs t (i - 1))
    (hrest : ∀ k, (∀ i : ℤ, (pos : ℤ) + 1 < i → i ≤ (pos : ℤ) + 1 + (xs.length - pos : ℕ) →
      k ≠ .number (i : K)) → get hs t₁ k = get hs t k)
    (hget : get hs t' = Function.update (get hs t₁) (.number ((pos + 1 : ℤ) : K)) (some v)) :
    IsSequence hs t' (xs.insertIdx pos v) := by
  intro i
  rw [numAt, hget]
  rcases lt_trichotomy i pos with hi | rfl | hi
  · rw [Function.update_of_ne (number_ne (by omega)),
      hrest _ fun j h1 h2 => number_ne (by omega), List.getElem?_insertIdx_of_lt hi]
    exact hseq i
  · rw [Function.update_self, List.getElem?_insertIdx_self, if_pos hpos]
  · rw [Function.update_of_ne (number_ne (by omega)), List.getElem?_insertIdx_of_gt hi]
    obtain ⟨j, rfl⟩ := Nat.exists_eq_add_of_lt hi
    have hprev := hseq (pos + j)
    by_cases hj : pos + j < xs.length
    · have hm := hmoved ((pos + j + 1 : ℕ) + 1) (by omega) (by omega)
      rw [numAt] at hm
      rw [hm, Nat.add_sub_cancel, ← hprev]
      congr 1
      push_cast
      ring
    · rw [hrest _ fun j' h1 h2 => number_ne (by omega)]
      have hend := hseq (pos + j + 1)
      rw [numAt] at hend
      rw [hend, List.getElem?_eq_none (by omega), List.getElem?_eq_none (by omega)]

/-- On a sequence, `table.insert` is the insertion into a list. -/
theorem WellFormed.tinsert_spec (h : WellFormed hs t) (hseq : IsSequence hs t xs)
    (hF : F.card ≤ maxasize) (hin : Within hs t F)
    (hnew : .number (((xs.length + 1 : ℕ) : ℤ) : K) ∈ F) {pos : ℕ} (hpos : pos ≤ xs.length)
    {arg : Option ℤ} (harg : arg = some ((pos : ℤ) + 1) ∨ arg = none ∧ pos = xs.length)
    (depth : ℕ) (v : V) :
    ∃ t', tinsert hs (depth + 2) t arg (some v) = .ok t' ∧ WellFormed hs t' ∧ Within hs t' F ∧
      IsSequence hs t' (xs.insertIdx pos v) ∧
      ∀ k, (∀ i : ℕ, k ≠ .number ((i + 1 : ℤ) : K)) → get hs t' k = get hs t k := by
  have hstep : tinsert hs (depth + 2) t arg (some v) =
      moveUp hs (depth + 2) (pos + 1) (xs.length - pos) t >>=
        fun t => luaRawseti hs (depth + 2) t (pos + 1) (some v) := by
    rw [tinsert, hseq.luaHGetn_eq h]
    rcases harg with rfl | ⟨rfl, rfl⟩
    · have hle : ¬ (pos : ℤ) + 1 > xs.length + 1 := by omega
      have hn : ((xs.length : ℤ) + 1 - (pos + 1)).toNat = xs.length - pos := by omega
      simp only [bind, Except.bind, if_neg hle, hn]
    · rw [Nat.sub_self]
      rfl
  have hkeys (i : ℤ) (h1 : (pos : ℤ) + 1 < i) (h2 : i ≤ (pos : ℤ) + 1 + (xs.length - pos : ℕ)) :
      (.number (i : K) : Key K S O) ∈ F := by
    by_cases hi : i = xs.length + 1
    · subst hi
      exact_mod_cast hnew
    · exact hin _ (hseq.get_ne_none (by omega) (by omega))
  obtain ⟨t₁, hrun, hwf, hin₁, hmoved, hrest⟩ := h.moveUp_spec hF hin depth (pos + 1)
    (xs.length - pos) hkeys
  have hmem : (.number ((pos + 1 : ℤ) : K) : Key K S O) ∈ F := by
    rcases hpos.eq_or_lt with rfl | hlt
    · exact_mod_cast hnew
    · exact hin _ (hseq.get_ne_none (by omega) (by omega))
  obtain ⟨t', hset, hwf', hget, hin'⟩ := hwf.assign_within hF hin₁ depth hmem (some v)
  refine ⟨t', ?_, hwf', hin', hseq.insertIdx hpos hmoved hrest hget, fun k hk => ?_⟩
  · rw [hstep, hrun]
    exact (hwf.luaRawseti_eq _ _ _).trans hset
  · rw [hget, Function.update_of_ne (by exact_mod_cast hk pos), hrest k fun i h1 h2 => ?_]
    obtain ⟨j, rfl⟩ : ∃ j : ℕ, i = j + 1 := ⟨(i - 1).toNat, by omega⟩
    exact_mod_cast hk j

theorem WellFormed.moveDown_spec (h : WellFormed hs t) (depth : ℕ) (pos : ℤ) (n : ℕ)
    (hkeys : ∀ i : ℤ, pos ≤ i → i < pos + n → luaHGet hs t (.number (i : K)) ≠ none) :
    ∃ t', moveDown hs depth n pos t = .ok t' ∧ WellFormed hs t' ∧
      (∀ k, luaHGet hs t' k = luaHGet hs t k) ∧
      (∀ i : ℤ, pos ≤ i → i < pos + n → numAt hs t' i = numAt hs t (i + 1)) ∧
      ∀ k, (∀ i : ℤ, pos ≤ i → i < pos + n → k ≠ .number (i : K)) →
        get hs t' k = get hs t k := by
  induction n generalizing t pos with
  | zero => exact ⟨t, rfl, h, fun _ => rfl, fun i h1 h2 => by omega, fun _ _ => rfl⟩
  | succ n ih =>
      push_cast at hkeys ⊢
      obtain ⟨p, hp⟩ := Option.ne_none_iff_exists'.mp (hkeys pos le_rfl (by omega))
      have hget := h.get_write hp (numAt hs t (pos + 1))
      obtain ⟨t', hrun, hwf, hsame, hmoved, hrest⟩ := ih (h.write hp (numAt hs t (pos + 1)))
        (pos + 1) fun i h1 h2 => by
          rw [WellFormed.luaHGet_write]
          exact hkeys i (by omega) (by omega)
      have hold {i : ℤ} (hi : i ≠ pos) :
          numAt hs (t.write p (numAt hs t (pos + 1))) i = numAt hs t i := by
        rw [numAt, hget, Function.update_of_ne (number_ne hi)]
        rfl
      refine ⟨t', ?_, hwf, fun k => (hsame k).trans (WellFormed.luaHGet_write _ _ k),
        fun i h1 h2 => ?_, fun k hk => ?_⟩
      · simp only [moveDown, h.luaRawgeti_eq, h.luaRawseti_eq, assign_eq_write hp]
        exact hrun
      · by_cases hi : i = pos
        · subst hi
          have hfirst := hrest (.number (i : K)) fun j h1 _ => number_ne (by omega)
          rw [numAt, hfirst, hget, Function.update_self]
        · rw [hmoved i (by omega) (by omega), hold (by omega)]
      · rw [hrest k fun i h1 h2 => hk i (by omega) (by omega), hget,
          Function.update_of_ne (hk pos le_rfl (by omega))]

omit [IsStrictOrderedRing K] in
theorem IsSequence.eraseIdx (hseq : IsSequence hs t xs) {t₁ t' : Table (Key K S O) V}
    {pos : ℕ} (hpos : pos < xs.length)
    (hmoved : ∀ i : ℤ, (pos : ℤ) + 1 ≤ i → i < (pos : ℤ) + 1 + (xs.length - (pos + 1) : ℕ) →
      numAt hs t₁ i = numAt hs t (i + 1))
    (hrest : ∀ k, (∀ i : ℤ, (pos : ℤ) + 1 ≤ i → i < (pos : ℤ) + 1 + (xs.length - (pos + 1) : ℕ) →
      k ≠ .number (i : K)) → get hs t₁ k = get hs t k)
    (hget : get hs t' = Function.update (get hs t₁) (.number ((xs.length : ℤ) : K)) none) :
    IsSequence hs t' (xs.eraseIdx pos) := by
  intro i
  rw [numAt, hget]
  by_cases hlast : i + 1 = xs.length
  · have hcast : ((i : ℤ) + 1) = (xs.length : ℤ) := by exact_mod_cast hlast
    rw [hcast, Function.update_self, List.getElem?_eq_none]
    rw [List.length_eraseIdx, if_pos hpos]
    omega
  · rw [Function.update_of_ne (number_ne (by omega))]
    rcases Nat.lt_or_ge i pos with hi | hi
    · rw [hrest _ fun j h1 h2 => number_ne (by omega), List.getElem?_eraseIdx_of_lt hi]
      exact hseq i
    · rw [List.getElem?_eraseIdx_of_ge hi]
      by_cases hend : i + 1 < xs.length
      · have hm := hmoved (i + 1) (by omega) (by omega)
        rw [numAt] at hm
        rw [hm, ← hseq (i + 1)]
        congr 1
      · rw [hrest _ fun j h1 h2 => number_ne (by omega)]
        have hval := hseq i
        rw [numAt] at hval
        rw [hval, List.getElem?_eq_none (by omega), List.getElem?_eq_none (by omega)]

/-- On a sequence, `table.remove` is the removal from a list. -/
theorem WellFormed.tremove_spec (h : WellFormed hs t) (hseq : IsSequence hs t xs) {pos : ℕ}
    (hpos : pos < xs.length) {arg : Option ℤ}
    (harg : arg = some ((pos : ℤ) + 1) ∨ arg = none ∧ pos + 1 = xs.length) (depth : ℕ) :
    ∃ t', tremove hs depth t arg = .ok (xs[pos]?, t') ∧ WellFormed hs t' ∧
      IsSequence hs t' (xs.eraseIdx pos) ∧
      ∀ k, (∀ i : ℕ, k ≠ .number ((i + 1 : ℤ) : K)) → get hs t' k = get hs t k := by
  have hthere (i : ℤ) (h1 : 1 ≤ i) (h2 : i ≤ xs.length) :
      luaHGet hs t (.number (i : K)) ≠ none := by
    refine fun hnone => hseq.get_ne_none h1 h2 ?_
    rw [get, hnone]
    rfl
  obtain ⟨t₁, hrun, hwf, hsame, hmoved, hrest⟩ := h.moveDown_spec depth (pos + 1)
    (xs.length - (pos + 1)) fun i h1 h2 => hthere i (by omega) (by omega)
  obtain ⟨p, hp⟩ := Option.ne_none_iff_exists'.mp (hthere xs.length (by omega) le_rfl)
  rw [← hsame] at hp
  have hget := hwf.get_write hp none
  refine ⟨t₁.write p none, ?_, hwf.write hp none, hseq.eraseIdx hpos hmoved hrest hget,
    fun k hk => ?_⟩
  · have hgetD : arg.getD (xs.length : ℤ) = pos + 1 := by
      rcases harg with rfl | ⟨rfl, hlast⟩
      · rfl
      · rw [Option.getD_none, ← hlast]
        push_cast
        rfl
    have hn : ((xs.length : ℤ) - (pos + 1)).toNat = xs.length - (pos + 1) := by omega
    have hinside : ¬ ¬ (1 ≤ (pos : ℤ) + 1 ∧ (pos : ℤ) + 1 ≤ xs.length) := by omega
    rw [tremove, hseq.luaHGetn_eq h]
    simp only [bind, Except.bind, pure, Except.pure, hgetD, if_neg hinside, hn, hrun,
      h.luaRawgeti_eq, hwf.luaRawseti_eq, assign_eq_write hp, hseq pos]
  · have hother (i : ℤ) (hi : 1 ≤ i) : k ≠ .number (i : K) := by
      obtain ⟨j, rfl⟩ : ∃ j : ℕ, i = j + 1 := ⟨(i - 1).toNat, by omega⟩
      exact hk j
    rw [hget, Function.update_of_ne (hother xs.length (by omega)),
      hrest k fun i h1 h2 => hother i (by omega)]

/-- Removal takes back an insertion at the same position. -/
theorem tremove_tinsert (h : WellFormed hs t) (hseq : IsSequence hs t xs)
    (hfits : (insert (.number ((xs.length + 1 : ℕ) : K)) {k | get hs t k ≠ none}).ncard ≤ maxasize)
    {pos : ℕ} (hpos : pos ≤ xs.length) (depth : ℕ) (v : V) :
    ∃ t' t'', tinsert hs (depth + 2) t (some (pos + 1)) (some v) = .ok t' ∧
      IsSequence hs t' (xs.insertIdx pos v) ∧
      tremove hs (depth + 2) t' (some (pos + 1)) = .ok (some v, t'') ∧
      ∀ k, get hs t'' k = get hs t k := by
  let F := insert (.number ((xs.length + 1 : ℕ) : K)) (t.entries.map Prod.fst).toFinset
  have hcard : F.card ≤ maxasize := by
    rw [h.support_eq, ← Finset.coe_insert, Set.ncard_coe_finset] at hfits
    exact hfits
  have hin : Within hs t F := by
    intro k hk
    have hmem : k ∈ {k | get hs t k ≠ none} := hk
    rw [h.support_eq] at hmem
    exact Finset.mem_insert_of_mem hmem
  obtain ⟨t', hinsert, hwf, -, hseq', hrest⟩ := h.tinsert_spec hseq hcard hin
    (by exact_mod_cast Finset.mem_insert_self _ _) hpos (.inl rfl) depth v
  have hlen : pos < (xs.insertIdx pos v).length := by
    rw [List.length_insertIdx_of_le_length hpos]
    omega
  obtain ⟨t'', hremove, -, hseq'', hrest'⟩ := hwf.tremove_spec hseq' hlen (.inl rfl) (depth + 2)
  rw [List.getElem?_insertIdx_self, if_pos hpos] at hremove
  rw [List.eraseIdx_insertIdx_self] at hseq''
  refine ⟨t', t'', hinsert, hseq', hremove, fun k => ?_⟩
  by_cases hk : ∃ i : ℕ, k = .number ((i + 1 : ℤ) : K)
  · obtain ⟨i, rfl⟩ := hk
    exact (hseq'' i).trans (hseq i).symm
  · push Not at hk
    rw [hrest' k hk, hrest k hk]

theorem tremove_tinsert_sample :
    ∃ t, (luaHNew 0 1 >>= assignAll sampleHashes 2 sampleOps) = .ok t ∧
      ∃ t' t'', tinsert sampleHashes 2 t (some ((0 : ℕ) + 1)) (some 7) = .ok t' ∧
        IsSequence sampleHashes t' [7, 12] ∧
        tremove sampleHashes 2 t' (some ((0 : ℕ) + 1)) = .ok (some 7, t'') ∧
        ∀ k, get sampleHashes t'' k = get sampleHashes t k := by
  obtain ⟨t, hrun, hwf, hget⟩ := exists_sample
  have hseq : IsSequence sampleHashes t [12] := by
    intro i
    rw [numAt, hget]
    cases i with
    | zero => decide +kernel
    | succ i =>
        refine by_contra fun hval => ?_
        have hmem := mem_of_lastAssigned hval
        simp only [sampleOps, List.map_cons, List.map_nil, List.mem_cons, Key.number.injEq,
          reduceCtorEq, List.not_mem_nil, or_false, false_or, or_self] at hmem
        norm_cast at hmem
  have hfits : (insert (.number (((([12] : List ℕ).length + 1 : ℕ)) : ℚ))
      {k | get sampleHashes t k ≠ none}).ncard ≤ maxasize := by
    rw [hget]
    have hfits : Fits (sampleOps ++ [(.number 2, none)]) := .of_length_le (by decide +kernel)
    exact hfits sampleOps _ none List.prefix_rfl
  exact ⟨t, hrun, tremove_tinsert hwf hseq hfits (Nat.zero_le _) 0 7⟩

end SoftRenderer.Ltable
