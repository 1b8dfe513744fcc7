import SoftRenderer.Ltablib
import SoftRenderer.Util

/-!
# The lines of a dump

`to_string` collects lines in a new table and concatenates them in the end. The dump of `Util` has a
list in its place, which gives the same text.
-/

namespace SoftRenderer.Ltable

open Kit Table

variable {K S O V : Type} [Field K] [LinearOrder K] [FloorRing K] [DecidableEq S] [DecidableEq O]
  [IsStrictOrderedRing K] {hs : Hashes K S O} {t : Table (Key K S O) V} {xs : List V}

theorem WellFormed.concatLoop_spec (h : WellFormed hs t) {text : V → Option String}
    {ss : List String} (sep b : String) (j : ℤ) (hss : ss ≠ [])
    (htext : ∀ i : ℕ, (numAt hs t (j + i)).bind text = ss[i]?) :
    (concatLoop hs text t sep (ss.length - 1) j b >>= fun b =>
      addfield hs text t b (j + (ss.length - 1 : ℕ))) = .ok (b ++ Util.tconcat ss sep) := by
  induction ss generalizing b j with
  | nil => exact absurd rfl hss
  | cons s rest ih =>
      have hfirst := htext 0
      rw [Nat.cast_zero, add_zero] at hfirst
      cases rest with
      | nil =>
          change addfield hs text t b (j + (0 : ℕ)) = _
          rw [Nat.cast_zero, add_zero, addfield, h.luaRawgeti_eq, hfirst]
          rfl
      | cons s' rest =>
          have hrest (i : ℕ) : (numAt hs t (j + 1 + i)).bind text = (s' :: rest)[i]? := by
            have hnext := htext (i + 1)
            push_cast at hnext
            rwa [← add_assoc, add_right_comm] at hnext
          have hloop := ih (b ++ s ++ sep) (j + 1) (List.cons_ne_nil _ _) hrest
          have hlast : j + ((s :: s' :: rest).length - 1 : ℕ) =
              j + 1 + ((s' :: rest).length - 1 : ℕ) := by
            simp only [List.length_cons]
            omega
          have hadd : addfield hs text t b j = .ok (b ++ s) := by
            rw [addfield, h.luaRawgeti_eq, hfirst]
            rfl
          have hstep : concatLoop hs text t sep ((s :: s' :: rest).length - 1) j b =
              concatLoop hs text t sep ((s' :: rest).length - 1) (j + 1) (b ++ s ++ sep) := by
            change concatLoop hs text t sep (rest.length + 1) j b = _
            rw [concatLoop, hadd]
            rfl
          rw [hstep, hlast, hloop, Util.tconcat]
          simp only [String.append_assoc]

theorem WellFormed.tconcat_eq (h : WellFormed hs t) (hseq : IsSequence hs t xs)
    {text : V → Option String} {ss : List String} (htext : xs.map text = ss.map some)
    (sep : String) : tconcat hs text t sep none none = .ok (Util.tconcat ss sep) := by
  have hlen : xs.length = ss.length := by simpa using congrArg List.length htext
  have hget (i : ℕ) : (numAt hs t (1 + i)).bind text = ss[i]? := by
    have hmap := congrArg (fun l => l[i]?) htext
    simp only [List.getElem?_map] at hmap
    rw [add_comm, hseq i]
    cases hx : xs[i]? <;> cases hs : ss[i]? <;> simp_all
  rw [tconcat, hseq.luaHGetn_eq h, hlen]
  cases ss with
  | nil => rfl
  | cons s rest =>
      have hloop := h.concatLoop_spec sep "" 1 (List.cons_ne_nil s rest) hget
      have hn : (((s :: rest).length : ℤ) - 1).toNat = (s :: rest).length - 1 := by omega
      have hmax : max 1 ((s :: rest).length : ℤ) = (s :: rest).length := by
        rw [List.length_cons]
        omega
      have hlast : (1 : ℤ) + ((s :: rest).length - 1 : ℕ) = (s :: rest).length := by
        rw [List.length_cons]
        omega
      rw [hlast, String.empty_append] at hloop
      simp only [bind, Except.bind, pure, Except.pure, Except.map, Option.getD_none, hn, hmax,
        if_true] at hloop ⊢
      exact hloop

/-- The lines of `to_string`: `tinsert` for each of them, on a new table. -/
def insertLines (hs : Hashes K S O) (depth : ℕ) (xs : List V) (t : Table (Key K S O) V) :
    Except TableError (Table (Key K S O) V) :=
  xs.foldlM (fun t x => tinsert hs depth t none (some x)) t

variable (hs) in
theorem insertLines_spec (depth : ℕ) {xs : List V} (hxs : xs.length ≤ maxasize) :
    ∃ t, (luaHNew 0 0 >>= insertLines hs (depth + 2) xs) = .ok t ∧ WellFormed hs t ∧
      IsSequence hs t xs ∧ ∀ k, (∀ i : ℕ, k ≠ .number ((i + 1 : ℤ) : K)) → get hs t k = none := by
  induction xs using List.reverseRecOn with
  | nil =>
      obtain ⟨t, hnew, hwf, hget⟩ := luaHNew_spec (V := V) hs (Nat.zero_le _)
        (Nat.zero_le _)
      refine ⟨t, ?_, hwf, fun i => hget _, fun k _ => hget k⟩
      rw [hnew]
      rfl
  | append_singleton xs x ih =>
      rw [List.length_append, List.length_singleton] at hxs
      obtain ⟨t, hrun, hwf, hseq, hrest⟩ := ih (by omega)
      let F : Finset (Key K S O) :=
        (Finset.range (xs.length + 1)).image fun i : ℕ => .number ((i + 1 : ℤ) : K)
      have hcard : F.card ≤ maxasize :=
        Finset.card_image_le.trans ((Finset.card_range _).le.trans hxs)
      have hin : Within hs t F := by
        intro k hk
        by_cases hnum : ∃ i : ℕ, k = .number ((i + 1 : ℤ) : K)
        · obtain ⟨i, rfl⟩ := hnum
          have hval := hseq i
          rw [numAt] at hval
          rw [hval, ne_eq, List.getElem?_eq_none_iff, not_le] at hk
          exact Finset.mem_image.mpr ⟨i, Finset.mem_range.mpr (by omega), rfl⟩
        · push Not at hnum
          exact absurd (hrest k hnum) hk
      have hnew : (.number (((xs.length + 1 : ℕ) : ℤ) : K) : Key K S O) ∈ F :=
        Finset.mem_image.mpr ⟨xs.length, Finset.mem_range.mpr (Nat.lt_succ_self _), by simp⟩
      obtain ⟨t', hinsert, hwf', -, hseq', hrest'⟩ := hwf.tinsert_spec hseq hcard hin hnew le_rfl
        (.inr ⟨rfl, rfl⟩) depth x
      rw [List.insertIdx_length_self] at hseq'
      refine ⟨t', ?_, hwf', hseq', fun k hk => (hrest' k hk).trans (hrest k hk)⟩
      have hsnoc : insertLines hs (depth + 2) (xs ++ [x]) = fun t : Table (Key K S O) V =>
          insertLines hs (depth + 2) xs t >>= fun t =>
            tinsert hs (depth + 2) t none (some x) := by
        funext t
        rw [insertLines, List.foldlM_append]
        exact bind_congr fun t => by simp
      rw [hsnoc, ← bind_assoc, hrun]
      exact hinsert

/-- Lines that are inserted into a new table and then concatenated give the text that the list of
these lines gives. -/
theorem tconcat_insertLines (depth : ℕ) {lines : List String} (hlines : lines.length ≤ maxasize) :
    ∃ t, (luaHNew 0 0 >>= insertLines hs (depth + 2) lines) = .ok t ∧
      luaHGetn hs t = .ok lines.length ∧
      ∀ sep, tconcat hs some t sep none none = .ok (Util.tconcat lines sep) := by
  obtain ⟨t, hrun, hwf, hseq, -⟩ := insertLines_spec hs depth hlines
  exact ⟨t, hrun, hseq.luaHGetn_eq hwf, fun sep => hwf.tconcat_eq hseq rfl sep⟩

theorem tconcat_insertLines_sample :
    ∃ t, (luaHNew 0 0 >>= insertLines sampleHashes 2 ["+x [1]", "+y [2]"]) = .ok t ∧
      luaHGetn sampleHashes t = .ok 2 ∧
      ∀ sep, tconcat sampleHashes some t sep none none =
        .ok (Util.tconcat ["+x [1]", "+y [2]"] sep) :=
  tconcat_insertLines 0 (by decide +kernel)

end SoftRenderer.Ltable
