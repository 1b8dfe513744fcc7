import SoftRenderer.Class
import SoftRenderer.Kit.Lookups

/-!
# Lookups between definitions

The method tables remember every lookup, but no later lookup can tell: until the next definition the
answers stay as they are, and the tables depend on which lookups were made, not on their order or
number.
-/

namespace SoftRenderer.Class

open Kit Kit.Hierarchy Access

variable {V : Type} (h : Hierarchy ℕ) (run : List (Access V))

def lookups (ls : List (ℕ × MethodName)) : List (Access V) := ls.map fun l => lookup l.1 l.2

/-- The classes that are asked for the name. -/
def asked (ls : List (ℕ × MethodName)) (k : MethodName) : List ℕ :=
  ls.filterMap fun l => if l.2 = k then some l.1 else none

theorem mem_asked_iff {ls : List (ℕ × MethodName)} {k : MethodName} {c : ℕ} :
    c ∈ asked ls k ↔ (c, k) ∈ ls := by
  rw [asked, List.mem_filterMap]
  constructor
  · rintro ⟨⟨d, j⟩, hmem, hl⟩
    obtain ⟨rfl, rfl⟩ : j = k ∧ d = c := by simpa using hl
    exact hmem
  · exact fun hmem => ⟨(c, k), hmem, if_pos rfl⟩

theorem filled_tables (ls : List (ℕ × MethodName)) (k : MethodName) :
    h.Filled (column (tables h run) k) (asked ls k)
      (column (tables h (run ++ lookups ls)) k) := by
  induction ls using List.reverseRecOn with
  | nil =>
      rw [lookups, List.map_nil, List.append_nil]
      exact .nil
  | append_singleton ls l ih =>
      have hrun : run ++ lookups (ls ++ [l]) = (run ++ lookups ls) ++ [lookup l.1 l.2] := by
        simp [lookups]
      rw [hrun, column_tables_lookup]
      split_ifs with hk
      · subst hk
        have hasked : asked (ls ++ [l]) l.2 = asked ls l.2 ++ [l.1] := by simp [asked]
        rw [hasked]
        exact ih.fill l.1
      · have hasked : asked (ls ++ [l]) k = asked ls k := by simp [asked, Ne.symm hk]
        rw [hasked]
        exact ih

/-- Two series of lookups after one run that ask the same questions, in any order and any number of
times, leave the same tables, and every answer is still what it was before them. -/
theorem tables_lookups {ls1 ls2 : List (ℕ × MethodName)} (hset : ∀ l, l ∈ ls1 ↔ l ∈ ls2) :
    tables h (run ++ lookups ls1) = tables h (run ++ lookups ls2) ∧
      ∀ c k, (index h (tables h (run ++ lookups ls1)) c k).1 = (index h (tables h run) c k).1 := by
  constructor
  · funext c k
    have hcolumn := (filled_tables h run ls1 k).unique (filled_tables h run ls2 k) fun c => by
      rw [mem_asked_iff, mem_asked_iff, hset]
    exact congrFun hcolumn c
  · intro c k
    rw [(index_eq ..).1, (index_eq ..).1]
    exact (filled_tables h run ls1 k).answer_eq c

theorem tables_lookups_draw :
    tables (classes [none, some 0])
        ([define 0 ⟨"draw", by simp⟩ 1] ++
          lookups [(1, ⟨"draw", by simp⟩), (0, ⟨"draw", by simp⟩)]) =
      tables (classes [none, some 0])
        ([define 0 ⟨"draw", by simp⟩ 1] ++ lookups [(0, ⟨"draw", by simp⟩),
          (1, ⟨"draw", by simp⟩), (1, ⟨"draw", by simp⟩)]) :=
  (tables_lookups (classes [none, some 0]) [define 0 ⟨"draw", by simp⟩ 1]
    fun l => by simp [or_comm]).1

end SoftRenderer.Class
