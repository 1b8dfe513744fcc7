import SoftRenderer.Kit.Walk
import SoftRenderer.Util

/-!
# The paths of a dump

Where a table comes up again, the dump prints a path instead. This path is the keys of a walk from
the root to the table, so it can be followed; and if keys can be told apart by their texts and have
no dot in them, it leads to no other table.
-/

namespace SoftRenderer

open Kit

namespace Util

variable {τ : Type}

/-- `t[k] = u` -/
def HasField (heap : LuaHeap τ) (t : τ) (k : TableKey) (u : τ) : Prop := (k, .table u) ∈ heap t

def pathText (ks : List TableKey) : String := ks.foldl (fun name k => name ++ "." ++ k.text) ""

theorem pathText_snoc (ks : List TableKey) (k : TableKey) :
    pathText (ks ++ [k]) = pathText ks ++ "." ++ k.text := by
  rw [pathText, List.foldl_append]
  rfl

theorem DumpLines.walk_of_recorded {heap : LuaHeap τ} {root : τ} {lines : DumpLines τ} {t : τ}
    {ks : List TableKey} (hwalk : Walk (HasField heap) root ks t) (hfields : lines.fields ⊆ heap t)
    (h : lines.Shows heap (pathText ks)) {u : τ} {path : String} (hu : (u, path) ∈ lines.recorded) :
    ∃ ks', Walk (HasField heap) root ks' u ∧ path = pathText ks' := by
  induction lines generalizing t ks with
  | nil => cases hu
  | scalar k text rest ih => exact ih hwalk (List.cons_subset.mp hfields).2 h hu
  | reference k v path' rest ih => exact ih hwalk (List.cons_subset.mp hfields).2 h hu
  | subtable k v path' lines rest ihlines ihrest =>
      obtain ⟨hfield, hfields'⟩ := List.cons_subset.mp hfields
      obtain ⟨rfl, hsub, hlines, hrest⟩ := h
      have hwalkV := hwalk.snoc (k := k) (u := v) hfield
      rw [← pathText_snoc] at hlines
      rw [recorded, List.cons_append, List.mem_cons, List.mem_append] at hu
      rcases hu with hu | hu | hu
      · obtain ⟨rfl, rfl⟩ := Prod.mk.inj hu
        exact ⟨_, hwalkV, (pathText_snoc ks k).symm⟩
      · exact ihlines hwalkV (hsub ▸ List.Subset.refl _) hlines hu
      · exact ihrest hwalk hfields' hrest hu

theorem DumpsOnce.walk_of_references {heap : LuaHeap τ} {root : τ} {out : String}
    {lines : DumpLines τ} (h : DumpsOnce heap root out lines) {u : τ} {path : String}
    (hu : (u, path) ∈ lines.references) :
    (u = root ∧ path = ".") ∨ ∃ ks, Walk (HasField heap) root ks u ∧ path = pathText ks := by
  rcases List.mem_cons.mp (h.references _ hu) with heq | hrec
  · exact .inl (Prod.mk.inj heq)
  · have hfields : lines.fields ⊆ heap root := h.fields ▸ List.Subset.refl _
    have hwalk : Walk (HasField heap) root [] root := .nil
    exact .inr (DumpLines.walk_of_recorded hwalk hfields h.shows hrec)

theorem DumpsOnce.path_unique {heap : LuaHeap τ} {root : τ} {out : String} {lines : DumpLines τ}
    (h : DumpsOnce heap root out lines) {u : τ} {path path' : String}
    (hu : (u, path) ∈ lines.references) (hu' : (u, path') ∈ lines.references) : path = path' := by
  have hnodup : (((root, ".") :: lines.recorded).map Prod.fst).Nodup := h.expanded_nodup
  have heq := List.inj_on_of_nodup_map hnodup (h.references _ hu) (h.references _ hu') rfl
  exact (Prod.mk.inj heq).2

/-- In the tables that `root` leads to, no key has a dot or an empty text, and different keys of one
table have different texts. -/
structure ClearKeys (heap : LuaHeap τ) (root : τ) : Prop where
  no_dot : ∀ t, Reaches heap TableField.target root t → ∀ field ∈ heap t,
    '.' ∉ field.1.text.toList
  ne_empty : ∀ t, Reaches heap TableField.target root t → ∀ field ∈ heap t,
    field.1.text.toList ≠ []
  unique : ∀ t, Reaches heap TableField.target root t → ∀ field ∈ heap t, ∀ field' ∈ heap t,
    field.1.text = field'.1.text → field = field'

theorem reaches_of_walk {heap : LuaHeap τ} {root : τ} {ks : List TableKey} {u : τ}
    (h : Walk (HasField heap) root ks u) : Reaches heap TableField.target root u := by
  induction h with
  | nil => exact .refl
  | snoc hwalk hfield ih => exact ih.tail ⟨_, hfield, rfl⟩

def pathWords (ks : List TableKey) : List (List Char) := ks.map fun k => k.text.toList

theorem toList_pathText (ks : List TableKey) :
    (pathText ks).toList = joined '.' (pathWords ks) := by
  induction ks using List.reverseRecOn with
  | nil => rfl
  | append_singleton ks k ih =>
      rw [pathText_snoc, String.toList_append, String.toList_append, ih]
      simp [pathWords, joined]

namespace ClearKeys

variable {heap : LuaHeap τ} {root : τ}

theorem words (h : ClearKeys heap root) {ks : List TableKey} {u : τ}
    (hwalk : Walk (HasField heap) root ks u) : ∀ w ∈ pathWords ks, '.' ∉ w ∧ w ≠ [] := by
  induction hwalk with
  | nil => simp [pathWords]
  | snoc hwalk hfield ih =>
      have hreach := reaches_of_walk hwalk
      intro w hw
      rw [pathWords, List.map_append, List.mem_append] at hw
      rcases hw with hw | hw
      · exact ih w hw
      · obtain rfl := List.mem_singleton.mp hw
        exact ⟨h.no_dot _ hreach _ hfield, h.ne_empty _ hreach _ hfield⟩

theorem eq_of_pathText_eq (h : ClearKeys heap root) {ks ks' : List TableKey} {u u' : τ}
    (hwalk : Walk (HasField heap) root ks u) (hwalk' : Walk (HasField heap) root ks' u')
    (hpath : pathText ks = pathText ks') : u = u' := by
  have hjoined : joined '.' (pathWords ks) = joined '.' (pathWords ks') := by
    rw [← toList_pathText, ← toList_pathText, hpath]
  have hwords := joined_inj (fun w hw => (h.words hwalk w hw).1)
    (fun w hw => (h.words hwalk' w hw).1) hjoined
  refine Walk.unique ?_ hwalk hwalk' hwords
  intro ks t ht k u k' u' hu hu' htext
  have hfield := h.unique t (reaches_of_walk ht) _ hu _ hu' (String.toList_injective htext)
  exact LuaObject.table.inj (Prod.mk.inj hfield).2

/-- The path of the root would need a key without a text. -/
theorem pathText_ne_dot (h : ClearKeys heap root) {ks : List TableKey} {u : τ}
    (hwalk : Walk (HasField heap) root ks u) : pathText ks ≠ "." := by
  intro hpath
  have hjoined : joined '.' (pathWords ks) = joined '.' [[]] := by
    rw [← toList_pathText, hpath]
    rfl
  have hwords := joined_inj (fun w hw => (h.words hwalk w hw).1) (by simp) hjoined
  have hempty := h.words hwalk [] (by simp [hwords])
  exact hempty.2 rfl

end ClearKeys

theorem DumpsOnce.eq_of_references {heap : LuaHeap τ} {root : τ} (hkeys : ClearKeys heap root)
    {out : String} {lines : DumpLines τ} (h : DumpsOnce heap root out lines) {u u' : τ}
    {path : String} (hu : (u, path) ∈ lines.references) (hu' : (u', path) ∈ lines.references) :
    u = u' := by
  rcases h.walk_of_references hu with ⟨hroot, hpath⟩ | ⟨ks, hwalk, hpath⟩
  · rcases h.walk_of_references hu' with ⟨hroot', -⟩ | ⟨ks', hwalk', hpath'⟩
    · rw [hroot, hroot']
    · exact absurd (hpath'.symm.trans hpath) (hkeys.pathText_ne_dot hwalk')
  · rcases h.walk_of_references hu' with ⟨-, hpath'⟩ | ⟨ks', hwalk', hpath'⟩
    · exact absurd (hpath.symm.trans hpath') (hkeys.pathText_ne_dot hwalk)
    · exact hkeys.eq_of_pathText_eq hwalk hwalk' (hpath.symm.trans hpath')

/-- The text is that of lines whose paths can be followed; and if keys can be told apart, lines show
the same path just when they show the same table. -/
theorem toString_paths [DecidableEq τ] {heap : LuaHeap τ} {fuel : ℕ} {root : τ} {out : String}
    (hrun : toString heap fuel (some root) = some out) :
    ∃ lines, DumpsOnce heap root out lines ∧
      (∀ u path, (u, path) ∈ lines.references →
        (u = root ∧ path = ".") ∨ ∃ ks, Walk (HasField heap) root ks u ∧ path = pathText ks) ∧
      (ClearKeys heap root → ∀ u u' path path', (u, path) ∈ lines.references →
        (u', path') ∈ lines.references → (path = path' ↔ u = u')) := by
  obtain ⟨lines, h⟩ := dumpsOnce_of_run hrun
  refine ⟨lines, h, fun u path hu => h.walk_of_references hu, ?_⟩
  intro hkeys u u' path path' hu hu'
  constructor
  · rintro rfl
    exact h.eq_of_references hkeys hu hu'
  · rintro rfl
    exact h.path_unique hu hu'

theorem clearKeys_sharedPair : ClearKeys sharedPair 0 where
  no_dot := by
    rintro (_ | _ | t) - field hfield
    · fin_cases hfield <;> decide
    · fin_cases hfield; decide
    · cases hfield
  ne_empty := by
    rintro (_ | _ | t) - field hfield
    · fin_cases hfield <;> decide
    · fin_cases hfield; decide
    · cases hfield
  unique := by
    rintro (_ | _ | t) - field hfield field' hfield' htext
    · fin_cases hfield <;> fin_cases hfield' <;> first | rfl | exact absurd htext (by decide)
    · fin_cases hfield; fin_cases hfield'; rfl
    · cases hfield

theorem toString_paths_sharedPair :
    toString sharedPair 2 (some 0) = some "+l+up \x7b.\x7d\n+r \x7b.l\x7d\n+n [7]" ∧
      ∃ lines, DumpsOnce sharedPair 0 "+l+up \x7b.\x7d\n+r \x7b.l\x7d\n+n [7]" lines ∧
        (∀ u path, (u, path) ∈ lines.references → (u = 0 ∧ path = ".") ∨
          ∃ ks, Walk (HasField sharedPair) 0 ks u ∧ path = pathText ks) ∧
        ∀ u u' path path', (u, path) ∈ lines.references → (u', path') ∈ lines.references →
          (path = path' ↔ u = u') := by
  have hrun : toString sharedPair 2 (some 0) =
      some "+l+up \x7b.\x7d\n+r \x7b.l\x7d\n+n [7]" := rfl
  obtain ⟨lines, honce, hlead, hinjective⟩ := toString_paths hrun
  exact ⟨hrun, lines, honce, hlead, hinjective clearKeys_sharedPair⟩

end Util
end SoftRenderer
