import SoftRenderer.Kit.Traversal

/-!
# The dump of a table

`to_string` writes out a table with all tables that it leads to. A table gets a path in the cache
before it is written out, and where it comes up again only this path is printed. The text of a run
is read as lines that know the tables they stand for, and what is proved of the lines is proved of
the text that they give.
-/

namespace SoftRenderer

open Kit

/-- A key, by its `tostring`. Every key but `false` counts as true. -/
structure TableKey where
  text : String
  truthy : Bool

/-- A value of a field: a table, or anything else by its `tostring`. -/
inductive LuaObject (τ : Type)
  | table (t : τ)
  | other (text : String)

abbrev TableField (τ : Type) := TableKey × LuaObject τ

/-- The fields of every table, in the order of `pairs`. -/
abbrev LuaHeap (τ : Type) := τ → List (TableField τ)

def TableField.target {τ : Type} (field : TableField τ) : Option τ :=
  match field.2 with
  | .table t => some t
  | .other _ => none

namespace Util

abbrev PathCache (τ : Type) := τ → Option String

def srep (s : String) : ℕ → String
  | 0 => ""
  | n + 1 => s ++ srep s n

def tconcat : List String → String → String
  | [], _ => ""
  | [s], _ => s
  | s :: t :: rest, sep => s ++ sep ++ tconcat (t :: rest) sep

variable {τ : Type} [DecidableEq τ]

/-- `next(t, k) and "|" or " "`, where `rest` are the fields after `k`. -/
def branch : List (TableField τ) → String
  | (k, _) :: _ => if k.truthy then "|" else " "
  | [] => " "

/-- The loop of `_dump`, with the recursive call as a parameter. -/
def dumpLoop (dump : τ → String → String → PathCache τ → Option (String × PathCache τ))
    (space name : String) :
    List (TableField τ) → List String → PathCache τ → Option (List String × PathCache τ)
  | [], temp, cache => some (temp, cache)
  | (k, .other text) :: rest, temp, cache =>
      dumpLoop dump space name rest (temp ++ ["+" ++ k.text ++ " [" ++ text ++ "]"]) cache
  | (k, .table u) :: rest, temp, cache =>
      match cache u with
      | some path =>
          dumpLoop dump space name rest (temp ++ ["+" ++ k.text ++ " \x7b" ++ path ++ "\x7d"]) cache
      | none => do
          let newKey := name ++ "." ++ k.text
          let indent := space ++ branch rest ++ srep " " k.text.utf8ByteSize
          let (sub, cache) ← dump u indent newKey (Function.update cache u (some newKey))
          dumpLoop dump space name rest (temp ++ ["+" ++ k.text ++ sub]) cache

/-- `_dump`. The fuel bounds the depth of the recursion. -/
def dump (heap : LuaHeap τ) : ℕ → τ → String → String → PathCache τ →
    Option (String × PathCache τ)
  | 0, _, _, _, _ => none
  | fuel + 1, t, space, name, cache => do
      let (temp, cache) ← dumpLoop (dump heap fuel) space name (heap t) [] cache
      return (tconcat temp ("\n" ++ space), cache)

def rootCache (root : τ) : PathCache τ := Function.update (fun _ => none) root (some ".")

def toString (heap : LuaHeap τ) (fuel : ℕ) : Option τ → Option String
  | none => some "nil"
  | some root => (dump heap fuel root "" "" (rootCache root)).map Prod.fst

/-- The lines of a table with the tables that they stand for: a value that is no table, a table
that is shown by its path, or a table that is written out, with its own lines. -/
inductive DumpLines (τ : Type)
  | nil
  | scalar (k : TableKey) (text : String) (rest : DumpLines τ)
  | reference (k : TableKey) (u : τ) (path : String) (rest : DumpLines τ)
  | subtable (k : TableKey) (u : τ) (path : String) (lines rest : DumpLines τ)

def plusCount (s : String) : ℕ := s.toList.count '+'

def fieldsOf (heap : LuaHeap τ) (ts : List τ) : List (τ × TableField τ) :=
  ts.flatMap fun t => (heap t).map fun field => (t, field)

section FieldsOf

omit [DecidableEq τ]

theorem fieldsOf_append (heap : LuaHeap τ) (ts us : List τ) :
    fieldsOf heap (ts ++ us) = fieldsOf heap ts ++ fieldsOf heap us := List.flatMap_append

theorem fieldsOf_cons (heap : LuaHeap τ) (t : τ) (ts : List τ) :
    fieldsOf heap (t :: ts) = (heap t).map (fun field => (t, field)) ++ fieldsOf heap ts := rfl

end FieldsOf

namespace DumpLines

omit [DecidableEq τ]

def fields : DumpLines τ → List (TableField τ)
  | nil => []
  | scalar k text rest => (k, .other text) :: rest.fields
  | reference k u _ rest => (k, .table u) :: rest.fields
  | subtable k u _ _ rest => (k, .table u) :: rest.fields

def texts : DumpLines τ → String → List String
  | nil, _ => []
  | scalar k text rest, space => ("+" ++ k.text ++ " [" ++ text ++ "]") :: rest.texts space
  | reference k _ path rest, space =>
      ("+" ++ k.text ++ " \x7b" ++ path ++ "\x7d") :: rest.texts space
  | subtable k _ _ lines rest, space =>
      let indent := space ++ branch rest.fields ++ srep " " k.text.utf8ByteSize
      ("+" ++ k.text ++ tconcat (lines.texts indent) ("\n" ++ indent)) :: rest.texts space

def text (lines : DumpLines τ) (space : String) : String :=
  tconcat (lines.texts space) ("\n" ++ space)

def recorded : DumpLines τ → List (τ × String)
  | nil => []
  | scalar _ _ rest => rest.recorded
  | reference _ _ _ rest => rest.recorded
  | subtable _ u path lines rest => (u, path) :: lines.recorded ++ rest.recorded

/-- The tables that come up again, with the paths that are printed for them. -/
def references : DumpLines τ → List (τ × String)
  | nil => []
  | scalar _ _ rest => rest.references
  | reference _ u path rest => (u, path) :: rest.references
  | subtable _ _ _ lines rest => lines.references ++ rest.references

def expanded (lines : DumpLines τ) : List τ := lines.recorded.map Prod.fst

def entries : DumpLines τ → τ → List (τ × TableField τ)
  | nil, _ => []
  | scalar k text rest, t => (t, (k, .other text)) :: rest.entries t
  | reference k u _ rest, t => (t, (k, .table u)) :: rest.entries t
  | subtable k u _ lines rest, t => (t, (k, .table u)) :: lines.entries u ++ rest.entries t

def pluses : DumpLines τ → ℕ
  | nil => 0
  | scalar k text rest => 1 + plusCount k.text + plusCount text + rest.pluses
  | reference k _ path rest => 1 + plusCount k.text + plusCount path + rest.pluses
  | subtable k _ _ lines rest => 1 + plusCount k.text + lines.pluses + rest.pluses

/-- Under a table of the path `name`, each table that is written out has the lines of its own fields
and the path of the field that it is written out for. -/
def Shows (heap : LuaHeap τ) : DumpLines τ → String → Prop
  | nil, _ => True
  | scalar _ _ rest, name => rest.Shows heap name
  | reference _ _ _ rest, name => rest.Shows heap name
  | subtable k u path lines rest, name =>
      path = name ++ "." ++ k.text ∧ lines.fields = heap u ∧ lines.Shows heap path ∧
        rest.Shows heap name

theorem expanded_subtable (k : TableKey) (u : τ) (path : String) (lines rest : DumpLines τ) :
    (subtable k u path lines rest).expanded = u :: lines.expanded ++ rest.expanded := by
  simp [expanded, recorded]

theorem entries_perm {heap : LuaHeap τ} {lines : DumpLines τ} {name : String}
    (h : lines.Shows heap name) (t : τ) :
    (lines.entries t).Perm
      (lines.fields.map (fun field => (t, field)) ++ fieldsOf heap lines.expanded) := by
  induction lines generalizing t name with
  | nil => exact List.Perm.refl _
  | scalar k text rest ih => exact (ih h t).cons (t, (k, .other text))
  | reference k u path rest ih => exact (ih h t).cons (t, (k, .table u))
  | subtable k u path lines rest ihlines ihrest =>
      obtain ⟨-, hfields, hlines, hrest⟩ := h
      rw [expanded_subtable, List.cons_append, fieldsOf_cons, fieldsOf_append, ← hfields]
      refine List.Perm.cons (t, (k, LuaObject.table u)) ?_
      refine ((ihlines hlines u).append (ihrest hrest t)).trans ?_
      rw [← List.append_assoc (lines.fields.map _)]
      exact List.perm_append_comm_assoc _ _ _

end DumpLines

theorem plusCount_append (a b : String) : plusCount (a ++ b) = plusCount a + plusCount b := by
  rw [plusCount, String.toList_append, List.count_append]
  rfl

theorem plusCount_srep {s : String} (hs : plusCount s = 0) (n : ℕ) : plusCount (srep s n) = 0 := by
  induction n with
  | zero => rfl
  | succ n ih => rw [srep, plusCount_append, hs, ih]

theorem plusCount_tconcat {sep : String} (hsep : plusCount sep = 0) (temp : List String) :
    plusCount (tconcat temp sep) = (temp.map plusCount).sum := by
  induction temp with
  | nil => rfl
  | cons a temp ih =>
      cases temp with
      | nil => simp [tconcat]
      | cons b temp =>
          rw [tconcat, plusCount_append, plusCount_append, hsep, ih, add_zero]
          rfl

omit [DecidableEq τ] in
theorem plusCount_indent {space : String} (hspace : plusCount space = 0)
    (rest : List (TableField τ)) (n : ℕ) :
    plusCount (space ++ branch rest ++ srep " " n) = 0 := by
  have hbranch : plusCount (branch rest) = 0 := by
    cases rest with
    | nil => simp [branch, plusCount]
    | cons field rest =>
        rw [branch]
        split_ifs <;> simp [plusCount]
  rw [plusCount_append, plusCount_append, hspace, hbranch, plusCount_srep rfl]

theorem plusCount_plus : plusCount "+" = 1 := by simp [plusCount]

theorem plusCount_newline {space : String} (hspace : plusCount space = 0) :
    plusCount ("\n" ++ space) = 0 := by
  rw [plusCount_append, hspace]
  simp [plusCount]

theorem plusCount_line (key mark body close : String) (hmark : plusCount mark = 0)
    (hclose : plusCount close = 0) :
    plusCount ("+" ++ key ++ mark ++ body ++ close) = 1 + plusCount key + plusCount body := by
  simp only [plusCount_append, plusCount_plus, hmark, hclose, add_zero]

omit [DecidableEq τ] in
theorem DumpLines.sum_plusCount_texts (lines : DumpLines τ) {space : String}
    (hspace : plusCount space = 0) :
    ((lines.texts space).map plusCount).sum = lines.pluses := by
  induction lines generalizing space with
  | nil => rfl
  | scalar k text rest ih =>
      rw [texts, List.map_cons, List.sum_cons, ih hspace,
        plusCount_line _ _ _ _ (by simp [plusCount]) (by simp [plusCount])]
      rfl
  | reference k u path rest ih =>
      rw [texts, List.map_cons, List.sum_cons, ih hspace,
        plusCount_line _ _ _ _ (by simp [plusCount]) (by simp [plusCount])]
      rfl
  | subtable k u path lines rest ihlines ihrest =>
      have hindent := plusCount_indent hspace rest.fields k.text.utf8ByteSize
      rw [texts, List.map_cons, List.sum_cons, ihrest hspace, plusCount_append, plusCount_append,
        plusCount_tconcat (plusCount_newline hindent), ihlines hindent, plusCount_plus]
      rfl

def marks (cache : PathCache τ) : Set τ := {t | cache t ≠ none}

def Extends (cache cache' : PathCache τ) : Prop :=
  ∀ t path, cache t = some path → cache' t = some path

omit [DecidableEq τ] in
theorem Extends.trans {c c' c'' : PathCache τ} (h : Extends c c') (h' : Extends c' c'') :
    Extends c c'' := fun t path ht => h' t path (h t path ht)

theorem extends_update {cache : PathCache τ} {u : τ} (hu : cache u = none) (path : String) :
    Extends cache (Function.update cache u (some path)) := by
  intro t p ht
  have hne : t ≠ u := by
    rintro rfl
    rw [hu] at ht
    cases ht
  rwa [Function.update_of_ne hne]

theorem marks_update (cache : PathCache τ) (u : τ) (path : String) :
    marks (Function.update cache u (some path)) = insert u (marks cache) := by
  ext t
  by_cases h : t = u
  · subst h
    simp [marks]
  · simp [marks, h]

structure LoopRun (heap : LuaHeap τ) (rest : List (TableField τ)) (name : String)
    (cache cache' : PathCache τ) (lines : DumpLines τ) : Prop where
  fields : lines.fields = rest
  shows : lines.Shows heap name
  extend : Extends cache cache'
  scan : Scan heap TableField.target rest (marks cache) lines.expanded (marks cache')
  recorded : ∀ e ∈ lines.recorded, cache' e.1 = some e.2
  references : ∀ e ∈ lines.references, cache' e.1 = some e.2

namespace LoopRun

variable {heap : LuaHeap τ} {k : TableKey} {u : τ} {rest : List (TableField τ)} {name : String}
  {cache cache1 cache' : PathCache τ} {lines sub : DumpLines τ}

omit [DecidableEq τ]

theorem nil : LoopRun heap [] name cache cache .nil :=
  ⟨rfl, trivial, fun _ _ h => h, Scan.nil _, by simp [DumpLines.recorded],
    by simp [DumpLines.references]⟩

theorem scalar (h : LoopRun heap rest name cache cache' lines) (text : String) :
    LoopRun heap ((k, .other text) :: rest) name cache cache' (.scalar k text lines) :=
  ⟨congrArg _ h.fields, h.shows, h.extend, Scan.skip rfl h.scan, h.recorded, h.references⟩

theorem reference (h : LoopRun heap rest name cache cache' lines) {path : String}
    (hu : cache u = some path) :
    LoopRun heap ((k, .table u) :: rest) name cache cache' (.reference k u path lines) where
  fields := congrArg _ h.fields
  shows := h.shows
  extend := h.extend
  scan := by
    have hmark : u ∈ marks cache := by simp [marks, hu]
    exact Scan.seen rfl hmark h.scan
  recorded := h.recorded
  references := by
    intro e he
    rcases List.mem_cons.mp he with rfl | he
    · exact h.extend u path hu
    · exact h.references e he

variable [DecidableEq τ]

theorem subtable (hu : cache u = none)
    (hsub : LoopRun heap (heap u) (name ++ "." ++ k.text)
      (Function.update cache u (some (name ++ "." ++ k.text))) cache1 sub)
    (h : LoopRun heap rest name cache1 cache' lines) :
    LoopRun heap ((k, .table u) :: rest) name cache cache'
      (.subtable k u (name ++ "." ++ k.text) sub lines) where
  fields := congrArg _ h.fields
  shows := ⟨rfl, hsub.fields, hsub.shows, h.shows⟩
  extend := (extends_update hu _).trans (hsub.extend.trans h.extend)
  scan := by
    have hscan := hsub.scan
    rw [marks_update] at hscan
    rw [DumpLines.expanded_subtable]
    exact Scan.new rfl (not_not_intro hu) hscan h.scan
  recorded := by
    intro e he
    rw [DumpLines.recorded, List.cons_append, List.mem_cons, List.mem_append] at he
    rcases he with rfl | he | he
    · exact h.extend _ _ (hsub.extend _ _ (Function.update_self _ _ _))
    · exact h.extend _ _ (hsub.recorded e he)
    · exact h.recorded e he
  references := by
    intro e he
    rcases List.mem_append.mp he with he | he
    · exact h.extend _ _ (hsub.references e he)
    · exact h.references e he

end LoopRun

def DumpRuns (heap : LuaHeap τ) (n : ℕ) : Prop :=
  ∀ u space name cache out cache', dump heap n u space name cache = some (out, cache') →
    ∃ lines : DumpLines τ, out = lines.text space ∧ LoopRun heap (heap u) name cache cache' lines

theorem dumpLoop_run {heap : LuaHeap τ} {n : ℕ} (hdump : DumpRuns heap n) {space name : String}
    (rest : List (TableField τ)) {temp temp' : List String} {cache cache' : PathCache τ}
    (hrun : dumpLoop (dump heap n) space name rest temp cache = some (temp', cache')) :
    ∃ lines, temp' = temp ++ lines.texts space ∧ LoopRun heap rest name cache cache' lines := by
  induction rest generalizing temp cache with
  | nil =>
      cases hrun
      exact ⟨.nil, (List.append_nil _).symm, .nil⟩
  | cons field rest ih =>
      rcases field with ⟨k, u | text⟩
      · rw [dumpLoop] at hrun
        cases hu : cache u with
        | some path =>
            simp only [hu] at hrun
            obtain ⟨lines, rfl, h⟩ := ih hrun
            exact ⟨_, by rw [DumpLines.texts, List.append_assoc, List.singleton_append],
              h.reference hu⟩
        | none =>
            simp only [hu] at hrun
            obtain ⟨⟨out, cache1⟩, hd, hrest⟩ := Option.bind_eq_some_iff.mp hrun
            obtain ⟨sub, rfl, hsub⟩ := hdump _ _ _ _ _ _ hd
            obtain ⟨lines, rfl, h⟩ := ih hrest
            refine ⟨_, ?_, hsub.subtable hu h⟩
            rw [DumpLines.texts, h.fields, List.append_assoc, List.singleton_append]
            rfl
      · rw [dumpLoop] at hrun
        obtain ⟨lines, rfl, h⟩ := ih hrun
        exact ⟨_, by rw [DumpLines.texts, List.append_assoc, List.singleton_append],
          h.scalar text⟩

theorem dump_run (heap : LuaHeap τ) (n : ℕ) : DumpRuns heap n := by
  induction n with
  | zero =>
      intro u space name cache out cache' hrun
      cases hrun
  | succ n ih =>
      intro u space name cache out cache' hrun
      obtain ⟨⟨temp, cache1⟩, hloop, hreturn⟩ := Option.bind_eq_some_iff.mp hrun
      cases hreturn
      obtain ⟨lines, rfl, h⟩ := dumpLoop_run ih (heap u) hloop
      exact ⟨lines, rfl, h⟩

theorem dumpLoop_mono {d d' : τ → String → String → PathCache τ → Option (String × PathCache τ)}
    (hd : ∀ u space name c r, d u space name c = some r → d' u space name c = some r)
    {space name : String} (rest : List (TableField τ)) {temp : List String} {c : PathCache τ}
    {r : List String × PathCache τ} (hrun : dumpLoop d space name rest temp c = some r) :
    dumpLoop d' space name rest temp c = some r := by
  induction rest generalizing temp c with
  | nil => exact hrun
  | cons field rest ih =>
      rcases field with ⟨k, u | text⟩
      · rw [dumpLoop] at hrun ⊢
        cases hu : c u with
        | some path =>
            simp only [hu] at hrun ⊢
            exact ih hrun
        | none =>
            simp only [hu] at hrun ⊢
            obtain ⟨result, hsub, hrest⟩ := Option.bind_eq_some_iff.mp hrun
            exact Option.bind_eq_some_iff.mpr ⟨result, hd _ _ _ _ _ hsub, ih hrest⟩
      · rw [dumpLoop] at hrun ⊢
        exact ih hrun

theorem dump_mono (heap : LuaHeap τ) (n : ℕ) {u : τ} {space name : String} {c : PathCache τ}
    {r : String × PathCache τ} (hrun : dump heap n u space name c = some r) :
    dump heap (n + 1) u space name c = some r := by
  induction n generalizing u space name c r with
  | zero => cases hrun
  | succ n ih =>
      obtain ⟨result, hloop, hreturn⟩ := Option.bind_eq_some_iff.mp hrun
      have hloop' := dumpLoop_mono (fun _ _ _ _ _ h => ih h) _ hloop
      exact Option.bind_eq_some_iff.mpr ⟨result, hloop', hreturn⟩

def unmarked (S : Finset τ) (cache : PathCache τ) : Finset τ := S.filter fun t => cache t = none

omit [DecidableEq τ] in
theorem unmarked_subset (S : Finset τ) {c c' : PathCache τ} (h : Extends c c') :
    unmarked S c' ⊆ unmarked S c := by
  intro t ht
  obtain ⟨htS, hnone⟩ := Finset.mem_filter.mp ht
  refine Finset.mem_filter.mpr ⟨htS, ?_⟩
  cases hc : c t with
  | none => rfl
  | some path =>
      rw [h t path hc] at hnone
      cases hnone

theorem card_unmarked_update {S : Finset τ} {c : PathCache τ} {u : τ} (huS : u ∈ S)
    (hu : c u = none) (path : String) :
    (unmarked S (Function.update c u (some path))).card < (unmarked S c).card := by
  apply Finset.card_lt_card
  refine ⟨unmarked_subset S (extends_update hu path), ?_⟩
  intro hsub
  have hmem := hsub (Finset.mem_filter.mpr ⟨huS, hu⟩)
  have hnone := (Finset.mem_filter.mp hmem).2
  rw [Function.update_self] at hnone
  cases hnone

/-- With more fuel than tables of `S` without a path, a call of `_dump` returns. -/
def DumpReturns (heap : LuaHeap τ) (S : Finset τ) (n : ℕ) : Prop :=
  ∀ u ∈ S, ∀ space name cache, (unmarked S cache).card < n →
    ∃ r, dump heap n u space name cache = some r

theorem dumpLoop_returns {heap : LuaHeap τ} {S : Finset τ} {n : ℕ} (hdump : DumpReturns heap S n)
    {space name : String} (rest : List (TableField τ))
    (hrest : ∀ field ∈ rest, ∀ u, field.target = some u → u ∈ S) (temp : List String)
    {cache : PathCache τ} (hcard : (unmarked S cache).card ≤ n) :
    ∃ r, dumpLoop (dump heap n) space name rest temp cache = some r := by
  induction rest generalizing temp cache with
  | nil => exact ⟨(temp, cache), rfl⟩
  | cons field rest ih =>
      have hrest' : ∀ field ∈ rest, ∀ u, field.target = some u → u ∈ S := by
        intro f hf
        exact hrest f (List.mem_cons_of_mem _ hf)
      rcases field with ⟨k, u | text⟩
      · rw [dumpLoop]
        cases hu : cache u with
        | some path => exact ih hrest' _ hcard
        | none =>
            have huS : u ∈ S := hrest (k, .table u) List.mem_cons_self u rfl
            have hless := (card_unmarked_update huS hu (name ++ "." ++ k.text)).trans_le hcard
            obtain ⟨⟨out, cache1⟩, hsub⟩ := hdump u huS
              (space ++ branch rest ++ srep " " k.text.utf8ByteSize) (name ++ "." ++ k.text) _ hless
            obtain ⟨lines, -, hrun⟩ := dump_run heap n _ _ _ _ _ _ hsub
            have hextend := (extends_update hu (name ++ "." ++ k.text)).trans hrun.extend
            have hcard1 := (Finset.card_le_card (unmarked_subset S hextend)).trans hcard
            simp only [hsub]
            exact ih hrest' _ hcard1
      · exact ih hrest' _ hcard

theorem dump_returns {heap : LuaHeap τ} {S : Finset τ}
    (hS : ∀ t ∈ S, ∀ u, Edge heap TableField.target t u → u ∈ S) (n : ℕ) :
    DumpReturns heap S n := by
  induction n with
  | zero =>
      intro u hu space name cache hcard
      exact absurd hcard (Nat.not_lt_zero _)
  | succ n ih =>
      intro u hu space name cache hcard
      have htargets : ∀ field ∈ heap u, ∀ v, field.target = some v → v ∈ S := by
        intro field hfield v hv
        exact hS u hu v ⟨field, hfield, hv⟩
      obtain ⟨⟨temp, cache1⟩, hloop⟩ :=
        dumpLoop_returns ih (heap u) htargets [] (Nat.lt_succ_iff.mp hcard)
      rw [dump, hloop]
      exact ⟨_, rfl⟩

/-- `out` is the text of `lines`, which show every table that `root` leads to: each of them is
written out once, with a line for each of its fields, and wherever else one comes up its line has
the path under which it was written out, or `.` for the root. -/
structure DumpsOnce (heap : LuaHeap τ) (root : τ) (out : String) (lines : DumpLines τ) : Prop where
  text : out = lines.text ""
  fields : lines.fields = heap root
  shows : lines.Shows heap ""
  expanded_nodup : (root :: lines.expanded).Nodup
  mem_expanded : ∀ t, t ∈ root :: lines.expanded ↔ Reaches heap TableField.target root t
  entries_perm : (lines.entries root).Perm (fieldsOf heap (root :: lines.expanded))
  references : ∀ e ∈ lines.references, e ∈ (root, ".") :: lines.recorded
  pluses : plusCount out = lines.pluses

theorem marks_rootCache (root : τ) : marks (rootCache root) = {root} := by
  ext t
  by_cases h : t = root
  · subst h
    simp [marks, rootCache]
  · simp [marks, rootCache, h]

theorem dumpsOnce_of_run {heap : LuaHeap τ} {root : τ} {n : ℕ} {out : String}
    (hrun : toString heap n (some root) = some out) : ∃ lines, DumpsOnce heap root out lines := by
  obtain ⟨⟨out, cache⟩, hdump, rfl⟩ := Option.map_eq_some_iff.mp hrun
  obtain ⟨lines, htext, h⟩ := dump_run heap n root "" "" _ _ _ hdump
  have hscan := h.scan
  rw [marks_rootCache] at hscan
  refine ⟨lines, htext, h.fields, h.shows, hscan.nodup_root_cons, hscan.mem_root_cons_iff, ?_, ?_,
    ?_⟩
  · rw [fieldsOf_cons, ← h.fields]
    exact lines.entries_perm h.shows root
  · rintro ⟨u, path⟩ he
    have hu : cache u = some path := h.references _ he
    have hmark : u ∈ marks cache := by simp [marks, hu]
    rcases (hscan.mem_marks_iff u).mp hmark with hroot | hmem
    · obtain rfl := Set.mem_singleton_iff.mp hroot
      have hdot : cache u = some "." := h.extend u "." (Function.update_self _ _ _)
      obtain rfl := Option.some.inj (hu.symm.trans hdot)
      exact List.mem_cons_self
    · obtain ⟨⟨v, path'⟩, hrec, rfl⟩ := List.mem_map.mp hmem
      obtain rfl := Option.some.inj (hu.symm.trans (h.recorded _ hrec))
      exact List.mem_cons_of_mem _ hrec
  · rw [htext, DumpLines.text, plusCount_tconcat (plusCount_newline rfl),
      lines.sum_plusCount_texts rfl]

/-- With as much fuel as there are tables, and with any more, the dump has one result. -/
theorem toString_dumps (heap : LuaHeap τ) (root : τ)
    (hfin : {t | Reaches heap TableField.target root t}.Finite) :
    ∃ out lines, (∀ fuel, hfin.toFinset.card ≤ fuel → toString heap fuel (some root) = some out) ∧
      DumpsOnce heap root out lines := by
  have hrootS : root ∈ hfin.toFinset := hfin.mem_toFinset.mpr Relation.ReflTransGen.refl
  have hclosed : ∀ t ∈ hfin.toFinset, ∀ u, Edge heap TableField.target t u →
      u ∈ hfin.toFinset := by
    intro t ht u hedge
    exact hfin.mem_toFinset.mpr ((hfin.mem_toFinset.mp ht).tail hedge)
  have hstart : rootCache root root ≠ none := by simp [rootCache]
  have hless : (unmarked hfin.toFinset (rootCache root)).card < hfin.toFinset.card := by
    apply Finset.card_lt_card
    exact Finset.filter_ssubset.mpr ⟨root, hrootS, hstart⟩
  obtain ⟨⟨out, cache⟩, hrun⟩ := dump_returns hclosed hfin.toFinset.card root hrootS "" ""
    (rootCache root) hless
  have hruns : ∀ fuel, hfin.toFinset.card ≤ fuel →
      dump heap fuel root "" "" (rootCache root) = some (out, cache) := by
    intro fuel hfuel
    induction fuel, hfuel using Nat.le_induction with
    | base => exact hrun
    | succ fuel _ ih => exact dump_mono heap fuel ih
  have htext (fuel : ℕ) (hfuel : hfin.toFinset.card ≤ fuel) :
      toString heap fuel (some root) = some out := by rw [toString, hruns fuel hfuel]; rfl
  obtain ⟨lines, hlines⟩ := dumpsOnce_of_run (htext _ le_rfl)
  exact ⟨out, lines, htext, hlines⟩

/-- A table that leads to another one twice, which leads back to it. -/
def sharedPair : LuaHeap ℕ
  | 0 => [(⟨"l", true⟩, .table 1), (⟨"r", true⟩, .table 1), (⟨"n", true⟩, .other "7")]
  | 1 => [(⟨"up", true⟩, .table 0)]
  | _ => []

theorem toString_dumps_sharedPair :
    ∃ lines, (∀ fuel, 2 ≤ fuel → toString sharedPair fuel (some 0) =
        some "+l+up \x7b.\x7d\n+r \x7b.l\x7d\n+n [7]") ∧
      DumpsOnce sharedPair 0 "+l+up \x7b.\x7d\n+r \x7b.l\x7d\n+n [7]" lines := by
  have hsub : {t | Reaches sharedPair TableField.target 0 t} ⊆ ({0, 1} : Finset ℕ) := by
    intro t ht
    induction ht with
    | refl => simp
    | tail _ hedge ih =>
        obtain ⟨field, hfield, htarget⟩ := hedge
        rcases Finset.mem_insert.mp ih with rfl | ih
        · fin_cases hfield <;> cases htarget <;> simp
        · obtain rfl := Finset.mem_singleton.mp ih
          fin_cases hfield
          cases htarget
          simp
  have hfin := (Finset.finite_toSet {0, 1}).subset hsub
  have hcard : hfin.toFinset.card ≤ 2 := Finset.card_le_card (Set.Finite.toFinset_subset.mpr hsub)
  obtain ⟨out, lines, hruns, honce⟩ := toString_dumps sharedPair 0 hfin
  have hout : out = "+l+up \x7b.\x7d\n+r \x7b.l\x7d\n+n [7]" := by
    have hvalue : toString sharedPair 2 (some 0) =
        some "+l+up \x7b.\x7d\n+r \x7b.l\x7d\n+n [7]" := rfl
    exact Option.some.inj ((hruns 2 hcard).symm.trans hvalue)
  subst hout
  exact ⟨lines, fun fuel hfuel => hruns fuel (hcard.trans hfuel), honce⟩

end Util
end SoftRenderer
