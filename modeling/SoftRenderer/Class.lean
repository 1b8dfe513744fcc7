import SoftRenderer.Kit.Inheritance

/-!
# Classes and method lookup

A class keeps its methods in `vtbl`. A lookup that does not find a name there asks the superclass
and stores the answer, so a method table holds inherited definitions next to the class's own, and
a definition that comes later in a superclass is not seen past them.
-/

namespace SoftRenderer.Class

open Kit Kit.Hierarchy

/-- The names whose definitions reach `vtbl`: `class_type` itself holds the other three. -/
abbrev MethodName : Type := {k : String // k ≠ "ctor" ∧ k ≠ "super" ∧ k ≠ "new"}

/-- `_class`, the method table of every class. -/
abbrev MethodTables (V : Type) := ℕ → MethodName → Option V

/-- One call of `class` for each entry, with the number of the call that made the superclass. -/
def classes (supers : List (Option ℕ)) : Hierarchy ℕ where
  super c := (supers[c]?.join).filter (· < c)
  super_lt h := by simpa using (Option.filter_eq_some_iff.mp h).2

variable {V : Type}

def rawset (_class : MethodTables V) (c : ℕ) (k : MethodName) (v : Option V) : MethodTables V :=
  Function.update _class c (Function.update (_class c) k v)

/-- `class_type[k] = v`, which `__newindex` turns into an entry of `vtbl`. -/
def newindex (_class : MethodTables V) (class_type : ℕ) (k : MethodName) (v : V) :
    MethodTables V :=
  rawset _class class_type k (some v)

/-- `_class[class_type][k]`, as an instance of the class looks `k` up when it has no such field
of its own: the value, and the tables with what `__index` stored in them. -/
def index (h : Hierarchy ℕ) (_class : MethodTables V) (class_type : ℕ) (k : MethodName) :
    Option V × MethodTables V :=
  match _class class_type k with
  | some v => (some v, _class)
  | none =>
      match _hs : h.super class_type with
      | none => (none, _class)
      | some super =>
          let ret := index h _class super k
          (ret.1, rawset ret.2 class_type k ret.1)
termination_by class_type
decreasing_by exact h.super_lt _hs

theorem index_of_held {h : Hierarchy ℕ} {_class : MethodTables V} {c : ℕ} {k : MethodName} {v : V}
    (hv : _class c k = some v) : index h _class c k = (some v, _class) := by
  rw [index, hv]

theorem index_of_root {h : Hierarchy ℕ} {_class : MethodTables V} {c : ℕ} {k : MethodName}
    (hn : _class c k = none) (hs : h.super c = none) : index h _class c k = (none, _class) := by
  rw [index, hn]
  simp only
  split
  · rfl
  · rename_i d hd
    simp [hs] at hd

theorem index_of_super {h : Hierarchy ℕ} {_class : MethodTables V} {c d : ℕ} {k : MethodName}
    (hn : _class c k = none) (hs : h.super c = some d) :
    index h _class c k =
      ((index h _class d k).1, rawset (index h _class d k).2 c k (index h _class d k).1) := by
  rw [index, hn]
  simp only
  split
  · rename_i hd
    simp [hs] at hd
  · rename_i d' hd
    obtain rfl : d = d' := Option.some.inj (hs.symm.trans hd)
    rfl

def column (_class : MethodTables V) (k : MethodName) : ℕ → Option V := fun c => _class c k

theorem column_rawset (_class : MethodTables V) (c : ℕ) (k j : MethodName) (v : Option V) :
    column (rawset _class c k v) j =
      if j = k then Function.update (column _class j) c v else column _class j := by
  funext b
  by_cases hb : b = c
  · subst hb
    by_cases hj : j = k
    · simp [column, rawset, hj]
    · simp [column, rawset, hj]
  · by_cases hj : j = k
    · simp [column, rawset, hb, hj]
    · simp [column, rawset, hb, hj]

theorem index_eq (h : Hierarchy ℕ) (_class : MethodTables V) (c : ℕ) (k : MethodName) :
    (index h _class c k).1 = (h.find (column _class k) c).map Prod.snd ∧
      ∀ j, column (index h _class c k).2 j =
        if j = k then h.fill (column _class k) c else column _class j := by
  induction c using h.find_induction (column _class k) with
  | held c v hv =>
      rw [index_of_held hv, find_of_own hv, fill_of_own hv]
      exact ⟨rfl, fun j => by split_ifs with hj <;> simp [hj]⟩
  | root c hn hs =>
      have hf : h.find (column _class k) c = none := find_of_root hn hs
      rw [index_of_root hn hs, hf, fill_of_not_found hf]
      exact ⟨rfl, fun j => by split_ifs with hj <;> simp [hj]⟩
  | step c d hn hs ih =>
      rw [index_of_super hn hs, find_of_super hn hs, fill_of_super hn hs]
      refine ⟨ih.1, fun j => ?_⟩
      rw [column_rawset, ih.1, ih.2 j]
      split_ifs with hj <;> rfl

inductive Access (V : Type) where
  /-- `function C:k() … end` -/
  | define (class_type : ℕ) (k : MethodName) (v : V)
  /-- `obj.k`, on an instance of the class -/
  | lookup (class_type : ℕ) (k : MethodName)

open Access

def access (h : Hierarchy ℕ) (_class : MethodTables V) : Access V → MethodTables V
  | define c k v => newindex _class c k v
  | lookup c k => (index h _class c k).2

def tables (h : Hierarchy ℕ) (run : List (Access V)) : MethodTables V :=
  run.foldl (access h) fun _ _ => none

/-- What every class defines itself after a run, as inheritance without a cache reads it. -/
def definitions (run : List (Access V)) : MethodTables V :=
  run.foldl (fun own a => match a with
    | define c k v => newindex own c k v
    | lookup _ _ => own) fun _ _ => none

def inherited (h : Hierarchy ℕ) (own : MethodTables V) (c : ℕ) (k : MethodName) : Option V :=
  (h.find (column own k) c).map Prod.snd

/-- An earlier lookup of `k` reached the class `b` and found its answer above it. -/
def PassedThrough (h : Hierarchy ℕ) (run : List (Access V)) (b : ℕ) (k : MethodName) : Prop :=
  ∃ pre c, pre ++ [lookup c k] <+: run ∧ h.Passes (column (definitions pre) k) c b

/-- Defining `k` as `v` in the class `d` comes too late: a class below `d` inherited another
definition, of `d` or of a class above, in an earlier lookup. -/
def ComesLate (h : Hierarchy ℕ) (run : List (Access V)) (d : ℕ) (k : MethodName) (v : V) : Prop :=
  ∃ b e w, h.Inherits b d ∧ b ≠ d ∧ PassedThrough h run b k ∧
    h.find (column (definitions run) k) b = some (e, w) ∧ h.Inherits d e ∧ w ≠ v

variable (h : Hierarchy ℕ) (run : List (Access V))

theorem column_newindex (own : MethodTables V) (c : ℕ) (k j : MethodName) (v : V) :
    column (newindex own c k v) j =
      if j = k then Function.update (column own j) c (some v) else column own j :=
  column_rawset own c k j (some v)

theorem newindex_ne_none_iff {own : MethodTables V} {b c : ℕ} {k j : MethodName} {v : V} :
    newindex own c j v b k ≠ none ↔ (b = c ∧ k = j) ∨ own b k ≠ none := by
  have hcolumn : newindex own c j v b k =
      (if k = j then Function.update (column own k) c (some v) else column own k) b :=
    congrFun (column_newindex own c j k v) b
  rw [hcolumn]
  by_cases hk : k = j
  · by_cases hb : b = c
    · simp [hk, hb]
    · simp [hk, hb, column]
  · simp [hk, column]

theorem definitions_define (c : ℕ) (k : MethodName) (v : V) :
    definitions (run ++ [define c k v]) = newindex (definitions run) c k v := by
  simp [definitions]

theorem definitions_lookup (c : ℕ) (k : MethodName) :
    definitions (run ++ [lookup c k]) = definitions run := by
  simp [definitions]

theorem tables_define (c : ℕ) (k : MethodName) (v : V) :
    tables h (run ++ [define c k v]) = newindex (tables h run) c k v := by
  simp [tables, access]

theorem column_tables_lookup (c : ℕ) (k j : MethodName) :
    column (tables h (run ++ [lookup c k])) j =
      if j = k then h.fill (column (tables h run) k) c else column (tables h run) j := by
  rw [← (index_eq h (tables h run) c k).2 j]
  simp [tables, access]

theorem tables_caches (k : MethodName) :
    h.Caches (column (definitions run) k) (column (tables h run) k) := by
  induction run using List.reverseRecOn with
  | nil => exact Caches.empty h
  | append_singleton run a ih =>
      cases a with
      | define c j v =>
          rw [definitions_define, tables_define, column_newindex, column_newindex]
          split_ifs with hj
          · exact ih.define c v
          · exact ih
      | lookup c j =>
          rw [definitions_lookup, column_tables_lookup]
          split_ifs with hj
          · subst hj
            exact ih.fill c
          · exact ih

theorem passedThrough_define {b c : ℕ} {k j : MethodName} {v : V} :
    PassedThrough h (run ++ [define c j v]) b k ↔ PassedThrough h run b k := by
  simp [PassedThrough, List.prefix_concat_iff]

theorem passedThrough_lookup {b c : ℕ} {k j : MethodName} :
    PassedThrough h (run ++ [lookup c j]) b k ↔
      (j = k ∧ h.Passes (column (definitions run) k) c b) ∨ PassedThrough h run b k := by
  simp only [PassedThrough, List.prefix_concat_iff]
  constructor
  · rintro ⟨pre, c', heq | hpre, hp⟩
    · obtain ⟨rfl, rfl, rfl⟩ : pre = run ∧ c' = c ∧ k = j := by simpa using heq
      exact .inl ⟨rfl, hp⟩
    · exact .inr ⟨pre, c', hpre, hp⟩
  · rintro (⟨rfl, hp⟩ | ⟨pre, c', hpre, hp⟩)
    · exact ⟨run, c, .inl rfl, hp⟩
    · exact ⟨pre, c', .inr hpre, hp⟩

theorem tables_ne_none_iff (b : ℕ) (k : MethodName) :
    tables h run b k ≠ none ↔ definitions run b k ≠ none ∨ PassedThrough h run b k := by
  induction run using List.reverseRecOn with
  | nil => simp [tables, definitions, PassedThrough]
  | append_singleton run a ih =>
      cases a with
      | define c j v =>
          rw [tables_define, definitions_define, newindex_ne_none_iff, newindex_ne_none_iff, ih,
            passedThrough_define, or_assoc]
      | lookup c j =>
          have hcolumn : tables h (run ++ [lookup c j]) b k =
              (if k = j then h.fill (column (tables h run) j) c else column (tables h run) k) b :=
            congrFun (column_tables_lookup h run c j k) b
          rw [hcolumn, definitions_lookup, passedThrough_lookup]
          by_cases hk : k = j
          · subst hk
            rw [if_pos rfl, (tables_caches h run k).fill_ne_none_iff, show
              column (tables h run) k b = tables h run b k from rfl, ih, or_left_comm]
            simp
          · rw [if_neg hk]
            simp [column, ih, Ne.symm hk]

def Agree : Prop :=
  ∀ c k, (index h (tables h run) c k).1 = inherited h (definitions run) c k

theorem agree_iff :
    Agree h run ↔ ∀ k, h.Agrees (column (definitions run) k) (column (tables h run) k) := by
  constructor
  · intro ha k c
    rw [← (index_eq h (tables h run) c k).1]
    exact ha c k
  · intro ha c k
    rw [(index_eq h (tables h run) c k).1]
    exact ha k c

theorem agree_nil : Agree h ([] : List (Access V)) := by
  rw [agree_iff]
  exact fun k c => rfl

theorem agree_lookup (ha : Agree h run) (c : ℕ) (k : MethodName) :
    Agree h (run ++ [lookup c k]) := by
  rw [agree_iff] at ha ⊢
  intro j
  rw [definitions_lookup, column_tables_lookup]
  split_ifs with hj
  · subst hj
    exact (tables_caches h run j).agrees_fill (ha j) c
  · exact ha j

theorem agree_define_iff (ha : Agree h run) (d : ℕ) (k : MethodName) (v : V) :
    Agree h (run ++ [define d k v]) ↔ ¬ ComesLate h run d k v := by
  rw [agree_iff] at ha ⊢
  have hk := (tables_caches h run k).agrees_define_iff (ha k) d v
  have hcolumns : (∀ j, h.Agrees (column (definitions (run ++ [define d k v])) j)
      (column (tables h (run ++ [define d k v])) j)) ↔
      h.Agrees (Function.update (column (definitions run) k) d (some v))
        (Function.update (column (tables h run) k) d (some v)) := by
    simp only [definitions_define, tables_define, column_newindex]
    constructor
    · intro hall
      simpa using hall k
    · intro hall j
      split_ifs with hj
      · subst hj
        exact hall
      · exact ha j
  rw [hcolumns, hk]
  constructor
  · rintro hall ⟨b, e, w, hbd, hne, hpassed, hf, hde, hw⟩
    exact hw (hall b e w hbd hne ((tables_ne_none_iff h run b k).mpr (.inr hpassed)) hf hde)
  · intro hlate b e w hbd hne hb hf hde
    by_contra hw
    refine hlate ⟨b, e, w, hbd, hne, ?_, hf, hde, hw⟩
    rcases (tables_ne_none_iff h run b k).mp hb with hown | hpassed
    · refine absurd (own_eq_none_of_find hf ?_) hown
      rintro rfl
      exact hne (Inherits.antisymm hbd hde)
    · exact hpassed

/-- Scripts that define all methods before the first lookup are not affected. -/
theorem agree_of_defined_first {defs uses : List (Access V)}
    (hdefs : ∀ a ∈ defs, ∃ c k v, a = define c k v) (huses : ∀ a ∈ uses, ∃ c k, a = lookup c k) :
    Agree h (defs ++ uses) := by
  induction uses using List.reverseRecOn with
  | nil =>
      rw [List.append_nil]
      induction defs using List.reverseRecOn with
      | nil => exact agree_nil h
      | append_singleton defs a ih =>
          obtain ⟨c, k, v, rfl⟩ := hdefs a (by simp)
          have hbefore := ih fun a ha => hdefs a (by simp [ha])
          rw [agree_define_iff h defs hbefore]
          rintro ⟨b, e, w, -, -, ⟨pre, c', hpre, -⟩, -⟩
          have hmem : lookup c' k ∈ defs := hpre.subset (by simp)
          obtain ⟨c₀, k₀, v₀, heq⟩ := hdefs _ (List.mem_append_left _ hmem)
          cases heq
  | append_singleton uses a ih =>
      obtain ⟨c, k, rfl⟩ := huses a (by simp)
      rw [← List.append_assoc]
      exact agree_lookup h _ (ih fun a ha => huses a (by simp [ha])) c k

theorem agree_of_defined_first_draw :
    Agree (classes [none, some 0])
      ([define 0 ⟨"draw", by simp⟩ 1, define 1 ⟨"tick", by simp⟩ 2] ++
        [lookup 1 ⟨"draw", by simp⟩]) := by
  apply agree_of_defined_first
  · simp
  · simp

/-- Cached lookup agrees with plain inheritance all along a run exactly when no definition in it
comes late. -/
theorem lookups_agree_iff (h : Hierarchy ℕ) (run : List (Access V)) :
    (∀ pre, pre <+: run → ∀ c k,
        (index h (tables h pre) c k).1 = inherited h (definitions pre) c k) ↔
      ∀ pre d k v, pre ++ [define d k v] <+: run → ¬ ComesLate h pre d k v := by
  change (∀ pre, pre <+: run → Agree h pre) ↔ _
  induction run using List.reverseRecOn with
  | nil =>
      constructor
      · intro _ pre d k v hpre
        simp at hpre
      · intro _ pre hpre
        rw [List.prefix_nil.mp hpre]
        exact agree_nil h
  | append_singleton run a ih =>
      have hlast : (∀ pre, pre <+: run ++ [a] → Agree h pre) ↔
          Agree h (run ++ [a]) ∧ ∀ pre, pre <+: run → Agree h pre := by
        simp only [List.prefix_concat_iff, forall_eq_or_imp]
      rw [hlast, ih]
      constructor
      · intro ⟨hnow, hbefore⟩ pre d k v hpre
        rcases List.prefix_concat_iff.mp hpre with heq | hpre
        · obtain ⟨rfl, rfl⟩ : pre = run ∧ define d k v = a := by simpa using heq
          have hrun : Agree h pre := ih.mpr hbefore pre List.prefix_rfl
          exact (agree_define_iff h pre hrun d k v).mp hnow
        · exact hbefore pre d k v hpre
      · intro hall
        have hbefore : ∀ pre d k v, pre ++ [define d k v] <+: run → ¬ ComesLate h pre d k v :=
          fun pre d k v hpre => hall pre d k v (hpre.trans (List.prefix_append run [a]))
        have hrun : Agree h run := ih.mpr hbefore run List.prefix_rfl
        refine ⟨?_, hbefore⟩
        cases a with
        | define d k v =>
            exact (agree_define_iff h run hrun d k v).mpr (hall run d k v List.prefix_rfl)
        | lookup c k => exact agree_lookup h run hrun c k

/-- The method found first stays with the subclass: after the superclass has redefined it, the
instance still gets the old one. -/
theorem not_lookups_agree :
    ¬ ∀ (supers : List (Option ℕ)) (run : List (Access ℕ)) (c : ℕ) (k : MethodName),
      (index (classes supers) (tables (classes supers) run) c k).1 =
        inherited (classes supers) (definitions run) c k := by
  intro hall
  let h := classes [none, some 0]
  let draw : MethodName := ⟨"draw", by simp⟩
  let defined : MethodTables ℕ := newindex (fun _ _ => none) 0 draw 1
  have hsuper : h.super 1 = some 0 := rfl
  have hfirst : index h defined 1 draw = (some 1, rawset defined 1 draw (some 1)) := by
    have hbase : index h defined 0 draw = (some 1, defined) :=
      index_of_held (by simp [defined, newindex, rawset])
    rw [index_of_super (by simp [defined, newindex, rawset]) hsuper, hbase]
  have hdraw := hall [none, some 0] [define 0 draw 1, lookup 1 draw, define 0 draw 2] 1 draw
  have hcached : tables h [define 0 draw 1, lookup 1 draw, define 0 draw 2] 1 draw = some 1 := by
    change newindex (index h defined 1 draw).2 0 draw 2 1 draw = some 1
    rw [hfirst]
    simp [newindex, rawset]
  have hplain : inherited h (definitions [define 0 draw 1, lookup 1 draw, define 0 draw 2]) 1 draw =
      some 2 := by
    rw [inherited, find_of_super (by simp [column, definitions, newindex, rawset]) hsuper,
      find_of_own (v := 2) (by simp [column, definitions, newindex, rawset]), Option.map_some]
  rw [index_of_held hcached, hplain] at hdraw
  cases hdraw

end SoftRenderer.Class
