import Mathlib

/-!
# Depth-first scans with marks

A node has items, some of which lead to nodes. A scan goes through a list of items; it descends
into a node that is not marked yet, after marking it, and passes over the others. So it descends
into every node at most once, and into all that can be reached.
-/

namespace Kit

variable {τ ι : Type} (items : τ → List ι) (target : ι → Option τ)

def Edge (t u : τ) : Prop := ∃ i ∈ items t, target i = some u

def Reaches : τ → τ → Prop := Relation.ReflTransGen (Edge items target)

/-- The scan of a list of items, from the marks `M` to the marks `M'`; it descends into the nodes
of `out`, in this order. -/
inductive Scan : List ι → Set τ → List τ → Set τ → Prop
  | nil (M : Set τ) : Scan [] M [] M
  | skip {i : ι} {rest : List ι} {M M' : Set τ} {out : List τ} (hi : target i = none)
      (hrest : Scan rest M out M') : Scan (i :: rest) M out M'
  | seen {i : ι} {u : τ} {rest : List ι} {M M' : Set τ} {out : List τ} (hi : target i = some u)
      (hu : u ∈ M) (hrest : Scan rest M out M') : Scan (i :: rest) M out M'
  | new {i : ι} {u : τ} {rest : List ι} {M M1 M' : Set τ} {sub out : List τ}
      (hi : target i = some u) (hu : u ∉ M) (hsub : Scan (items u) (insert u M) sub M1)
      (hrest : Scan rest M1 out M') : Scan (i :: rest) M (u :: sub ++ out) M'

namespace Scan

variable {items : τ → List ι} {target : ι → Option τ} {rest : List ι} {M M' : Set τ} {out : List τ}

theorem mem_marks_iff (h : Scan items target rest M out M') (t : τ) : t ∈ M' ↔ t ∈ M ∨ t ∈ out := by
  induction h with
  | nil M => simp
  | skip hi hrest ih => exact ih
  | seen hi hu hrest ih => exact ih
  | new hi hu hsub hrest ihsub ihrest =>
      rw [ihrest, ihsub, Set.mem_insert_iff, List.cons_append, List.mem_cons, List.mem_append]
      tauto

theorem marks_subset (h : Scan items target rest M out M') : M ⊆ M' :=
  fun t ht => (h.mem_marks_iff t).mpr (.inl ht)

theorem not_mem_of_mem (h : Scan items target rest M out M') : ∀ t ∈ out, t ∉ M := by
  induction h with
  | nil M => simp
  | skip hi hrest ih => exact ih
  | seen hi hu hrest ih => exact ih
  | new hi hu hsub hrest ihsub ihrest =>
      intro t ht hM
      rw [List.cons_append, List.mem_cons, List.mem_append] at ht
      rcases ht with rfl | ht | ht
      · exact hu hM
      · exact ihsub t ht (Set.mem_insert_of_mem _ hM)
      · exact ihrest t ht (hsub.marks_subset (Set.mem_insert_of_mem _ hM))

theorem nodup (h : Scan items target rest M out M') : out.Nodup := by
  induction h with
  | nil M => exact List.nodup_nil
  | skip hi hrest ih => exact ih
  | seen hi hu hrest ih => exact ih
  | @new i u rest M M1 M' sub out hi hu hsub hrest ihsub ihrest =>
      rw [List.cons_append, List.nodup_cons, List.nodup_append]
      refine ⟨?_, ihsub, ihrest, ?_⟩
      · rw [List.mem_append, not_or]
        refine ⟨fun hmem => ?_, fun hmem => ?_⟩
        · exact hsub.not_mem_of_mem u hmem (Set.mem_insert u M)
        · exact hrest.not_mem_of_mem u hmem (hsub.marks_subset (Set.mem_insert u M))
      · intro t ht v hv htv
        subst htv
        exact hrest.not_mem_of_mem t hv ((hsub.mem_marks_iff t).mpr (.inr ht))

theorem target_mem (h : Scan items target rest M out M') :
    ∀ i ∈ rest, ∀ u, target i = some u → u ∈ M' := by
  induction h with
  | nil M => simp
  | skip hi hrest ih =>
      intro j hj u hju
      rcases List.mem_cons.mp hj with rfl | hj
      · rw [hi] at hju
        cases hju
      · exact ih j hj u hju
  | seen hi hu hrest ih =>
      intro j hj v hjv
      rcases List.mem_cons.mp hj with rfl | hj
      · obtain rfl := Option.some.inj (hi.symm.trans hjv)
        exact hrest.marks_subset hu
      · exact ih j hj v hjv
  | new hi hu hsub hrest ihsub ihrest =>
      intro j hj v hjv
      rcases List.mem_cons.mp hj with rfl | hj
      · obtain rfl := Option.some.inj (hi.symm.trans hjv)
        exact hrest.marks_subset (hsub.marks_subset (Set.mem_insert _ _))
      · exact ihrest j hj v hjv

theorem edge_mem (h : Scan items target rest M out M') :
    ∀ t ∈ out, ∀ u, Edge items target t u → u ∈ M' := by
  induction h with
  | nil M => simp
  | skip hi hrest ih => exact ih
  | seen hi hu hrest ih => exact ih
  | new hi hu hsub hrest ihsub ihrest =>
      intro t ht v hv
      rw [List.cons_append, List.mem_cons, List.mem_append] at ht
      rcases ht with rfl | ht | ht
      · obtain ⟨j, hj, hjv⟩ := hv
        exact hrest.marks_subset (hsub.target_mem j hj v hjv)
      · exact hrest.marks_subset (ihsub t ht v hv)
      · exact ihrest t ht v hv

/-- Every node of the output can be reached from a target of the scanned items. -/
theorem reaches_of_mem (h : Scan items target rest M out M') :
    ∀ t ∈ out, ∃ i ∈ rest, ∃ u, target i = some u ∧ Reaches items target u t := by
  induction h with
  | nil M => simp
  | skip hi hrest ih =>
      intro t ht
      obtain ⟨j, hj, hreach⟩ := ih t ht
      exact ⟨j, List.mem_cons_of_mem _ hj, hreach⟩
  | seen hi hu hrest ih =>
      intro t ht
      obtain ⟨j, hj, hreach⟩ := ih t ht
      exact ⟨j, List.mem_cons_of_mem _ hj, hreach⟩
  | @new i u rest M M1 M' sub out hi hu hsub hrest ihsub ihrest =>
      intro t ht
      rw [List.cons_append, List.mem_cons, List.mem_append] at ht
      rcases ht with rfl | ht | ht
      · exact ⟨i, List.mem_cons_self, t, hi, Relation.ReflTransGen.refl⟩
      · obtain ⟨j, hj, v, hjv, hreach⟩ := ihsub t ht
        exact ⟨i, List.mem_cons_self, u, hi, hreach.head ⟨j, hj, hjv⟩⟩
      · obtain ⟨j, hj, hreach⟩ := ihrest t ht
        exact ⟨j, List.mem_cons_of_mem _ hj, hreach⟩

/-- A scan of a node that is marked alone descends exactly into what can be reached from it. -/
theorem mem_root_cons_iff {root : τ} (h : Scan items target (items root) {root} out M') (t : τ) :
    t ∈ root :: out ↔ Reaches items target root t := by
  constructor
  · intro ht
    rcases List.mem_cons.mp ht with rfl | ht
    · exact Relation.ReflTransGen.refl
    · obtain ⟨i, hi, u, hiu, hreach⟩ := h.reaches_of_mem t ht
      exact hreach.head ⟨i, hi, hiu⟩
  · intro hreach
    have hmarks : ∀ v, v ∈ M' ↔ v ∈ root :: out := by
      intro v
      rw [h.mem_marks_iff, Set.mem_singleton_iff, List.mem_cons]
    induction hreach with
    | refl => exact List.mem_cons_self
    | tail _ hedge ih =>
        rw [← hmarks]
        rcases List.mem_cons.mp ih with rfl | hmem
        · obtain ⟨i, hi, hiu⟩ := hedge
          exact h.target_mem i hi _ hiu
        · exact h.edge_mem _ hmem _ hedge

theorem nodup_root_cons {root : τ} (h : Scan items target (items root) {root} out M') :
    (root :: out).Nodup :=
  List.nodup_cons.mpr ⟨fun hmem => h.not_mem_of_mem root hmem rfl, h.nodup⟩

end Scan
end Kit
