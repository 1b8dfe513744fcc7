import Mathlib

/-!
# Rounds over a finite map

A round goes through a fixed list of keys. It passes over the keys that have no value when their
turn comes, and may set any keys on the way.
-/

namespace Kit

variable {κ V σ : Type} [DecidableEq κ]

def setAll (ops : List (κ × Option V)) (m : κ → Option V) : κ → Option V :=
  ops.foldl (fun m op => Function.update m op.1 op.2) m

/-- What the round makes of a state and a map. The body returns what it sets. -/
def forEach (body : σ → κ → V → σ × List (κ × Option V)) :
    List κ → (κ → Option V) → σ → σ × (κ → Option V)
  | [], m, s => (s, m)
  | k :: ks, m, s =>
      match m k with
      | none => forEach body ks m s
      | some v => forEach body ks (setAll (body s k v).2 m) (body s k v).1

variable {body : σ → κ → V → σ × List (κ × Option V)} {m : κ → Option V} {ks ks' : List κ} {s : σ}

theorem forEach_skip (h : ∀ k ∈ ks, m k = none) :
    forEach body (ks ++ ks') m s = forEach body ks' m s := by
  induction ks with
  | nil => rfl
  | cons k ks ih =>
      rw [List.cons_append, forEach, h k List.mem_cons_self]
      exact ih fun k' hk' => h k' (List.mem_cons_of_mem _ hk')

theorem forEach_of_none (h : ∀ k ∈ ks, m k = none) : forEach body ks m s = (s, m) := by
  rw [← List.append_nil ks, forEach_skip h]
  rfl

/-- A round that sets nothing sees each key with its value. -/
theorem forEach_collect (es : List (κ × V)) :
    forEach (fun es k v => (es ++ [(k, v)], [])) ks m es =
      (es ++ ks.filterMap fun k => (m k).map fun v => (k, v), m) := by
  induction ks generalizing es with
  | nil => rw [forEach, List.filterMap_nil, List.append_nil]
  | cons k ks ih =>
      cases hk : m k with
      | none => rw [forEach, hk, List.filterMap_cons_none (by rw [hk]; rfl), ih]
      | some v =>
          have hcons : ((k :: ks).filterMap fun k => (m k).map fun v => (k, v)) =
              (k, v) :: ks.filterMap fun k => (m k).map fun v => (k, v) :=
            List.filterMap_cons_some (by rw [hk]; rfl)
          rw [forEach, hk, hcons, List.append_cons]
          exact ih _

end Kit
