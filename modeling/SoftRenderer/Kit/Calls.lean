import SoftRenderer.Kit.Procedure

/-!
# The calls of a program with an open callee

A program that leaves one procedure open takes it as an argument. `MakesCalls prog cs` says that,
whatever the callee does, the program prepares the state and then carries out the calls `cs`, in
order. A state that can count determines the list of calls.
-/

namespace Kit.Procedure

variable {ε σ α γ : Type}

def MakesCalls (prog : (γ → Procedure ε σ Unit) → Procedure ε σ Unit) (cs : List γ) : Prop :=
  ∃ prepare : σ → σ, ∀ handler s, prog handler s = forEach cs handler (prepare s)

namespace MakesCalls

theorem call (c : γ) :
    MakesCalls (fun handler : γ → Procedure ε σ Unit => handler c) [c] := by
  refine ⟨id, fun handler s => ?_⟩
  have hcall : forEach [c] handler = handler c := bind_pure_unit
  rw [hcall]
  rfl

theorem pair (c d : γ) :
    MakesCalls (fun handler : γ → Procedure ε σ Unit => handler c >>= fun _ => handler d)
      [c, d] := by
  refine ⟨id, fun handler s => ?_⟩
  have hcalls : forEach [c, d] handler = handler c >>= fun _ => handler d := by
    rw [forEach_cons, forEach_cons, forEach_nil]
    simp only [bind_pure_unit]
  rw [hcalls]
  rfl

theorem after {m : Procedure ε σ α} {a : α} {step : σ → σ} (hm : ∀ s, m s = (.ok a, step s))
    {prog : α → (γ → Procedure ε σ Unit) → Procedure ε σ Unit} {cs : List γ}
    (h : MakesCalls (prog a) cs) :
    MakesCalls (fun handler => m >>= fun b => prog b handler) cs := by
  obtain ⟨prepare, hrun⟩ := h
  refine ⟨prepare ∘ step, fun handler s => ?_⟩
  have hbind : (m >>= fun b => prog b handler) s = prog a handler (step s) := bind_ok (hm s)
  exact hbind.trans (hrun handler (step s))

end MakesCalls

/-- A state in which steps can be counted. -/
structure Counter (σ : Type) where
  count : σ → ℕ
  tick : σ → σ
  count_tick : ∀ s, count (tick s) = count s + 1

namespace Counter

variable (r : Counter σ) (e : ε)

/-- A callee that fails as soon as the calls since the count `n` leave the list `cs`. -/
noncomputable def expecting (n : ℕ) (cs : List γ) (c : γ) : Procedure ε σ Unit :=
  open scoped Classical in
  fun s => if cs[r.count s - n]? = some c then (.ok (), r.tick s) else (.error e, s)

variable (prepare : σ → σ) (hprepare : ∀ s, r.count (prepare s) = r.count s)

include hprepare

theorem expecting_run {n : ℕ} {cs : List γ} (done rest : List γ) (hcs : done ++ rest = cs) {s : σ}
    (hs : r.count s = n + done.length) :
    ∃ s', forEach rest (fun c => change prepare >>= fun _ => r.expecting e n cs c) s =
        (.ok (), s') ∧
      r.count s' = r.count s + rest.length := by
  induction rest generalizing done s with
  | nil => exact ⟨s, rfl, rfl⟩
  | cons c rest ih =>
      have hget : cs[r.count (prepare s) - n]? = some c := by
        rw [hprepare, hs, Nat.add_sub_cancel_left, ← hcs, List.getElem?_append_right le_rfl,
          Nat.sub_self]
        rfl
      have hcall : (change prepare >>= fun _ => r.expecting e n cs c) s =
          (.ok (), r.tick (prepare s)) := if_pos hget
      have hdone : r.count (r.tick (prepare s)) = n + (done ++ [c]).length := by
        rw [r.count_tick, hprepare, hs, List.length_append, List.length_singleton, Nat.add_assoc]
      have hrest : done ++ [c] ++ rest = cs := by
        rw [List.append_assoc]
        exact hcs
      obtain ⟨s', hrun, hcount⟩ := ih (done ++ [c]) hrest hdone
      refine ⟨s', ?_, ?_⟩
      · rw [forEach_cons, bind_ok hcall, hrun]
      · rw [hcount, r.count_tick, hprepare, List.length_cons]
        omega

theorem prefix_of_expecting {n : ℕ} {cs : List γ} (ds : List γ) {s s' : σ} (hs : n ≤ r.count s)
    (hrun : forEach ds (fun c => change prepare >>= fun _ => r.expecting e n cs c) s =
      (.ok (), s')) :
    r.count s' = r.count s + ds.length ∧ ds <+: cs.drop (r.count s - n) := by
  induction ds generalizing s with
  | nil =>
      cases hrun
      exact ⟨rfl, List.nil_prefix⟩
  | cons c ds ih =>
      have htick : r.count (r.tick (prepare s)) = r.count s + 1 := by
        rw [r.count_tick, hprepare]
      by_cases hget : cs[r.count (prepare s) - n]? = some c
      · have hcall : (change prepare >>= fun _ => r.expecting e n cs c) s =
            (.ok (), r.tick (prepare s)) := if_pos hget
        rw [forEach_cons, bind_ok hcall] at hrun
        obtain ⟨hcount, hfirst⟩ := ih (by omega) hrun
        rw [hprepare] at hget
        obtain ⟨hlt, hc⟩ := List.getElem?_eq_some_iff.mp hget
        constructor
        · rw [hcount, htick, List.length_cons]
          omega
        · rw [List.drop_eq_getElem_cons hlt, hc, List.cons_prefix_cons]
          rw [htick, Nat.succ_sub hs] at hfirst
          exact ⟨rfl, hfirst⟩
      · have hcall : (change prepare >>= fun _ => r.expecting e n cs c) s =
            (.error e, prepare s) := if_neg hget
        rw [forEach_cons, bind_error hcall] at hrun
        cases hrun

end Counter

/-- Both lists prepare the same state, which a callee that always fails would show. -/
theorem MakesCalls.unique (r : Counter σ) (e : ε) [Nonempty σ]
    {prog : (γ → Procedure ε σ Unit) → Procedure ε σ Unit} {cs ds : List γ}
    (hcs : MakesCalls prog cs) (hds : MakesCalls prog ds) : cs = ds := by
  obtain ⟨s⟩ := ‹Nonempty σ›
  obtain ⟨prepare, hrun⟩ := hcs
  obtain ⟨prepare', hrun'⟩ := hds
  have hboth (handler : γ → Procedure ε σ Unit) :
      forEach cs handler (prepare s) = forEach ds handler (prepare' s) := by
    rw [← hrun, hrun']
  have hfail := hboth fun _ => raise e
  cases cs with
  | nil =>
      cases ds with
      | nil => rfl
      | cons d ds => cases hfail
  | cons c cs =>
      cases ds with
      | nil => cases hfail
      | cons d ds =>
          have hprepare : prepare s = prepare' s := congrArg Prod.snd hfail
          have hexpect := hboth (r.expecting e (r.count (prepare s)) (c :: cs))
          obtain ⟨s', hrun1, hcount1⟩ :=
            r.expecting_run e id (fun _ => rfl) [] (c :: cs) (List.nil_append _)
              (s := prepare s) rfl
          rw [← hprepare] at hexpect
          obtain ⟨hcount2, hfirst⟩ := r.prefix_of_expecting e id (fun _ => rfl) (d :: ds) le_rfl
            (hexpect.symm.trans hrun1)
          rw [Nat.sub_self, List.drop_zero] at hfirst
          exact (hfirst.eq_of_length (by omega)).symm

/-- The program carries out the calls `cs`, in order. Before each of them it changes the state in a
way that `r` does not count. -/
def PassesCalls (r : Counter σ) (prog : (γ → Procedure ε σ Unit) → Procedure ε σ Unit)
    (cs : List γ) : Prop :=
  ∃ prepare : σ → σ, (∀ s, r.count (prepare s) = r.count s) ∧
    ∀ handler, prog handler = forEach cs fun c => change prepare >>= fun _ => handler c

theorem PassesCalls.unique {r : Counter σ} (e : ε) [Nonempty σ]
    {prog : (γ → Procedure ε σ Unit) → Procedure ε σ Unit} {cs ds : List γ}
    (hcs : PassesCalls r prog cs) (hds : PassesCalls r prog ds) : cs = ds := by
  obtain ⟨s⟩ := ‹Nonempty σ›
  obtain ⟨prepare, hcount, hrun⟩ := hcs
  obtain ⟨prepare', hcount', hrun'⟩ := hds
  obtain ⟨s1, hrun1, hcount1⟩ :=
    r.expecting_run e prepare hcount [] cs (List.nil_append _) (s := s) rfl
  have hrun2 : forEach ds (fun c => change prepare' >>= fun _ => r.expecting e (r.count s) cs c) s =
      (.ok (), s1) := by
    rw [← hrun', hrun]
    exact hrun1
  obtain ⟨hcount2, hfirst⟩ := r.prefix_of_expecting e prepare' hcount' ds le_rfl hrun2
  rw [Nat.sub_self, List.drop_zero] at hfirst
  exact (hfirst.eq_of_length (by omega)).symm

end Kit.Procedure
