import SoftRenderer.Kit.Rounds
import SoftRenderer.LtableRehash

/-!
# Runs of a table

After any series of assignments, a table has for each key the value that was assigned last, and
keeps its main invariant: a key that is not in its main position collides there with a key that is.
-/

namespace SoftRenderer.Ltable

open Kit Table

variable {K S O V : Type} [Field K] [LinearOrder K] [FloorRing K] [DecidableEq S] [DecidableEq O]

/-- One assignment after the other. -/
def assignAll (hs : Hashes K S O) (fuel : ℕ) (ops : List (Key K S O × Option V))
    (t : Table (Key K S O) V) : Except TableError (Table (Key K S O) V) :=
  ops.foldlM (fun t op => assign hs fuel t op.1 op.2) t

/-- The value that was assigned last to each key. -/
def lastAssigned (ops : List (Key K S O × Option V)) : Key K S O → Option V :=
  setAll ops fun _ => none

/-- With the key of each assignment, there are never more keys than a hash part can take. -/
def Fits (ops : List (Key K S O × Option V)) : Prop :=
  ∀ ops' k v, ops' ++ [(k, v)] <+: ops →
    (insert k {k' | lastAssigned ops' k' ≠ none}).ncard ≤ maxasize

omit [FloorRing K] [Field K] in
theorem lastAssigned_append_singleton (ops : List (Key K S O × Option V)) (k : Key K S O)
    (v : Option V) :
    lastAssigned (ops ++ [(k, v)]) = Function.update (lastAssigned ops) k v := by
  rw [lastAssigned, setAll, List.foldl_append]
  rfl

omit [FloorRing K] [Field K] in
theorem mem_of_lastAssigned {ops : List (Key K S O × Option V)} {k : Key K S O}
    (h : lastAssigned ops k ≠ none) : k ∈ ops.map Prod.fst := by
  induction ops using List.reverseRecOn with
  | nil => exact absurd rfl h
  | append_singleton ops op ih =>
      rw [lastAssigned_append_singleton] at h
      rw [List.map_append, List.mem_append]
      by_cases hk : k = op.1
      · exact .inr (List.mem_singleton.mpr hk)
      · rw [Function.update_of_ne hk] at h
        exact .inl (ih h)

omit [FloorRing K] [Field K] in
theorem Fits.of_length_le {ops : List (Key K S O × Option V)} (h : ops.length ≤ maxasize) :
    Fits ops := by
  intro ops' k v hbefore
  have hsub : insert k {k' | lastAssigned ops' k' ≠ none} ⊆
      (↑(k :: ops'.map Prod.fst).toFinset : Set (Key K S O)) := by
    intro k' hk'
    rw [Finset.mem_coe, List.mem_toFinset]
    rcases hk' with rfl | hk'
    · exact List.mem_cons_self
    · exact List.mem_cons_of_mem _ (mem_of_lastAssigned hk')
  calc (insert k {k' | lastAssigned ops' k' ≠ none}).ncard
      ≤ (k :: ops'.map Prod.fst).toFinset.card :=
        (Set.ncard_le_ncard hsub (Finset.finite_toSet _)).trans_eq (Set.ncard_coe_finset _)
    _ ≤ (k :: ops'.map Prod.fst).length := List.toFinset_card_le _
    _ = (ops' ++ [(k, v)]).length := by simp
    _ ≤ maxasize := hbefore.length_le.trans h

variable {hs : Hashes K S O} {t : Table (Key K S O) V}

variable (hs) in
theorem luaHNew_spec {narray nhash : ℕ} (hnarray : narray ≤ maxasize) (hnhash : nhash ≤ maxasize) :
    ∃ t : Table (Key K S O) V, luaHNew narray nhash = .ok t ∧ WellFormed hs t ∧
      ∀ k, get hs t k = none := by
  have hlen : (setarrayvector (⟨[], fun _ => ⟨none, none, none⟩, 0, 0, true⟩ :
      Table (Key K S O) V) narray).sizearray ≤ maxasize := by
    rw [sizearray, setarrayvector, List.length_append, List.length_take, List.length_replicate]
    simpa [sizearray] using hnarray
  obtain ⟨t, hrun, harray, -, -, hempty, hwf⟩ := setnodevector_spec hs hlen hnhash
  refine ⟨t, hrun, hwf, fun k => Option.eq_none_iff_forall_ne_some.mpr fun v hv => ?_⟩
  rcases hwf.get_eq_some_iff.mp hv with ⟨-, hread⟩ | ⟨i, hi, -⟩
  · rw [harray, setarrayvector, List.take_nil, List.nil_append, List.getElem?_replicate] at hread
    split_ifs at hread
    simp at hread
  · rw [keys, hempty] at hi
    cases hi

variable [IsStrictOrderedRing K]

theorem WellFormed.support_eq (h : WellFormed hs t) :
    {k | get hs t k ≠ none} = (↑(t.entries.map Prod.fst).toFinset : Set (Key K S O)) := by
  ext k
  rw [Set.mem_ofPred_eq, Finset.mem_coe, List.mem_toFinset, List.mem_map,
    Option.ne_none_iff_exists']
  constructor
  · rintro ⟨v, hv⟩
    exact ⟨(k, v), h.mem_entries_iff.mpr hv, rfl⟩
  · rintro ⟨⟨k, v⟩, hkv, rfl⟩
    exact ⟨v, h.mem_entries_iff.mp hkv⟩

theorem WellFormed.ncard_insert (h : WellFormed hs t) {k : Key K S O} (hk : get hs t k = none) :
    (insert k {k' | get hs t k' ≠ none}).ncard = t.entries.length + 1 := by
  have hnot : k ∉ (t.entries.map Prod.fst).toFinset := by
    intro hmem
    have hsupport : k ∈ {k | get hs t k ≠ none} := by
      rw [h.support_eq]
      exact hmem
    exact hsupport hk
  rw [h.support_eq, ← Finset.coe_insert, Set.ncard_coe_finset, Finset.card_insert_of_notMem hnot,
    List.toFinset_card_of_nodup h.nodup_entries, List.length_map]

omit [IsStrictOrderedRing K] in
theorem assign_eq_write {k : Key K S O} {p : Slot} (hp : luaHGet hs t k = some p) (depth : ℕ)
    (v : Option V) : assign hs depth t k v = .ok (t.write p v) := by
  rw [assign, luaHSet, setWith, hp]
  rfl

theorem WellFormed.assign_spec (h : WellFormed hs t) (fuel : ℕ) (k : Key K S O) (v : Option V)
    (hfits : (insert k {k' | get hs t k' ≠ none}).ncard ≤ maxasize) :
    ∃ t', assign hs (fuel + 2) t k v = .ok t' ∧ WellFormed hs t' ∧
      get hs t' = Function.update (get hs t) k v := by
  obtain ⟨p, t₁, hset, hall⟩ := h.luaHSet_spec fuel k fun hk =>
    Nat.lt_of_succ_le ((h.ncard_insert hk).symm.trans_le hfits)
  refine ⟨t₁.write p v, ?_, hall v⟩
  rw [assign, hset]
  rfl

variable (hs) in
theorem assignAll_spec {narray nhash : ℕ} (hnarray : narray ≤ maxasize)
    (hnhash : nhash ≤ maxasize) (fuel : ℕ) {ops : List (Key K S O × Option V)}
    (hfits : Fits ops) :
    ∃ t, (luaHNew narray nhash >>= assignAll hs (fuel + 2) ops) = .ok t ∧ WellFormed hs t ∧
      get hs t = lastAssigned ops := by
  induction ops using List.reverseRecOn with
  | nil =>
      obtain ⟨t, hnew, hwf, hget⟩ := luaHNew_spec (V := V) hs hnarray hnhash
      refine ⟨t, ?_, hwf, funext hget⟩
      rw [hnew]
      rfl
  | append_singleton ops op ih =>
      obtain ⟨k, v⟩ := op
      obtain ⟨t, hrun, hwf, hget⟩ := ih fun ops' k' v' hbefore =>
        hfits ops' k' v' (hbefore.trans (List.prefix_append ops _))
      have hbound := hfits ops k v List.prefix_rfl
      rw [← hget] at hbound
      obtain ⟨t', hassign, hwf', hget'⟩ := hwf.assign_spec fuel k v hbound
      refine ⟨t', ?_, hwf', ?_⟩
      · have hsnoc : assignAll hs (fuel + 2) (ops ++ [(k, v)]) = fun t : Table (Key K S O) V =>
            assignAll hs (fuel + 2) ops t >>= fun t => assign hs (fuel + 2) t k v := by
          funext t
          rw [assignAll, List.foldlM_append]
          exact bind_congr fun t => by simp
        rw [hsnoc, ← bind_assoc, hrun]
        exact hassign
      · rw [hget', hget, lastAssigned_append_singleton]

/-- No assignment fails, and no other key changes, however often the table grows on the way. -/
theorem assignAll_refines {narray nhash : ℕ} (hnarray : narray ≤ maxasize)
    (hnhash : nhash ≤ maxasize) (fuel : ℕ) {ops : List (Key K S O × Option V)}
    (hfits : Fits ops) :
    ∃ t, (luaHNew narray nhash >>= assignAll hs (fuel + 2) ops) = .ok t ∧
      ∀ k, get hs t k = lastAssigned ops k := by
  obtain ⟨t, hrun, -, hget⟩ := assignAll_spec hs hnarray hnhash fuel hfits
  exact ⟨t, hrun, fun k => congrFun hget k⟩

def sampleHashes : Hashes ℚ String ℕ := ⟨fun q => q.num.natAbs, String.length, id⟩

def sampleOps : List (Key ℚ String ℕ × Option ℕ) :=
  [(.number 1, some 10), (.string "x", some 11), (.boolean true, none), (.number 1, some 12)]

theorem sampleOps_length : sampleOps.length ≤ maxasize := by decide +kernel

theorem exists_sample : ∃ t, (luaHNew 0 1 >>= assignAll sampleHashes 2 sampleOps) = .ok t ∧
    WellFormed sampleHashes t ∧ get sampleHashes t = lastAssigned sampleOps :=
  assignAll_spec sampleHashes (by decide +kernel) (by decide +kernel) 0
    (.of_length_le sampleOps_length)

theorem assignAll_refines_sample :
    ∃ t, (luaHNew 0 1 >>= assignAll sampleHashes 2 sampleOps) = .ok t ∧
      ∀ k, get sampleHashes t k = lastAssigned sampleOps k :=
  assignAll_refines (by decide +kernel) (by decide +kernel) 0 (.of_length_le sampleOps_length)

/-- The main invariant: a key is on the chain from its main position, and the key that stands there
is at home. -/
theorem assignAll_collides {narray nhash : ℕ} (hnarray : narray ≤ maxasize)
    (hnhash : nhash ≤ maxasize) (fuel : ℕ) {ops : List (Key K S O × Option V)}
    (hfits : Fits ops) :
    ∃ t, (luaHNew narray nhash >>= assignAll hs (fuel + 2) ops) = .ok t ∧
      ∀ i key, (t.node i).key = some key →
        i ∈ t.chain (mainposition hs t.sizenode key) ∧
        (∀ j, (t.node j).key = some key → j = i) ∧
        ∃ other, (t.node (mainposition hs t.sizenode key)).key = some other ∧
          mainposition hs t.sizenode other = mainposition hs t.sizenode key := by
  obtain ⟨t, hrun, hwf, -⟩ := assignAll_spec hs hnarray hnhash fuel hfits
  refine ⟨t, hrun, fun i key hkey => ⟨?_, fun j hj => ?_, hwf.scattered.collides i key hkey⟩⟩
  · exact (hwf.scattered.linked.mem_visited_iff (WellFormed.mainposition_lt hs t key)).mpr
      (hwf.scattered.visits i key hkey)
  · exact hwf.scattered.inj j i key hj hkey

theorem assignAll_collides_sample :
    ∃ t, (luaHNew 0 1 >>= assignAll sampleHashes 2 sampleOps) = .ok t ∧
      ∀ i key, (t.node i).key = some key →
        i ∈ t.chain (mainposition sampleHashes t.sizenode key) ∧
        (∀ j, (t.node j).key = some key → j = i) ∧
        ∃ other, (t.node (mainposition sampleHashes t.sizenode key)).key = some other ∧
          mainposition sampleHashes t.sizenode other = mainposition sampleHashes t.sizenode key :=
  assignAll_collides (by decide +kernel) (by decide +kernel) 0 (.of_length_le sampleOps_length)

def present (hs : Hashes K S O) (t : Table (Key K S O) V) (k : Key K S O) (n : ℕ) : ℕ :=
  ((Finset.Icc 1 n).filter fun i : ℕ =>
    .number (i : K) = k ∨ (get hs t (.number (i : K))).isSome).card

theorem WellFormed.indices_eq_present (h : WellFormed hs t) {k : Key K S O}
    (hk : get hs t k = none) {n : ℕ} (hn : n ≤ maxasize) :
    indices (k :: t.entries.map Prod.fst) n = present hs t k n := by
  have hmem (k' : Key K S O) :
      k' ∈ k :: t.entries.map Prod.fst ↔ k' = k ∨ (get hs t k').isSome := by
    rw [List.mem_cons, List.mem_map, Option.isSome_iff_exists]
    refine or_congr_right ⟨?_, fun ⟨v, hv⟩ => ⟨(k', v), h.mem_entries_iff.mpr hv, rfl⟩⟩
    rintro ⟨⟨k', v⟩, hkv, rfl⟩
    exact ⟨v, h.mem_entries_iff.mp hkv⟩
  have hindex {i : ℕ} (hi : i ≤ n) : arrayindex (.number (i : K) : Key K S O) = i := by
    have hlt : maxasize < 2 ^ 31 := by decide +kernel
    exact_mod_cast arrayindex_number (K := K) (S := S) (O := O) (i := (i : ℤ)) (by omega) (by omega)
  have hset : ((k :: t.entries.map Prod.fst).filter fun k => InArray n k).toFinset =
      ((Finset.Icc 1 n).filter fun i : ℕ =>
        .number (i : K) = k ∨ (get hs t (.number (i : K))).isSome).image
          fun i : ℕ => (.number (i : K) : Key K S O) := by
    ext k'
    rw [List.mem_toFinset, List.mem_filter, hmem, Finset.mem_image]
    constructor
    · rintro ⟨hval, hin⟩
      have hin' : InArray n k' := of_decide_eq_true hin
      have h1 := hin'.1
      have h2 := hin'.2
      have hnum : k' = .number (((arrayindex k' - 1).toNat + 1 : ℕ) : K) := by
        rw [Nat.cast_add, Nat.cast_one]
        exact hin'.eq_number
      refine ⟨(arrayindex k' - 1).toNat + 1, Finset.mem_filter.mpr ⟨?_, hnum ▸ hval⟩, hnum.symm⟩
      rw [Finset.mem_Icc]
      omega
    · rintro ⟨i, hi, rfl⟩
      obtain ⟨hi, hval⟩ := Finset.mem_filter.mp hi
      obtain ⟨h1, h2⟩ := Finset.mem_Icc.mp hi
      refine ⟨hval, decide_eq_true ?_⟩
      rw [InArray, hindex h2]
      omega
  have hinj : Function.Injective fun i : ℕ => (.number (i : K) : Key K S O) :=
    fun i j hij => Nat.cast_injective (Key.number.inj hij)
  rw [indices, List.countP_eq_length_filter,
    ← List.toFinset_card_of_nodup ((h.nodup_cons_entries hk).filter _), hset,
    Finset.card_image_of_injective _ hinj, present]

/-- A rehash for a new key keeps all values. It makes the array as large as it can be with more than
half of it in use, and the parts together no larger than twice the number of keys. -/
theorem rehash_optimal (h : WellFormed hs t) (fuel : ℕ) {k : Key K S O} (hk : get hs t k = none)
    (hfits : (insert k {k' | get hs t k' ≠ none}).ncard ≤ maxasize) :
    ∃ t', rehash hs (newkey hs (fuel + 1)) t k = .ok t' ∧ get hs t' = get hs t ∧
      Optimal (present hs t k) t'.sizearray ∧
      t'.sizearray + t'.nodes ≤ 2 * (insert k {k' | get hs t k' ≠ none}).ncard := by
  rw [h.ncard_insert hk] at hfits ⊢
  obtain ⟨t', hrun, -, hget, hoptimal, hnodes, -⟩ := h.rehash_spec fuel hk (Nat.lt_of_succ_le hfits)
  refine ⟨t', hrun, hget, hoptimal.congr fun n hn => h.indices_eq_present hk hn, ?_⟩
  have hlen := indices_add_others (k :: t.entries.map Prod.fst) t'.sizearray
  rw [List.length_cons, List.length_map] at hlen
  have harray := hoptimal.le_two_mul
  omega

theorem rehash_optimal_sample :
    ∃ t t', (luaHNew 0 1 >>= assignAll sampleHashes 2 sampleOps) = .ok t ∧
      rehash sampleHashes (newkey sampleHashes 1) t (.number 2) = .ok t' ∧
      get sampleHashes t' = get sampleHashes t ∧
      Optimal (present sampleHashes t (.number 2)) t'.sizearray ∧
      t'.sizearray + t'.nodes ≤
        2 * (insert (.number 2) {k' | get sampleHashes t k' ≠ none}).ncard := by
  obtain ⟨t, hrun, hwf, hget⟩ := exists_sample
  have hk : get sampleHashes t (.number 2) = none := by
    rw [hget]
    decide +kernel
  have hfits : (insert (.number 2) {k' | get sampleHashes t k' ≠ none}).ncard ≤ maxasize := by
    rw [hget]
    have hfits : Fits (sampleOps ++ [(.number 2, none)]) := .of_length_le (by decide +kernel)
    exact hfits sampleOps _ none List.prefix_rfl
  obtain ⟨t', h⟩ := rehash_optimal hwf 0 hk hfits
  exact ⟨t, t', hrun, h⟩

end SoftRenderer.Ltable
