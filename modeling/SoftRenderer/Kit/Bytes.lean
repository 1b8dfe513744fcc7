import Mathlib

/-!
# Words in a memory of bytes

Words of four bytes, the lowest one first. Where words do not overlap, the memory is as good as a
memory of cells: a store at one address is an update of one cell.
-/

namespace Kit

abbrev Bytes := ℕ → BitVec 8

def storeWord (m : Bytes) (a : ℕ) (v : BitVec 32) : Bytes := fun i =>
  if a ≤ i ∧ i < a + 4 then BitVec.ofNat 8 (v.toNat / 256 ^ (i - a)) else m i

def loadWord (m : Bytes) (a : ℕ) : BitVec 32 :=
  BitVec.ofNat 32 ((m a).toNat + 256 * (m (a + 1)).toNat + 256 ^ 2 * (m (a + 2)).toNat +
    256 ^ 3 * (m (a + 3)).toNat)

theorem toNat_storeWord (m : Bytes) (a : ℕ) (v : BitVec 32) {k : ℕ} (hk : k < 4) :
    (storeWord m a v (a + k)).toNat = v.toNat / 256 ^ k % 256 := by
  rw [storeWord, if_pos ⟨by omega, by omega⟩, Nat.add_sub_cancel_left, BitVec.toNat_ofNat]

theorem loadWord_storeWord_same (m : Bytes) (a : ℕ) (v : BitVec 32) :
    loadWord (storeWord m a v) a = v := by
  have h0 := toNat_storeWord m a v (show 0 < 4 by norm_num)
  have h1 := toNat_storeWord m a v (show 1 < 4 by norm_num)
  have h2 := toNat_storeWord m a v (show 2 < 4 by norm_num)
  have h3 := toNat_storeWord m a v (show 3 < 4 by norm_num)
  have hlt := v.isLt
  apply BitVec.eq_of_toNat_eq
  rw [add_zero] at h0
  rw [loadWord, BitVec.toNat_ofNat, h0, h1, h2, h3]
  omega

theorem loadWord_storeWord_apart (m : Bytes) {a b : ℕ} (v : BitVec 32)
    (h : a + 4 ≤ b ∨ b + 4 ≤ a) : loadWord (storeWord m a v) b = loadWord m b := by
  have hbyte : ∀ k < 4, storeWord m a v (b + k) = m (b + k) := by
    intro k hk
    rw [storeWord, if_neg (by omega)]
  have h0 := hbyte 0 (by norm_num)
  rw [add_zero] at h0
  rw [loadWord, h0, hbyte 1 (by norm_num), hbyte 2 (by norm_num), hbyte 3 (by norm_num)]
  rfl

/-- Addresses of words that do not overlap. -/
structure Layout (ι : Type) where
  addr : ι → ℕ
  apart : ∀ i j, i ≠ j → addr i + 4 ≤ addr j ∨ addr j + 4 ≤ addr i

namespace Layout

variable {ι : Type} (L : Layout ι)

def read (m : Bytes) : ι → BitVec 32 := fun i => loadWord m (L.addr i)

theorem read_storeWord [DecidableEq ι] (m : Bytes) (i : ι) (v : BitVec 32) :
    L.read (storeWord m (L.addr i) v) = Function.update (L.read m) i v := by
  funext j
  by_cases h : j = i
  · subst h
    rw [Function.update_self, read, loadWord_storeWord_same]
  · rw [Function.update_of_ne h, read, loadWord_storeWord_apart m v (L.apart i j (Ne.symm h))]
    rfl

end Layout
end Kit
