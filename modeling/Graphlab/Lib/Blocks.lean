import Mathlib.Order.Bounds.Basic
import Mathlib.Order.CompletePartialOrder
import Mathlib.Data.Set.BooleanAlgebra
import Mathlib.Data.Set.Disjoint
import Mathlib.Data.Nat.Bitwise
import Mathlib.Tactic.Ring

/-!
# Blocks of addresses

The words that agree with a given one in all but the last bits: an aligned block.  Two blocks
are nested or disjoint, and a mask tests membership.

## Main definitions

* `block` — the words that differ from a given one in the last bits only.
* `highMask` — the mask of the other bits; `and_highMask_eq_iff`.
* `block_subset_iff`, `disjoint_block_iff` — inclusion and disjointness by membership.
-/

namespace Graphlab.Lib

variable {w k m : ℕ} {x y a : BitVec w}

/-- The words that agree with `x` in all but the last `k` bits. -/
def block (x : BitVec w) (k : ℕ) : Set (BitVec w) := {a | a.toNat / 2 ^ k = x.toNat / 2 ^ k}

theorem mem_block : a ∈ block x k ↔ a.toNat / 2 ^ k = x.toNat / 2 ^ k := Iff.rfl

theorem mem_block_self (x : BitVec w) (k : ℕ) : x ∈ block x k := rfl

theorem mem_block_mono (hkm : k ≤ m) (h : a ∈ block x k) : a ∈ block x m := by
  obtain ⟨_, rfl⟩ := Nat.exists_eq_add_of_le hkm
  rw [mem_block, pow_add, ← Nat.div_div_eq_div_mul, ← Nat.div_div_eq_div_mul, mem_block.mp h]

/-- A block that meets a wider one lies in it. -/
theorem block_subset (hkm : k ≤ m) (h : x ∈ block y m) : block x k ⊆ block y m :=
  fun _ ha => (mem_block.mp (mem_block_mono hkm ha)).trans h

/-- A wider block has two words that differ in a bit which the narrow one fixes. -/
theorem le_of_block_subset (hk : k ≤ w) (h : block x k ⊆ block y m) : k ≤ m := by
  by_contra hlt
  have hlt : m < k := not_le.mp hlt
  obtain ⟨d, rfl⟩ := Nat.exists_eq_add_of_lt hlt
  have hpow : 2 ^ m * 2 ^ (d + 1) = 2 ^ (m + d + 1) := by ring
  have hpos : 0 < 2 ^ m := Nat.two_pow_pos m
  have hwide : 2 ^ m < 2 ^ (m + d + 1) := Nat.pow_lt_pow_right (by omega) (by omega)
  have hend : (x.toNat / 2 ^ (m + d + 1) + 1) * 2 ^ (m + d + 1) ≤ 2 ^ w := by
    obtain ⟨r, rfl⟩ := Nat.exists_eq_add_of_le hk
    rw [pow_add 2 (m + d + 1) r, mul_comm (2 ^ (m + d + 1))]
    refine Nat.mul_le_mul_right _ (Nat.div_lt_of_lt_mul ?_)
    rw [← pow_add]
    exact x.isLt
  have hin : ∀ i < 2 ^ (m + d + 1),
      (x.toNat / 2 ^ (m + d + 1) * 2 ^ (m + d + 1) + i) / 2 ^ m = y.toNat / 2 ^ m := by
    intro i hi
    rw [add_mul, one_mul] at hend
    have hlt : x.toNat / 2 ^ (m + d + 1) * 2 ^ (m + d + 1) + i < 2 ^ w := by omega
    have := h (a := BitVec.ofNatLT _ hlt) (by
      rw [mem_block, BitVec.toNat_ofNatLT, mul_comm, Nat.mul_add_div (Nat.two_pow_pos _),
        Nat.div_eq_of_lt hi, add_zero])
    rwa [mem_block, BitVec.toNat_ofNatLT] at this
  have hfirst := hin 0 (Nat.two_pow_pos _)
  have hnext := hin (2 ^ m) hwide
  rw [← hfirst, add_zero, Nat.add_div_right _ hpos] at hnext
  omega

theorem block_subset_iff (hk : k ≤ w) : block x k ⊆ block y m ↔ k ≤ m ∧ x ∈ block y m :=
  ⟨fun h => ⟨le_of_block_subset hk h, h (mem_block_self x k)⟩, fun h => block_subset h.1 h.2⟩

theorem disjoint_block_iff :
    Disjoint (block x k) (block y m) ↔ x ∉ block y m ∧ y ∉ block x k := by
  rw [Set.disjoint_left]
  constructor
  · intro h
    exact ⟨h (mem_block_self x k), fun hy => h hy (mem_block_self y m)⟩
  · rintro ⟨hx, hy⟩ a hak ham
    -- the narrower block lies in the wider one
    rcases le_total k m with hkm | hmk
    · exact hx ((mem_block.mp (mem_block_mono hkm hak)).symm.trans ham)
    · exact hy ((mem_block.mp (mem_block_mono hmk ham)).symm.trans hak)

/-! ## First and last words -/

theorem isLeast_unique {s : Set (BitVec w)} (hx : IsLeast s x) (hy : IsLeast s y) : x = y :=
  BitVec.le_antisymm (hx.2 hy.1) (hy.2 hx.1)

theorem isGreatest_unique {s : Set (BitVec w)} (hx : IsGreatest s x) (hy : IsGreatest s y) :
    x = y :=
  BitVec.le_antisymm (hy.2 hx.1) (hx.2 hy.1)

/-! ## Masks -/

/-- Ones in all but the last `k` places. -/
def highMask (w k : ℕ) : BitVec w := BitVec.allOnes w <<< k

theorem and_highMask_eq_iff : a &&& highMask w k = x &&& highMask w k ↔ a ∈ block x k := by
  have hshift : a ∈ block x k ↔ a >>> k = x >>> k := by
    rw [mem_block, ← BitVec.toNat_inj, BitVec.toNat_ushiftRight, BitVec.toNat_ushiftRight,
      Nat.shiftRight_eq_div_pow, Nat.shiftRight_eq_div_pow]
  rw [hshift]
  constructor
  · intro h
    refine BitVec.eq_of_getLsbD_eq fun i hi => ?_
    rw [BitVec.getLsbD_ushiftRight, BitVec.getLsbD_ushiftRight]
    by_cases hki : k + i < w
    · have := congrArg (BitVec.getLsbD · (k + i)) h
      simpa [highMask, hki] using this
    · rw [BitVec.getLsbD_of_ge _ _ (not_lt.mp hki), BitVec.getLsbD_of_ge _ _ (not_lt.mp hki)]
  · intro h
    refine BitVec.eq_of_getLsbD_eq fun i hi => ?_
    by_cases hki : k ≤ i
    · have := congrArg (BitVec.getLsbD · (i - k)) h
      simp only [BitVec.getLsbD_ushiftRight, Nat.add_sub_cancel' hki] at this
      simp [this]
    · simp [highMask, not_le.mp hki]

/-- The first word of a block. -/
theorem isLeast_block (x : BitVec w) (k : ℕ) : IsLeast (block x k) (x &&& highMask w k) := by
  constructor
  · rw [← and_highMask_eq_iff, BitVec.and_assoc, BitVec.and_self]
  · intro a ha
    rw [← and_highMask_eq_iff.mpr ha, BitVec.le_def, BitVec.toNat_and]
    exact Nat.and_le_left

/-- The last word of a block. -/
theorem isGreatest_block (x : BitVec w) (k : ℕ) :
    IsGreatest (block x k) (x ||| ~~~highMask w k) := by
  have hor : ∀ a ∈ block x k, a ||| (x ||| ~~~highMask w k) = x ||| ~~~highMask w k := by
    intro a ha
    have heq := and_highMask_eq_iff.mpr ha
    refine BitVec.eq_of_getLsbD_eq fun i hi => ?_
    have := congrArg (BitVec.getLsbD · i) heq
    simp only [BitVec.getLsbD_and, BitVec.getLsbD_or, BitVec.getLsbD_not, hi] at this ⊢
    revert this
    cases (highMask w k).getLsbD i <;> cases a.getLsbD i <;> cases x.getLsbD i <;> simp
  constructor
  · rw [← and_highMask_eq_iff]
    refine BitVec.eq_of_getLsbD_eq fun i hi => ?_
    simp only [BitVec.getLsbD_and, BitVec.getLsbD_or, BitVec.getLsbD_not, hi]
    cases (highMask w k).getLsbD i <;> simp
  · intro a ha
    rw [← hor a ha, BitVec.le_def, BitVec.toNat_or]
    exact Nat.left_le_or

end Graphlab.Lib
