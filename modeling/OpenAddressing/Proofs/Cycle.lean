import Mathlib.Data.Finset.Card
import OpenAddressing.Table.Basic

/-!
# Capacities and cyclic paths

A capacity is a power of two of at least `minCapacity`, and `capacityFor` gives the least one
that is large enough. Among so many slots, the path from a hash visits each slot once before
it comes back.
-/

namespace OpenAddressing

/-- The sizes that storage has while a table holds storage at all. -/
def IsCapacity (size : Nat) : Prop := ∃ n, 4 ≤ n ∧ size = 1 <<< n

/-- The slot `d` steps along the path from `start`. -/
def along (size : Nat) (start : Int) (d : Nat) : Nat := mask size (start + d)

theorem along_zero (size : Nat) (start : Int) : along size start 0 = mask size start :=
  congrArg (mask size) (Int.add_zero start)

private theorem sixteen_le_one_shiftLeft {n : Nat} (hn : 4 ≤ n) : 16 ≤ 1 <<< n := by
  rw [Nat.one_shiftLeft]
  exact Nat.pow_le_pow_right (n := 2) (by decide) hn

private theorem isPowerOfTwo_natCast {size : Nat} (hs : size ≠ 0) :
    isPowerOfTwo size = true ↔ size &&& (size - 1) = 0 := by
  have hpred : ((size : Int) - 1) = .ofNat (size - 1) := by
    simp only [Int.ofNat_eq_natCast]
    omega
  rw [isPowerOfTwo, hpred, ← Int.ofNat_eq_natCast]
  simp only [conj, beq_iff_eq, Int.ofNat_eq_natCast]
  omega

theorem isCapacity_iff_sixteen_le {size : Nat} :
    IsCapacity size ↔ 16 ≤ size ∧ size.isPowerOfTwo := by
  constructor
  · intro h
    obtain ⟨n, hn, rfl⟩ := h
    exact ⟨sixteen_le_one_shiftLeft hn, n, Nat.one_shiftLeft n⟩
  · intro h
    obtain ⟨hsize, n, rfl⟩ := h
    refine ⟨n, ?_, (Nat.one_shiftLeft n).symm⟩
    by_contra hn
    have hlt : 2 ^ n < 2 ^ 4 := Nat.pow_lt_pow_right (by decide) (by omega)
    omega

theorem isCapacity_iff {size : Nat} :
    IsCapacity size ↔ minCapacity ≤ size ∧ isPowerOfTwo size = true := by
  rw [isCapacity_iff_sixteen_le]
  refine and_congr_right fun hsize => ?_
  have hne : size ≠ 0 := by omega
  rw [isPowerOfTwo_natCast hne, Nat.and_sub_one_eq_zero_iff_isPowerOfTwo hne]

namespace IsCapacity

variable {size : Nat}

theorem sixteen_le (h : IsCapacity size) : 16 ≤ size := (isCapacity_iff.mp h).1

theorem pos (h : IsCapacity size) : 0 < size := by
  have := h.sixteen_le
  omega

theorem isPowerOfTwo (h : IsCapacity size) : isPowerOfTwo size = true := (isCapacity_iff.mp h).2

theorem mask_eq (h : IsCapacity size) (i : Int) : (mask size i : Int) = i % size := by
  obtain ⟨n, -, rfl⟩ := h
  exact mask_one_shiftLeft n i

theorem mask_lt (h : IsCapacity size) (i : Int) : mask size i < size := by
  obtain ⟨n, -, rfl⟩ := h
  exact mask_one_shiftLeft_lt n i

theorem double (h : IsCapacity size) : IsCapacity (size * 2) := by
  obtain ⟨n, hn, rfl⟩ := h
  exact ⟨n + 1, by omega, by rw [Nat.shiftLeft_succ, Nat.mul_comm]⟩

/-! ## Paths -/

theorem along_eq (h : IsCapacity size) (start : Int) (d : Nat) :
    (along size start d : Int) = (start + d) % size := h.mask_eq _

theorem along_lt (h : IsCapacity size) (start : Int) (d : Nat) : along size start d < size :=
  h.mask_lt _

theorem next_along (h : IsCapacity size) (start : Int) (d : Nat) :
    next size (along size start d) = along size start (d + 1) := by
  have hl : (next size (along size start d) : Int) = (along size start d + 1) % size :=
    h.mask_eq _
  have hd := h.along_eq start d
  have hs := h.along_eq start (d + 1)
  rw [hd, Int.emod_add_emod] at hl
  push_cast at hs
  rw [← Int.add_assoc] at hs
  omega

theorem along_self (h : IsCapacity size) {i : Nat} (hi : i < size) : along size i 0 = i := by
  have := h.along_eq i 0
  rw [Int.emod_eq_of_lt (by omega) (by omega)] at this
  omega

theorem along_injective (h : IsCapacity size) {start : Int} {d e : Nat} (hd : d < size)
    (he : e < size) (heq : along size start d = along size start e) : d = e := by
  have h₁ := h.along_eq start d
  have h₂ := h.along_eq start e
  rw [heq, h₂] at h₁
  have hdiv : (size : Int) ∣ (start + e) - (start + d) :=
    Int.dvd_of_emod_eq_zero (Int.emod_eq_emod_iff_emod_sub_eq_zero.mp h₁)
  have hzero := Int.eq_zero_of_dvd_of_natAbs_lt_natAbs hdiv (by omega)
  omega

theorem along_mask_sub (h : IsCapacity size) (start : Int) {i : Nat} (hi : i < size) :
    along size start (mask size (i - start)) = i := by
  have hl := h.along_eq start (mask size (i - start))
  rw [h.mask_eq, Int.add_emod_emod] at hl
  have hsum : start + ((i : Int) - start) = i := by omega
  rw [hsum, Int.emod_eq_of_lt (by omega) (by omega)] at hl
  omega

theorem mask_sub_along (h : IsCapacity size) (start : Int) {d : Nat} (hd : d < size) :
    mask size ((along size start d : Nat) - start) = d :=
  h.along_injective (h.mask_lt _) hd (h.along_mask_sub start (h.along_lt start d))

theorem along_mask (h : IsCapacity size) (start : Int) (d : Nat) :
    along size (mask size start) d = along size start d := by
  have h₁ : (along size (mask size start) d : Int) = (start + d) % size := by
    rw [h.along_eq, h.mask_eq, Int.emod_add_emod]
  have h₂ := h.along_eq start d
  omega

theorem along_mod (h : IsCapacity size) (start : Int) (d : Nat) :
    along size start (d % size) = along size start d := by
  have h₁ := h.along_eq start (d % size)
  have h₂ := h.along_eq start d
  push_cast at h₁
  rw [Int.add_emod_emod] at h₁
  omega

end IsCapacity

/-! ## The capacity for a number of slots -/

theorem isCapacity_capacityFor (n : Int) : IsCapacity (capacityFor n) := by
  rw [capacityFor]
  split
  · exact ⟨4, Nat.le_refl 4, rfl⟩
  · next hn =>
    refine ⟨_, ?_, rfl⟩
    have hlog : 3 ≤ (n - 1).toNat.log2 := by
      simp only [minCapacity] at hn
      exact (Nat.le_log2 (by omega)).mpr (by omega)
    omega

theorem le_capacityFor (n : Int) : n ≤ capacityFor n := by
  rw [capacityFor]
  split
  · omega
  · have hlt : (n - 1).toNat < 2 ^ ((n - 1).toNat.log2 + 1) := Nat.lt_log2_self
    rw [Nat.one_shiftLeft]
    omega

theorem capacityFor_le {size : Nat} {n : Int} (h : IsCapacity size) (hn : n ≤ size) :
    capacityFor n ≤ size := by
  have hmin := h.sixteen_le
  rw [capacityFor]
  split
  · exact hmin
  · next hlarge =>
    obtain ⟨m, hm, rfl⟩ := h
    simp only [minCapacity] at hlarge
    rw [Nat.one_shiftLeft] at hn ⊢
    rw [Nat.one_shiftLeft]
    apply Nat.pow_le_pow_right (by decide)
    have hlog : (n - 1).toNat.log2 < m := (Nat.log2_lt (by omega)).mpr (by omega)
    omega

theorem capacityFor_self {size : Nat} (h : IsCapacity size) : capacityFor size = size :=
  Nat.le_antisymm (capacityFor_le h (Int.le_refl _)) (by
    have := le_capacityFor size
    omega)

theorem capacityFor_lt {n : Int} (hn : 16 < n) : capacityFor n < 2 * n := by
  rw [capacityFor, if_neg (by simp only [minCapacity]; omega)]
  have hlog : 2 ^ (n - 1).toNat.log2 ≤ (n - 1).toNat := Nat.log2_self_le (by omega)
  rw [Nat.one_shiftLeft, Nat.pow_succ]
  omega

end OpenAddressing
