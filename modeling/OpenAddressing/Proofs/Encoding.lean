import Mathlib.Data.Int.Bitwise
import Mathlib.Data.Int.ModEq
import Mathlib.Order.Bounds.Basic
import OpenAddressing.Proofs.Cycle
import OpenAddressing.Tag

/-!
# Capacities and the places of hashes

Rounding a number of slots up to a capacity gives the least power of two that will do. Among
so many slots a hash has a first slot, its remainder, and a tag, which is made of seven bits of
the hash and is the tag of no free slot. Going on from slot to slot, one comes through all of
them before the first slot is met again.
-/

namespace OpenAddressing

/-! ## Rounding up -/

theorem isLeast_capacityFor (n : Int) :
    IsLeast {size : Nat | size.isPowerOfTwo ∧ 16 ≤ size ∧ n ≤ size} (capacityFor n) := by
  constructor
  · obtain ⟨hmin, hpower⟩ := isCapacity_iff_sixteen_le.mp (isCapacity_capacityFor n)
    exact ⟨hpower, hmin, le_capacityFor n⟩
  · intro size hsize
    obtain ⟨hpower, hmin, hn⟩ := hsize
    exact capacityFor_le (isCapacity_iff_sixteen_le.mpr ⟨hmin, hpower⟩) hn

theorem capacityFor_mono {m n : Int} (h : m ≤ n) : capacityFor m ≤ capacityFor n :=
  capacityFor_le (isCapacity_capacityFor n) (Int.le_trans h (le_capacityFor n))

/-! ## Tags -/

theorem testBit_toNat_emod_two_pow (n : Int) (width k : Nat) :
    (n % 2 ^ width).toNat.testBit k = (decide (k < width) && n.testBit k) := by
  cases n with
  | ofNat m =>
      have hmod : (Int.ofNat m % 2 ^ width).toNat = m % 2 ^ width := by
        have hcast : Int.ofNat m % 2 ^ width = ((m % 2 ^ width : Nat) : Int) := by push_cast; rfl
        rw [hcast, Int.toNat_natCast]
      rw [hmod, Nat.testBit_mod_two_pow]
      rfl
  | negSucc m =>
      have hlt : m % 2 ^ width < 2 ^ width := Nat.mod_lt m (Nat.two_pow_pos width)
      -- Complementing all bits below the width is subtracting from the greatest number there.
      have hmod : (Int.negSucc m % 2 ^ width).toNat = 2 ^ width - (m % 2 ^ width + 1) := by
        have hpos : (0 : Int) < 2 ^ width := Int.pow_pos (by decide)
        have hcast : (m : Int) % 2 ^ width = ((m % 2 ^ width : Nat) : Int) := by push_cast; rfl
        have hwidth : ((2 ^ width : Nat) : Int) = 2 ^ width := by push_cast; rfl
        rw [Int.negSucc_emod _ hpos, hcast]
        omega
      rw [hmod, Nat.testBit_two_pow_sub_succ hlt, Nat.testBit_mod_two_pow]
      cases hk : decide (k < width) with
      | false => rfl
      | true => rfl

namespace Tag

theorem fingerprint_code_sub (hash : Int) :
    ((fingerprint hash).code : Int) - 128 = hash % 2 ^ 64 / 2 ^ 57 := by
  rw [fingerprint_code]
  omega

theorem code_fingerprint_bounds (hash : Int) :
    128 ≤ (fingerprint hash).code ∧ (fingerprint hash).code ≤ 255 := by
  rw [fingerprint_code]
  omega

/-- Without its mark the tag is the seven top bits of a word. -/
theorem fingerprint_testBit (hash : Int) (k : Fin 7) :
    ((fingerprint hash).code - 128).testBit k = hash.testBit (57 + k) := by
  have hcode : (fingerprint hash).code - 128 = (hash % 2 ^ 64).toNat / 2 ^ 57 := by
    rw [fingerprint_code]
    omega
  have hword : (k : Nat) + 57 < 64 := by omega
  rw [hcode, Nat.testBit_div_two_pow, testBit_toNat_emod_two_pow, decide_eq_true hword,
    Bool.true_and, Nat.add_comm]

theorem code_bounds_of_isFilled {tag : Tag} (h : tag.isFilled = true) :
    128 ≤ tag.code ∧ tag.code < 256 :=
  ⟨UInt8.le_iff_toNat_le.mp (of_decide_eq_true h), tag.byte.toNat_lt⟩

theorem filledCode_of_isFilled {tag : Tag} (h : tag.isFilled = true) :
    filledCode tag.code = true := by
  obtain ⟨hlow, hhigh⟩ := code_bounds_of_isFilled h
  -- The high bit of a byte is set from 128 on.
  have hbit : (tag.code &&& 128).testBit 7 = true := by
    rw [Nat.testBit_and, Nat.testBit_eq_decide_div_mod_eq, Bool.and_eq_true, decide_eq_true_eq]
    exact ⟨by omega, rfl⟩
  have hne : tag.code &&& 128 ≠ 0 := by
    intro hzero
    rw [hzero] at hbit
    cases hbit
  change (Int.ofNat (tag.code &&& 128) != 0) = true
  exact bne_iff_ne.mpr fun hzero => hne (Int.ofNat.inj hzero)

theorem stateName_of_isFilled {tag : Tag} (h : tag.isFilled = true) :
    stateName? tag.code = some "FILLED" := by
  obtain ⟨hlow, -⟩ := code_bounds_of_isFilled h
  have hempty : empty.code = 0 := rfl
  have htombstone : tombstone.code = 127 := rfl
  rw [stateName?, if_neg (by omega), if_neg (by omega), if_pos (filledCode_of_isFilled h)]

theorem ne_of_isFilled {tag free : Tag} (h : tag.isFilled = true) (hfree : free.isFilled = false) :
    tag ≠ free := by
  intro heq
  rw [heq, hfree] at h
  cases h

end Tag

/-! ## Slots -/

private theorem conj_nonneg (i : Int) (m : Nat) : 0 ≤ conj i m := by
  cases i <;> exact Int.natCast_nonneg _

namespace IsCapacity

variable {size : Nat}

theorem locate_eq (h : IsCapacity size) (hash : Int) :
    locate? hash size = some ((mask size hash : Int), Tag.fingerprint hash) := by
  have hpred : (size : Int) - 1 = ((size - 1 : Nat) : Int) := by
    have := h.pos
    omega
  rw [locate?, if_pos h.isPowerOfTwo, mask, hpred, Int.toNat_of_nonneg (conj_nonneg hash _)]

theorem iterate_next (h : IsCapacity size) {i : Nat} (hi : i < size) (d : Nat) :
    (next size)^[d] i = along size i d := by
  induction d with
  | zero => exact (h.along_self hi).symm
  | succ d ih => rw [Function.iterate_succ_apply', ih, h.next_along]

theorem iterate_next_lt (h : IsCapacity size) (i : Fin size) (d : Nat) :
    (next size)^[d] i < size := by
  rw [h.iterate_next i.isLt]
  exact h.along_lt i d

theorem existsUnique_iterate_next (h : IsCapacity size) (i j : Fin size) :
    ∃! d : Fin size, (next size)^[d] i = j := by
  refine ⟨⟨mask size (j - (i : Nat)), h.mask_lt _⟩, ?_, ?_⟩
  · exact (h.iterate_next i.isLt _).trans (h.along_mask_sub i j.isLt)
  · intro d hd
    rw [h.iterate_next i.isLt] at hd
    rw [Fin.ext_iff, ← hd]
    exact (h.mask_sub_along i d.isLt).symm

theorem iterate_next_size (h : IsCapacity size) (i : Fin size) : (next size)^[size] i = i := by
  rw [h.iterate_next i.isLt, ← h.along_mod, Nat.mod_self, h.along_self i.isLt]

end IsCapacity

/-- The first slot and the tag of a hash among `size` slots. The slot is the remainder of the
hash, and the tag is a byte that marks an entry and holds the seven top bits of a word. -/
structure Places (size : Nat) (hash : Int) (i : Nat) (tag : Tag) : Prop where
  located : locate? hash size = some ((i : Int), tag)
  lt : i < size
  modEq : i ≡ hash [ZMOD size]
  low : 128 ≤ tag.code
  high : tag.code ≤ 255
  code_eq : (tag.code : Int) - 128 = hash % 2 ^ 64 / 2 ^ 57
  testBit_eq (k : Fin 7) : (tag.code - 128).testBit k = hash.testBit (57 + k)
  isFilled : tag.isFilled = true
  filledCode : filledCode tag.code = true
  stateName_eq : stateName? tag.code = some "FILLED"
  ne_empty : tag ≠ .empty
  ne_tombstone : tag ≠ .tombstone

theorem IsCapacity.places {size : Nat} (h : IsCapacity size) (hash : Int) :
    Places size hash (mask size hash) (.fingerprint hash) where
  located := h.locate_eq hash
  lt := h.mask_lt hash
  modEq := by
    rw [Int.ModEq, h.mask_eq, Int.emod_emod]
  low := (Tag.code_fingerprint_bounds hash).1
  high := (Tag.code_fingerprint_bounds hash).2
  code_eq := Tag.fingerprint_code_sub hash
  testBit_eq := Tag.fingerprint_testBit hash
  isFilled := Tag.isFilled_fingerprint hash
  filledCode := Tag.filledCode_of_isFilled (Tag.isFilled_fingerprint hash)
  stateName_eq := Tag.stateName_of_isFilled (Tag.isFilled_fingerprint hash)
  ne_empty := Tag.ne_of_isFilled (Tag.isFilled_fingerprint hash) Tag.isFilled_empty
  ne_tombstone := Tag.ne_of_isFilled (Tag.isFilled_fingerprint hash) Tag.isFilled_tombstone

/-- Capacities are least, grow with what is asked for, and are kept when asked for again. Among
the slots of one every hash has a place, and from any slot on a walk comes through all slots,
through each of them once, and back to where it began. -/
theorem capacities_place_hashes :
    (∀ n : Int, IsLeast {size : Nat | size.isPowerOfTwo ∧ 16 ≤ size ∧ n ≤ size} (capacityFor n)) ∧
    (∀ m n : Int, m ≤ n → capacityFor m ≤ capacityFor n) ∧
    (∀ n : Int, capacityFor (capacityFor n) = capacityFor n) ∧
    (∀ n hash : Int, ∃ i tag, Places (capacityFor n) hash i tag) ∧
    ∀ (n : Int) (i : Fin (capacityFor n)),
      let walk (d : Nat) : Nat := (next (capacityFor n))^[d] i
      (∀ d, walk d < capacityFor n) ∧
      (∀ j : Fin (capacityFor n), ∃! d : Fin (capacityFor n), walk d = j) ∧
      walk (capacityFor n) = i := by
  refine ⟨isLeast_capacityFor, fun _ _ => capacityFor_mono, fun n => ?_, fun n hash => ?_,
    fun n i => ?_⟩
  · exact capacityFor_self (isCapacity_capacityFor n)
  · exact ⟨_, _, (isCapacity_capacityFor n).places hash⟩
  · have hc := isCapacity_capacityFor n
    exact ⟨hc.iterate_next_lt i, hc.existsUnique_iterate_next i, hc.iterate_next_size i⟩

/-- The hash of all ones leads to the last slot, with the greatest tag. -/
theorem capacities_place_hashes_ones :
    capacityFor 17 = 32 ∧ capacityFor 17 ≤ capacityFor 33 ∧
      ∃ i tag, Places (capacityFor 17) (-1) i tag ∧ i = 31 ∧ tag.code = 255 := by
  obtain ⟨-, hmono, -, hplaces, -⟩ := capacities_place_hashes
  obtain ⟨i, tag, hplace⟩ := hplaces 17 (-1)
  have hlocated : locate? (-1) (capacityFor 17) = some (31, ⟨255⟩) := by decide
  obtain ⟨hi, htag⟩ := Prod.mk.inj (Option.some.inj (hplace.located.symm.trans hlocated))
  exact ⟨by decide, hmono 17 33 (by decide), i, tag, hplace, by omega, by rw [htag]; rfl⟩

end OpenAddressing
