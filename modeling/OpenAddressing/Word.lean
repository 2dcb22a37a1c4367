/-!
# Masks and capacities

Slot positions are integers cut down by a mask, where integers stand for their unbounded
two's-complement bit rows. Capacities are powers of two, so that masking by one less than
the capacity is the remainder.
-/

namespace OpenAddressing

/-- Bitwise conjunction of two integers as two's-complement bit rows without end. -/
def conj : Int → Int → Int
  | .ofNat m, .ofNat n => .ofNat (m &&& n)
  | .ofNat m, .negSucc n => .ofNat (m ^^^ (m &&& n))
  | .negSucc m, .ofNat n => .ofNat (n ^^^ (n &&& m))
  | .negSucc m, .negSucc n => .negSucc (m ||| n)

def minCapacity : Nat := 16

/-- The least power of two that is at least `minCapacity` and at least `n`. -/
def capacityFor (n : Int) : Nat :=
  if n < minCapacity then minCapacity else 1 <<< ((n - 1).toNat.log2 + 1)

/-- Clearing the lowest set bit leaves nothing: a power of two, or zero. -/
def isPowerOfTwo (size : Int) : Bool := conj size (size - 1) == 0

/-- Position of an integer among `size` slots: its bits under the mask `size - 1`. -/
def mask (size : Nat) (i : Int) : Nat := (conj i (size - 1)).toNat

def next (size i : Nat) : Nat := mask size (i + 1)

private theorem xor_and_testBit (m n k : Nat) :
    (m ^^^ (m &&& n)).testBit k = (m.testBit k && !n.testBit k) := by
  simp only [Nat.testBit_xor, Nat.testBit_and]
  cases m.testBit k <;> cases n.testBit k <;> rfl

private theorem low_complement (k n : Nat) :
    (1 <<< k - 1) ^^^ ((1 <<< k - 1) &&& n) = 1 <<< k - (n % (1 <<< k) + 1) := by
  rw [Nat.one_shiftLeft]
  have hlt := Nat.mod_lt n (Nat.two_pow_pos k)
  apply Nat.eq_of_testBit_eq
  intro j
  rw [xor_and_testBit, Nat.testBit_two_pow_sub_succ hlt, Nat.testBit_two_pow_sub_one,
    Nat.testBit_mod_two_pow]
  by_cases hj : j < k <;> simp [hj]

theorem one_shiftLeft_pos (k : Nat) : 0 < 1 <<< k := by
  rw [Nat.one_shiftLeft]
  exact Nat.two_pow_pos k

private theorem pred_one_shiftLeft (k : Nat) :
    ((1 <<< k : Nat) : Int) - 1 = .ofNat (1 <<< k - 1) := by
  have := one_shiftLeft_pos k
  simp only [Int.ofNat_eq_natCast]
  omega

theorem mask_one_shiftLeft (k : Nat) (i : Int) :
    (mask (1 <<< k) i : Int) = i % (1 <<< k : Nat) := by
  have hpos := one_shiftLeft_pos k
  rw [mask, pred_one_shiftLeft]
  cases i with
  | ofNat m =>
      have hand : m &&& (1 <<< k - 1) = m % (1 <<< k) := by
        rw [Nat.one_shiftLeft, Nat.and_two_pow_sub_one_eq_mod]
      simp only [conj, hand, Int.ofNat_eq_natCast, Int.toNat_natCast]
      omega
  | negSucc m =>
      simp only [conj, low_complement, Int.ofNat_eq_natCast, Int.toNat_natCast]
      have hlt : m % (1 <<< k) < 1 <<< k := Nat.mod_lt _ hpos
      rw [Int.negSucc_emod _ (by omega)]
      omega

theorem mask_one_shiftLeft_lt (k : Nat) (i : Int) : mask (1 <<< k) i < 1 <<< k := by
  have hpos := one_shiftLeft_pos k
  have heq := mask_one_shiftLeft k i
  have hlt := Int.emod_lt_of_pos i (show (0 : Int) < (1 <<< k : Nat) by omega)
  omega

end OpenAddressing
