import OpenAddressing.Word

/-!
# Slot tags

One byte describes a slot: zero is a slot never used since the last clearing, 127 a deleted
one, and a byte with its top bit set an occupied one. The other seven bits of an occupied
slot's byte repeat the top bits of the key's hash, so most mismatches are seen without
comparing keys.
-/

namespace OpenAddressing

structure Tag where
  byte : UInt8
  deriving DecidableEq

namespace Tag

def empty : Tag := ⟨0⟩

def tombstone : Tag := ⟨127⟩

def code (tag : Tag) : Nat := tag.byte.toNat

def isFilled (tag : Tag) : Bool := 128 ≤ tag.byte

def ofCode? (code : Int) : Option Tag :=
  if 0 ≤ code ∧ code < 256 then some ⟨UInt8.ofNat code.toNat⟩ else none

/-- Bits 57 to 63 of a hash, marked as an occupied slot. -/
def fingerprint (hash : Int) : Tag :=
  ⟨UInt8.ofNat (128 + (hash % 0x10000000000000000).toNat / 0x200000000000000)⟩

end Tag

/-- Whether a number, byte or not, has the mark of an occupied slot. -/
def filledCode (code : Int) : Bool := conj code 128 != 0

def stateName? (code : Int) : Option String :=
  if code = Tag.empty.code then some "EMPTY"
  else if code = Tag.tombstone.code then some "TOMBSTONE"
  else if filledCode code then some "FILLED"
  else none

/-- First slot and tag of a hash among `size` slots, if `size` is a power of two or zero.
Zero slots leave the hash as it is. -/
def locate? (hash size : Int) : Option (Int × Tag) :=
  if isPowerOfTwo size then some (conj hash (size - 1), Tag.fingerprint hash) else none

namespace Tag

theorem fingerprint_code (hash : Int) :
    (fingerprint hash).code = 128 + (hash % 0x10000000000000000).toNat / 0x200000000000000 := by
  have h : (hash % 0x10000000000000000).toNat / 0x200000000000000 < 128 := by omega
  simp only [fingerprint, code, UInt8.toNat_ofNat']
  omega

@[simp]
theorem isFilled_fingerprint (hash : Int) : (fingerprint hash).isFilled = true := by
  have h := fingerprint_code hash
  simp only [isFilled, decide_eq_true_eq, UInt8.le_iff_toNat_le]
  change 128 ≤ (fingerprint hash).code
  omega

@[simp] theorem isFilled_empty : empty.isFilled = false := rfl

@[simp] theorem isFilled_tombstone : tombstone.isFilled = false := rfl

@[simp]
theorem ofCode?_code (tag : Tag) : ofCode? tag.code = some tag := by
  have h : tag.code < 256 := tag.byte.toNat_lt
  rw [ofCode?, if_pos (by omega)]
  simp [code]

end Tag

end OpenAddressing
