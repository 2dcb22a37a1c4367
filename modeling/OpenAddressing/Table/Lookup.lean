import OpenAddressing.Table.Basic

/-!
# Lookup

A key is looked for from its first slot on, through as many slots as entries may stray, and
no further than the first empty slot. Keys are only compared where the tags agree.
-/

namespace OpenAddressing.Table

variable {κ ν ε : Type}

def seek (rules : Rules κ ε) (t : Table κ ν) (key : κ) (tag : Tag) :
    Nat → Nat → Except (Fault κ ε) (Option Nat)
  | 0, _ => .ok none
  | window + 1, i =>
    if t.tagAt i = .empty then .ok none
    else if t.tagAt i = tag then do
      let stored ← t.key i
      if ← rules.isKey key stored then .ok (some i)
      else seek rules t key tag window (t.after i)
    else seek rules t key tag window (t.after i)

/-- The index of a key. A table without entries answers before the key is hashed, and one
with entries but no slots has no slot to look at. -/
def find? (rules : Rules κ ε) (t : Table κ ν) (key : κ) : Except (Fault κ ε) (Option Nat) :=
  if t.count = 0 then .ok none
  else do
    let hash ← rules.hashOf key
    if isPowerOfTwo t.capacity then
      if t.maxProbe < 0 then .ok none
      else if t.capacity = 0 then .error (outside hash .slotIndex)
      else t.seek rules key (.fingerprint hash) (t.maxProbe + 1).toNat (mask t.capacity hash)
    else .error (.notPowerOfTwo t.capacity)

end OpenAddressing.Table
