import OpenAddressing.Table.Lookup

/-!
# Audit

An audit checks that storage and counters fit together: the shape of the arrays, for each
entry its tag, its place and that lookup leads to it, and at the end the counts.
-/

namespace OpenAddressing.Table

variable {κ ν ε : Type}

def expect (holds : Bool) (finding : Finding κ) : Except (Fault κ ε) Unit :=
  if holds then .ok () else .error (.audit finding)

def auditEntry (rules : Rules κ ε) (t : Table κ ν) (i : Nat) (tag : Tag) :
    Except (Fault κ ε) Unit := do
  let key ← t.key i
  let hash ← rules.hashOf key
  expect (tag = .fingerprint hash) (.fingerprint i tag.code key)
  expect (t.floor ≤ i) (.floor i t.floor)
  let probe := mask t.capacity (i - hash)
  expect (probe ≤ t.maxProbe) (.distance key probe t.maxProbe)
  expect ((← t.find? rules key) = some i) (.lookup key i)

/-- Checks `n` slots from `i` on, and adds the entries and tombstones among them to the
numbers given. -/
def auditSlots (rules : Rules κ ε) (t : Table κ ν) :
    Nat → Nat → Nat → Nat → Except (Fault κ ε) (Nat × Nat)
  | 0, _, live, dead => .ok (live, dead)
  | n + 1, i, live, dead =>
    let tag := t.tagAt i
    if tag = .empty then auditSlots rules t n (i + 1) live dead
    else if tag = .tombstone then auditSlots rules t n (i + 1) live (dead + 1)
    else do
      expect tag.isFilled (.tag i tag.code)
      t.auditEntry rules i tag
      auditSlots rules t n (i + 1) (live + 1) dead

def audit (rules : Rules κ ε) (t : Table κ ν) : Except (Fault κ ε) Unit := do
  let size := t.capacity
  expect (t.keys.size = size ∧ size = t.vals.size) (.lengths size t.keys.size t.vals.size)
  expect (size = 0 ∨ minCapacity ≤ size ∧ isPowerOfTwo size) (.capacity size)
  let (live, dead) ← t.auditSlots rules size 0 0 0
  expect (live = t.count) (.tally live t.count)
  expect (dead = t.dead) (.tally dead t.dead)

end OpenAddressing.Table
