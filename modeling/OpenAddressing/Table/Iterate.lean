import OpenAddressing.Table.Basic

/-!
# Iteration

Entries are visited by slot index. A fresh visit starts at the floor, which it raises to the
first entry found; a later step starts right after the entry before.
-/

namespace OpenAddressing

variable {κ ν ε : Type}

namespace Table

def firstFilled? (t : Table κ ν) : Nat → Int → Option Int
  | 0, _ => none
  | n + 1, i =>
    if (((cell? t.capacity i).map t.tagAt).getD .empty).isFilled then some i
    else firstFilled? t n (i + 1)

/-- The first index with an entry from a signed index up to the capacity. Negative indices
count from the end, and below those there is no slot. -/
def filledFrom? (t : Table κ ν) (i : Int) : Except (Fault κ ε) (Option Int) :=
  if i < -(t.capacity : Int) then .error (outside i .slotIndex)
  else .ok (t.firstFilled? (t.capacity - i).toNat i)

structure Step (κ ν : Type) where
  key : κ
  value : ν
  resume : Int

/-- The step that visits an index. An index counted from the end ends the visit. -/
def visit (t : Table κ ν) : Option Int → Except (Fault κ ε) (Option (Step κ ν))
  | none => .ok none
  | some i =>
    if i < 0 then .ok none
    else do
      let key ← t.key i
      let value ← t.val i
      .ok (some ⟨key, value, i + 1⟩)

def stepFrom (t : Table κ ν) (i : Int) : Except (Fault κ ε) (Option (Step κ ν)) := do
  t.visit (← t.filledFrom? i)

def collect (t : Table κ ν) :
    Nat → Option (Step κ ν) → Array (κ × ν) → Except (Fault κ ε) (Array (κ × ν))
  | n + 1, some step, entries => do
    collect t n (← t.stepFrom step.resume) (entries.push (step.key, step.value))
  | _, _, entries => .ok entries

end Table

namespace Op

/-- The first index with an entry from the floor on, which becomes the floor unless it
counts from the end. -/
def filledFromFloor? : Op κ ν ε (Option Int) := do
  match ← query fun t => t.filledFrom? t.floor with
  | none => pure none
  | some i =>
    if 0 ≤ i then edit fun t => { t with floor := i }
    pure (some i)

def iterate : Option Int → Op κ ν ε (Option (Table.Step κ ν))
  | none => do
    let i ← filledFromFloor?
    query fun t => t.visit i
  | some i => query fun t => t.stepFrom i

/-- All entries in slot order. A visit has at most as many steps as there are slots. -/
def items : Op κ ν ε (Array (κ × ν)) := do
  let first ← iterate none
  query fun t => t.collect t.capacity first #[]

end Op

inductive Cursor where
  | fresh
  | paused (resume : Int)
  | finished

def Cursor.ofStep : Option (Table.Step κ ν) → Option κ × Cursor
  | none => (none, .finished)
  | some step => (some step.key, .paused step.resume)

def Cursor.advance : Cursor → Op κ ν ε (Option κ × Cursor)
  | .fresh => return ofStep (← Op.iterate none)
  | .paused i => return ofStep (← Op.iterate (some i))
  | .finished => return (none, .finished)

end OpenAddressing
