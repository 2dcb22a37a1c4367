import OpenAddressing.Table.Lookup

/-!
# Deletion

A deleted entry leaves a tombstone, so that probes go on past its slot. Where the slot after
it is empty no probe goes on anyway: then the slot, and the tombstones right before it,
become empty again.
-/

namespace OpenAddressing.Op

variable {κ ν ε : Type} [Inhabited κ] [Inhabited ν]

def wipe (index : Int) (tag : Tag) : Op κ ν ε Unit := do
  putTag index tag.code
  putKey index default
  putVal index default

/-- Empties a slot and all tombstones right before it, and gives their number added to
`emptied`. There are at most as many steps as there are slots. -/
def collapse : Nat → Int → Nat → Op κ ν ε Nat
  | 0, _, emptied => pure emptied
  | steps + 1, index, emptied => do
    wipe index .empty
    let before ← query fun t => .ok (mask t.capacity (index - 1))
    if (← query fun t => .ok (t.tagAt before)) = .tombstone then
      collapse steps before (emptied + 1)
    else pure emptied

def deleteAt (index : Int) : Op κ ν ε Unit := do
  let tag ← query fun t => t.tag index
  if tag.isFilled then
    let following ← query fun t => .ok (t.tagAt (mask t.capacity (index + 1)))
    if following = .empty then
      let capacity ← query fun t => .ok t.capacity
      let emptied ← collapse capacity index 0
      if emptied > 0 then report (.collapsed emptied)
      edit fun t => { t with dead := t.dead - emptied }
    else
      wipe index .tombstone
      edit fun t => { t with dead := t.dead + 1 }
    edit fun t => { t with count := t.count - 1, age := t.age + 1 }
  else throw (.unoccupied index tag.code)

def delete (rules : Rules κ ε) (key : κ) : Op κ ν ε Bool := do
  match ← query fun t => t.find? rules key with
  | none => pure false
  | some i =>
    deleteAt i
    pure true

def pop? (rules : Rules κ ε) (key : κ) : Op κ ν ε (Option ν) := do
  match ← query fun t => t.find? rules key with
  | none => pure none
  | some i =>
    let value ← query fun t => t.val i
    deleteAt i
    pure (some value)

end OpenAddressing.Op
