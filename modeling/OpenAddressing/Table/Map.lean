import OpenAddressing.Table.Insert
import OpenAddressing.Table.Delete
import OpenAddressing.Table.Iterate

/-!
# Tables as maps

The operations of a finite map: lookups by key, removal of everything, bulk insertion, and
comparison and merging of whole tables.
-/

namespace OpenAddressing

variable {κ ν ε : Type}

namespace Table

def get? (rules : Rules κ ε) (t : Table κ ν) (key : κ) : Except (Fault κ ε) (Option ν) := do
  match ← t.find? rules key with
  | none => .ok none
  | some i => some <$> t.val i

def getKey? (rules : Rules κ ε) (t : Table κ ν) (key : κ) : Except (Fault κ ε) (Option κ) := do
  match ← t.find? rules key with
  | none => .ok none
  | some i => some <$> t.key i

def get (rules : Rules κ ε) (t : Table κ ν) (key : κ) : Except (Fault κ ε) ν := do
  match ← t.get? rules key with
  | none => .error (.missing key)
  | some value => .ok value

def contains (rules : Rules κ ε) (t : Table κ ν) (key : κ) : Except (Fault κ ε) Bool := do
  return (← t.find? rules key).isSome

def isEmpty (t : Table κ ν) : Bool := t.count = 0

/-- The count as a length, which is a natural number of at most 63 bits. -/
def length (t : Table κ ν) : Except (Fault κ ε) Int :=
  if t.count < 0 then .error .negativeLength
  else if t.count < 0x8000000000000000 then .ok t.count
  else .error .wideLength

/-- A table of its own with the same storage, which has not changed yet. -/
def copy (t : Table κ ν) : Table κ ν := { t with age := 0 }

def agrees (rules : Rules κ ε) (differ : ν → ν → Bool) (t : Table κ ν) :
    List (κ × ν) → Except (Fault κ ε) Bool
  | [] => .ok true
  | (key, value) :: entries => do
    match ← t.get? rules key with
    | none => .ok false
    | some other =>
      if differ other value then .ok false else t.agrees rules differ entries

end Table

namespace Op

variable [Inhabited κ] [Inhabited ν]

def pop (rules : Rules κ ε) (key : κ) : Op κ ν ε ν := do
  match ← pop? rules key with
  | none => throw (.missing key)
  | some value => pure value

def remove (rules : Rules κ ε) (key : κ) : Op κ ν ε Unit := do
  if ← delete rules key then pure () else throw (.missing key)

def clear : Op κ ν ε Unit :=
  edit fun t => { (Table.blank t.capacity : Table κ ν) with age := t.age + 1 }

/-- Gives all storage back. The next insertion allocates anew. -/
def free : Op κ ν ε Unit :=
  edit fun t => { (Table.blank 0 : Table κ ν) with age := t.age + 1 }

/-- Sets pair after pair, up to the first element that is none. -/
def update (rules : Rules κ ε) : List (Except ε (κ × ν)) → Op κ ν ε Unit
  | [] => pure ()
  | .error cause :: _ => throw (.refused cause)
  | .ok (key, value) :: rest => do
    set rules key value
    update rules rest

def deleteAll (rules : Rules κ ε) : List κ → Nat → Op κ ν ε Nat
  | [], deleted => pure deleted
  | key :: rest, deleted => do
    if ← delete rules key then deleteAll rules rest (deleted + 1)
    else deleteAll rules rest deleted

/-- Sets entry after entry; where the key is present, the value becomes the combination of
the old one with the new one. Combinations may be values unlike all others: the entries are
numbered from a first number on, and a combination is told the number of its entry. -/
def mergeWith (rules : Rules κ ε) (combine : Nat → ν → ν → Except ε ν) :
    Nat → List (κ × ν) → Op κ ν ε Unit
  | _, [] => pure ()
  | serial, (key, value) :: rest => do
    match ← query fun t => t.find? rules key with
    | some i =>
      let old ← query fun t => t.val i
      let combined ← query fun _ => (combine serial old value).mapError .refused
      putVal i combined
      edit fun t => { t with age := t.age + 1 }
    | none => set rules key value
    mergeWith rules combine (serial + 1) rest

end Op

end OpenAddressing
