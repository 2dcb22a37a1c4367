import OpenAddressing.Table.Fault

/-!
# Tables and operations on them

A table keeps tags, keys and values in three arrays aligned by slot index, beside its
counters. How keys are hashed and compared is not part of a table: operations take `Rules`.
An operation is a state transformer that may stop at a fault; what it changed before that
stays changed.
-/

namespace OpenAddressing

/-- What a table is told about its keys and about its growth, and whom it tells. -/
structure Rules (κ ε : Type) where
  hash : κ → Except ε Int
  /-- Compares the key sought with a key stored. -/
  equal : κ → κ → Except ε Bool
  /-- Tables with more entries than this grow by a half instead of doubling. -/
  largeCount : Int
  /-- There is memory for this many slots and no more, if memory is limited. It is had for all
  arrays of a table or for none, and again for as many slots as a table has. -/
  slotLimit : Option Nat
  /-- Hears of a key that finds no slot within reach of a table of so many slots. -/
  announce : κ → Nat → Except ε Unit := fun _ _ => .ok ()

/-- Storage and counters. The counters are integers of any size and sign, and nothing is
assumed about how they or the lengths of the arrays fit together. -/
structure Table (κ ν : Type) where
  tags : Array Tag
  keys : Array κ
  vals : Array ν
  count : Int
  dead : Int
  age : Int
  /-- No entry lies below this index. -/
  floor : Int
  /-- No entry lies further than this from its first slot. -/
  maxProbe : Int

/-- Where an insertion goes: onto the entry at `index`, or into a free slot that is to carry
the tag `code`. Plans may come from outside, so both are unchecked numbers. -/
inductive Plan where
  | found (index : Int)
  | vacant (index code : Int)

structure Journal (κ ν : Type) where
  table : Table κ ν
  events : Array (Event κ)

abbrev Op (κ ν ε : Type) := EStateM (Fault κ ε) (Journal κ ν)

variable {κ ν ε α : Type}

/-- The cell that a signed index means: negative indices count from the end. -/
def cell? (size : Nat) (index : Int) : Option Nat :=
  if 0 ≤ index then if index < size then some index.toNat else none
  else if 0 ≤ index + size then some (index + size).toNat else none

theorem cell?_natCast (size i : Nat) : cell? size i = if i < size then some i else none := by
  simp [cell?]

/-- The fault of an index outside an array, which depends on whether it fits 64 bits. -/
def outside (index : Int) (fault : Fault κ ε) : Fault κ ε :=
  if -0x8000000000000000 ≤ index ∧ index < 0x8000000000000000 then fault else .wideIndex

def cell (size : Nat) (index : Int) (fault : Fault κ ε) : Except (Fault κ ε) Nat :=
  match cell? size index with
  | some i => .ok i
  | none => .error (outside index fault)

def readCell (cells : Array α) (index : Int) : Except (Fault κ ε) α :=
  match (cell? cells.size index).bind fun i => cells[i]? with
  | some a => .ok a
  | none => .error (outside index .cellIndex)

def Rules.hashOf (rules : Rules κ ε) (key : κ) : Except (Fault κ ε) Int :=
  (rules.hash key).mapError .refused

def Rules.isKey (rules : Rules κ ε) (sought stored : κ) : Except (Fault κ ε) Bool :=
  (rules.equal sought stored).mapError .refused

def Rules.announceKey (rules : Rules κ ε) (key : κ) (capacity : Nat) : Except (Fault κ ε) Unit :=
  (rules.announce key capacity).mapError .refused

def Rules.demandRoom (rules : Rules κ ε) (size : Nat) : Except (Fault κ ε) Unit :=
  match rules.slotLimit with
  | none => .ok ()
  | some limit =>
    if size ≤ limit then .ok ()
    else if size < 0x8000000000000000 then .error .noMemory
    else .error .wideLength

namespace Table

abbrev capacity (t : Table κ ν) : Nat := t.tags.size

/-- The tag at an index. Walks only ask for indices below the capacity. -/
def tagAt (t : Table κ ν) (i : Nat) : Tag := t.tags.getD i .empty

def tag (t : Table κ ν) (index : Int) : Except (Fault κ ε) Tag :=
  (cell t.capacity index .slotIndex).map t.tagAt

def key (t : Table κ ν) (index : Int) : Except (Fault κ ε) κ := readCell t.keys index

def val (t : Table κ ν) (index : Int) : Except (Fault κ ε) ν := readCell t.vals index

def after (t : Table κ ν) (i : Nat) : Nat := next t.capacity i

section Blank

variable [Inhabited κ] [Inhabited ν]

def blank (size : Nat) : Table κ ν where
  tags := Array.replicate size .empty
  keys := Array.replicate size default
  vals := Array.replicate size default
  count := 0
  dead := 0
  age := 0
  floor := 0
  maxProbe := 0

def new (hint : Int) : Table κ ν := blank (capacityFor hint)

def create (rules : Rules κ ε) (hint : Int) : Except (Fault κ ε) (Table κ ν) := do
  rules.demandRoom (capacityFor hint)
  .ok (new hint)

@[simp] theorem capacity_blank (size : Nat) : (blank size : Table κ ν).capacity = size := by
  simp [capacity, blank]

end Blank

end Table

namespace Op

@[inline]
def query (f : Table κ ν → Except (Fault κ ε) α) : Op κ ν ε α := fun s =>
  match f s.table with
  | .ok a => .ok a s
  | .error fault => .error fault s

@[inline]
def edit (f : Table κ ν → Table κ ν) : Op κ ν ε Unit := fun s =>
  .ok () { s with table := f s.table }

@[inline]
def report (event : Event κ) : Op κ ν ε Unit := fun s =>
  .ok () { s with events := s.events.push event }

def carry (op : Op κ ν ε α) (s : Journal κ ν) : Except (Fault κ ε) α × Journal κ ν :=
  match op s with
  | .ok a s' => (.ok a, s')
  | .error fault s' => (.error fault, s')

theorem bind_run {β : Type} (x : Op κ ν ε α) (f : α → Op κ ν ε β) (s : Journal κ ν) :
    (x >>= f) s = match x s with
      | .ok a s' => f a s'
      | .error fault s' => .error fault s' := by
  change EStateM.bind x f s = _
  rw [EStateM.bind.eq_def]
  cases x s <;> rfl

theorem query_run (f : Table κ ν → Except (Fault κ ε) α) (s : Journal κ ν) :
    query f s = match f s.table with
      | .ok a => .ok a s
      | .error fault => .error fault s := rfl

@[simp]
theorem edit_run (f : Table κ ν → Table κ ν) (s : Journal κ ν) :
    (edit f : Op κ ν ε Unit) s = .ok () { s with table := f s.table } := rfl

@[simp]
theorem report_run (event : Event κ) (s : Journal κ ν) :
    (report event : Op κ ν ε Unit) s = .ok () { s with events := s.events.push event } := rfl

def putTag (index code : Int) : Op κ ν ε Unit := do
  -- Whether the number is a byte is seen before whether the slot exists.
  let tag ← query fun _ =>
    match Tag.ofCode? code with
    | some tag => .ok tag
    | none => .error (outside index .tagRange)
  let i ← query fun t => cell t.capacity index .slotIndex
  edit fun t => { t with tags := t.tags.setIfInBounds i tag }

def putKey (index : Int) (key : κ) : Op κ ν ε Unit := do
  let i ← query fun t => cell t.keys.size index .cellAssignment
  edit fun t => { t with keys := t.keys.setIfInBounds i key }

def putVal (index : Int) (value : ν) : Op κ ν ε Unit := do
  let i ← query fun t => cell t.vals.size index .cellAssignment
  edit fun t => { t with vals := t.vals.setIfInBounds i value }

end Op

end OpenAddressing
