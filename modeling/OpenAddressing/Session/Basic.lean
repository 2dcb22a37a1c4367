import OpenAddressing.Table.Dump
import OpenAddressing.Table.Map
import OpenAddressing.Value.Format
import OpenAddressing.Value.Rule

/-!
# Sessions

A session holds tables of values under names, together with stored plans and unfinished
visits. A visit belongs to the table it was begun on, also when the name goes to another
table. What commands print is collected in two texts; events go to the second one while
tracing is on, and nowhere otherwise.
-/

namespace OpenAddressing

structure Holding where
  table : Table Value Value
  hashing : HashRule
  equality : EqualityRule

/-- The memory there is: how many slots a table can have, how many keys a list, and how many
elements a sequence that is repeated. -/
structure Memory where
  slots : Nat := 0x10000000
  listed : Nat := 0x100000000
  repeated : Nat := 0x10000000
  minCapacity_le_slots : minCapacity ≤ slots := by decide
  slots_lt : slots < 0x8000000000000000 := by decide

def Holding.new (hashing : HashRule) (equality : EqualityRule) : Holding where
  table := .new 0
  hashing := hashing
  equality := equality

structure Session where
  /-- Every table that was ever named, by number. -/
  holdings : Array Holding := #[]
  names : List (String × Nat) := []
  plans : List (String × Plan) := []
  visits : List (String × (Nat × Cursor)) := []
  tracing : Bool := false
  largeCount : Int := 64000
  memory : Memory := {}
  /-- The combinations of values are numbered, and this many numbers have been used. -/
  combinations : Nat := 0

def Event.arguments : Event Value → List Value
  | .probeLimit key capacity => [key, .int capacity]
  | .collapsed tombstones => [.int tombstones]
  | .renewed before after => [.int before, .int after]
  | .rehashed before after live maxProbe => [.int before, .int after, .int live, .int maxProbe]

/-- The line of an event, if what it tells of can be written. -/
def Event.written (event : Event Value) : Except Refusal String :=
  Text.fill (traceLine event.template) event.arguments.toArray

def Holding.rules (h : Holding) (s : Session) : Rules Value Refusal where
  hash := h.hashing.hash
  equal := h.equality.compare
  largeCount := s.largeCount
  slotLimit := some s.memory.slots
  announce key capacity :=
    if s.tracing then (Event.probeLimit key capacity).written.map fun _ => () else .ok ()

structure Stage where
  session : Session
  out : String := ""
  err : String := ""

abbrev Act := EStateM (Fault Value Refusal) Stage

def bindName {α : Type} (name : String) (a : α) (bound : List (String × α)) : List (String × α) :=
  (name, a) :: bound.filter (·.1 ≠ name)

namespace Session

def table? (s : Session) (name : String) : Option (Table Value Value) :=
  ((s.names.lookup name).bind (s.holdings[·]?)).map (·.table)

def tables (s : Session) : List (String × Table Value Value) :=
  s.names.filterMap fun (name, _) => (s.table? name).map (name, ·)

end Session

namespace Act

variable {α : Type}

def refuse (cause : Refusal) : Act α := throw (.refused cause)

def give : Except (Fault Value Refusal) α → Act α
  | .ok a => pure a
  | .error fault => throw fault

def attempt (result : Except Refusal α) : Act α := give (result.mapError .refused)

def named (name : String) (bound : Session → List (String × α)) : Act α := do
  match (bound (← get).session).lookup name with
  | some a => pure a
  | none => refuse (.unknownName name)

def edit (f : Session → Session) : Act Unit :=
  modify fun s => { s with session := f s.session }

def numberCombinations (count : Nat) : Act Nat := do
  let first := (← get).session.combinations
  edit fun s => { s with combinations := first + count }
  pure first

def print (text : String) : Act Unit := modify fun s => { s with out := s.out ++ text }

def printErr (text : String) : Act Unit := modify fun s => { s with err := s.err ++ text }

/-- Writes the lines of events, if tracing is on. -/
def trace : List (Event Value) → Act Unit
  | [] => pure ()
  | event :: rest => do
    if (← get).session.tracing then printErr (← attempt event.written)
    trace rest

def numberOf (name : String) : Act Nat := named name (·.names)

def holding (id : Nat) : Act Holding := do
  match (← get).session.holdings[id]? with
  | some h => pure h
  | none => refuse (.unknownName (toString id))

/-- Runs an operation on a table that is held. Its effects stay also when it stops. -/
def onHeld (id : Nat) (op : Rules Value Refusal → Op Value Value Refusal α) : Act α := do
  let h ← holding id
  let rules := h.rules (← get).session
  let (result, journal) := (op rules).carry ⟨h.table, #[]⟩
  edit fun s =>
    { s with holdings := s.holdings.setIfInBounds id { h with table := journal.table } }
  trace journal.events.toList
  give result

/-- Runs an operation on a table that is not held yet, which is lost when it stops. -/
def onLoose (h : Holding) (op : Rules Value Refusal → Op Value Value Refusal α) :
    Act (α × Holding) := do
  let rules := h.rules (← get).session
  let (result, journal) := (op rules).carry ⟨h.table, #[]⟩
  trace journal.events.toList
  return (← give result, { h with table := journal.table })

def look (id : Nat)
    (f : Rules Value Refusal → Table Value Value → Except (Fault Value Refusal) α) : Act α := do
  let h ← holding id
  give (f (h.rules (← get).session) h.table)

def keep (name : String) (h : Holding) : Act Unit :=
  edit fun s =>
    { s with
      holdings := s.holdings.push h
      names := bindName name s.holdings.size s.names }

def printListing (listing : Listing Value Refusal) : Act Unit := do
  print listing.text
  match listing.fault with
  | none => pure ()
  | some fault => throw fault

end Act

end OpenAddressing
