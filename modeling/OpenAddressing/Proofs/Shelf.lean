import OpenAddressing.Proofs.Request
import OpenAddressing.Table.Audit
import OpenAddressing.Table.Dump

/-!
# Several tables

A shelf holds tables by number, each with rules of its own, and one log of events. Requests
are directed at one table, take entries from a second one, or put a new one on the shelf.
Those that leave all entries alone are observations. A plan that was made for a table is kept
with it for as long as nothing else has changed the table.
-/

namespace OpenAddressing

variable {κ ν ε α β : Type}

/-- How keys and values are written, which values differ, and how long lists can be. -/
structure Manner (κ ν ε : Type) where
  key : κ → Except ε String
  value : ν → Except ε String
  differ : ν → ν → Bool
  listLimit : Option Nat

def Manner.decimal : Manner Nat Nat ε where
  key n := .ok (toString n)
  value n := .ok (toString n)
  differ a b := a != b
  listLimit := none

/-- A table on a shelf, and the plan made for it since it was changed. -/
structure Volume (κ ν ε : Type) where
  rules : Rules κ ε
  table : Table κ ν
  plan? : Option (κ × Plan) := none

namespace Volume

def withTable (v : Volume κ ν ε) (t : Table κ ν) : Volume κ ν ε := { v with table := t }

def renew (v : Volume κ ν ε) (t : Table κ ν) : Volume κ ν ε := { rules := v.rules, table := t }

end Volume

structure Shelf (κ ν ε : Type) where
  volumes : List (Volume κ ν ε) := []
  events : Array (Event κ) := #[]

/-- What is done to a shelf. Besides the faults of tables there is the one of asking for a
table or a plan that is not there. -/
abbrev Errand (κ ν ε : Type) := EStateM (Option (Fault κ ε)) (Shelf κ ν ε)

namespace Errand

def volume (id : Nat) : Errand κ ν ε (Volume κ ν ε) := fun s =>
  match s.volumes[id]? with
  | some v => .ok v s
  | none => .error none s

def tend (store : Volume κ ν ε → Table κ ν → Option α → Volume κ ν ε) (id : Nat)
    (op : Rules κ ε → Op κ ν ε α) : Errand κ ν ε α := fun s =>
  match s.volumes[id]? with
  | none => .error none s
  | some v =>
    match op v.rules ⟨v.table, s.events⟩ with
    | .ok a j => .ok a ⟨s.volumes.set id (store v j.table (some a)), j.events⟩
    | .error fault j => .error (some fault) ⟨s.volumes.set id (store v j.table none), j.events⟩

/-- Runs an operation that leaves the plan as good as it was. -/
def onTable (id : Nat) (op : Rules κ ε → Op κ ν ε α) : Errand κ ν ε α :=
  tend (fun v t _ => v.withTable t) id op

def change (id : Nat) (op : Rules κ ε → Op κ ν ε α) : Errand κ ν ε α :=
  tend (fun v t _ => v.renew t) id op

/-- Runs an operation on a table that is not on the shelf yet, which is lost when it stops. -/
def loose (v : Volume κ ν ε) (op : Rules κ ε → Op κ ν ε α) : Errand κ ν ε (Volume κ ν ε) := fun s =>
  match op v.rules ⟨v.table, s.events⟩ with
  | .ok _ j => .ok (v.renew j.table) { s with events := j.events }
  | .error fault j => .error (some fault) { s with events := j.events }

def push (v : Volume κ ν ε) : Errand κ ν ε Unit := fun s =>
  .ok () { s with volumes := s.volumes ++ [v] }

def entriesOf (id : Nat) : Errand κ ν ε (List (κ × ν)) :=
  return (← onTable id fun _ => Op.items).toList

def equals (manner : Manner κ ν ε) (id other : Nat) : Errand κ ν ε Bool := do
  let count ← onTable id fun _ => Op.query fun t => .ok t.count
  let otherCount ← onTable other fun _ => Op.query fun t => .ok t.count
  if count = otherCount then
    let entries ← entriesOf id
    onTable other fun rules => Op.query fun t => t.agrees rules manner.differ entries
  else pure false

variable [Inhabited κ] [Inhabited ν]

def makePlan (id : Nat) (key : κ) : Errand κ ν ε Plan :=
  tend (fun v t plan => { v.renew t with plan? := plan.map (key, ·) }) id fun rules =>
    Op.plan rules key

def merged (id other : Nat) : Errand κ ν ε (Volume κ ν ε) := do
  let v ← volume id
  let entries ← entriesOf id
  let half ← loose (v.renew (.new 0)) fun rules => Op.update rules (entries.map .ok)
  let entries ← entriesOf other
  loose half fun rules => Op.update rules (entries.map .ok)

def mergedWith (combine : Nat → ν → ν → Except ε ν) (serial id other : Nat) :
    Errand κ ν ε (Volume κ ν ε) := do
  let v ← volume id
  let entries ← entriesOf other
  loose (v.renew v.table.copy) fun rules => Op.mergeWith rules combine serial entries

end Errand

namespace Shelf

inductive Question (κ ν : Type) where
  | get (key : κ) (default : ν)
  | getKey (key default : κ)
  | lookup (key : κ)
  | contains (key : κ)
  | findIndex (key : κ)
  | length
  | isEmpty
  | filledFrom (index : Int)
  | stepFrom (index : Int)
  | audit
  | dump (name : String)

inductive Survey where
  | filledFromFloor
  | firstStep
  | items
  | keys
  | values
  | list
  | render

inductive Observation (κ ν : Type) where
  | ask (id : Nat) (question : Question κ ν)
  | survey (id : Nat) (survey : Survey)
  | equals (id other : Nat)

inductive Change (κ ν ε : Type) where
  | set (key : κ) (value : ν)
  | delete (key : κ)
  | remove (key : κ)
  | pop (key : κ) (default : Option ν)
  | clear
  | free
  | rehash (size : Int)
  | update (entries : List (Except ε (κ × ν)))
  | deleteAt (i : Nat)

inductive Request (κ ν ε : Type) where
  | observe (observation : Observation κ ν)
  | change (id : Nat) (change : Change κ ν ε)
  | plan (id : Nat) (key : κ)
  /-- Carries out the plan that is kept with a table. -/
  | insert (id : Nat) (value : ν)
  | create (rules : Rules κ ε) (hint : Int)
  | build (rules : Rules κ ε) (entries : List (Except ε (κ × ν)))
  | copy (id : Nat)
  | updateFrom (id other : Nat)
  | merge (id other : Nat)
  | mergeWith (combine : Nat → ν → ν → Except ε ν) (serial id other : Nat)
  | mergeInto (combine : Nat → ν → ν → Except ε ν) (serial id other : Nat)

inductive Answer (κ ν ε : Type) where
  | nothing
  | value (v : ν)
  | key (k : κ)
  | bool (b : Bool)
  | number (n : Int)
  | index (i : Option Int)
  | plan (plan : Plan)
  | step (step : Option (Table.Step κ ν))
  | keys (keys : List κ)
  | values (values : List ν)
  | entries (entries : List (κ × ν))
  | text (text : String)
  | listing (listing : Listing κ ε)

abbrev Reply (κ ν ε : Type) := Except (Option (Fault κ ε)) (Answer κ ν ε)

/-- A listing brings its fault along. -/
def Answer.fault? : Answer κ ν ε → Option (Fault κ ε)
  | .listing lines => lines.fault
  | _ => none

def Reply.fault? : Reply κ ν ε → Option (Fault κ ε)
  | .ok answer => answer.fault?
  | .error fault => fault

def Question.answer (manner : Manner κ ν ε) (rules : Rules κ ε) (t : Table κ ν) :
    Question κ ν → Except (Fault κ ε) (Answer κ ν ε)
  | .get key default => return .value ((← t.get? rules key).getD default)
  | .getKey key default => return .key ((← t.getKey? rules key).getD default)
  | .lookup key => return .value (← t.get rules key)
  | .contains key => return .bool (← t.contains rules key)
  | .findIndex key => return .index ((← t.find? rules key).map Int.ofNat)
  | .length => return .number (← t.length)
  | .isEmpty => return .bool t.isEmpty
  | .filledFrom index => return .index (← t.filledFrom? index)
  | .stepFrom index => return .step (← t.stepFrom index)
  | .audit => do
    t.audit rules
    return .nothing
  | .dump name => return .listing (t.dump manner.key manner.value name)

def entryText (manner : Manner κ ν ε) (entry : κ × ν) : Except ε String := do
  return (← manner.key entry.1) ++ ": " ++ (← manner.value entry.2)

def entriesText (manner : Manner κ ν ε) (entries : List (κ × ν)) : Except ε String := do
  return "Table(\x7b" ++ ", ".intercalate (← entries.mapM (entryText manner)) ++ "\x7d)"

def demandList (manner : Manner κ ν ε) (length : Int) : Except (Fault κ ε) Unit :=
  match manner.listLimit with
  | none => .ok ()
  | some limit => if length ≤ limit then .ok () else .error .noMemory

theorem demandList_faults {manner : Manner κ ν ε} {length : Int} {fault : Fault κ ε}
    (h : demandList manner length = .error fault) :
    fault = .noMemory ∧ ∃ limit : Nat, manner.listLimit = some limit ∧ limit < length := by
  rw [demandList] at h
  split at h
  · cases h
  · next limit hlimit =>
    split at h
    · cases h
    · cases h
      exact ⟨rfl, limit, hlimit, by omega⟩

def Survey.op (manner : Manner κ ν ε) : Survey → Op κ ν ε (Answer κ ν ε)
  | .filledFromFloor => return .index (← Op.filledFromFloor?)
  | .firstStep => return .step (← Op.iterate none)
  | .items => return .entries (← Op.items).toList
  | .keys => return .keys ((← Op.items).toList.map (·.1))
  | .values => return .values ((← Op.items).toList.map (·.2))
  | .list => do
    let length ← Op.query fun t => t.length
    Op.query fun _ => demandList manner length
    return .keys ((← Op.items).toList.map (·.1))
  | .render => do
    let entries ← Op.items
    return .text (← Op.query fun _ => (entriesText manner entries.toList).mapError .refused)

def Observation.perform (manner : Manner κ ν ε) :
    Observation κ ν → Errand κ ν ε (Answer κ ν ε)
  | .ask id question =>
    Errand.onTable id fun rules => Op.query fun t => question.answer manner rules t
  | .survey id s => Errand.onTable id fun _ => s.op manner
  | .equals id other => return .bool (← Errand.equals manner id other)

section Perform

variable [Inhabited κ] [Inhabited ν]

def Change.op (rules : Rules κ ε) : Change κ ν ε → Op κ ν ε (Answer κ ν ε)
  | .set key value => do
    Op.set rules key value
    pure .nothing
  | .delete key => return .bool (← Op.delete rules key)
  | .remove key => do
    Op.remove rules key
    pure .nothing
  | .pop key none => return .value (← Op.pop rules key)
  | .pop key (some default) => return .value ((← Op.pop? rules key).getD default)
  | .clear => do
    Op.clear
    pure .nothing
  | .free => do
    Op.free
    pure .nothing
  | .rehash size => do
    Op.rehash rules size
    pure .nothing
  | .update entries => do
    Op.update rules entries
    pure .nothing
  | .deleteAt i => do
    Op.deleteAt i
    pure .nothing

open Errand in
def Request.perform (manner : Manner κ ν ε) : Request κ ν ε → Errand κ ν ε (Answer κ ν ε)
  | .observe observation => observation.perform manner
  | .change id c => Errand.change id fun rules => c.op rules
  | .plan id key => return .plan (← makePlan id key)
  | .insert id value => do
    match (← volume id).plan? with
    | none => throw none
    | some (key, p) =>
      Errand.change id fun rules => Op.insertAt rules key value p
      pure .nothing
  | .create rules hint =>
    match Table.create rules hint with
    | .ok table => do
      push { rules, table }
      pure .nothing
    | .error fault => throw (some fault)
  | .build rules entries => do
    push (← loose { rules, table := .new 0 } fun rules => Op.update rules entries)
    pure .nothing
  | .copy id => do
    let v ← volume id
    push (v.renew v.table.copy)
    pure .nothing
  | .updateFrom id other => do
    let entries ← entriesOf other
    Errand.change id fun rules => Op.update rules (entries.map .ok)
    pure .nothing
  | .merge id other => do
    push (← merged id other)
    pure .nothing
  | .mergeWith combine serial id other => do
    push (← mergedWith combine serial id other)
    pure .nothing
  | .mergeInto combine serial id other => do
    let entries ← entriesOf other
    Errand.change id fun rules => Op.mergeWith rules combine serial entries
    pure .nothing

def Request.onShelf (manner : Manner κ ν ε) (request : Request κ ν ε) (s : Shelf κ ν ε) :
    Reply κ ν ε × Shelf κ ν ε :=
  match request.perform manner s with
  | .ok answer s' => (.ok answer, s')
  | .error fault s' => (.error fault, s')

def reached (manner : Manner κ ν ε) (requests : List (Request κ ν ε)) : Shelf κ ν ε :=
  (runAll (Request.onShelf manner) requests {}).2

theorem reached_append (manner : Manner κ ν ε) (before after : List (Request κ ν ε)) :
    reached manner (before ++ after) =
      (runAll (Request.onShelf manner) after (reached manner before)).2 := by
  rw [reached, runAll_append]
  rfl

end Perform

end Shelf

end OpenAddressing
