import OpenAddressing.Session.Command
import OpenAddressing.Table.Audit
import OpenAddressing.Value.Source

/-!
# Running commands

Each command as a sequence of operations on the tables it names. The names are looked up
before anything is done: first that of the table a request is directed at, then the others.
When a command stops at a fault, what came before it stays; but a table that was to be held
anew is not.
-/

namespace OpenAddressing

namespace Act

def itemsOf (id : Nat) : Act (Array (Value × Value)) := onHeld id fun _ => Op.items

def entriesOf : Source → Act (List (Except Refusal (Value × Value)))
  | .table name => return (← itemsOf (← numberOf name)).toList.map .ok
  | .value v => attempt v.entries

/-- Whether a table has the same entries as another. Counts are compared first, and a value
is equal to no table. -/
def equals (id : Nat) : Operand → Act Bool
  | .value _ => pure false
  | .table name => do
    let other ← numberOf name
    let count ← look id fun _ t => .ok t.count
    let otherCount ← look other fun _ t => .ok t.count
    if count = otherCount then
      let entries ← itemsOf id
      look other fun rules t => t.agrees rules (fun a b => !a.equal b) entries.toList
    else pure false

/-- All keys of a table. The count is asked for first, and there has to be memory for it. -/
def listKeys (id : Nat) : Act (Array Value) := do
  let length ← look id fun _ t => t.length
  if length > (← get).session.memory.listed then throw .noMemory
  return (← itemsOf id).map (·.1)

def entryText (entry : Value × Value) : Except Refusal String := do
  return (← entry.1.written) ++ ": " ++ (← entry.2.written)

def renderTable (id : Nat) : Act String := do
  let texts ← attempt ((← itemsOf id).toList.mapM entryText)
  pure ("Table(\x7b" ++ Value.commas texts ++ "\x7d)")

def planOf : PlanReference → Act Plan
  | .named name => named name (·.plans)
  | .given plan => pure plan
  | .other v => refuse (.notPlan v)

/-- Takes a step of a visit. A visit that stops at a fault is finished. -/
def advance (visit : String) : Act Answer := do
  let (id, cursor) ← named visit (·.visits)
  let settle (cursor : Cursor) : Act Unit :=
    edit fun s => { s with visits := bindName visit (id, cursor) s.visits }
  settle .finished
  let (key, cursor) ← onHeld id fun _ => cursor.advance
  settle cursor
  match key with
  | some k => pure (.key k)
  | none => pure .stopped

/-- The entries of one table merged with those of another, in a new table with the rules of
the first. -/
def merged (id other : Nat) : Act Holding := do
  let h ← holding id
  let entries ← itemsOf id
  let ((), half) ← onLoose (.new h.hashing h.equality) fun rules =>
    Op.update rules (entries.toList.map .ok)
  let entries ← itemsOf other
  let ((), whole) ← onLoose half fun rules => Op.update rules (entries.toList.map .ok)
  pure whole

def mergedWith (id other : Nat) (rule : CombineRule) : Act Holding := do
  let h ← holding id
  let entries ← itemsOf other
  let first ← numberCombinations entries.size
  let combine := rule.combine (← get).session.memory.repeated
  let ((), whole) ← onLoose { h with table := h.table.copy } fun rules =>
    Op.mergeWith rules combine first entries.toList
  pure whole

def revise (id : Nat) (f : Holding → Holding) : Act Unit :=
  edit fun s => { s with holdings := s.holdings.modify id f }

def create (name : String) (hint : Int) (h : Holding) : Act Unit := do
  let table ← give (Table.create (h.rules (← get).session) hint)
  keep name { h with table }

def respond (id : Nat) : Request → Act Answer
  | .set key value => do
    onHeld id fun rules => Op.set rules key value
    pure .nothing
  | .get key default => do
    let value ← look id fun rules t => t.get? rules key
    pure (.value (value.getD default))
  | .getKey key default => do
    let stored ← look id fun rules t => t.getKey? rules key
    pure (.value (stored.getD default))
  | .lookup key => return .value (← look id fun rules t => t.get rules key)
  | .contains key => return .bool (← look id fun rules t => t.contains rules key)
  | .delete key => return .bool (← onHeld id fun rules => Op.delete rules key)
  | .remove key => do
    onHeld id fun rules => Op.remove rules key
    pure .nothing
  | .pop key none => return .value (← onHeld id fun rules => Op.pop rules key)
  | .pop key (some default) => do
    let value ← onHeld id fun rules => Op.pop? rules key
    pure (.value (value.getD default))
  | .clear => do
    onHeld id fun _ => Op.clear
    pure .nothing
  | .free => do
    onHeld id fun _ => Op.free
    pure .nothing
  | .rehash size => do
    onHeld id fun rules => Op.rehash rules size
    pure .nothing
  | .findIndex key => do
    let i ← look id fun rules t => t.find? rules key
    pure (.index (i.map Int.ofNat))
  | .plan key into => do
    let plan ← onHeld id fun rules => Op.plan rules key
    edit fun s => { s with plans := bindName into plan s.plans }
    pure (.plan plan)
  | .insert key value reference => do
    let plan ← planOf reference
    onHeld id fun rules => Op.insertAt rules key value plan
    pure .nothing
  | .deleteAt index => do
    onHeld id fun _ => Op.deleteAt index
    pure .nothing
  | .filledFrom index => return .index (← look id fun _ t => t.filledFrom? index)
  | .filledFromFloor => return .index (← onHeld id fun _ => Op.filledFromFloor?)
  | .iterate state => do
    match ← onHeld id fun _ => Op.iterate state with
    | none => pure .nothing
    | some step => pure (.value (.list [step.key, step.value, .int step.resume]))
  | .beginVisit visit => do
    edit fun s => { s with visits := bindName visit (id, .fresh) s.visits }
    pure .nothing
  | .list => return .values (← listKeys id)
  | .keys => return .values ((← itemsOf id).map (·.1))
  | .values => return .values ((← itemsOf id).map (·.2))
  | .items => return .values ((← itemsOf id).map fun (k, v) => .list [k, v])
  | .length => return .int (← look id fun _ t => t.length)
  | .truth => return .bool ((← look id fun _ t => t.length) ≠ 0)
  | .isEmpty => return .bool (← look id fun _ t => .ok t.isEmpty)
  | .capacity => return .int (← look id fun _ t => .ok t.capacity)
  | .render => return .text (← renderTable id)
  | .update source => do
    let entries ← entriesOf source
    onHeld id fun rules => Op.update rules entries
    pure .nothing
  | .copy into => do
    let h ← holding id
    keep into { h with table := h.table.copy }
    pure .nothing
  | .equals operand => return .bool (← equals id operand)
  | .differs operand => return .bool !(← equals id operand)
  | .merge other into => do
    keep into (← merged id (← numberOf other))
    pure .nothing
  | .mergeWith other into rule => do
    keep into (← mergedWith id (← numberOf other) rule)
    pure .nothing
  | .mergeInto other rule => do
    let entries ← itemsOf (← numberOf other)
    let first ← numberCombinations entries.size
    let combine := rule.combine (← get).session.memory.repeated
    onHeld id fun rules => Op.mergeWith rules combine first entries.toList
    pure (.bool true)
  | .dump title => do
    let text ← attempt (title.inField { letter := some 's' })
    let listing ← look id fun _ t => .ok (t.dump Value.written Value.written text)
    printListing listing
    pure .nothing
  | .dumpSlot index => do
    let listing ← look id fun _ t => .ok (t.dumpSlot Value.written Value.written index)
    printListing listing
    pure .nothing
  | .audit => do
    look id fun rules t => t.audit rules
    pure .nothing
  | .setHashing rule => do
    revise id fun h => { h with hashing := rule }
    pure .nothing
  | .setEquality rule => do
    revise id fun h => { h with equality := rule }
    pure .nothing
  | .edit change => do
    onHeld id fun rules => Op.apply rules change
    pure .nothing
  | .fill range => do
    let terms ← attempt range.terms
    onHeld id fun rules => Op.update rules (terms.map fun v => .ok (v, v))
    pure .nothing
  | .deleteRange range => do
    let terms ← attempt range.terms
    return .int (← onHeld id fun rules => Op.deleteAll rules terms 0)
  | .layout low high =>
    return .layout (← look id fun _ t =>
      .ok (t.layoutBetween (low.getD 0) (high.getD t.capacity)))
  | .checksum => return .int (← look id fun _ t => .ok t.checksum)

def perform : Command → Act Answer
  | .ask name request => do respond (← numberOf name) request
  | .create name hint hashing equality => do
    create name hint (.new hashing equality)
    pure .nothing
  | .build name source hashing equality => do
    let entries ← entriesOf source
    let ((), h) ← onLoose (.new hashing equality) fun rules => Op.update rules entries
    keep name h
    pure .nothing
  | .advanceVisit visit => advance visit
  | .trace on => do
    edit fun s => { s with tracing := on }
    pure .nothing
  | .traceMessage template arguments => do
    if (← get).session.tracing then
      printErr (← attempt (Text.fill (traceLine template) arguments))
    pure .nothing
  | .setLargeCount n => do
    edit fun s => { s with largeCount := n }
    pure .nothing

end Act

def Session.run (s : Session) (command : Command) : Reply × Session :=
  match Act.perform command { session := s } with
  | .ok answer stage => (⟨.ok answer, stage.out, stage.err⟩, stage.session)
  | .error fault stage => (⟨.error fault, stage.out, stage.err⟩, stage.session)

end OpenAddressing
