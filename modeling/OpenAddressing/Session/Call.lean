import OpenAddressing.Session.Command

/-!
# Single calls

Questions about sizes, tags, hashes, equality and templates that need no table.
-/

namespace OpenAddressing

inductive Call where
  | capacityFor (n : Int)
  | fingerprint (hash : Int)
  | locate (hash size : Int)
  | isFilled (code : Int)
  | stateName (code : Int)
  | stringHash (key : Value)
  | defaultHash (key : Value)
  | same (a b : Value)
  | print (template : String) (arguments : Array Value)
  | printErr (template : String) (arguments : Array Value)

def Reply.quiet (outcome : Except (Fault Value Refusal) Answer) : Reply := ⟨outcome, "", ""⟩

def Call.run : Call → Reply
  | .capacityFor n => .quiet (.ok (.int (OpenAddressing.capacityFor n)))
  | .fingerprint hash => .quiet (.ok (.int (Tag.fingerprint hash).code))
  | .locate hash size =>
    match locate? hash size with
    | some (index, tag) => .quiet (.ok (.value (.list [.int index, .int tag.code])))
    | none => .quiet (.error (.notPowerOfTwo size))
  | .isFilled code => .quiet (.ok (.bool (filledCode code)))
  | .stateName code =>
    match stateName? code with
    | some name => .quiet (.ok (.text name))
    | none => .quiet (.error (.strayTag code))
  | .stringHash key => .quiet ((key.stringHash.map Answer.int).mapError .refused)
  | .defaultHash key => .quiet ((key.defaultHash.map Answer.int).mapError .refused)
  | .same a b => .quiet (.ok (.bool (a.same b)))
  | .print template arguments =>
    match Text.fill template arguments with
    | .ok text => ⟨.ok .nothing, text, ""⟩
    | .error cause => .quiet (.error (.refused cause))
  | .printErr template arguments =>
    match Text.fill template arguments with
    | .ok text => ⟨.ok .nothing, "", text⟩
    | .error cause => .quiet (.error (.refused cause))

end OpenAddressing
