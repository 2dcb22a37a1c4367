import OpenAddressing.Session.Basic
import OpenAddressing.Table.Storage

/-!
# Commands and answers

A request is directed at one table, and may name others. A command is such a request with
the name of its table, or needs no table to be there.
-/

namespace OpenAddressing

/-- An arithmetic progression that stops before `stop`. -/
structure Progression where
  start : Int
  stop : Int
  step : Int

namespace Progression

def length (p : Progression) : Nat :=
  if 0 < p.step then ((p.stop - p.start + p.step - 1) / p.step).toNat
  else ((p.start - p.stop - p.step - 1) / -p.step).toNat

def terms (p : Progression) : Except Refusal (List Value) :=
  if p.step = 0 then .error .zeroStep
  else .ok ((List.range p.length).map fun (i : Nat) => .int (p.start + p.step * i))

end Progression

inductive Source where
  | table (name : String)
  | value (v : Value)

inductive Operand where
  | table (name : String)
  | value (v : Value)

/-- A plan by name, a plan spelled out, or a value that is none. -/
inductive PlanReference where
  | named (name : String)
  | given (plan : Plan)
  | other (v : Value)

inductive Request where
  | set (key value : Value)
  | get (key default : Value)
  | getKey (key default : Value)
  | lookup (key : Value)
  | contains (key : Value)
  | delete (key : Value)
  | remove (key : Value)
  | pop (key : Value) (default : Option Value)
  | clear
  | free
  | rehash (size : Int)
  | findIndex (key : Value)
  | plan (key : Value) (into : String)
  | insert (key value : Value) (plan : PlanReference)
  | deleteAt (index : Int)
  | filledFrom (index : Int)
  | filledFromFloor
  | iterate (state : Option Int)
  | beginVisit (visit : String)
  | list
  | keys
  | values
  | items
  | length
  | truth
  | isEmpty
  | capacity
  | render
  | update (source : Source)
  | copy (into : String)
  | equals (operand : Operand)
  | differs (operand : Operand)
  | merge (other into : String)
  | mergeWith (other into : String) (rule : CombineRule)
  | mergeInto (other : String) (rule : CombineRule)
  | dump (name : Value)
  | dumpSlot (index : Int)
  | audit
  | setHashing (rule : HashRule)
  | setEquality (rule : EqualityRule)
  | edit (change : Edit Value Value)
  | fill (range : Progression)
  | deleteRange (range : Progression)
  | layout (low high : Option Int)
  | checksum

inductive Command where
  /-- A request to the table of a name, which has to be there. -/
  | ask (name : String) (request : Request)
  | create (name : String) (hint : Int) (hashing : HashRule) (equality : EqualityRule)
  | build (name : String) (source : Source) (hashing : HashRule) (equality : EqualityRule)
  | advanceVisit (visit : String)
  | trace (on : Bool)
  | traceMessage (template : String) (arguments : Array Value)
  | setLargeCount (n : Int)

inductive Answer where
  | value (v : Value)
  | plan (plan : Plan)
  | key (k : Value)
  | stopped
  | layout (slots : List (SlotView Value Value))

namespace Answer

def nothing : Answer := .value .null

def bool (b : Bool) : Answer := .value (.bool b)

def int (n : Int) : Answer := .value (.int n)

def text (s : String) : Answer := .value (.str s)

def values (vs : Array Value) : Answer := .value (.list vs.toList)

def index (i : Option Int) : Answer := .int (i.getD (-1))

end Answer

/-- What comes of a command: its answer or its fault, and what it has printed. -/
structure Reply where
  outcome : Except (Fault Value Refusal) Answer
  out : String
  err : String

end OpenAddressing
