import OpenAddressing.Text.Line

/-!
# Values

The dynamic values that keys and values of a table may be. A floating-point number keeps
the text it is written as beside the number it stands for; a value that is not a number in
the arithmetic sense has an identity instead.
-/

namespace OpenAddressing

inductive Extended where
  | finite (x : Dyadic)
  | infinite (negative : Bool)
  deriving DecidableEq

/-- What tells values without a number apart: the number that one was given, or that of the
operation that made it. -/
inductive Identity where
  | given (id : Int)
  | made (serial : Nat)
  deriving DecidableEq

/-- Identities as numbers. Those of values that were made are negative. -/
def Identity.number : Identity → Int
  | .given id => id
  | .made serial => -1 - serial

inductive Value where
  | null
  | bool (b : Bool)
  | int (n : Int)
  | float (text : Line) (x : Extended)
  | nan (id : Identity)
  | str (s : String)
  | list (items : List Value)
  | tuple (items : List Value)
  | dict (entries : List (Value × Value))

namespace Value

/-- Cells without an entry hold this value. -/
instance : Inhabited Value := ⟨.null⟩

def kind : Value → String
  | .null => "NoneType"
  | .bool _ => "bool"
  | .int _ => "int"
  | .float _ _ => "float"
  | .nan _ => "float"
  | .str _ => "str"
  | .list _ => "list"
  | .tuple _ => "tuple"
  | .dict _ => "dict"

def integer? : Value → Option Int
  | .int n => some n
  | .bool b => some b.toInt
  | _ => none

def number? : Value → Option Extended
  | .int n => some (.finite (.ofInt n))
  | .bool b => some (.finite (.ofInt b.toInt))
  | .float _ x => some x
  | _ => none

def ofChar (c : Char) : Value := .str (String.singleton c)

def parts? : Value → Option (List Value)
  | .str s => some (s.toList.map ofChar)
  | .list items => some items
  | .tuple items => some items
  | .dict entries => some (entries.map Prod.fst)
  | _ => none

end Value

end OpenAddressing
