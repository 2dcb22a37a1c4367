import OpenAddressing.Text.Quoted
import OpenAddressing.Value.Basic

/-!
# Values as text

A value is written on one line, texts in quotes. A tuple of one element has a comma after it.
Integers of very many digits are not meant to be written at all.
-/

namespace OpenAddressing.Value

def commas (texts : List String) : String := String.intercalate ", " texts

mutual

def render : Value → String
  | .null => "None"
  | .bool true => "True"
  | .bool false => "False"
  | .int n => toString n
  | .float text _ => text
  | .nan _ => "nan"
  | .str s => Text.quoted s
  | .list items => "[" ++ commas (renderItems items) ++ "]"
  | .tuple [item] => "(" ++ render item ++ ",)"
  | .tuple items => "(" ++ commas (renderItems items) ++ ")"
  | .dict entries => "\x7b" ++ commas (renderEntries entries) ++ "\x7d"

def renderItems : List Value → List String
  | [] => []
  | x :: xs => render x :: renderItems xs

def renderEntries : List (Value × Value) → List String
  | [] => []
  | (k, v) :: xs => (render k ++ ": " ++ render v) :: renderEntries xs

end

/-- Integers of this size and more have too many digits. -/
def digitBound : Nat := Nat.pow 10 4300

mutual

def isWritable : Value → Bool
  | .int n => n.natAbs < digitBound
  | .list items => areWritable items
  | .tuple items => areWritable items
  | .dict entries => entriesWritable entries
  | _ => true

def areWritable : List Value → Bool
  | [] => true
  | x :: xs => isWritable x && areWritable xs

def entriesWritable : List (Value × Value) → Bool
  | [] => true
  | (k, v) :: xs => isWritable k && isWritable v && entriesWritable xs

end

end OpenAddressing.Value
