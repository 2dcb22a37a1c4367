import OpenAddressing.Value.Refusal

/-!
# Sources of entries

A value as a source of entries for a table: a dictionary gives its own, anything else with
parts one for each part, which then has to have exactly two parts itself.
-/

namespace OpenAddressing.Value

def pair (v : Value) : Except Refusal (Value × Value) :=
  match v.parts? with
  | none => .error (.notUnpackable v.kind)
  | some [a, b] => .ok (a, b)
  | some parts =>
    if parts.length < 2 then .error (.tooFewParts parts.length) else .error .tooManyParts

/-- The entries that a value is a source of. Each part fails for itself. -/
def entries : Value → Except Refusal (List (Except Refusal (Value × Value)))
  | .dict own => .ok (own.map .ok)
  | v =>
    match v.parts? with
    | some parts => .ok (parts.map pair)
    | none => .error (.notIterable v.kind)

end OpenAddressing.Value
