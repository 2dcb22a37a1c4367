import OpenAddressing.Text.Template
import OpenAddressing.Value.Equality
import OpenAddressing.Value.Refusal

/-!
# Parts of values by name

What templates select from an argument: the parts of a number by name, the items of a
sequence by number, the values of a dictionary by key.
-/

namespace OpenAddressing.Value

def noPart : Value := .float ⟨"0.0", by decide⟩ (.finite .zero)

/-- A member of a value. Numbers are complex numbers, and integers also fractions. -/
def member (v : Value) (name : String) : Except Refusal Value :=
  match v.integer?, v, name with
  | some n, _, "real" => .ok (.int n)
  | some _, _, "imag" => .ok (.int 0)
  | some n, _, "numerator" => .ok (.int n)
  | some _, _, "denominator" => .ok (.int 1)
  | none, .float text x, "real" => .ok (.float text x)
  | none, .float _ _, "imag" => .ok noPart
  | none, .nan id, "real" => .ok (.nan id)
  | none, .nan _, "imag" => .ok noPart
  | _, _, _ => .error (.noMember v.kind name)

def itemAt (sequence : Sequence) (items : List Value) (n : Nat) : Except Refusal Value :=
  match items[n]? with
  | some v => .ok v
  | none => .error (.itemNumber sequence)

def valueAt (entries : List (Value × Value)) (key : Value) : Except Refusal Value :=
  match entries.find? fun entry => entry.1.same key with
  | some (_, v) => .ok v
  | none => .error (.noKey key)

def item (v : Value) : Text.Reference → Except Refusal Value
  | .number n =>
    match v with
    | .str s => itemAt .text (s.toList.map ofChar) n
    | .list items => itemAt .list items n
    | .tuple items => itemAt .tuple items n
    | .dict entries => valueAt entries (.int n)
    | _ => .error (.noItems v.kind)
  | .name s =>
    match v with
    | .str _ => .error (.itemName .text)
    | .list _ => .error (.itemName .list)
    | .tuple _ => .error (.itemName .tuple)
    | .dict entries => valueAt entries (.str s)
    | _ => .error (.noItems v.kind)

def select : Value → List Text.Selector → Except Refusal Value
  | v, [] => .ok v
  | v, .member name :: rest => do (← v.member name).select rest
  | v, .item reference :: rest => do (← v.item reference).select rest
  | _, .flaw cause :: _ => .error (.template cause)

end OpenAddressing.Value
