import OpenAddressing.Value.Equality
import OpenAddressing.Value.Refusal

/-!
# Order of values

Numbers are ordered by size, texts by their characters, and lists and tuples by the first
elements that differ. Other values have no order.
-/

namespace OpenAddressing

def Extended.atMost : Extended → Extended → Bool
  | .finite x, .finite y => x.ble y
  | .infinite negative, .finite _ => negative
  | .finite _, .infinite negative => !negative
  | .infinite low, .infinite high => low || !high

namespace Value

def isNumeric (v : Value) : Bool :=
  match v with
  | .nan _ => true
  | _ => v.number?.isSome

mutual

/-- Whether the first value is at most the second. Nothing is at most a value without a
number, nor that at most anything. -/
def atMost : Value → Value → Except Refusal Bool
  | .str s, .str t => .ok !(decide (t < s))
  | .list xs, .list ys => itemsAtMost xs ys
  | .tuple xs, .tuple ys => itemsAtMost xs ys
  | a, b =>
    match a.number?, b.number? with
    | some x, some y => .ok (x.atMost y)
    | _, _ =>
      if a.isNumeric && b.isNumeric then .ok false else .error (.unordered a.kind b.kind)

def itemsAtMost : List Value → List Value → Except Refusal Bool
  | [], _ => .ok true
  | _ :: _, [] => .ok false
  | x :: xs, y :: ys => if same x y then itemsAtMost xs ys else atMost x y

end

end Value

end OpenAddressing
