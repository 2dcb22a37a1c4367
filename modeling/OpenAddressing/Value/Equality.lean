import OpenAddressing.Value.Basic

/-!
# Equality of values

Numbers are equal when they stand for the same number, whatever their kind. Lists and tuples
are equal to their like, element by element. A value without a number equals nothing; but as
an element, and as a key, it is the same as itself.
-/

namespace OpenAddressing.Value

/-- Whether both are one and the same value without a number. -/
def sameNan : Value → Value → Bool
  | .nan i, .nan j => i == j
  | _, _ => false

mutual

def equal : Value → Value → Bool
  | .null, .null => true
  | .int m, .int n => m == n
  | .str s, .str t => s == t
  | .list xs, .list ys => sameItems xs ys
  | .tuple xs, .tuple ys => sameItems xs ys
  | .dict xs, .dict ys => xs.length == ys.length && sameEntries xs ys
  | a, b =>
    match a.number?, b.number? with
    | some x, some y => x == y
    | _, _ => false

def sameItems : List Value → List Value → Bool
  | [], [] => true
  | x :: xs, y :: ys => (sameNan x y || equal x y) && sameItems xs ys
  | _, _ => false

def sameEntries : List (Value × Value) → List (Value × Value) → Bool
  | [], _ => true
  | (k, v) :: xs, ys =>
    ys.any (fun y => (sameNan k y.1 || equal k y.1) && (sameNan v y.2 || equal v y.2)) &&
      sameEntries xs ys

end

/-- Equality as keys: one and the same, or equal. -/
def same (a b : Value) : Bool := sameNan a b || equal a b

end OpenAddressing.Value
