import OpenAddressing.Value.Conversion
import OpenAddressing.Value.Double
import OpenAddressing.Value.Hash
import OpenAddressing.Value.Order

/-!
# Rules for keys and values

Ways to hash keys, to compare them, and to combine two values into one: some that have names,
and functions of any kind.
-/

namespace OpenAddressing

inductive HashRule where
  | standard
  | text
  | constant (hash : Int)
  /-- A linear function of the integer key, or of its remainder by `modulus`. -/
  | affine (factor offset : Int) (modulus : Option Int)
  | length
  | first
  | listed (hashes : List (Value × Int)) (otherwise : Option Int)
  | given (hash : Value → Except Refusal Int)

inductive EqualityRule where
  | same
  | equal
  | never
  | always
  | atMost
  | congruent (modulus : Int)
  | caseless
  | failing (key : Value)
  | given (compare : Value → Value → Except Refusal Bool)

inductive CombineRule where
  | add
  | subtract
  | multiply
  | divide
  | old
  | new
  | tuple
  | list
  | given (combine : Nat → Value → Value → Except Refusal Value)

/-- Integer remainder that has the sign of the divisor. -/
def remainder (a b : Int) : Except Refusal Int :=
  if b = 0 then .error .remainderByZero else .ok (a.fmod b)

inductive Remainder where
  | number (x : Extended)
  /-- No number, and the same as no other remainder. -/
  | undefined
  | text (s : String)

def Remainder.agree : Remainder → Remainder → Bool
  | .number x, .number y => x == y
  | .text s, .text t => s == t
  | _, _ => false

/-- The remainder of a number of any kind by an integer. A text is a template for the
integer, and leaves what it is filled to. -/
def Value.remainder (v : Value) (n : Int) : Except Refusal Remainder :=
  match v.integer?, v with
  | some m, _ => do return .number (.finite (.ofInt (← OpenAddressing.remainder m n)))
  | none, .float _ x => do
    match x, (← Double.ofInt n).number with
    | _, .finite .zero => .error .decimalRemainderByZero
    | .finite x, .finite y => .ok (.number (Double.floorRemainder x y))
    | _, _ => .ok .undefined
  | none, .nan _ => do
    match (← Double.ofInt n).number with
    | .finite .zero => .error .decimalRemainderByZero
    | _ => .ok .undefined
  | none, .str s => return .text (← Text.fillWith s n)
  | none, _ => .error (.operands "%" v.kind "int")

def HashRule.hash : HashRule → Value → Except Refusal Int
  | .standard, v => v.defaultHash
  | .text, v => v.stringHash
  | .constant h, _ => .ok h
  | .affine factor offset modulus, v =>
    match v.integer?, modulus with
    | none, _ => .error .notInteger
    | some n, none => .ok (factor * n + offset)
    | some n, some m => do return factor * (← remainder n m) + offset
  | .length, .str s => .ok s.length
  | .length, _ => .error .notText
  | .first, .str s => .ok ((s.toList.head?.map Char.toNat).getD 0)
  | .first, _ => .error .notText
  | .listed hashes otherwise, v =>
    match hashes.find? fun entry => entry.1.same v, otherwise with
    | some (_, h), _ => .ok h
    | none, some h => .ok h
    | none, none => .error .noHash
  | .given hash, v => hash v

def EqualityRule.compare : EqualityRule → Value → Value → Except Refusal Bool
  | .same, a, b => .ok (a.same b)
  | .equal, a, b => .ok (a.equal b)
  | .never, _, _ => .ok false
  | .always, _, _ => .ok true
  | .atMost, a, b => a.atMost b
  | .congruent modulus, a, b => do
    return (← a.remainder modulus).agree (← b.remainder modulus)
  | .caseless, .str s, .str t => .ok (s.map Char.toLower == t.map Char.toLower)
  | .caseless, _, _ => .ok false
  | .failing key, a, b =>
    if a.equal key || b.equal key then .error .badKey else .ok (a.equal b)
  | .given compare, a, b => compare a b

namespace Value

def hasPoint : Value → Bool
  | .float _ _ => true
  | .nan _ => true
  | _ => false

def double (v : Value) : Except Refusal (Option Double) :=
  match v.integer?, v with
  | some n, _ => some <$> Double.ofInt n
  | none, .float text x => .ok (some ⟨text.val.toList.head? = some '-', x⟩)
  | none, _ => .ok none

variable (serial : Nat)

/-- The value of a double. One without a number is known by the number of the operation. -/
def ofDouble : Option Double → Value
  | some x => .float x.line x.number
  | none => .nan (.made serial)

def combineAsDoubles (a b : Value) : Bool :=
  (a.hasPoint || b.hasPoint) && a.isNumeric && b.isNumeric

def withDoubles (op : Double → Double → Option Double) (a b : Value) : Except Refusal Value := do
  match ← a.double, ← b.double with
  | some x, some y => .ok (ofDouble serial (op x y))
  | _, _ => .ok (ofDouble serial none)

def add : Value → Value → Except Refusal Value
  | .str s, .str t => .ok (.str (s ++ t))
  | .list xs, .list ys => .ok (.list (xs ++ ys))
  | .tuple xs, .tuple ys => .ok (.tuple (xs ++ ys))
  | .str _, b => .error (.concatenation "str" b.kind)
  | .list _, b => .error (.concatenation "list" b.kind)
  | .tuple _, b => .error (.concatenation "tuple" b.kind)
  | a, b =>
    match a.integer?, b.integer? with
    | some m, some n => .ok (.int (m + n))
    | _, _ =>
      if a.combineAsDoubles b then withDoubles serial Double.add a b
      else .error (.operands "+" a.kind b.kind)

def subtract (a b : Value) : Except Refusal Value :=
  match a.integer?, b.integer? with
  | some m, some n => .ok (.int (m - n))
  | _, _ =>
    if a.combineAsDoubles b then withDoubles serial Double.subtract a b
    else .error (.operands "-" a.kind b.kind)

def isSequence : Value → Bool
  | .str _ | .list _ | .tuple _ => true
  | _ => false

/-- The number of times that a sequence of a length is repeated, if there is memory for so many
elements: `cause` is why their number has to fit a machine word. -/
def repetitions (limit length : Nat) (count : Int) (cause : Refusal) : Except Refusal Nat :=
  if count < -0x8000000000000000 ∨ 0x8000000000000000 ≤ count then .error .wideCount
  else if length * count.toNat ≤ limit then
    .ok (if length = 0 then 0 else count.toNat)
  else if length * count.toNat < 0x8000000000000000 then .error .noMemory
  else .error cause

def repeated (limit : Nat) (count : Int) : Value → Except Refusal Value
  | .str s => do
    let times ← repetitions limit s.length count .longText
    return .str (String.join (List.replicate times s))
  | .list xs => do
    let times ← repetitions limit xs.length count .noMemory
    return .list (List.replicate times xs).flatten
  | .tuple xs => do
    let times ← repetitions limit xs.length count .noMemory
    return .tuple (List.replicate times xs).flatten
  | v => .error (.operands "*" v.kind "int")

def multiply (limit : Nat) (a b : Value) : Except Refusal Value :=
  if a.combineAsDoubles b then withDoubles serial Double.multiply a b
  else
    match a.integer?, b.integer? with
    | some m, some n => .ok (.int (m * n))
    | some m, none =>
      if b.isSequence then b.repeated limit m else .error (.operands "*" a.kind b.kind)
    | none, some n =>
      if a.isSequence then a.repeated limit n else .error (.operands "*" a.kind b.kind)
    | none, none =>
      if a.isSequence then .error (.repetition b.kind)
      else if b.isSequence then .error (.repetition a.kind)
      else .error (.operands "*" a.kind b.kind)

def divide (a b : Value) : Except Refusal Value :=
  match a.integer?, b.integer? with
  | some m, some n =>
    if n = 0 then .error .divisionByZero else .ok (.int (m.fdiv n))
  | _, _ =>
    if a.combineAsDoubles b then do
      match ← a.double, ← b.double with
      | _, some ⟨_, .finite .zero⟩ => .error .decimalDivisionByZero
      | some x, some y => ofDouble serial <$> x.divide y
      | _, _ => .ok (ofDouble serial none)
    else .error (.operands "//" a.kind b.kind)

end Value

/-- The combination of two values, given the memory for repeated sequences and which combination
it is. -/
def CombineRule.combine (limit : Nat) : CombineRule → Nat → Value → Value → Except Refusal Value
  | .add, serial, a, b => Value.add serial a b
  | .subtract, serial, a, b => Value.subtract serial a b
  | .multiply, serial, a, b => Value.multiply serial limit a b
  | .divide, serial, a, b => Value.divide serial a b
  | .old, _, a, _ => .ok a
  | .new, _, _, b => .ok b
  | .tuple, _, a, b => .ok (.tuple [a, b])
  | .list, _, a, b => .ok (.list [a, b])
  | .given combine, serial, a, b => combine serial a b

end OpenAddressing
