import OpenAddressing.Text.Template
import OpenAddressing.Value.Double
import OpenAddressing.Value.Select

/-!
# Templates filled with values

A template is filled from left to right; the first piece that cannot be written decides, and
then nothing is written. Of a field, the argument counts first, then what is selected from
it, the conversion, and the layout.
-/

namespace OpenAddressing

namespace Value

def plain : Value → Except Refusal String
  | .str s => .ok s
  | v => v.written

section Fields

def widthBound : Nat := 0x100000000

def demand (holds : Bool) (cause : Mismatch) : Except Refusal Unit :=
  if holds then .ok () else .error (.mismatch cause)

def demandRoom (field : Text.Field) : Except Refusal Unit :=
  if field.width < widthBound then .ok () else .error .noMemory

def textInField (field : Text.Field) (s : String) : Except Refusal String := do
  match field.sign with
  | some .space => .error (.mismatch .textSpace)
  | some _ => .error (.mismatch .textSign)
  | none => .ok ()
  demand (!field.unsignedZero) .textZero
  demand (!field.marked) .textMark
  match field.alignment with
  | some .inner => .error (.mismatch .textInner)
  | _ => .ok ()
  demandRoom field
  .ok (field.ofText s)

def characterInField (field : Text.Field) (n : Int) : Except Refusal String := do
  demand field.sign.isNone .characterSign
  demand (!field.marked) .characterMark
  demand (-0x8000000000000000 ≤ n ∧ n < 0x8000000000000000) .characterWidth
  demand (0 ≤ n ∧ n < 0x110000) .characterRange
  demandRoom field
  .ok (field.ofNumber false [] 3 [] [Char.ofNat n.toNat])

def integerInField (field : Text.Field) (n : Int) : Except Refusal String := do
  demand field.precision.isNone .integerPrecision
  demand (!field.unsignedZero) .integerZero
  if field.letter = some 'c' then characterInField field n
  else if field.base = 10 ∧ !(Value.int n).isWritable then .error .manyDigits
  else
    demandRoom field
    .ok (field.ofInt n)

def digitsFor (field : Text.Field) (x : Dyadic) : Text.Decimal × Text.Decimal.Notation :=
  let (n, d) := fractionOf x
  let precision := field.precision.getD 6
  match field.letter with
  | some 'e' | some 'E' =>
    (.significant n d (precision + 1),
      { stop := precision + 1, exponent := true, marked := field.marked })
  | some 'f' | some 'F' | some '%' => (.rounded n d precision, { marked := field.marked })
  | letter =>
    let count := max precision 1
    let digits := Text.Decimal.significant n d count
    let bound : Int := if letter.isNone then count - 1 else count
    (digits,
      { stop := if field.marked then count else 0
        exponent := digits.point ≤ -4 ∨ bound < digits.point
        marked := field.marked
        place := letter.isNone })

/-- The digits of a text before its point or its exponent, and all that follows them. A
point is added in front of an exponent if that is asked for. -/
def textParts (field : Text.Field) (cs : List Char) : List Char × List Char :=
  let rest := cs.dropWhile Char.isDigit
  (cs.takeWhile Char.isDigit, if field.marked ∧ '.' ∉ rest then '.' :: rest else rest)

def percent : Dyadic → Extended
  | .zero => .finite .zero
  | .ofOdd n k _ => .ofDyadic (.ofIntWithPrec (n * 100) k)

/-- A floating-point number in a field, given its sign, its shortest text without that, and
the number, if it is one. -/
def floatInField (field : Text.Field) (negative : Bool) (text : List Char) (x : Option Extended) :
    Except Refusal String := do
  demand (field.precision.getD 0 < 0x80000000) .precision
  demandRoom field
  let isPercent : Bool := field.letter = some '%'
  let isUpper : Bool := field.letter ∈ [some 'E', some 'F', some 'G']
  let set (negative : Bool) (whole rest : List Char) : String :=
    let rest := if isUpper then rest.map Char.toUpper else rest
    field.ofNumber negative [] 3 whole (if isPercent then rest ++ ['%'] else rest)
  let x := match isPercent, x with
    | true, some (.finite y) => some (percent y)
    | _, _ => x
  match x with
  | none => .ok (set false [] ['n', 'a', 'n'])
  | some (.infinite _) => .ok (set negative [] ['i', 'n', 'f'])
  | some (.finite y) =>
    if field.letter.isNone ∧ field.precision.isNone then
      let (whole, rest) := textParts field text
      .ok (set (negative && !(field.unsignedZero && y == .zero)) whole rest)
    else
      let (digits, form) := digitsFor field y
      let (whole, rest) := digits.layOut form
      .ok (set (negative && !(field.unsignedZero && digits.isZero)) whole rest)

def pointLetters : List Char := ['e', 'E', 'f', 'F', 'g', 'G', '%']

def integerLetters : List Char := ['b', 'c', 'd', 'n', 'o', 'x', 'X']

def numberInField (field : Text.Field) (kind : String) (n : Int) : Except Refusal String :=
  let letter := field.letter.getD 'd'
  if letter ∈ integerLetters then integerInField field n
  else if letter ∈ pointLetters then
    match Double.ofInt n with
    | .ok x => floatInField field x.negative [] (some x.number)
    | .error cause => .error cause
  else .error (.fieldLetter letter kind)

def inField (field : Text.Field) (v : Value) : Except Refusal String :=
  match v with
  | .str s =>
    let letter := field.letter.getD 's'
    if letter = 's' then textInField field s else .error (.fieldLetter letter v.kind)
  | .int n => numberInField field v.kind n
  | .bool b => numberInField field v.kind b.toInt
  | .float text x =>
    let letter := field.letter.getD 'g'
    if letter = 'n' ∨ letter ∈ pointLetters then
      let cs := text.val.toList
      let negative := cs.head? = some '-'
      floatInField field negative (if negative then cs.tail else cs) (some x)
    else .error (.fieldLetter letter v.kind)
  | .nan _ =>
    let letter := field.letter.getD 'g'
    if letter = 'n' ∨ letter ∈ pointLetters then floatInField field false [] none
    else .error (.fieldLetter letter v.kind)
  | _ => .error (.noField v.kind)

def hasFields : Value → Bool
  | .str _ | .int _ | .bool _ | .float _ _ | .nan _ => true
  | _ => false

def ownLetter? : Value → Option Char
  | .str _ => some 's'
  | .int _ | .bool _ => some 'd'
  | _ => none

def inLayout (v : Value) (layout : List Char) : Except Refusal String :=
  if layout.isEmpty then v.plain
  else if v.hasFields then do
    let cause := Refusal.layout (String.ofList layout) v.kind
    let field ← (Text.Field.read layout).mapError cause
    (field.checkSeparator (field.letter.or v.ownLetter?)).mapError cause
    v.inField field
  else .error (.noField v.kind)

end Fields

def converted (v : Value) : Option Char → Except Refusal Value
  | none => .ok v
  | some '\x00' => .ok v
  | some 'r' => return .str (← v.written)
  | some 's' => return .str (← v.plain)
  | some 'a' => return .str (Text.ascii (← v.written))
  | some letter => .error (.template (.unknownConversion letter))

end Value

namespace Text

def findArgument (arguments : Array Value) (numbering : Numbering) (name : List Char) :
    Except Refusal (Value × Numbering) := do
  let own := name.takeWhile fun c => !beginsSelector c
  let (reference, numbering) ←
    (readReference own >>= numberReference numbering).mapError .template
  match reference with
  | .name s => .error (.unknownName s)
  | .number n =>
    match arguments[n]? with
    | none => .error (.noArgument n)
    | some v =>
      let rest := name.dropWhile fun c => !beginsSelector c
      return (← v.select (selectorsFrom .between rest), numbering)

/-- Fills the pieces of a template, after what has been written. Layouts that have fields of
their own are filled by `layout`. -/
def fillFrom (arguments : Array Value)
    (layout : Numbering → List Char → Except Refusal (String × Numbering)) :
    Numbering → String → List Piece → Except Refusal (String × Numbering)
  | numbering, written, [] => .ok (written, numbering)
  | numbering, written, .literal c :: rest =>
    fillFrom arguments layout numbering (written.push c) rest
  | numbering, written, .argument name conversion form :: rest => do
    let (v, numbering) ← findArgument arguments numbering name
    let v ← v.converted conversion
    if opening ∈ form then
      let (filled, numbering) ← layout numbering form
      fillFrom arguments layout numbering (written ++ (← v.inLayout filled.toList)) rest
    else fillFrom arguments layout numbering (written ++ (← v.inLayout form)) rest
  | _, _, .flaw cause :: _ => .error (.template cause)

def fillNested (arguments : Array Value) :
    Nat → Numbering → List Char → Except Refusal (String × Numbering)
  | 0, _, _ => .error (.template .tooDeep)
  | levels + 1, numbering, template =>
    fillFrom arguments (fillNested arguments levels) numbering "" (pieces template)

/-- A template filled with arguments. Layouts may have fields, but those have none again. -/
def fill (template : String) (arguments : Array Value) : Except Refusal String := do
  return (← fillNested arguments 2 (some 0) template.toList).1

end Text

end OpenAddressing
