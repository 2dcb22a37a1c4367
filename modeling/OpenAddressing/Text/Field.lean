import OpenAddressing.Text.Digit

/-!
# Fields of fixed layout

How texts and numbers are set into a field: the width, what fills it up, and on which side.
Texts stand at the left and numbers at the right, unless told otherwise. A number is a sign,
a mark of its base, the digits of its whole part, and the rest; zeros that fill a field up
stand in front of the digits and are grouped with them.
-/

namespace OpenAddressing.Text

inductive Alignment where
  | left
  | right
  | center
  /-- The filling stands between sign and digits. -/
  | inner

inductive SignRule where
  | plus
  | absent
  | space

inductive Separator where
  | comma
  | underscore

structure Field where
  fill : Option Char := none
  alignment : Option Alignment := none
  sign : Option SignRule := none
  unsignedZero : Bool := false
  /-- The mark of the number base, or the point of a decimal number, is always written. -/
  marked : Bool := false
  /-- Zeros fill the field up, unless it has a filling of its own. -/
  zeros : Bool := false
  width : Nat := 0
  separator : Option Separator := none
  precision : Option Nat := none
  letter : Option Char := none

inductive LayoutFlaw where
  | wideNumber
  | noPrecision
  | twoSeparators
  | separator (separator : Separator) (letter : Char)
  | unknown

def Alignment.ofMark? : Char → Option Alignment
  | '<' => some .left
  | '>' => some .right
  | '^' => some .center
  | '=' => some .inner
  | _ => none

def SignRule.ofMark? : Char → Option SignRule
  | '+' => some .plus
  | '-' => some .absent
  | ' ' => some .space
  | _ => none

def Separator.mark : Separator → Char
  | .comma => ','
  | .underscore => '_'

section Reading

def takeMark (mark : Char) (cs : List Char) : Bool × List Char :=
  if cs.head? = some mark then (true, cs.tail) else (false, cs)

def takeAlignment : List Char → Option Char × Option Alignment × List Char
  | [] => (none, none, [])
  | [c] =>
    match Alignment.ofMark? c with
    | some alignment => (none, some alignment, [])
    | none => (none, none, [c])
  | c :: d :: rest =>
    match Alignment.ofMark? d with
    | some alignment => (some c, some alignment, rest)
    | none =>
      match Alignment.ofMark? c with
      | some alignment => (none, some alignment, d :: rest)
      | none => (none, none, c :: d :: rest)

def takeSign : List Char → Option SignRule × List Char
  | [] => (none, [])
  | c :: rest =>
    match SignRule.ofMark? c with
    | some rule => (some rule, rest)
    | none => (none, c :: rest)

def takeNumber (cs : List Char) : Except LayoutFlaw (Option Nat × List Char) :=
  match takeDecimal cs with
  | (some n, rest) => if n < wordBound then .ok (some n, rest) else .error .wideNumber
  | (none, rest) => .ok (none, rest)

def takeSeparator (cs : List Char) : Except LayoutFlaw (Option Separator × List Char) :=
  match cs with
  | ',' :: '_' :: _ => .error .twoSeparators
  | '_' :: ',' :: _ => .error .twoSeparators
  | ',' :: rest => .ok (some .comma, rest)
  | '_' :: rest => .ok (some .underscore, rest)
  | rest => .ok (none, rest)

def takePrecision : List Char → Except LayoutFlaw (Option Nat × List Char)
  | '.' :: rest => do
    match ← takeNumber rest with
    | (none, _) => .error .noPrecision
    | (precision, rest) => .ok (precision, rest)
  | rest => .ok (none, rest)

def Field.read (cs : List Char) : Except LayoutFlaw Field := do
  let (fill, alignment, cs) := takeAlignment cs
  let (sign, cs) := takeSign cs
  let (unsignedZero, cs) := takeMark 'z' cs
  let (marked, cs) := takeMark '#' cs
  let (zeros, cs) := if fill.isNone then takeMark '0' cs else (false, cs)
  let (width, cs) ← takeNumber cs
  let (separator, cs) ← takeSeparator cs
  let (precision, cs) ← takePrecision cs
  let field : Field :=
    { fill, alignment, sign, unsignedZero, marked, zeros, width := width.getD 0, separator,
      precision }
  match cs with
  | [] => .ok field
  | [letter] => .ok { field with letter := some letter }
  | _ => .error .unknown

end Reading

namespace Field

/-- Whether the separator goes with a letter: commas divide decimal digits only. -/
def checkSeparator (field : Field) (letter : Option Char) : Except LayoutFlaw Unit :=
  match field.separator, letter with
  | none, _ => .ok ()
  | some _, none => .ok ()
  | some separator, some c =>
    if c ∈ ['d', 'e', 'f', 'g', 'E', 'F', 'G', '%'] then .ok ()
    else
      match separator with
      | .underscore =>
        if c ∈ ['b', 'o', 'x', 'X'] then .ok () else .error (.separator .underscore c)
      | .comma => .error (.separator .comma c)

def filler (field : Field) : Char := field.fill.getD (if field.zeros then '0' else ' ')

def filling (field : Field) (n : Nat) : List Char := List.replicate n field.filler

def ofText (field : Field) (s : String) : String :=
  let cs := match field.precision with
    | some n => s.toList.take n
    | none => s.toList
  let missing := field.width - cs.length
  let before := match field.alignment with
    | some .right => missing
    | some .center => missing / 2
    | _ => 0
  String.ofList (field.filling before ++ cs ++ field.filling (missing - before))

def signText (field : Field) (negative : Bool) : List Char :=
  if negative then ['-']
  else
    match field.sign with
    | some .plus => ['+']
    | some .space => [' ']
    | _ => []

/-- Divides digits, the last one first, into groups of `size`; `left` are to come before the
next mark. -/
def divide (size : Nat) (mark : Char) : Nat → List Char → List Char
  | _, [] => []
  | 0, c :: cs => mark :: c :: divide size mark (size - 1) cs
  | left + 1, c :: cs => c :: divide size mark left cs

/-- The fewest digits that take `width` characters or more when divided into groups of
`size`. -/
def digitsFor (size width : Nat) : Nat :=
  if width = 0 then 0
  else if width % (size + 1) = 0 then width - width / (size + 1) + 1
  else width - width / (size + 1)

def grouped (field : Field) (size width : Nat) (digits : List Char) : List Char :=
  if digits.isEmpty then []
  else
    match field.separator with
    | none => digits.leftpad width '0'
    | some separator =>
      (divide size separator.mark size
        (digits.leftpad (digitsFor size width) '0').reverse).reverse

/-- Sets a number: its sign, the mark of its base, the digits of its whole part in groups of
`size`, and the rest. -/
def ofNumber (field : Field) (negative : Bool) (mark : List Char) (size : Nat)
    (whole rest : List Char) : String :=
  let lead := field.signText negative ++ mark
  let alignment := field.alignment.getD (if field.zeros then .inner else .right)
  let width := match alignment with
    | .inner => if field.filler = '0' then field.width - (lead.length + rest.length) else 0
    | _ => 0
  let body := field.grouped size width whole ++ rest
  let missing := field.width - (lead.length + body.length)
  String.ofList (match alignment with
    | .left => lead ++ body ++ field.filling missing
    | .right => field.filling missing ++ lead ++ body
    | .center =>
      field.filling (missing / 2) ++ lead ++ body ++ field.filling (missing - missing / 2)
    | .inner => lead ++ field.filling missing ++ body)

def base (field : Field) : Nat :=
  match field.letter with
  | some 'b' => 2
  | some 'o' => 8
  | some 'x' => 16
  | some 'X' => 16
  | _ => 10

def baseMark (field : Field) : List Char :=
  match field.marked, field.letter with
  | true, some 'b' => ['0', 'b']
  | true, some 'o' => ['0', 'o']
  | true, some 'x' => ['0', 'x']
  | true, some 'X' => ['0', 'X']
  | _, _ => []

def ofInt (field : Field) (n : Int) : String :=
  let digits := Nat.toDigits field.base n.natAbs
  let digits := if field.letter = some 'X' then digits.map Char.toUpper else digits
  field.ofNumber (n < 0) field.baseMark (if field.base = 10 then 3 else 4) digits []

end Field

end OpenAddressing.Text
