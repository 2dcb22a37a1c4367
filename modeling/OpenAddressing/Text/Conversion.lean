import OpenAddressing.Text.Field

/-!
# Conversions

A text can be a template for one integer. A conversion begins with a percent sign and ends
with a letter; marks, a width and a precision may stand between them. A star takes the place
of a width or a precision that is to be the integer itself. Reading never fails: what is
wrong with a conversion counts when it is written.
-/

namespace OpenAddressing.Text

inductive Amount where
  | given (n : Nat)
  | argument

structure Conversion where
  left : Bool
  plus : Bool
  blank : Bool
  marked : Bool
  zeros : Bool
  width : Option Amount
  precision : Option Amount
  /-- The letter, unless the text ends in front of it. -/
  letter : Option Char

inductive Part where
  | literal (c : Char)
  /-- A conversion, and the place of its letter in the template. -/
  | conversion (conversion : Conversion) (place : Nat)
  | named

inductive ConversionFlaw where
  | named
  | unfinished
  | wideWidth
  | widePrecision
  | argumentWidth
  | argumentPrecision
  | longPrecision
  | unknownLetter (letter : Char) (place : Nat)
  | unused
  | exhausted

def takeAmount : List Char → Option Amount × List Char
  | '*' :: rest => (some .argument, rest)
  | cs =>
    let digits := cs.takeWhile Char.isDigit
    (if digits.isEmpty then none else some (.given (readDecimal digits)),
      cs.dropWhile Char.isDigit)

/-- Splits off a point and a precision; a point alone is a precision of zero. -/
def takePoint : List Char → Option Amount × List Char
  | '.' :: rest =>
    let (amount, rest) := takeAmount rest
    (some (amount.getD (.given 0)), rest)
  | rest => (none, rest)

/-- Splits off the mark of a size, which has no meaning. -/
def dropSize : List Char → List Char
  | 'h' :: rest => rest
  | 'l' :: rest => rest
  | 'L' :: rest => rest
  | rest => rest

def isConversionMark (c : Char) : Bool := c ∈ ['-', '+', ' ', '#', '0']

def takeConversion (cs : List Char) : Conversion × List Char :=
  let marks := cs.takeWhile isConversionMark
  let (width, cs) := takeAmount (cs.dropWhile isConversionMark)
  let (precision, cs) := takePoint cs
  let cs := dropSize cs
  ({ left := '-' ∈ marks
     plus := '+' ∈ marks
     blank := ' ' ∈ marks
     marked := '#' ∈ marks
     zeros := '0' ∈ marks
     width
     precision
     letter := cs.head? }, cs.tail)

def partsFrom : Nat → Nat → List Char → List Part
  | _, _, [] => []
  | place, skipped + 1, _ :: rest => partsFrom (place + 1) skipped rest
  | place, 0, c :: rest =>
    if c = '%' then
      if rest.head? = some '(' then [.named]
      else
        let (conversion, after) := takeConversion rest
        let length := rest.length - after.length
        .conversion conversion (place + length) :: partsFrom (place + 1) length rest
    else .literal c :: partsFrom (place + 1) 0 rest

def parts (template : List Char) : List Part := partsFrom 0 0 template

/-- The field of a conversion. Only numbers have signs and are filled up by zeros. -/
def Conversion.field (conversion : Conversion) (letter : Char) (isNumber : Bool) : Field :=
  let amount : Option Amount → Option Nat := fun a =>
    match a with
    | some (.given n) => some n
    | _ => none
  let zeros := isNumber && conversion.zeros && !conversion.left
  { alignment := some (if conversion.left then .left else if zeros then .inner else .right)
    sign :=
      if !isNumber then none
      else if conversion.plus then some .plus
      else if conversion.blank then some .space
      else none
    marked := conversion.marked
    zeros
    width := (amount conversion.width).getD 0
    precision := amount conversion.precision
    letter := some letter }

end OpenAddressing.Text
