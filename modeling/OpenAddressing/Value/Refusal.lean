import OpenAddressing.Text.Conversion
import OpenAddressing.Text.Template
import OpenAddressing.Value.Render

/-!
# Refusals

The reasons that hashing, comparing, combining, taking apart and writing values have for not
giving a result, with their wording.
-/

namespace OpenAddressing

inductive Sequence where
  | text
  | list
  | tuple

inductive Mismatch where
  | textSign
  | textSpace
  | textZero
  | textMark
  | textInner
  | integerPrecision
  | integerZero
  | characterSign
  | characterMark
  | characterRange
  | characterWidth
  | floatRange
  | precision

/-- Why no result was given. Values are mentioned by the name of their kind. -/
inductive Refusal where
  | unhashable (kind : String)
  | notInteger
  | notText
  | noHash
  | badKey
  | notIterable (kind : String)
  | notUnpackable (kind : String)
  | tooFewParts (count : Nat)
  | tooManyParts
  | notCharacter (length : Nat)
  | notCharacterKind (kind : String)
  | operands (symbol left right : String)
  | concatenation (left right : String)
  | repetition (kind : String)
  | longText
  | wideCount
  | noMemory
  | unordered (left right : String)
  | divisionByZero
  | remainderByZero
  | decimalDivisionByZero
  | decimalRemainderByZero
  | conversion (flaw : Text.ConversionFlaw)
  | zeroStep
  | notPlan (plan : Value)
  | noArgument (index : Nat)
  | noMember (kind name : String)
  | noItems (kind : String)
  | itemNumber (sequence : Sequence)
  | itemName (sequence : Sequence)
  | noKey (key : Value)
  | fieldLetter (letter : Char) (kind : String)
  | noField (kind : String)
  | mismatch (cause : Mismatch)
  | layout (text kind : String) (flaw : Text.LayoutFlaw)
  | template (flaw : Text.Flaw)
  | manyDigits
  | unknownName (name : String)

def letterText (bound : Nat) (c : Char) : String :=
  if 32 < c.toNat ∧ c.toNat < bound then String.singleton c
  else "\\x" ++ String.ofList (Nat.toDigits 16 c.toNat)

def Text.Flaw.message : Text.Flaw → String
  | .strayOpening => "Single '\x7b' encountered in format string"
  | .strayClosing => "Single '\x7d' encountered in format string"
  | .openingInName => "unexpected '\x7b' in field name"
  | .unclosedName => "expected '\x7d' before end of string"
  | .unclosedConversion => "end of string while looking for conversion specifier"
  | .unclosedLayout => "unmatched '\x7b' in format spec"
  | .afterConversion => "expected ':' after conversion specifier"
  | .unknownConversion letter => "Unknown conversion specifier " ++ letterText 127 letter
  | .wideNumber => "Too many decimal digits in format string"
  | .unnumbered =>
      "cannot switch from manual field specification to automatic field numbering"
  | .numbered =>
      "cannot switch from automatic field numbering to manual field specification"
  | .emptySelector => "Empty attribute in format string"
  | .unclosedBracket => "Missing ']' in format string"
  | .afterBracket => "Only '.' or '[' may follow ']' in format field specifier"
  | .tooDeep => "Max string recursion exceeded"

def Text.LayoutFlaw.message (layout kind : String) : Text.LayoutFlaw → String
  | .wideNumber => "Too many decimal digits in format string"
  | .noPrecision => "Format specifier missing precision"
  | .twoSeparators => "Cannot specify both ',' and '_'."
  | .separator mark letter =>
      "Cannot specify '" ++ String.singleton mark.mark ++ "' with '" ++ letterText 128 letter ++
        "'."
  | .unknown => s!"Invalid format specifier '{layout}' for object of type '{kind}'"

/-- A character by itself if its number is from 31 to 125, and otherwise a question mark. -/
def plainLetter (c : Char) : Char := if 31 ≤ c.toNat ∧ c.toNat < 126 then c else '?'

def Text.ConversionFlaw.message : Text.ConversionFlaw → String
  | .named => "format requires a mapping"
  | .unfinished => "incomplete format"
  | .wideWidth => "width too big"
  | .widePrecision => "precision too big"
  | .argumentWidth => "Python int too large to convert to C ssize_t"
  | .argumentPrecision => "Python int too large to convert to C int"
  | .longPrecision => "precision too large"
  | .unknownLetter letter place =>
      "unsupported format character '" ++ String.singleton (plainLetter letter) ++ "' (0x" ++
        String.ofList (Nat.toDigits 16 letter.toNat) ++ s!") at index {place}"
  | .unused => "not all arguments converted during string formatting"
  | .exhausted => "not enough arguments for format string"

def Mismatch.message : Mismatch → String
  | .textSign => "Sign not allowed in string format specifier"
  | .textSpace => "Space not allowed in string format specifier"
  | .textZero => "Negative zero coercion (z) not allowed in string format specifier"
  | .textMark => "Alternate form (#) not allowed in string format specifier"
  | .textInner => "'=' alignment not allowed in string format specifier"
  | .integerPrecision => "Precision not allowed in integer format specifier"
  | .integerZero => "Negative zero coercion (z) not allowed in integer format specifier"
  | .characterSign => "Sign not allowed with integer format specifier 'c'"
  | .characterMark => "Alternate form (#) not allowed with integer format specifier 'c'"
  | .characterRange => "%c arg not in range(0x110000)"
  | .characterWidth => "Python int too large to convert to C long"
  | .floatRange => "int too large to convert to float"
  | .precision => "precision too big"

def Refusal.message : Refusal → String
  | .unhashable kind => s!"unhashable type: '{kind}'"
  | .notInteger => "not an int"
  | .notText => "not a str"
  | .noHash => "no hash"
  | .badKey => "bad key"
  | .notIterable kind => s!"'{kind}' object is not iterable"
  | .notUnpackable kind => s!"cannot unpack non-iterable {kind} object"
  | .tooFewParts count => s!"not enough values to unpack (expected 2, got {count})"
  | .tooManyParts => "too many values to unpack (expected 2)"
  | .notCharacter length =>
      s!"ord() expected a character, but string of length {length} found"
  | .notCharacterKind kind => s!"ord() expected string of length 1, but {kind} found"
  | .operands symbol left right =>
      s!"unsupported operand type(s) for {symbol}: '{left}' and '{right}'"
  | .concatenation left right =>
      s!"can only concatenate {left} (not \"{right}\") to {left}"
  | .repetition kind => s!"can't multiply sequence by non-int of type '{kind}'"
  | .unordered left right =>
      s!"'<=' not supported between instances of '{left}' and '{right}'"
  | .longText => "repeated string is too long"
  | .wideCount => "cannot fit 'int' into an index-sized integer"
  | .noMemory => ""
  | .divisionByZero => "integer division or modulo by zero"
  | .remainderByZero => "integer modulo by zero"
  | .decimalDivisionByZero => "float floor division by zero"
  | .decimalRemainderByZero => "float modulo"
  | .conversion flaw => flaw.message
  | .zeroStep => "range() arg 3 must not be zero"
  | .notPlan plan => "('Wrong insert plan', " ++ plan.render ++ ")"
  | .noArgument index =>
      s!"Replacement index {index} out of range for positional args tuple"
  | .noMember kind name => s!"'{kind}' object has no attribute '{name}'"
  | .noItems kind => s!"'{kind}' object is not subscriptable"
  | .itemNumber .text => "string index out of range"
  | .itemNumber .list => "list index out of range"
  | .itemNumber .tuple => "tuple index out of range"
  | .itemName .text => "string indices must be integers, not 'str'"
  | .itemName .list => "list indices must be integers or slices, not str"
  | .itemName .tuple => "tuple indices must be integers or slices, not str"
  | .noKey key => key.render
  | .fieldLetter letter kind =>
      "Unknown format code '" ++ letterText 128 letter ++ s!"' for object of type '{kind}'"
  | .noField kind => s!"unsupported format string passed to {kind}.__format__"
  | .mismatch cause => cause.message
  | .layout text kind flaw => flaw.message text kind
  | .template flaw => flaw.message
  | .manyDigits =>
      "Exceeds the limit (4300 digits) for integer string conversion; " ++
        "use sys.set_int_max_str_digits() to increase the limit"
  | .unknownName name => Text.quoted name

def Value.written (v : Value) : Except Refusal String :=
  if v.isWritable then .ok v.render else .error .manyDigits

end OpenAddressing
