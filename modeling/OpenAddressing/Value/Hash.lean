import OpenAddressing.Value.Refusal

/-!
# Hashes of values

A number hashes to its residue modulo the prime `2 ^ 61 - 1`, in which halving is a rotation,
so that equal numbers of different kinds hash alike. A tuple mixes the hashes of its
elements, from left to right. Texts are hashed character by character.
-/

namespace OpenAddressing

def hashModulus : Nat := 0x1fffffffffffffff

/-- The residue of `m * 2 ^ e`; a factor of two is a rotation of 61 bits. -/
def residue (m : Nat) (e : Int) : Nat := m <<< (e % 61).toNat % hashModulus

/-- The hash with a given sign and residue. Minus one is kept for other uses. -/
def signedHash (negative : Bool) (r : Nat) : Int :=
  let h : Int := if negative then -r else r
  if h = -1 then -2 else h

def hashInt (n : Int) : Int := signedHash (n < 0) (residue n.natAbs 0)

def Extended.hash : Extended → Int
  | .finite .zero => 0
  | .finite (.ofOdd n k _) => signedHash (n < 0) (residue n.natAbs (-k))
  | .infinite negative => if negative then -314159 else 314159

def word (n : Int) : UInt64 := UInt64.ofNat (n % 0x10000000000000000).toNat

namespace TupleHash

def seed : UInt64 := 2870177450012600261

def rotate (x : UInt64) : UInt64 := x <<< 31 ||| x >>> 33

def absorb (acc h : UInt64) : UInt64 :=
  rotate (acc + h * 14029467366897019727) * 11400714785074694791

def finish (acc : UInt64) (length : Nat) : UInt64 :=
  let h := acc + (UInt64.ofNat length ^^^ (seed ^^^ 3527539))
  if h = 0xffffffffffffffff then 1546275796 else h

end TupleHash

namespace TextHash

def offset : UInt64 := 0xcbf29ce484222325

def prime : UInt64 := 0x100000001b3

def absorb (h : UInt64) (c : Char) : UInt64 := (h ^^^ c.val.toUInt64) * prime

end TextHash

def textHash (cs : List Char) : UInt64 := cs.foldl TextHash.absorb TextHash.offset

def nullHash : UInt64 := 0xfca8642c

namespace Value

mutual

/-- The hash of a value as a word. A text is absorbed from zero, so that the empty one hashes
to zero; a value known by its identity hashes as that. Lists and dictionaries can change and
have no hash; the leftmost one in a tuple is the one refused. -/
def hash : Value → Except Refusal UInt64
  | .null => .ok nullHash
  | .bool b => .ok (word (hashInt b.toInt))
  | .int n => .ok (word (hashInt n))
  | .float _ x => .ok (word x.hash)
  | .nan id => .ok (word (hashInt id.number))
  | .str s => .ok (s.toList.foldl TextHash.absorb 0)
  | .tuple items => hashItems items TupleHash.seed items.length
  | v => .error (.unhashable v.kind)

def hashItems : List Value → UInt64 → Nat → Except Refusal UInt64
  | [], acc, length => .ok (TupleHash.finish acc length)
  | x :: xs, acc, length => do
    hashItems xs (TupleHash.absorb acc (← hash x)) length

end

def defaultHash (v : Value) : Except Refusal Int := do
  return (← v.hash).toNat

def character : Value → Except Refusal Char
  | .str s =>
    match s.toList with
    | [c] => .ok c
    | cs => .error (.notCharacter cs.length)
  | v => .error (.notCharacterKind v.kind)

/-- The characters of a text, or of a sequence of texts of one character. -/
def characters (v : Value) : Except Refusal (List Char) :=
  match v.parts? with
  | some parts => parts.mapM character
  | none => .error (.notIterable v.kind)

def stringHash (v : Value) : Except Refusal Int := do
  return (textHash (← v.characters)).toNat

end Value

end OpenAddressing
