import OpenAddressing.Tag

/-!
# Faults and events

A fault says why an operation stopped; an event says what a table did to its own storage on
the way. The wording of both is kept here and nowhere else.
-/

namespace OpenAddressing

inductive Finding (κ : Type) where
  | lengths (tags keys vals : Nat)
  | capacity (size : Nat)
  | tag (index code : Nat)
  /-- The tag does not repeat the hash of the key beside it. -/
  | fingerprint (index code : Nat) (key : κ)
  | floor (index : Nat) (floor : Int)
  /-- An entry lies further from its first slot than lookups go. -/
  | distance (key : κ) (probe : Nat) (maxProbe : Int)
  | lookup (key : κ) (index : Nat)
  | tally (found : Nat) (recorded : Int)

/-- Why an operation stopped. Keys have type `κ`, and `ε` is what a hash, an equality or a
combination of values may give as its own reason. -/
inductive Fault (κ ε : Type) where
  | refused (cause : ε)
  | missing (key : κ)
  | slotIndex
  | cellIndex
  | cellAssignment
  | wideIndex
  | tagRange
  | notPowerOfTwo (size : Int)
  | occupied (index : Int) (code : Nat)
  | unoccupied (index : Int) (code : Nat)
  /-- A rehash met another number of entries than the table records. -/
  | entryCount (found recorded : Int)
  | strayTag (code : Int)
  | audit (finding : Finding κ)
  | negativeLength
  | wideLength
  | noMemory
  | noVacancy

inductive Event (κ : Type) where
  | probeLimit (key : κ) (capacity : Nat)
  | collapsed (tombstones : Nat)
  | renewed (before after : Nat)
  | rehashed (before after : Nat) (live maxProbe : Int)

section Wording

variable {κ ε : Type}

def Finding.message (key : κ → String) : Finding κ → String
  | .lengths tags keys vals => s!"({tags}, {keys}, {vals})"
  | .capacity size => toString size
  | .tag index code => s!"({index}, {code})"
  | .fingerprint index code k => s!"({index}, {code}, " ++ key k ++ ")"
  | .floor index low => s!"({index}, {low})"
  | .distance k probe maxProbe => "(" ++ key k ++ s!", {probe}, {maxProbe})"
  | .lookup k index => "(" ++ key k ++ s!", {index})"
  | .tally found recorded => s!"({found}, {recorded})"

/-- The text of a fault, given the texts of keys and of foreign causes. -/
def Fault.message (key : κ → String) (cause : ε → String) : Fault κ ε → String
  | .refused c => cause c
  | .missing k => key k
  | .slotIndex => "bytearray index out of range"
  | .cellIndex => "list index out of range"
  | .cellAssignment => "list assignment index out of range"
  | .wideIndex => "cannot fit 'int' into an index-sized integer"
  | .tagRange => "byte must be in range(0, 256)"
  | .notPowerOfTwo size => toString size
  | .occupied index code => s!"({index}, {code})"
  | .unoccupied index code => s!"({index}, {code})"
  | .entryCount found recorded => s!"({found}, {recorded})"
  | .strayTag code => s!"('Wrong slot tag', {code})"
  | .audit finding => finding.message key
  | .negativeLength => "__len__() should return >= 0"
  | .wideLength => "cannot fit 'int' into an index-sized integer"
  | .noMemory => ""
  | .noVacancy => "no vacant slot"

def Event.template : Event κ → String
  | .probeLimit _ _ => "probe limit hit for \x7b0!r\x7d, growing from \x7b1:d\x7d"
  | .collapsed _ => "collapsed \x7b0:d\x7d tombstones"
  | .renewed _ _ => "rehash \x7b0:d\x7d -> \x7b1:d\x7d (empty)"
  | .rehashed _ _ _ _ =>
      "rehash \x7b0:d\x7d -> \x7b1:d\x7d (\x7b2:d\x7d live, max probe \x7b3:d\x7d)"

def traceLine (text : String) : String := "[table] " ++ text ++ "\n"

end Wording

end OpenAddressing
