import OpenAddressing.Table.Lookup
import OpenAddressing.Table.Rehash

/-!
# Insertion

An insertion is planned, then carried out. Planning searches as far as lookups go, noting
the first tombstone on the way; when that stretch holds neither the key nor a free slot, it
searches on up to the probe limit and, if all is occupied, grows the table and starts again.
-/

namespace OpenAddressing

variable {κ ν ε : Type}

/-- How far entries may be placed from their first slot. -/
def probeLimit (capacity : Nat) : Nat := max 16 (capacity >>> 6)

namespace Table

inductive Probe where
  | found (index : Nat)
  /-- A free slot, with the greatest distance that lookups have to cover from then on. -/
  | vacant (index : Nat) (reach : Int)
  | exhausted

/-- The first slot without an entry among `n` slots from `i` on, which is `distance` slots
from where the search began. -/
def stretch (t : Table κ ν) : Nat → Nat → Nat → Probe
  | 0, _, _ => .exhausted
  | n + 1, i, distance =>
    if (t.tagAt i).isFilled then stretch t n (t.after i) (distance + 1)
    else .vacant i distance

/-- Looks at `window` slots from `i` on for the key, or else for a free slot; `spare` is the
first tombstone met so far and `walked` the number of slots behind. -/
def scan (rules : Rules κ ε) (t : Table κ ν) (key : κ) (tag : Tag) :
    Nat → Nat → Nat → Option Nat → Except (Fault κ ε) Probe
  | 0, i, walked, spare =>
    match spare with
    | some j => .ok (.vacant j t.maxProbe)
    | none => .ok (t.stretch (probeLimit t.capacity - walked) i walked)
  | window + 1, i, walked, spare =>
    if t.tagAt i = .empty then .ok (.vacant (spare.getD i) t.maxProbe)
    else if t.tagAt i = .tombstone then
      scan rules t key tag window (t.after i) (walked + 1) (spare.or (some i))
    else if t.tagAt i = tag then do
      let stored ← t.key i
      if ← rules.isKey key stored then .ok (.found i)
      else scan rules t key tag window (t.after i) (walked + 1) spare
    else scan rules t key tag window (t.after i) (walked + 1) spare

def probe (rules : Rules κ ε) (t : Table κ ν) (key : κ) (hash : Int) :
    Except (Fault κ ε) Probe :=
  if isPowerOfTwo t.capacity then
    t.scan rules key (.fingerprint hash) (max 1 (t.maxProbe + 1).toNat)
      (mask t.capacity hash) 0 none
  else .error (.notPowerOfTwo t.capacity)

/-- Whether entries and tombstones take more than two thirds of the slots. -/
def overloaded (t : Table κ ν) : Bool := (t.count + t.dead) * 3 > t.capacity * 2

def growthTarget (rules : Rules κ ε) (t : Table κ ν) : Int :=
  max (if t.count > rules.largeCount then t.count * 3 / 2 else t.count * 2) t.capacity

end Table

namespace Op

variable [Inhabited κ] [Inhabited ν]

def planWithin (rules : Rules κ ε) (key : κ) (hash : Int) : Nat → Op κ ν ε Plan
  | 0 => throw .noVacancy
  | retries + 1 => do
    let capacity ← query fun t => .ok t.capacity
    let tag := Tag.fingerprint hash
    if capacity = 0 then
      rehash rules minCapacity
      query fun t => .ok (.vacant (mask t.capacity hash) tag.code)
    else
      match ← query fun t => t.probe rules key hash with
      | .found i => pure (.found i)
      | .vacant i reach =>
        edit fun t => { t with maxProbe := reach }
        pure (.vacant i tag.code)
      | .exhausted =>
        -- The key is put into words first, so that a refusal leaves the storage as it is.
        query fun _ => rules.announceKey key capacity
        report (.probeLimit key capacity)
        rehash rules (capacity * 2)
        planWithin rules key hash retries

/-- Plans an insertion. Each retry doubles the capacity, and a free slot is within reach once
a sixty-fourth of the capacity exceeds the number of entries, so the retries suffice. -/
def plan (rules : Rules κ ε) (key : κ) : Op κ ν ε Plan := do
  let hash ← query fun _ => rules.hashOf key
  let entries ← query fun t => .ok t.count.toNat
  planWithin rules key hash (64 * entries + 64)

def insertAt (rules : Rules κ ε) (key : κ) (value : ν) : Plan → Op κ ν ε Unit
  | .found index => do
    putVal index value
    edit fun t => { t with age := t.age + 1 }
  | .vacant index code => do
    let tag ← query fun t => t.tag index
    if tag = .tombstone then edit fun t => { t with dead := t.dead - 1 }
    else if tag = .empty then pure ()
    else throw (.occupied index tag.code)
    putTag index code
    putKey index key
    putVal index value
    edit fun t =>
      { t with count := t.count + 1, age := t.age + 1, floor := min index t.floor }
    if ← query fun t => .ok t.overloaded then
      rehash rules (← query fun t => .ok (t.growthTarget rules))

/-- Maps the key to the value. A key that is present keeps the key first stored. -/
def set (rules : Rules κ ε) (key : κ) (value : ν) : Op κ ν ε Unit := do
  insertAt rules key value (← plan rules key)

end Op

end OpenAddressing
