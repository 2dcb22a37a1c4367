import OpenAddressing.Table.Basic

/-!
# Rehash

A rehash moves every entry into storage of a new capacity and leaves all tombstones behind.
Entries are placed in the order of their old slots, each into the first empty slot from
where its hash leads.
-/

namespace OpenAddressing

variable {κ ν ε : Type}

namespace Table

def vacancy? (t : Table κ ν) : Nat → Nat → Option Nat
  | 0, _ => none
  | window + 1, i => if t.tagAt i = .empty then some i else vacancy? t window (t.after i)

/-- Puts an entry into slot `i`, which is `probe` slots from where its hash leads. -/
def occupy (t : Table κ ν) (i probe : Nat) (tag : Tag) (key : κ) (value : ν) : Table κ ν :=
  { t with
    tags := t.tags.setIfInBounds i tag
    keys := t.keys.setIfInBounds i key
    vals := t.vals.setIfInBounds i value
    count := t.count + 1
    maxProbe := max t.maxProbe probe }

def refill (rules : Rules κ ε) (old : Table κ ν) :
    Nat → Nat → Table κ ν → Except (Fault κ ε) (Table κ ν)
  | 0, _, fresh => .ok fresh
  | n + 1, i, fresh =>
    if (old.tagAt i).isFilled then do
      let key ← old.key i
      let hash ← rules.hashOf key
      let home := mask fresh.capacity hash
      match fresh.vacancy? fresh.capacity home with
      | none => .error .noVacancy
      | some j =>
        let value ← old.val i
        let probe := mask fresh.capacity (j - home)
        refill rules old n (i + 1) (fresh.occupy j probe (old.tagAt i) key value)
    else refill rules old n (i + 1) fresh

/-- The capacity of a rehash to `size` slots: no less than keeps the entries below the load
limit. -/
def rehashCapacity (t : Table κ ν) (size : Int) : Nat :=
  capacityFor (max size (t.count * 3 / 2 + 1))

end Table

namespace Op

variable [Inhabited κ] [Inhabited ν]

def renewAge : Op κ ν ε Unit := edit fun t => { t with age := t.age + 1, floor := 0 }

/-- Moves the entries into storage of about `size` slots. When that fails, the storage and
the counts stay, but the change of age and floor has been made. -/
def rehash (rules : Rules κ ε) (size : Int) : Op κ ν ε Unit := do
  let old ← query .ok
  let capacity := old.rehashCapacity size
  renewAge
  query fun _ => rules.demandRoom capacity
  if old.count = 0 then
    edit fun t => { (Table.blank capacity : Table κ ν) with age := t.age }
    report (.renewed old.capacity capacity)
  else
    let fresh ← query fun t => t.refill rules t.capacity 0 (.blank capacity)
    if fresh.count = old.count then
      edit fun t => { fresh with age := t.age }
      report (.rehashed old.capacity capacity fresh.count fresh.maxProbe)
    else throw (.entryCount fresh.count old.count)

end Op

end OpenAddressing
