import OpenAddressing.Table.Basic

/-!
# Direct access to storage

What lies in the slots, read without touching a counter, and edits that bypass every check a
table makes for itself.
-/

namespace OpenAddressing

variable {κ ν ε : Type}

structure SlotView (κ ν : Type) where
  index : Nat
  tag : Tag
  entry : Option (κ × ν)

namespace Table

variable [Inhabited κ] [Inhabited ν]

/-- What a slot shows. Cells that are missing read as free ones. -/
def slotView (t : Table κ ν) (i : Nat) : SlotView κ ν where
  index := i
  tag := t.tagAt i
  entry :=
    if (t.tagAt i).isFilled then some (t.keys.getD i default, t.vals.getD i default) else none

def layout (t : Table κ ν) : List (SlotView κ ν) :=
  ((List.range t.capacity).filter fun i => t.tagAt i ≠ .empty).map t.slotView

def layoutBetween (t : Table κ ν) (low high : Int) : List (SlotView κ ν) :=
  t.layout.filter fun view => low ≤ view.index ∧ view.index < high

/-- The tags as the digits of a number to base 31, cut to 32 bits. -/
def checksum (t : Table κ ν) : Nat :=
  t.tags.foldl (fun sum tag => (sum * 31 + tag.code) % 0x100000000) 0

end Table

inductive Counter where
  | count
  | dead
  | age
  | floor
  | maxProbe

inductive Edit (κ ν : Type) where
  | counter (which : Counter) (n : Int)
  | tag (index code : Int)
  | key (index : Int) (key : κ)
  | val (index : Int) (value : ν)
  | resizeTags (size : Nat)
  | resizeKeys (size : Nat)
  | resizeVals (size : Nat)

def resize {α : Type} (cells : Array α) (size : Nat) (filler : α) : Array α :=
  cells.take size ++ Array.replicate (size - cells.size) filler

def Table.setCounter (t : Table κ ν) : Counter → Int → Table κ ν
  | .count, n => { t with count := n }
  | .dead, n => { t with dead := n }
  | .age, n => { t with age := n }
  | .floor, n => { t with floor := n }
  | .maxProbe, n => { t with maxProbe := n }

def Op.apply [Inhabited κ] [Inhabited ν] (rules : Rules κ ε) : Edit κ ν → Op κ ν ε Unit
  | .counter which n => edit fun t => t.setCounter which n
  | .tag index code => putTag index code
  | .key index key => putKey index key
  | .val index value => putVal index value
  | .resizeTags size => do
    query fun _ => rules.demandRoom size
    edit fun t => { t with tags := resize t.tags size .empty }
  | .resizeKeys size => do
    query fun _ => rules.demandRoom size
    edit fun t => { t with keys := resize t.keys size default }
  | .resizeVals size => do
    query fun _ => rules.demandRoom size
    edit fun t => { t with vals := resize t.vals size default }

end OpenAddressing
