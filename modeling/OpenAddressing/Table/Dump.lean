import OpenAddressing.Table.Basic
import OpenAddressing.Text.Field

/-!
# Dump

A listing of all slots, a line each. A listing that meets a fault keeps the text before it.
Keys and values may refuse to be written.
-/

namespace OpenAddressing

variable {κ ν ε : Type}

/-- Text, and the fault that ended it. -/
@[ext]
structure Listing (κ ε : Type) where
  text : String
  fault : Option (Fault κ ε)

def indexField : Text.Field := { zeros := true, width := 4, letter := some 'd' }

def codeField : Text.Field := { marked := true, zeros := true, width := 4, letter := some 'x' }

def stateField : Text.Field := { alignment := some .left, width := 9, letter := some 's' }

namespace Table

def slotText (key : κ → Except ε String) (value : ν → Except ε String) (t : Table κ ν)
    (index : Int) : Except (Fault κ ε) String := do
  let tag ← t.tag index
  match stateName? tag.code with
  | none => .error (.strayTag tag.code)
  | some state =>
    if tag.isFilled then
      let k ← t.key index
      let v ← t.val index
      let keyText ← (key k).mapError .refused
      let valueText ← (value v).mapError .refused
      .ok (stateField.ofText state ++ " " ++ codeField.ofInt tag.code ++ " " ++ keyText ++ " => " ++
        valueText ++ "\n")
    else .ok (state ++ "\n")

/-- The line of a slot. The index is written before the slot is looked at. -/
def dumpSlot (key : κ → Except ε String) (value : ν → Except ε String) (t : Table κ ν)
    (index : Int) : Listing κ ε :=
  let before := indexField.ofInt index ++ " "
  match t.slotText key value index with
  | .ok line => ⟨before ++ line, none⟩
  | .error fault => ⟨before, some fault⟩

def dumpSlots (key : κ → Except ε String) (value : ν → Except ε String) (t : Table κ ν) :
    Nat → Nat → String → Listing κ ε
  | 0, _, text => ⟨text, none⟩
  | n + 1, i, text =>
    let slot : Listing κ ε := t.dumpSlot key value i
    match slot.fault with
    | none => t.dumpSlots key value n (i + 1) (text ++ slot.text)
    | some fault => ⟨text ++ slot.text, some fault⟩

def summary (t : Table κ ν) : String :=
  s!"capacity {t.capacity}, count {t.count}, ndel {t.dead}, maxprobe {t.maxProbe}, " ++
    s!"idxfloor {t.floor}\n"

def dump (key : κ → Except ε String) (value : ν → Except ε String) (t : Table κ ν)
    (name : String) : Listing κ ε :=
  t.dumpSlots key value t.capacity 0 ("== " ++ name ++ " ==\n" ++ t.summary)

end Table

end OpenAddressing
