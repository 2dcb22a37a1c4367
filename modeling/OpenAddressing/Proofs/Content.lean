import Mathlib.Data.Finmap
import OpenAddressing.Proofs.Request

/-!
# Finite maps up to sameness of keys

The maps that tables stand for: to each class of keys that are the same they give the key
first stored and a value. Every request to a table as a map has an answer here, and nothing
is said about slots.
-/

namespace OpenAddressing

variable {κ ν ε : Type} {same : Setoid κ}

/-- A finite map from classes of keys to entries. -/
abbrev Content (same : Setoid κ) (ν : Type) := Finmap fun _ : Quotient same => κ × ν

namespace Content

def listing (m : Content same ν) : Multiset (κ × ν) := (Finmap.entries m).map (·.2)

def size (m : Content same ν) : Nat := (Finmap.keys m).card

variable [DecidableEq (Quotient same)]

def get? (m : Content same ν) (key : κ) : Option (κ × ν) := m.lookup ⟦key⟧

/-- Sets the value of a class. A class that is there keeps its stored key. -/
def assign (m : Content same ν) (key : κ) (value : ν) : Content same ν :=
  Finmap.insert ⟦key⟧ (((m.get? key).map (·.1)).getD key, value) m

def discard (m : Content same ν) (key : κ) : Content same ν := Finmap.erase ⟦key⟧ m

/-- Sets pair after pair, up to the first element that is none. -/
def assignAll (m : Content same ν) :
    List (Except ε (κ × ν)) → Except (Fault κ ε) Unit × Content same ν
  | [] => (.ok (), m)
  | .error cause :: _ => (.error (.refused cause), m)
  | .ok (key, value) :: rest => (m.assign key value).assignAll rest

def present {α : Type} (key : κ) : Option α → Except (Fault κ ε) α
  | some a => .ok a
  | none => .error (.missing key)

theorem get?_assign_of_same {m : Content same ν} {key k : κ} {value : ν} (h : same.r k key) :
    (m.assign key value).get? k = some (((m.get? key).map (·.1)).getD key, value) := by
  have hclass : (⟦k⟧ : Quotient same) = ⟦key⟧ := Quotient.sound h
  rw [get?, hclass]
  exact Finmap.lookup_insert m

theorem get?_assign_of_not_same {m : Content same ν} {key k : κ} {value : ν}
    (h : ¬same.r k key) : (m.assign key value).get? k = m.get? k :=
  Finmap.lookup_insert_of_ne m fun hclass => h (Quotient.exact hclass)

theorem get?_discard_of_same {m : Content same ν} {key k : κ} (h : same.r k key) :
    (m.discard key).get? k = none := by
  have hclass : (⟦k⟧ : Quotient same) = ⟦key⟧ := Quotient.sound h
  rw [get?, hclass]
  exact Finmap.lookup_erase _ m

theorem get?_discard_of_not_same {m : Content same ν} {key k : κ} (h : ¬same.r k key) :
    (m.discard key).get? k = m.get? k :=
  Finmap.lookup_erase_ne fun hclass => h (Quotient.exact hclass)

theorem ext {m m' : Content same ν} (h : ∀ key, m.get? key = m'.get? key) : m = m' :=
  Finmap.ext_lookup fun x => Quotient.inductionOn x h

end Content

variable [DecidableEq (Quotient same)]

def MapRequest.onContent :
    MapRequest κ ν ε → Content same ν →
      Except (Fault κ ε) (MapAnswer κ ν) × Content same ν
  | .set key value, m => (.ok .nothing, m.assign key value)
  | .get key default, m => (.ok (.value (((m.get? key).map (·.2)).getD default)), m)
  | .getKey key default, m => (.ok (.key (((m.get? key).map (·.1)).getD default)), m)
  | .lookup key, m => ((Content.present key (m.get? key)).map (.value ·.2), m)
  | .contains key, m => (.ok (.bool (m.get? key).isSome), m)
  | .delete key, m => (.ok (.bool (m.get? key).isSome), m.discard key)
  | .remove key, m =>
    ((Content.present key (m.get? key)).map fun _ => .nothing, m.discard key)
  | .pop key none, m => ((Content.present key (m.get? key)).map (.value ·.2), m.discard key)
  | .pop key (some default), m =>
    (.ok (.value (((m.get? key).map (·.2)).getD default)), m.discard key)
  | .length, m =>
    -- A length is a number of at most 63 bits.
    (if m.size < 0x8000000000000000 then .ok (.length m.size) else .error .wideLength, m)
  | .isEmpty, m => (.ok (.bool (m.size = 0)), m)
  | .clear, _ => (.ok .nothing, ∅)
  | .free, _ => (.ok .nothing, ∅)
  | .rehash _, m => (.ok .nothing, m)
  | .update entries, m => (m.assignAll entries).map (·.map fun _ => .nothing) id
  | .updateFrom .itself, m => (.ok .nothing, m)
  | .updateFrom (.other t), m =>
    match t.listed with
    | .error fault => (.error fault, m)
    | .ok entries => (m.assignAll (entries.map .ok)).map (·.map fun _ => .nothing) id
  | .items, m => (.ok (.entries m.listing), m)

end OpenAddressing
