import OpenAddressing.Proofs.Age
import OpenAddressing.Proofs.Journal
import OpenAddressing.Table.Storage

/-!
# What operations report

A rehash that completes is one event, a probe limit that is hit is one, and so is a deletion
that leaves fewer tombstones. All other operations tell what their parts tell, in order and up
to the part that stops. The numbers told are those of slots there is memory for.
-/

namespace OpenAddressing

variable {κ ν ε : Type}

namespace Op

/-! ## Writing slots -/

variable [Inhabited κ] [Inhabited ν]

/-- What a rehash says that made one table from another. -/
def rehashEvent (t t' : Table κ ν) : Event κ :=
  if t.count = 0 then .renewed t.capacity t'.capacity
  else .rehashed t.capacity t'.capacity t'.count t'.maxProbe

def rehashEvents (rules : Rules κ ε) (size : Int) : Table κ ν → List (Event κ) :=
  completed (rehash rules size) fun t t' => [rehashEvent t t']

/-- A probe limit that is hit is told before the rehash that follows it, and then what comes
of the next attempt. -/
def planWithinEvents (rules : Rules κ ε) (key : κ) (hash : Int) :
    Nat → Table κ ν → List (Event κ)
  | 0, _ => []
  | retries + 1, t =>
    if t.capacity = 0 then rehashEvents rules minCapacity t
    else
      match t.probe rules key hash with
      | .ok .exhausted =>
        .probeLimit key t.capacity ::
          follow (rehash rules (t.capacity * 2)) (rehashEvents rules (t.capacity * 2))
            (fun _ => planWithinEvents rules key hash retries) t
      | _ => []

def planEvents (rules : Rules κ ε) (key : κ) (t : Table κ ν) : List (Event κ) :=
  match rules.hashOf key with
  | .ok hash => planWithinEvents rules key hash (64 * t.count.toNat + 64) t
  | .error _ => []

section Planning

variable {limit : Nat} (key : κ) (hash : Int)

end Planning

def relieveEvents (rules : Rules κ ε) (t : Table κ ν) : List (Event κ) :=
  if t.overloaded then rehashEvents rules (t.growthTarget rules) t else []

/-- Of an insertion, the rehash of a table that is overloaded by it can be told. -/
def insertEvents (rules : Rules κ ε) (key : κ) (value : ν) : Plan → Table κ ν → List (Event κ)
  | .found _, _ => []
  | .vacant index code, t =>
    follow (enter key value index code : Op κ ν ε Unit) (fun _ => [])
      (fun _ => relieveEvents rules) t

def setEvents (rules : Rules κ ε) (key : κ) (value : ν) : Table κ ν → List (Event κ) :=
  follow (plan rules key) (planEvents rules key) (insertEvents rules key value)

section Insertion

variable {limit : Nat} (key : κ) (value : ν)

end Insertion

/-! ## Deletion -/

/-- The number of tombstones that are gone in a second table, if there are any. -/
def collapseEvents (t t' : Table κ ν) : List (Event κ) :=
  let emptied := t.tally Table.isTombstone - t'.tally Table.isTombstone
  if 1 ≤ emptied then [.collapsed emptied] else []

def deleteAtEvents (ε : Type) (index : Int) : Table κ ν → List (Event κ) :=
  completed (deleteAt index : Op κ ν ε Unit) collapseEvents

def deleteEvents (rules : Rules κ ε) (key : κ) (t : Table κ ν) : List (Event κ) :=
  match t.find? rules key with
  | .ok (some i) => deleteAtEvents ε i t
  | _ => []

/-- The value is read before the entry is deleted. -/
def popEvents (rules : Rules κ ε) (key : κ) (t : Table κ ν) : List (Event κ) :=
  match t.find? rules key with
  | .ok (some i) =>
    match (t.val i : Except (Fault κ ε) ν) with
    | .ok _ => deleteAtEvents ε i t
    | .error _ => []
  | _ => []

def deleteAllEvents (rules : Rules κ ε) : List κ → Table κ ν → List (Event κ)
  | [] => fun _ => []
  | key :: rest =>
    follow (delete rules key) (deleteEvents rules key) fun _ => deleteAllEvents rules rest

section Deletion

variable {limit : Nat} (key : κ)

end Deletion

/-! ## Several entries -/

def updateEvents (rules : Rules κ ε) :
    List (Except ε (κ × ν)) → Table κ ν → List (Event κ)
  | .ok (key, value) :: rest =>
    follow (set rules key value) (setEvents rules key value) fun _ => updateEvents rules rest
  | _ => fun _ => []

def mergeEvents (rules : Rules κ ε) (combine : Nat → ν → ν → Except ε ν) :
    Nat → List (κ × ν) → Table κ ν → List (Event κ)
  | _, [], _ => []
  | serial, (key, value) :: rest, t =>
    follow (mergeWith rules combine serial [(key, value)])
      (fun t =>
        match t.find? rules key with
        | .ok none => setEvents rules key value t
        | _ => [])
      (fun _ => mergeEvents rules combine (serial + 1) rest) t

section Entries

variable {limit : Nat} (combine : Nat → ν → ν → Except ε ν)

end Entries

end Op

end OpenAddressing
