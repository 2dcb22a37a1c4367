import OpenAddressing.Proofs.Iterate
import OpenAddressing.Table.Map

/-!
# Requests and runs

A run is a list of requests, each carried out to its answer or its fault; what a request has
changed before a fault stays changed.
-/

namespace OpenAddressing

variable {κ ν ε : Type}

/-- Where a table is given entries from: from itself, or from another one. -/
inductive Partner (κ ν : Type) where
  | itself
  | other (t : Table κ ν)

/-- What can be asked of a table as a map. A key that is looked up, removed, or taken out without a
default has to be present. -/
inductive MapRequest (κ ν ε : Type) where
  | set (key : κ) (value : ν)
  | get (key : κ) (default : ν)
  | getKey (key default : κ)
  | lookup (key : κ)
  | contains (key : κ)
  | delete (key : κ)
  | remove (key : κ)
  | pop (key : κ) (default : Option ν)
  | length
  | isEmpty
  | clear
  | free
  | rehash (size : Int)
  | update (entries : List (Except ε (κ × ν)))
  | updateFrom (partner : Partner κ ν)
  | items

inductive TableRequest (κ ν ε : Type) where
  | map (request : MapRequest κ ν ε)
  | plan (key : κ)
  | deleteAt (i : Nat)
  | filledFromFloor
  | iterate (start : Option Int)
  /-- From here on a copy is used instead. -/
  | copy
  | merge (combine : Nat → ν → ν → Except ε ν) (serial : Nat) (partner : Partner κ ν)

inductive MapAnswer (κ ν : Type) where
  | nothing
  | value (v : ν)
  | key (k : κ)
  | bool (b : Bool)
  | length (n : Int)
  | entries (content : Multiset (κ × ν))

def runAll {σ ρ α : Type} (step : ρ → σ → α × σ) : List ρ → σ → List α × σ
  | [], s => ([], s)
  | request :: rest, s =>
    let (answer, next) := step request s
    let (answers, last) := runAll step rest next
    (answer :: answers, last)

theorem runAll_cons {σ ρ α : Type} (step : ρ → σ → α × σ) (request : ρ) (rest : List ρ) (s : σ) :
    runAll step (request :: rest) s =
      ((step request s).1 :: (runAll step rest (step request s).2).1,
        (runAll step rest (step request s).2).2) := rfl

theorem runAll_append {σ ρ α : Type} (step : ρ → σ → α × σ) (before after : List ρ) (s : σ) :
    runAll step (before ++ after) s =
      ((runAll step before s).1 ++ (runAll step after (runAll step before s).2).1,
        (runAll step after (runAll step before s).2).2) := by
  induction before generalizing s with
  | nil => rfl
  | cons request rest ih =>
      rw [List.cons_append, runAll_cons, ih, runAll_cons]
      rfl

theorem runAll_invariant {σ ρ α : Type} {step : ρ → σ → α × σ} {P : σ → Prop}
    (hstep : ∀ request s, P s → P (step request s).2) (requests : List ρ) {s : σ} (h : P s) :
    P (runAll step requests s).2 := by
  induction requests generalizing s with
  | nil => exact h
  | cons request rest ih => exact ih (hstep request s h)

def Breaks {σ ρ α : Type} (step : ρ → σ → α × σ) (broken : ρ → σ → Prop) (requests : List ρ)
    (s : σ) : Prop :=
  ∃ before request after, requests = before ++ request :: after ∧
    broken request (runAll step before s).2

theorem Breaks.cons {σ ρ α : Type} {step : ρ → σ → α × σ} {broken : ρ → σ → Prop}
    {requests : List ρ} {request : ρ} {s : σ} (h : Breaks step broken requests (step request s).2) :
    Breaks step broken (request :: requests) s := by
  obtain ⟨before, other, after, rfl, hbroken⟩ := h
  exact ⟨request :: before, other, after, rfl, hbroken⟩

theorem Breaks.append {σ ρ α : Type} {step : ρ → σ → α × σ} {broken : ρ → σ → Prop}
    {requests : List ρ} {s : σ} (h : Breaks step broken requests s) (more : List ρ) :
    Breaks step broken (requests ++ more) s := by
  obtain ⟨before, request, after, rfl, hbroken⟩ := h
  exact ⟨before, request, after ++ more, by simp, hbroken⟩

theorem runAll_invariant_or {σ ρ α : Type} {step : ρ → σ → α × σ} {P : σ → Prop}
    {broken : ρ → σ → Prop} (hstep : ∀ request s, P s → P (step request s).2 ∨ broken request s)
    (requests : List ρ) {s : σ} (h : P s) :
    P (runAll step requests s).2 ∨ Breaks step broken requests s := by
  induction requests generalizing s with
  | nil => exact Or.inl h
  | cons request rest ih =>
      rcases hstep request s h with hnext | hbroken
      · exact (ih hnext).imp_right Breaks.cons
      · exact Or.inr ⟨[], request, rest, rfl, hbroken⟩

/-- Steps that answer alike, and stay related, answer alike all the way or as far as the first
one that breaks off. -/
theorem runAll_simulation {σ τ ρ α : Type} {step : ρ → σ → α × σ} {step' : ρ → τ → α × τ}
    {R : σ → τ → Prop} {broken : ρ → σ → Prop}
    (hstep : ∀ request s m, R s m →
      ((step request s).1 = (step' request m).1 ∧ R (step request s).2 (step' request m).2) ∨
        broken request s)
    (requests : List ρ) {s : σ} {m : τ} (h : R s m) :
    ∃ before after, requests = before ++ after ∧
      (runAll step before s).1 = (runAll step' before m).1 ∧
      R (runAll step before s).2 (runAll step' before m).2 ∧
      ∀ request ∈ after.head?, broken request (runAll step before s).2 := by
  induction requests generalizing s m with
  | nil => exact ⟨[], [], rfl, rfl, h, by simp⟩
  | cons request rest ih =>
      rcases hstep request s m h with ⟨hanswer, hnext⟩ | hbroken
      · obtain ⟨before, after, rfl, hanswers, hlast, hhead⟩ := ih hnext
        exact ⟨request :: before, after, rfl, congrArg₂ List.cons hanswer hanswers, hlast, hhead⟩
      · refine ⟨[], request :: rest, rfl, rfl, h, ?_⟩
        intro other hother
        rw [List.head?_cons, Option.mem_some_iff] at hother
        exact hother ▸ hbroken

def Table.listed (t : Table κ ν) : Except (Fault κ ε) (List (κ × ν)) :=
  match (Op.items : Op κ ν ε (Array (κ × ν))) ⟨t, #[]⟩ with
  | .ok entries _ => .ok entries.toList
  | .error fault _ => .error fault

namespace Op

variable {α : Type}

theorem Outcome.carry {op : Op κ ν ε α} {s : Journal κ ν} {post : α → Journal κ ν → Prop}
    {lost : Fault κ ε → Journal κ ν → Prop} (h : op.Outcome s post lost) :
    (∃ a, (op.carry s).1 = .ok a ∧ post a (op.carry s).2) ∨
      ∃ fault, (op.carry s).1 = .error fault ∧ lost fault (op.carry s).2 := by
  unfold Outcome at h
  unfold Op.carry
  cases hop : op s with
  | ok a s' =>
      rw [hop] at h
      exact Or.inl ⟨a, rfl, h⟩
  | error fault s' =>
      rw [hop] at h
      exact Or.inr ⟨fault, rfl, h⟩

theorem Outcome.of_carry_error {op : Op κ ν ε α} {s : Journal κ ν}
    {post : α → Journal κ ν → Prop} {lost : Fault κ ε → Journal κ ν → Prop}
    (h : op.Outcome s post lost) {fault : Fault κ ε} (herror : (op.carry s).1 = .error fault) :
    lost fault (op.carry s).2 := by
  rcases h.carry with ⟨a, hok, -⟩ | ⟨fault', herror', hlost⟩
  · rw [hok] at herror
    cases herror
  · rw [herror'] at herror
    cases herror
    exact hlost

def entriesOf : Partner κ ν → Op κ ν ε (List (κ × ν))
  | .itself => return (← items).toList
  | .other t => query fun _ => t.listed

end Op

section Perform

variable [Inhabited κ] [Inhabited ν]

open Op in
def MapRequest.perform (rules : Rules κ ε) : MapRequest κ ν ε → Op κ ν ε (MapAnswer κ ν)
  | .set key value => do
    Op.set rules key value
    pure .nothing
  | .get key default => return .value ((← query fun t => t.get? rules key).getD default)
  | .getKey key default => return .key ((← query fun t => t.getKey? rules key).getD default)
  | .lookup key => return .value (← query fun t => t.get rules key)
  | .contains key => return .bool (← query fun t => t.contains rules key)
  | .delete key => return .bool (← Op.delete rules key)
  | .remove key => do
    Op.remove rules key
    pure .nothing
  | .pop key none => return .value (← Op.pop rules key)
  | .pop key (some default) => return .value ((← Op.pop? rules key).getD default)
  | .length => return .length (← query fun t => t.length)
  | .isEmpty => return .bool (← query fun t => .ok t.isEmpty)
  | .clear => do
    Op.clear
    pure .nothing
  | .free => do
    Op.free
    pure .nothing
  | .rehash size => do
    Op.rehash rules size
    pure .nothing
  | .update entries => do
    Op.update rules entries
    pure .nothing
  | .updateFrom partner => do
    let entries ← entriesOf partner
    Op.update rules (entries.map .ok)
    pure .nothing
  | .items => return .entries (← Op.items).toList

open Op in
def TableRequest.perform (rules : Rules κ ε) : TableRequest κ ν ε → Op κ ν ε Unit
  | .map request => do
    let _ ← request.perform rules
  | .plan key => do
    let _ ← Op.plan rules key
  | .deleteAt i => Op.deleteAt i
  | .filledFromFloor => do
    let _ ← Op.filledFromFloor?
  | .iterate start => do
    let _ ← Op.iterate start
  | .copy => edit Table.copy
  | .merge combine serial partner => do
    let entries ← entriesOf partner
    mergeWith rules combine serial entries

def MapRequest.onTable (rules : Rules κ ε) (request : MapRequest κ ν ε) (s : Journal κ ν) :
    Except (Fault κ ε) (MapAnswer κ ν) × Journal κ ν := (request.perform rules).carry s

def TableRequest.onTable (rules : Rules κ ε) (request : TableRequest κ ν ε) (s : Journal κ ν) :
    Except (Fault κ ε) Unit × Journal κ ν := (request.perform rules).carry s

def reached (rules : Rules κ ε) (hint : Int) (requests : List (TableRequest κ ν ε)) :
    Journal κ ν := (runAll (TableRequest.onTable rules) requests ⟨Table.new hint, #[]⟩).2

end Perform

end OpenAddressing
