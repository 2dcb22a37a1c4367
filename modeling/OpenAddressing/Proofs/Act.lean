import OpenAddressing.Proofs.Report
import OpenAddressing.Proofs.Wording
import OpenAddressing.Session.Run

/-!
# Parts of commands, traced or not

With tracing off, the parts of a command leave the second text as it is. With tracing on they do
the same, and the lines of what is told of them are added to the second text. So it goes up to
the first key that finds no slot and cannot be written: there a command stops.
-/

namespace OpenAddressing

variable {α β : Type}

def announced (key : Value) (capacity : Nat) : Except Refusal Unit :=
  (Event.probeLimit key capacity).written.map fun _ => ()

def linesOf (events : List (Event Value)) : String := String.join (events.map Event.line)

@[simp]
theorem linesOf_append (first rest : List (Event Value)) :
    linesOf (first ++ rest) = linesOf first ++ linesOf rest := by
  rw [linesOf, List.map_append, String.join_append]
  rfl

namespace Event

variable {event : Event Value} {limit : Nat}

private theorem isWritable_of_le {n : Int} (hlow : 0 ≤ n) (hhigh : n ≤ limit)
    (hlimit : limit < 0x8000000000000000) : (Value.int n).isWritable = true := by
  have hbound : 10 ^ 19 ≤ Value.digitBound := by
    unfold Value.digitBound
    generalize hdigits : 4300 = digits
    exact Nat.pow_le_pow_right (by omega) (by omega)
  rw [Value.isWritable, decide_eq_true_iff]
  omega

theorem forall_mem_arguments {p : Value → Prop} (hnumber : ∀ n ∈ event.numbers, p (.int n))
    (hkey : ∀ key capacity, event = .probeLimit key capacity → p key) :
    ∀ v ∈ event.arguments, p v := by
  cases event with
  | probeLimit key capacity =>
      exact List.forall_mem_cons.mpr ⟨hkey key capacity rfl, by simpa [numbers] using hnumber⟩
  | collapsed | renewed | rehashed => simpa [arguments, numbers] using hnumber

theorem written_of_within (h : event.Within limit) (hlimit : limit < 0x8000000000000000)
    (hkey : ∀ key capacity, event = .probeLimit key capacity → key.isWritable = true) :
    event.written = .ok event.line :=
  event.written_eq (forall_mem_arguments
    (fun n hn => isWritable_of_le (h n hn).1 (h n hn).2 hlimit) hkey)

theorem refusal?_announced (key : Value) (capacity : Nat)
    (h : (probeLimit key capacity).Within limit) (hlimit : limit < 0x8000000000000000) :
    (probeLimit key capacity).refusal? announced =
      if key.isWritable then none else some .manyDigits := by
  rw [refusal?, announced]
  cases hkey : key.isWritable with
  | true =>
      rw [written_of_within h hlimit fun _ _ heq => by cases heq; exact hkey]
      rfl
  | false =>
      rw [written_of_not_isWritable hkey]
      rfl

end Event

/-- Tracing is off, and the tables fit into memory. -/
structure Session.Plain (m : Memory) (s : Session) : Prop where
  memory_eq : s.memory = m
  tracing_eq : s.tracing = false
  capacity_le : ∀ v ∈ s.holdings, v.table.capacity ≤ m.slots

namespace Act

def carry (act : Act α) (s : Stage) : Except (Fault Value Refusal) α × Stage :=
  match act s with
  | .ok a s' => (.ok a, s')
  | .error fault s' => (.error fault, s')

theorem carry_bind (x : Act α) (k : α → Act β) (s : Stage) :
    (x >>= k).carry s = match x.carry s with
      | (.ok a, s') => (k a).carry s'
      | (.error fault, s') => (.error fault, s') := by
  rw [carry, carry]
  change (match EStateM.bind x k s with | .ok a s' => _ | .error fault s' => _) = _
  rw [EStateM.bind.eq_def]
  cases x s <;> rfl

end Act

namespace Stage

def traced (s : Stage) (err : String) : Stage :=
  { s with session := { s.session with tracing := true }, err }

def placed (s : Stage) (id : Nat) (v : Holding) (t : Table Value Value) : Stage :=
  { s with session :=
    { s.session with holdings := s.session.holdings.setIfInBounds id { v with table := t } } }

end Stage

namespace Act

/-- What a command does comes to something good where tracing is off, and leaves tracing off. With
tracing on the same is done, and the lines of `events` are added to the second text; but at the
first key that cannot be written it stops. -/
structure TracesTo (act : Act α) (m : Memory) (good : α → Prop)
    (events : Stage → List (Event Value)) : Prop where
  off {s : Stage} (h : s.session.Plain m) :
    ((act.carry s).2.session.Plain m ∧ (act.carry s).2.err = s.err) ∧
      (∀ a, (act.carry s).1 = .ok a → good a) ∧ ∀ event ∈ events s, event.Within m.slots
  on {s : Stage} (h : s.session.Plain m) (err : String) :
    match Event.heard announced (events s) with
    | (told, none) => act.carry (s.traced err) =
        ((act.carry s).1, (act.carry s).2.traced (err ++ linesOf told))
    | (told, some cause) => ∃ s', act.carry (s.traced err) = (.error (.refused cause), s') ∧
        s'.err = err ++ linesOf told

def Traces (act : Act α) (m : Memory) (events : Stage → List (Event Value)) : Prop :=
  act.TracesTo m (fun _ => True) events

def quiet : Stage → List (Event Value) := fun _ => []

/-- What is told of something, and then, if it completes, of what comes next. -/
def follow (act : Act α) (first : Stage → List (Event Value))
    (next : α → Stage → List (Event Value)) (s : Stage) : List (Event Value) :=
  first s ++
    match act.carry s with
    | (.ok a, s') => next a s'
    | (.error _, _) => []

section Parts

variable {m : Memory} {x : Act α} {k : α → Act β} {good : α → Prop} {good' : β → Prop}
  {f g : Stage → List (Event Value)} {next : α → Stage → List (Event Value)}

theorem TracesTo.congr (h : x.TracesTo m good f) (hfg : ∀ s, f s = g s) : x.TracesTo m good g := by
  obtain rfl : f = g := funext hfg
  exact h

theorem TracesTo.bind (hx : x.TracesTo m good f)
    (hk : ∀ a, good a → (k a).TracesTo m good' (next a)) :
    (x >>= k).TracesTo m good' (follow x f next) where
  off {s} h := by
    obtain ⟨⟨hplain, herr⟩, hgood, hwithin⟩ := hx.off h
    rw [carry_bind, follow]
    generalize x.carry s = r at hplain herr hgood
    obtain ⟨_ | a, s'⟩ := r
    · exact ⟨⟨hplain, herr⟩, (fun _ ha => by cases ha), by simpa using hwithin⟩
    · obtain ⟨⟨hplain', herr'⟩, hgood', hwithin'⟩ := (hk a (hgood a rfl)).off hplain
      exact ⟨⟨hplain', herr'.trans herr⟩, hgood', List.forall_mem_append.mpr ⟨hwithin, hwithin'⟩⟩
  on {s} h err := by
    obtain ⟨⟨hplain, -⟩, hgood, -⟩ := hx.off h
    have hfirst := hx.on h err
    rw [follow, Event.heard_append, carry_bind, carry_bind]
    generalize x.carry s = r at hplain hgood hfirst
    generalize Event.heard announced (f s) = first at hfirst
    obtain ⟨told, _ | cause⟩ := first
    · dsimp only at hfirst ⊢
      rw [hfirst]
      obtain ⟨_ | a, s'⟩ := r
      · simp [Event.heard]
      · have hnext := (hk a (hgood a rfl)).on hplain (err ++ linesOf told)
        dsimp only
        generalize Event.heard announced (next a s') = later at hnext
        obtain ⟨later, _ | cause⟩ := later
        · simpa [String.append_assoc] using hnext
        · simpa [String.append_assoc] using hnext
    · obtain ⟨s', hfirst, herr⟩ := hfirst
      dsimp only
      rw [hfirst]
      exact ⟨s', rfl, herr⟩

theorem Traces.bind (hx : x.Traces m f) (hk : ∀ a, (k a).TracesTo m good' (next a)) :
    (x >>= k).TracesTo m good' (follow x f next) := TracesTo.bind hx fun a _ => hk a

end Parts

/-! ## Steps of commands -/

section Steps

variable {m : Memory}

theorem named_run (name : String) (bound : Session → List (String × α)) (s : Stage) :
    named name bound s = match (bound s.session).lookup name with
      | some a => .ok a s
      | none => .error (.refused (.unknownName name)) s := by
  change (match (bound s.session).lookup name with
    | some a => pure a
    | none => refuse (.unknownName name) : Act α) s = _
  cases (bound s.session).lookup name <;> rfl

theorem holding_run (id : Nat) (s : Stage) :
    holding id s = match s.session.holdings[id]? with
      | some h => .ok h s
      | none => .error (.refused (.unknownName (toString id))) s := by
  change (match s.session.holdings[id]? with
    | some h => pure h
    | none => refuse (.unknownName (toString id)) : Act Holding) s = _
  cases s.session.holdings[id]? <;> rfl

theorem look_run (id : Nat)
    (f : Rules Value Refusal → Table Value Value → Except (Fault Value Refusal) α) (s : Stage) :
    look id f s = match s.session.holdings[id]? with
      | some v =>
        match f (v.rules s.session) v.table with
        | .ok a => .ok a s
        | .error fault => .error fault s
      | none => .error (.refused (.unknownName (toString id))) s := by
  change EStateM.bind (holding id) _ s = _
  rw [EStateM.bind.eq_def, holding_run]
  cases s.session.holdings[id]? with
  | none => rfl
  | some v =>
      change give (f (v.rules s.session) v.table) s = _
      dsimp only
      cases f (v.rules s.session) v.table <;> rfl

end Steps

/-! ## Operations on tables -/

section Operations

variable {m : Memory} {op : Rules Value Refusal → Op Value Value Refusal α}
  {events : Rules Value Refusal → Table Value Value → List (Event Value)}

def heldEvents (id : Nat) (events : Rules Value Refusal → Table Value Value → List (Event Value))
    (s : Stage) : List (Event Value) :=
  match s.session.holdings[id]? with
  | some v => events (v.rules s.session) v.table
  | none => []

def looseEvents (v : Holding)
    (events : Rules Value Refusal → Table Value Value → List (Event Value)) (s : Stage) :
    List (Event Value) :=
  events (v.rules s.session) v.table

end Operations

end Act

end OpenAddressing
