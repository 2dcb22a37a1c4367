import OpenAddressing.Proofs.Request
import OpenAddressing.Table.Audit

/-!
# The log of an operation

An operation adds to the log of events and never reads it: it comes to the same whatever the
log holds. A key that finds no slot is announced before it is told. Where it is refused the
operation stops, with the events before in the log; up to there it goes the same way as where
nothing is announced. The rules below carry this through the parts of an operation.
-/

namespace OpenAddressing

variable {κ ν ε α β : Type}

namespace Event

def numbers : Event κ → List Int
  | .probeLimit _ capacity => [(capacity : Int)]
  | .collapsed tombstones => [(tombstones : Int)]
  | .renewed before after => [(before : Int), (after : Int)]
  | .rehashed before after live maxProbe => [(before : Int), (after : Int), live, maxProbe]

def Within (limit : Nat) (event : Event κ) : Prop := ∀ n ∈ event.numbers, 0 ≤ n ∧ n ≤ limit

def refusal? (announce : κ → Nat → Except ε Unit) : Event κ → Option ε
  | .probeLimit key capacity =>
    match announce key capacity with
    | .ok () => none
    | .error cause => some cause
  | _ => none

/-- The events before the first one that is refused, and what that one is refused for. -/
def heard (announce : κ → Nat → Except ε Unit) : List (Event κ) → List (Event κ) × Option ε
  | [] => ([], none)
  | event :: rest =>
    match event.refusal? announce with
    | some cause => ([], some cause)
    | none => (event :: (heard announce rest).1, (heard announce rest).2)

variable {announce : κ → Nat → Except ε Unit} {events : List (Event κ)}

theorem heard_append (first rest : List (Event κ)) :
    heard announce (first ++ rest) = match heard announce first with
      | (told, some cause) => (told, some cause)
      | (told, none) => (told ++ (heard announce rest).1, (heard announce rest).2) := by
  induction first with
  | nil => rfl
  | cons event first ih =>
      rw [List.cons_append, heard, heard]
      cases event.refusal? announce with
      | some cause => rfl
      | none =>
          simp only [ih]
          rcases heard announce first with ⟨told, _ | cause⟩ <;> rfl

theorem heard_of_forall (h : ∀ event ∈ events, event.refusal? announce = none) :
    heard announce events = (events, none) := by
  induction events with
  | nil => rfl
  | cons event rest ih =>
      obtain ⟨hevent, hrest⟩ := List.forall_mem_cons.mp h
      simp only [heard, hevent, ih hrest]

end Event

/-- Nothing that is announced is refused, and there is memory for so many slots. -/
structure Rules.Calm (rules : Rules κ ε) (limit : Nat) : Prop where
  announce_eq (key : κ) (capacity : Nat) : rules.announce key capacity = .ok ()
  slotLimit_eq : rules.slotLimit = some limit

theorem Rules.Calm.heard_eq {rules : Rules κ ε} {limit : Nat} (h : rules.Calm limit)
    (events : List (Event κ)) : Event.heard rules.announce events = (events, none) := by
  refine Event.heard_of_forall fun event _ => ?_
  cases event with
  | probeLimit key capacity => simp only [Event.refusal?, h.announce_eq]
  | collapsed | renewed | rehashed => rfl

section Announcements

variable (rules : Rules κ ε) (announce : κ → Nat → Except ε Unit) (t fresh : Table κ ν) (key : κ)

namespace Table

end Table

end Announcements

namespace Op

def answer (op : Op κ ν ε α) (t : Table κ ν) : Except (Fault κ ε) α := (op.carry ⟨t, #[]⟩).1

def leaves (op : Op κ ν ε α) (t : Table κ ν) : Table κ ν := (op.carry ⟨t, #[]⟩).2.table

/-- Whatever the log holds, the operation comes to the same and leaves the same table, and it
adds to the log what `events` says. -/
def Adds (op : Op κ ν ε α) (events : Table κ ν → List (Event κ)) : Prop :=
  ∀ t log, op.carry ⟨t, log⟩ = (op.answer t, ⟨op.leaves t, log ++ (events t).toArray⟩)

def Heedless (op : Op κ ν ε α) : Prop := ∃ events, op.Adds events

def Narrow (op : Op κ ν ε α) : Prop :=
  ∀ t log, (op.carry ⟨t, log⟩).2.table.capacity ≤ t.capacity

structure Silent (op : Op κ ν ε α) : Prop where
  adds : op.Adds fun _ => []
  narrow : op.Narrow

/-- What is told of an operation, and then, if it completes, of the next one. -/
def follow (op : Op κ ν ε α) (first : Table κ ν → List (Event κ))
    (next : α → Table κ ν → List (Event κ)) (t : Table κ ν) : List (Event κ) :=
  first t ++
    match op.answer t with
    | .ok a => next a (op.leaves t)
    | .error _ => []

def completed (op : Op κ ν ε α) (told : Table κ ν → Table κ ν → List (Event κ))
    (t : Table κ ν) : List (Event κ) :=
  match op.answer t with
  | .ok _ => told t (op.leaves t)
  | .error _ => []

/-- On tables that fit into memory, the operation tells what `events` says while nothing is
announced, and leaves a table that fits again. With keys announced it goes the same way, up to
the first event that is refused. -/
structure Tells (limit : Nat) (op : Rules κ ε → Op κ ν ε α)
    (events : Rules κ ε → Table κ ν → List (Event κ)) : Prop where
  run {rules : Rules κ ε} (hr : rules.Calm limit) (announce : κ → Nat → Except ε Unit)
    {t : Table κ ν} (ht : t.capacity ≤ limit) (log : Array (Event κ)) :
    match Event.heard announce (events rules t) with
    | (told, none) => (op { rules with announce }).carry ⟨t, log⟩ =
        ((op rules).answer t, ⟨(op rules).leaves t, log ++ told.toArray⟩)
    | (told, some cause) => ∃ t', (op { rules with announce }).carry ⟨t, log⟩ =
        (.error (.refused cause), ⟨t', log ++ told.toArray⟩)
  fits {rules : Rules κ ε} (hr : rules.Calm limit) {t : Table κ ν} (ht : t.capacity ≤ limit) :
    ((op rules).leaves t).capacity ≤ limit ∧ ∀ event ∈ events rules t, event.Within limit

theorem carry_bind (x : Op κ ν ε α) (k : α → Op κ ν ε β) (s : Journal κ ν) :
    (x >>= k).carry s = match x.carry s with
      | (.ok a, s') => (k a).carry s'
      | (.error fault, s') => (.error fault, s') := by
  rw [carry, carry, bind_run]
  cases x s <;> rfl

theorem carry_query (f : Table κ ν → Except (Fault κ ε) α) (s : Journal κ ν) :
    (query f).carry s = (f s.table, s) := by
  rw [carry, query_run]
  cases f s.table <;> rfl

section Logs

variable {x : Op κ ν ε α} {k : α → Op κ ν ε β} {f g : Table κ ν → List (Event κ)}
  {next : α → Table κ ν → List (Event κ)}

theorem Adds.congr (h : x.Adds f) (hfg : ∀ t, f t = g t) : x.Adds g := by
  intro t log
  rw [h, hfg]

theorem Adds.events (h : x.Adds f) (t : Table κ ν) :
    (x.carry ⟨t, #[]⟩).2.events = (f t).toArray := by
  simp [h t #[]]

theorem Adds.bind (hx : x.Adds f) (hk : ∀ a, (k a).Adds (next a)) :
    (x >>= k).Adds (follow x f next) := by
  have hrun (t : Table κ ν) (log : Array (Event κ)) :
      (x >>= k).carry ⟨t, log⟩ = match x.answer t with
        | .ok a => ((k a).answer (x.leaves t),
            ⟨(k a).leaves (x.leaves t), log ++ (f t ++ next a (x.leaves t)).toArray⟩)
        | .error fault => (.error fault, ⟨x.leaves t, log ++ (f t).toArray⟩) := by
    rw [carry_bind, hx]
    cases x.answer t with
    | ok a => simp [hk a (x.leaves t)]
    | error fault => rfl
  intro t log
  rw [answer, leaves, hrun, hrun, follow]
  cases x.answer t <;> simp

theorem Narrow.bind (hx : x.Narrow) (hk : ∀ a, (k a).Narrow) : (x >>= k).Narrow := by
  intro t log
  rw [carry_bind]
  have hfirst := hx t log
  generalize x.carry ⟨t, log⟩ = r at hfirst
  obtain ⟨_ | a, s⟩ := r
  · exact hfirst
  · exact (hk a s.table s.events).trans hfirst

theorem Silent.bind (hx : x.Silent) (hk : ∀ a, (k a).Silent) : (x >>= k).Silent where
  adds := by
    refine (hx.adds.bind fun a => (hk a).adds).congr fun t => ?_
    rw [follow]
    cases x.answer t <;> rfl
  narrow := hx.narrow.bind fun a => (hk a).narrow

theorem Heedless.bind (hx : x.Heedless) (hk : ∀ a, (k a).Heedless) : (x >>= k).Heedless := by
  obtain ⟨_, hx⟩ := hx
  choose _ hk using hk
  exact ⟨_, hx.bind hk⟩

/-- An operation that does not look at the log, and is seen to leave on an empty one what the
tables before and after tell if it completes, and nothing if it stops, adds just that. -/
theorem Heedless.adds (h : x.Heedless) {told : Table κ ν → Table κ ν → List (Event κ)}
    (hout : ∀ t, x.Outcome ⟨t, #[]⟩ (fun _ s => s.events = (told t s.table).toArray)
      fun _ s => s.events = #[]) : x.Adds (completed x told) := by
  obtain ⟨_, h⟩ := h
  refine h.congr fun t => ?_
  have hevents := h.events t
  rw [Op.completed, answer, leaves]
  rcases (hout t).carry with ⟨a, hok, hpost⟩ | ⟨fault, herror, hlost⟩
  · rw [hok]
    simpa using hevents.symm.trans hpost
  · rw [herror]
    simpa using hevents.symm.trans hlost

end Logs

section Families

variable {limit : Nat} {x : Rules κ ε → Op κ ν ε α} {k : α → Rules κ ε → Op κ ν ε β}
  {f g : Rules κ ε → Table κ ν → List (Event κ)}
  {next : α → Rules κ ε → Table κ ν → List (Event κ)} {rules : Rules κ ε} {t : Table κ ν}

theorem Tells.congr (h : Tells limit x f) (hfg : ∀ rules t, f rules t = g rules t) :
    Tells limit x g := by
  obtain rfl : f = g := funext fun rules => funext (hfg rules)
  exact h

theorem Tells.carry_eq (h : Tells limit x f) (hr : rules.Calm limit) (ht : t.capacity ≤ limit)
    (log : Array (Event κ)) :
    (x rules).carry ⟨t, log⟩ =
      ((x rules).answer t, ⟨(x rules).leaves t, log ++ (f rules t).toArray⟩) := by
  have hrun := h.run hr rules.announce ht log
  rw [hr.heard_eq] at hrun
  exact hrun

private theorem Tells.carry_bind (hx : Tells limit x f) (hk : ∀ a, Tells limit (k a) (next a))
    (hr : rules.Calm limit) (ht : t.capacity ≤ limit) :
    (x rules >>= fun a => k a rules).answer t = (match (x rules).answer t with
      | .ok a => (k a rules).answer ((x rules).leaves t)
      | .error fault => .error fault) ∧
    (x rules >>= fun a => k a rules).leaves t = (match (x rules).answer t with
      | .ok a => (k a rules).leaves ((x rules).leaves t)
      | .error _ => (x rules).leaves t) := by
  have hrun : (x rules >>= fun a => k a rules).carry ⟨t, #[]⟩ = match (x rules).answer t with
      | .ok a => (k a rules).carry ⟨(x rules).leaves t, #[] ++ (f rules t).toArray⟩
      | .error fault => (.error fault, ⟨(x rules).leaves t, #[] ++ (f rules t).toArray⟩) := by
    rw [Op.carry_bind, hx.carry_eq hr ht]
    cases (x rules).answer t <;> rfl
  change (carry _ _).1 = _ ∧ (carry _ _).2.table = _
  rw [hrun]
  cases (x rules).answer t with
  | ok a =>
      dsimp only
      rw [(hk a).carry_eq hr (hx.fits hr ht).1]
      exact ⟨rfl, rfl⟩
  | error fault => exact ⟨rfl, rfl⟩

theorem Tells.bind (hx : Tells limit x f) (hk : ∀ a, Tells limit (k a) (next a)) :
    Tells limit (fun rules => x rules >>= fun a => k a rules)
      fun rules => follow (x rules) (f rules) fun a => next a rules where
  run {rules} hr announce t ht log := by
    obtain ⟨hanswer, hleaves⟩ := hx.carry_bind hk hr ht
    have hfirst := hx.run hr announce ht log
    rw [follow, Event.heard_append, hanswer, hleaves, Op.carry_bind]
    generalize Event.heard announce (f rules t) = first at hfirst
    obtain ⟨told, _ | cause⟩ := first
    · dsimp only at hfirst ⊢
      rw [hfirst]
      cases (x rules).answer t with
      | error fault => simp [Event.heard]
      | ok a =>
          have hnext := (hk a).run hr announce (hx.fits hr ht).1 (log ++ told.toArray)
          dsimp only
          generalize Event.heard announce (next a rules ((x rules).leaves t)) = later at hnext
          obtain ⟨later, _ | cause⟩ := later
          · simpa using hnext
          · simpa using hnext
    · obtain ⟨t', hfirst⟩ := hfirst
      dsimp only
      rw [hfirst]
      exact ⟨t', rfl⟩
  fits {rules} hr t ht := by
    obtain ⟨hfit, hevents⟩ := hx.fits hr ht
    rw [(hx.carry_bind hk hr ht).2, follow]
    cases (x rules).answer t with
    | error fault => exact ⟨hfit, by simpa using hevents⟩
    | ok a =>
        obtain ⟨hfit', hlater⟩ := (hk a).fits hr hfit
        exact ⟨hfit', List.forall_mem_append.mpr ⟨hevents, hlater⟩⟩

theorem Tells.announced {y : Rules κ ε → Op κ ν ε α} (hy : Tells limit y f) (key : κ)
    {capacity : Nat} (hcapacity : capacity ≤ limit) :
    Tells limit (fun rules => do
      query fun _ => rules.announceKey key capacity
      report (.probeLimit key capacity)
      y rules) fun rules t => .probeLimit key capacity :: f rules t := by
  have hrun (rules : Rules κ ε) (t : Table κ ν) (log : Array (Event κ)) :
      (do
        query fun _ => rules.announceKey key capacity
        report (.probeLimit key capacity)
        y rules).carry ⟨t, log⟩ = match rules.announce key capacity with
        | .ok () => (y rules).carry ⟨t, log.push (.probeLimit key capacity)⟩
        | .error cause => (.error (.refused cause), ⟨t, log⟩) := by
    rw [Op.carry_bind, carry_query, Rules.announceKey]
    cases rules.announce key capacity <;> rfl
  constructor
  case run =>
    intro rules hr announce t ht log
    have hplain := hrun rules t #[]
    rw [hr.announce_eq] at hplain
    dsimp only at hplain
    rw [answer, leaves, hplain, hy.carry_eq hr ht, hrun, Event.heard, Event.refusal?]
    dsimp only
    cases announce key capacity with
    | error cause => exact ⟨t, by simp⟩
    | ok =>
        have hlater := hy.run hr announce ht (log.push (.probeLimit key capacity))
        dsimp only
        generalize Event.heard announce (f rules t) = later at hlater
        obtain ⟨told, _ | cause⟩ := later
        · simpa using hlater
        · simpa using hlater
  case fits =>
    intro rules hr t ht
    obtain ⟨hfit, hevents⟩ := hy.fits hr ht
    have hplain := hrun rules t #[]
    rw [hr.announce_eq] at hplain
    dsimp only at hplain
    rw [leaves, hplain, hy.carry_eq hr ht]
    refine ⟨hfit, List.forall_mem_cons.mpr ⟨?_, hevents⟩⟩
    intro n hn
    obtain rfl := List.mem_singleton.mp hn
    omega

end Families

end Op

end OpenAddressing
