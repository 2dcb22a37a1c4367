import OpenAddressing.Proofs.Delete
import OpenAddressing.Proofs.Insert
import OpenAddressing.Proofs.Observation

/-!
# Age

Every operation that writes to the storage of a table also advances its age, whatever the
rules are and wherever it stops. For that no write may fail between the first one and the
change of age, which holds as long as the arrays have one length and plans stay within it.
-/

namespace OpenAddressing

variable {κ ν ε : Type}

namespace Table

variable {t t' u : Table κ ν}

structure Unaltered (t t' : Table κ ν) : Prop extends SameSlots t t' where
  count_eq : t'.count = t.count
  dead_eq : t'.dead = t.dead

/-- The first table can become the second one: it is not younger, and nothing is altered
unless it is older. -/
structure Later (t t' : Table κ ν) : Prop where
  age_le : t.age ≤ t'.age
  unaltered : t'.age = t.age → t.Unaltered t'

namespace Later

theorem refl (t : Table κ ν) : t.Later t := ⟨Int.le_refl _, fun _ => ⟨⟨rfl, rfl, rfl⟩, rfl, rfl⟩⟩

theorem trans (h : t.Later u) (h' : u.Later t') : t.Later t' where
  age_le := Int.le_trans h.age_le h'.age_le
  unaltered heq := by
    have := h.age_le
    have := h'.age_le
    have hu := h.unaltered (by omega)
    have hu' := h'.unaltered (by omega)
    exact ⟨⟨hu'.tags.trans hu.tags, hu'.keys.trans hu.keys, hu'.vals.trans hu.vals⟩,
      hu'.count_eq.trans hu.count_eq, hu'.dead_eq.trans hu.dead_eq⟩

theorem of_lt (h : t.age < t'.age) : t.Later t' := ⟨by omega, fun heq => by omega⟩

end Later

theorem Alike.later (h : t.Alike t') : t.Later t' := by
  obtain ⟨low, rfl⟩ := h
  exact ⟨Int.le_refl _, fun _ => ⟨⟨rfl, rfl, rfl⟩, rfl, rfl⟩⟩

theorem Fitted.of_alike (h : t.Fitted) (hs : t.Alike t') : t'.Fitted := by
  obtain ⟨low, rfl⟩ := hs
  exact h.of_sameSlots ⟨rfl, rfl, rfl⟩

/-! ## Searches -/

private theorem seek_filled (rules : Rules κ ε) (t : Table κ ν) (key : κ) (hash : Int)
    (window i : Nat) : Gives (t.seek rules key (.fingerprint hash) window i)
      (fun found => ∀ j, found = some j → (t.tagAt j).isFilled = true) fun _ => True := by
  induction window generalizing i with
  | zero => exact fun _ => absurd_of_none rfl
  | succ window ih =>
      rw [seek]
      split
      · exact fun _ => absurd_of_none rfl
      split
      · next htag =>
        refine gives_bind_of_forall fun stored => gives_bind_of_forall fun r => ?_
        cases r with
        | true =>
            intro j hj
            cases hj
            rw [htag, Tag.isFilled_fingerprint]
        | false => exact ih _
      · exact ih _

theorem find?_filled (rules : Rules κ ε) (t : Table κ ν) (key : κ) :
    Gives (t.find? rules key)
      (fun found => ∀ j, found = some j → (t.tagAt j).isFilled = true) fun _ => True := by
  rw [find?]
  split
  · exact fun _ => absurd_of_none rfl
  refine gives_bind_of_forall fun hash => ?_
  split
  · split
    · exact fun _ => absurd_of_none rfl
    split
    · trivial
    · exact seek_filled rules t key hash _ _
  · trivial

def Probe.Within (size : Nat) : Probe → Prop
  | .found i => i < size
  | .vacant i _ => i < size
  | .exhausted => True

private theorem stretch_within (hc : IsCapacity t.capacity) (n i distance : Nat)
    (hi : i < t.capacity) : (t.stretch n i distance).Within t.capacity := by
  induction n generalizing i distance with
  | zero => trivial
  | succ n ih =>
      rw [stretch]
      split
      · exact ih _ _ (hc.mask_lt _)
      · exact hi

private theorem scan_within (rules : Rules κ ε) (hc : IsCapacity t.capacity) (key : κ) (tag : Tag)
    (window i walked : Nat) (spare : Option Nat) (hi : i < t.capacity)
    (hspare : ∀ j, spare = some j → j < t.capacity) :
    Gives (t.scan rules key tag window i walked spare) (Probe.Within t.capacity)
      fun _ => True := by
  induction window generalizing i walked spare with
  | zero =>
      rw [scan.eq_def]
      cases spare with
      | none => exact stretch_within hc _ _ _ hi
      | some j => exact hspare j rfl
  | succ window ih =>
      have hnext : t.after i < t.capacity := hc.mask_lt _
      rw [scan]
      split
      · cases spare with
        | none => exact hi
        | some j => exact hspare j rfl
      split
      · refine ih _ _ _ hnext fun j hj => ?_
        cases spare with
        | none => exact Option.some.inj hj ▸ hi
        | some k => exact hspare j hj
      split
      · refine gives_bind_of_forall fun stored => gives_bind_of_forall fun r => ?_
        cases r with
        | true => exact hi
        | false => exact ih _ _ _ hnext hspare
      · exact ih _ _ _ hnext hspare

theorem Fitted.probe_within (h : t.Fitted) (hpos : 0 < t.capacity) (rules : Rules κ ε) (key : κ)
    (hash : Int) : Gives (t.probe rules key hash) (Probe.Within t.capacity) fun _ => True := by
  have hc := h.isCapacity hpos
  rw [probe, if_pos hc.isPowerOfTwo]
  exact scan_within rules hc key _ _ _ _ none (hc.mask_lt _) fun _ => absurd_of_none rfl

theorem refill_fitted (rules : Rules κ ε) (old : Table κ ν) (n i : Nat) {fresh : Table κ ν}
    (h : fresh.Fitted) : Gives (refill rules old n i fresh)
      (fun t => t.Fitted ∧ t.capacity = fresh.capacity) fun _ => True := by
  induction n generalizing i fresh with
  | zero => exact ⟨h, rfl⟩
  | succ n ih =>
      rw [refill]
      split
      · refine gives_bind_of_forall fun key => gives_bind_of_forall fun hash => ?_
        dsimp only
        split
        · trivial
        · next j _ =>
          refine gives_bind_of_forall fun value => ?_
          have hcap : (fresh.occupy j (mask fresh.capacity (j - mask fresh.capacity hash))
              (old.tagAt i) key value).capacity = fresh.capacity := Array.size_setIfInBounds
          rw [← hcap]
          exact ih _ ((h.write _ _ _ _).of_sameSlots ⟨rfl, rfl, rfl⟩)
      · exact ih _ h

end Table

inductive Plan.Fits (t : Table κ ν) : Plan → Prop where
  | found {i : Nat} (h : i < t.capacity) : Fits t (.found i)
  | vacant {i : Nat} (hash : Int) (h : i < t.capacity) :
      Fits t (.vacant i (Tag.fingerprint hash).code)

theorem Plan.Fits.of_capacity_eq {t t' : Table κ ν} {plan : Plan} (h : plan.Fits t)
    (heq : t'.capacity = t.capacity) : plan.Fits t' := by
  cases h with
  | found h => exact .found (by rwa [heq])
  | vacant hash h => exact .vacant hash (by rwa [heq])

/-! ## Operations -/

def Event.isRehash : Event κ → Bool
  | .renewed _ _ | .rehashed _ _ _ _ => true
  | .probeLimit _ _ | .collapsed _ => false

def rehashes (events : Array (Event κ)) : Nat := events.countP Event.isRehash

theorem rehashes_push (events : Array (Event κ)) (event : Event κ) :
    rehashes (events.push event) = rehashes events + if event.isRehash then 1 else 0 :=
  Array.countP_push

namespace Journal

variable {s s' u : Journal κ ν}

/-- The number of changes so far that were no rehashes. -/
def edits (s : Journal κ ν) : Int := s.table.age - rehashes s.events

structure Onward (s s' : Journal κ ν) : Prop where
  fitted : s'.table.Fitted
  later : s.table.Later s'.table

theorem Onward.trans (h : s.Onward u) (h' : u.Onward s') : s.Onward s' :=
  ⟨h'.fitted, h.later.trans h'.later⟩

theorem onward_of_eq (h : s.table.Fitted) (heq : s' = s) : s.Onward s' := by
  subst heq
  exact ⟨h, .refl _⟩

theorem onward_of_lt (h : s'.table.Fitted) (hlt : s.table.age < s'.table.age) : s.Onward s' :=
  ⟨h, .of_lt hlt⟩

end Journal

namespace Op

open Table Journal

variable [Inhabited κ] [Inhabited ν] {s : Journal κ ν}

/-- A rehash counts as a change from its beginning, and is reported when it is complete. -/
theorem rehash_ages (rules : Rules κ ε) (size : Int) (h : s.table.Fitted) :
    (rehash rules size).Outcome s
      (fun _ s' => s'.table.Fitted ∧ s'.table.age = s.table.age + 1 ∧ s'.edits = s.edits ∧
        IsCapacity s'.table.capacity)
      (fun _ s' => s'.table.Fitted ∧ s'.table.age = s.table.age + 1) := by
  have hc : IsCapacity (s.table.rehashCapacity size) := isCapacity_rehashCapacity _ _
  have hblank := fitted_blank (κ := κ) (ν := ν) (Or.inr hc)
  refine (rehash_cases rules s size).imp ?_ ?_
  · intro _ s' hs'
    cases hs' with
    | renewed =>
        refine ⟨hblank.of_sameSlots ⟨rfl, rfl, rfl⟩, rfl, ?_, ?_⟩
        · simp only [edits, rehashes_push, Event.isRehash, if_true]
          omega
        · rwa [← capacity_blank (κ := κ) (ν := ν) (s.table.rehashCapacity size)] at hc
    | @rehashed fresh _ hrefill =>
        have hfresh := refill_fitted rules s.table.renewed s.table.capacity 0 hblank
        rw [hrefill, gives_ok, capacity_blank] at hfresh
        refine ⟨hfresh.1.of_sameSlots ⟨rfl, rfl, rfl⟩, rfl, ?_, ?_⟩
        · simp only [edits, rehashes_push, Event.isRehash, if_true]
          omega
        · exact hfresh.2.symm ▸ hc
  · intro _ s' hs'
    rw [hs']
    exact ⟨h.of_sameSlots (sameSlots_renewed _), rfl⟩

private theorem planWithin_ages (rules : Rules κ ε) (key : κ) (hash : Int) (retries : Nat)
    (h : s.table.Fitted) :
    (planWithin rules key hash retries).Outcome s
      (fun plan s' => s.Onward s' ∧ plan.Fits s'.table ∧ s'.edits = s.edits)
      (fun _ s' => s.Onward s') := by
  induction retries generalizing s with
  | zero => exact onward_of_eq h rfl
  | succ retries ih =>
      rw [planWithin, outcome_bind, outcome_query_total]
      by_cases hzero : s.table.capacity = 0
      · rw [if_pos hzero]
        refine (rehash_ages rules _ h).bind ?_ ?_
        · intro _ s' hs'
          rw [outcome_query_total]
          exact ⟨onward_of_lt hs'.1 (by omega), .vacant hash (hs'.2.2.2.mask_lt _), hs'.2.2.1⟩
        · exact fun _ s' hs' => onward_of_lt hs'.1 (by omega)
      · have hpos : 0 < s.table.capacity := by omega
        rw [if_neg hzero, outcome_bind, outcome_query]
        refine (h.probe_within hpos rules key hash).imp ?_ fun _ _ => onward_of_eq h rfl
        intro probed hprobed
        cases probed with
        | found i => exact ⟨onward_of_eq h rfl, .found hprobed, rfl⟩
        | vacant i reach =>
            refine ⟨⟨h.of_sameSlots ⟨rfl, rfl, rfl⟩, ?_⟩, .vacant hash hprobed, rfl⟩
            exact ⟨Int.le_refl _, fun _ => ⟨⟨rfl, rfl, rfl⟩, rfl, rfl⟩⟩
        | exhausted =>
            rw [outcome_bind, outcome_query]
            cases rules.announceKey key s.table.capacity with
            | error fault => exact onward_of_eq h rfl
            | ok =>
            -- The rehash counts as an edit, and the search begins again in the new storage.
            rw [gives_ok, outcome_bind, outcome_report]
            let u : Journal κ ν := ⟨s.table, s.events.push (.probeLimit key s.table.capacity)⟩
            have hu : u.edits = s.edits := by simp [u, edits, rehashes_push, Event.isRehash]
            have hage : u.table.age = s.table.age := rfl
            refine (rehash_ages (s := u) rules _ h).bind ?_ ?_
            · intro _ s' hs'
              refine (ih hs'.1).imp ?_ ?_
              · intro plan s'' hs''
                exact ⟨(onward_of_lt hs'.1 (by omega)).trans hs''.1, hs''.2.1, by omega⟩
              · exact fun _ s'' hs'' => (onward_of_lt hs'.1 (by omega)).trans hs''
            · exact fun _ s' hs' => onward_of_lt hs'.1 (by omega)

theorem plan_ages (rules : Rules κ ε) (key : κ) (h : s.table.Fitted) :
    (plan rules key).Outcome s
      (fun plan s' => s.Onward s' ∧ plan.Fits s'.table ∧ s'.edits = s.edits)
      (fun _ s' => s.Onward s') := by
  rw [plan, outcome_bind, outcome_query]
  cases rules.hashOf key with
  | error fault => exact onward_of_eq h rfl
  | ok hash =>
      rw [gives_ok, outcome_bind, outcome_query_total]
      exact planWithin_ages rules key hash _ h

def Ages (s s' : Journal κ ν) : Prop :=
  s'.table.Fitted ∧ s.table.age < s'.table.age ∧ s'.edits = s.edits + 1

omit [Inhabited κ] [Inhabited ν] in
theorem Ages.onward {s' : Journal κ ν} (h : Ages s s') : s.Onward s' := onward_of_lt h.1 h.2.1

private theorem relieve_ages {u : Journal κ ν} (rules : Rules κ ε) (h : u.table.Fitted)
    (hage : u.table.age = s.table.age + 1) (hevents : u.events = s.events) :
    (relieve rules).Outcome u (fun _ s' => Ages s s') (fun _ s' => s.Onward s') := by
  have hedits : u.edits = s.edits + 1 := by
    simp only [edits, hevents]
    omega
  rw [relieve, outcome_bind, outcome_query_total]
  cases u.table.overloaded with
  | false => exact ⟨h, by omega, hedits⟩
  | true =>
      rw [if_pos rfl, outcome_bind, outcome_query_total]
      refine (rehash_ages rules _ h).imp ?_ ?_
      · exact fun _ s' hs' => ⟨hs'.1, by omega, by omega⟩
      · exact fun _ s' hs' => onward_of_lt hs'.1 (by omega)

/-- An insertion that stops has written nothing, or it has written all and counted that. -/
theorem insertAt_ages (rules : Rules κ ε) (key : κ) (value : ν) {plan : Plan} (h : s.table.Fitted)
    (hplan : plan.Fits s.table) :
    (insertAt rules key value plan).Outcome s (fun _ s' => Ages s s')
      (fun _ s' => s.Onward s') := by
  cases hplan with
  | @found i hi =>
      rw [insertAt, outcome_bind, outcome_putVal (by rwa [h.vals_size]), outcome_edit]
      refine ⟨⟨h.keys_size, ?_, h.capacity⟩, Int.lt_succ _, by simp only [edits]; omega⟩
      exact Array.size_setIfInBounds.trans h.vals_size
  | @vacant i hash hi =>
      rw [insertAt_vacant]
      refine (enter_cases h _ value hi).bind ?_ fun _ _ hs' => onward_of_eq h hs'
      intro _ s' hs'
      obtain ⟨-, rfl⟩ := hs'
      exact relieve_ages rules ((h.write _ _ _ _).of_sameSlots ⟨rfl, rfl, rfl⟩) rfl rfl

theorem set_ages (rules : Rules κ ε) (key : κ) (value : ν) (h : s.table.Fitted) :
    (set rules key value).Outcome s (fun _ s' => Ages s s') (fun _ s' => s.Onward s') := by
  refine (plan_ages rules key h).bind ?_ fun _ _ hs => hs
  intro plan s' hplan
  obtain ⟨hs', hfits, hedits⟩ := hplan
  refine (insertAt_ages rules key value hs'.fitted hfits).imp ?_ fun _ _ hs => hs'.trans hs
  intro _ s'' hs''
  have := hs'.later.age_le
  exact ⟨hs''.1, by have := hs''.2.1; omega, by have := hs''.2.2; omega⟩

theorem deleteAt_ages {i : Nat} (h : s.table.Fitted) (hf : (s.table.tagAt i).isFilled = true) :
    (deleteAt i : Op κ ν ε Unit).Outcome s
      (fun _ s' => s'.table.Fitted ∧ s'.table.age = s.table.age + 1) (fun _ _ => False) :=
  (deleteAt_outcome h hf).imp (fun _ _ hs' => ⟨hs'.fitted h, hs'.counters.2.1⟩) fun _ _ hl => hl

def Strikes (rules : Rules κ ε) (key : κ) (s s' : Journal κ ν) : Prop :=
  s'.table.Fitted ∧
    ((∃ i, s.table.find? rules key = .ok (some i)) ∧ s'.table.age = s.table.age + 1 ∨
      (∀ i, s.table.find? rules key ≠ .ok (some i)) ∧ s' = s)

omit [Inhabited κ] [Inhabited ν] in
theorem Strikes.onward {rules : Rules κ ε} {key : κ} {s' : Journal κ ν}
    (h : Strikes rules key s s') : s.Onward s' := by
  obtain ⟨hfitted, ⟨-, hage⟩ | ⟨-, rfl⟩⟩ := h
  · exact onward_of_lt hfitted (by omega)
  · exact ⟨hfitted, .refl _⟩

omit [Inhabited κ] [Inhabited ν] in
private theorem strike_ages {α : Type} (rules : Rules κ ε) (key : κ) (h : s.table.Fitted)
    {f : Option Nat → Op κ ν ε α}
    (hmiss : (f none).Outcome s (fun _ s' => s' = s) fun _ s' => s' = s)
    (hhit : ∀ i, (s.table.tagAt i).isFilled = true → (f (some i)).Outcome s
      (fun _ s' => s'.table.Fitted ∧ s'.table.age = s.table.age + 1) fun _ _ => False) :
    (query (fun t => t.find? rules key) >>= f).Outcome s
      (fun _ s' => Strikes rules key s s') (fun _ s' => Strikes rules key s s') := by
  have hfound := find?_filled rules s.table key
  have hnone {s' : Journal κ ν} (hne : ∀ i, s.table.find? rules key ≠ .ok (some i))
      (heq : s' = s) : Strikes rules key s s' := by
    subst heq
    exact ⟨h, Or.inr ⟨hne, rfl⟩⟩
  rw [outcome_bind, outcome_query]
  cases hfind : s.table.find? rules key with
  | error fault => exact hnone (fun i hi => by rw [hfind] at hi; cases hi) rfl
  | ok found =>
      cases found with
      | none =>
          have hne (i : Nat) : s.table.find? rules key ≠ .ok (some i) := by
            rw [hfind]
            exact fun hi => absurd_of_none rfl (Except.ok.inj hi)
          exact hmiss.imp (fun _ _ => hnone hne) fun _ _ => hnone hne
      | some i =>
          rw [hfind] at hfound
          refine (hhit i (hfound i rfl)).imp ?_ fun _ _ hl => hl.elim
          exact fun _ s' hs' => ⟨hs'.1, Or.inl ⟨⟨i, hfind⟩, hs'.2⟩⟩

theorem delete_ages (rules : Rules κ ε) (key : κ) (h : s.table.Fitted) :
    (delete rules key).Outcome s (fun _ s' => Strikes rules key s s')
      (fun _ s' => Strikes rules key s s') :=
  strike_ages rules key h rfl fun _ hf =>
    (deleteAt_ages h hf).bind (fun _ _ hs' => hs') fun _ _ hl => hl

theorem pop?_ages (rules : Rules κ ε) (key : κ) (h : s.table.Fitted) :
    (pop? rules key).Outcome s (fun _ s' => Strikes rules key s s')
      (fun _ s' => Strikes rules key s s') := by
  refine strike_ages rules key h rfl fun i hf => ?_
  obtain ⟨k, v, hk⟩ := exists_holds h.keys_size h.vals_size hf
  dsimp only
  rw [outcome_bind, outcome_query_ok (val_eq hk.val)]
  exact (deleteAt_ages h hf).bind (fun _ _ hs' => hs') fun _ _ hl => hl

theorem remove_ages (rules : Rules κ ε) (key : κ) (h : s.table.Fitted) :
    (remove rules key).Outcome s (fun _ s' => Strikes rules key s s')
      (fun _ s' => Strikes rules key s s') := by
  refine (delete_ages rules key h).bind (fun deleted s' hs' => ?_) fun _ _ hs' => hs'
  cases deleted with
  | true => exact hs'
  | false => exact hs'

theorem pop_ages (rules : Rules κ ε) (key : κ) (h : s.table.Fitted) :
    (pop rules key).Outcome s (fun _ s' => Strikes rules key s s')
      (fun _ s' => Strikes rules key s s') := by
  refine (pop?_ages rules key h).bind (fun value s' hs' => ?_) fun _ _ hs' => hs'
  cases value with
  | none => exact hs'
  | some value => exact hs'

theorem update_ages (rules : Rules κ ε) (entries : List (Except ε (κ × ν))) (h : s.table.Fitted) :
    (update rules entries).Outcome s
      (fun _ s' => s.Onward s' ∧ s.table.age + entries.length ≤ s'.table.age)
      (fun _ s' => s.Onward s') := by
  induction entries generalizing s with
  | nil => exact ⟨onward_of_eq h rfl, by simp⟩
  | cons entry rest ih =>
      cases entry with
      | error cause => exact onward_of_eq h rfl
      | ok entry =>
          rw [update]
          refine (set_ages rules entry.1 entry.2 h).bind (fun _ s' hs' => ?_) fun _ _ hs => hs
          refine (ih hs'.1).imp ?_ fun _ _ hs => hs'.onward.trans hs
          intro _ s'' hs''
          refine ⟨hs'.onward.trans hs''.1, ?_⟩
          have := hs'.2.1
          have := hs''.2
          simp only [List.length_cons]
          omega

/-- An entry whose key is there takes exactly one change, or leaves everything as it is. -/
theorem mergeWith_single_ages (rules : Rules κ ε) (combine : Nat → ν → ν → Except ε ν)
    (serial : Nat) (entry : κ × ν) (h : s.table.Fitted) {i : Nat}
    (hfind : s.table.find? rules entry.1 = .ok (some i)) :
    (mergeWith rules combine serial [entry]).Outcome s
      (fun _ s' => s'.table.Fitted ∧ s'.table.age = s.table.age + 1) (fun _ s' => s' = s) := by
  have hf : (s.table.tagAt i).isFilled = true := by
    have hfound := find?_filled rules s.table entry.1
    rw [hfind] at hfound
    exact hfound i rfl
  obtain ⟨k, v, hk⟩ := exists_holds h.keys_size h.vals_size hf
  have hi : i < s.table.vals.size := by
    rw [h.vals_size]
    exact hk.lt
  rw [mergeWith, outcome_bind, outcome_query_ok hfind]
  dsimp only
  rw [outcome_bind, outcome_query_ok (val_eq hk.val), outcome_bind, outcome_query]
  cases combine serial v entry.2 with
  | error cause => rfl
  | ok combined =>
      rw [Except.mapError, gives_ok, outcome_bind, outcome_putVal hi, outcome_bind, outcome_edit]
      exact ⟨⟨h.keys_size, Array.size_setIfInBounds.trans h.vals_size, h.capacity⟩, rfl⟩

theorem mergeWith_append (rules : Rules κ ε) (combine : Nat → ν → ν → Except ε ν) (serial : Nat)
    (first rest : List (κ × ν)) :
    (mergeWith rules combine serial (first ++ rest) : Op κ ν ε Unit) = (do
      mergeWith rules combine serial first
      mergeWith rules combine (serial + first.length) rest) := by
  induction first generalizing serial with
  | nil => rw [List.nil_append, mergeWith, List.length_nil, Nat.add_zero, pure_bind]
  | cons entry first ih =>
      have hserial : serial + 1 + first.length = serial + (entry :: first).length := by
        simp only [List.length_cons]
        omega
      rw [List.cons_append, mergeWith, mergeWith, bind_assoc]
      congr 1
      funext found
      cases found with
      | none => simp only [ih, hserial, bind_assoc]
      | some i => simp only [ih, hserial, bind_assoc]

theorem mergeWith_ages (rules : Rules κ ε) (combine : Nat → ν → ν → Except ε ν) (serial : Nat)
    (entries : List (κ × ν)) (h : s.table.Fitted) :
    (mergeWith rules combine serial entries).Outcome s
      (fun _ s' => s.Onward s' ∧ s.table.age + entries.length ≤ s'.table.age)
      (fun _ s' => s.Onward s') := by
  induction entries generalizing s serial with
  | nil => exact ⟨onward_of_eq h rfl, by simp⟩
  | cons entry rest ih =>
      have hentry : (mergeWith rules combine serial [entry]).Outcome s
          (fun _ s' => s'.table.Fitted ∧ s.table.age + 1 ≤ s'.table.age)
          (fun _ s' => s.Onward s') := by
        cases hfind : s.table.find? rules entry.1 with
        | error fault =>
            rw [mergeWith, outcome_bind, outcome_query, hfind]
            exact onward_of_eq h rfl
        | ok found =>
            cases found with
            | none =>
                rw [mergeWith, outcome_bind, outcome_query_ok hfind]
                refine (set_ages rules entry.1 entry.2 h).bind (fun _ s' hs' => ?_) fun _ _ hs => hs
                exact ⟨hs'.1, hs'.2.1⟩
            | some i =>
                refine (mergeWith_single_ages rules combine serial entry h hfind).imp ?_ ?_
                · exact fun _ s' hs' => ⟨hs'.1, by omega⟩
                · exact fun _ _ => onward_of_eq h
      -- The other entries are looked up in the table that this one leaves.
      rw [← List.singleton_append, mergeWith_append]
      refine hentry.bind (fun _ s' hs' => ?_) fun _ _ hs => hs
      have hs : s.Onward s' := onward_of_lt hs'.1 (by omega)
      refine (ih _ hs'.1).imp (fun _ s'' hs'' => ⟨hs.trans hs''.1, ?_⟩)
        fun _ _ hs'' => hs.trans hs''
      have := hs''.2
      simp only [List.length_append, List.length_singleton]
      omega

end Op

end OpenAddressing
