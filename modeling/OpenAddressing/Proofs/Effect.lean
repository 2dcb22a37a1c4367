import Mathlib.Logic.Relation
import OpenAddressing.Proofs.Capacity
import OpenAddressing.Proofs.Map
import OpenAddressing.Proofs.Request

/-!
# What requests do

What a request can make of a table, and the faults at which it can stop, are said once. What
every run keeps is then read off from the changes one by one.
-/

namespace OpenAddressing

variable {κ ν ε : Type} {rules : Rules κ ε} {same : Setoid κ}

def Partner.given (ε : Type) (t : Table κ ν) : Partner κ ν → List (κ × ν)
  | .itself => t.entries
  | .other u =>
    match (u.listed : Except (Fault κ ε) (List (κ × ν))) with
    | .ok entries => entries
    | .error _ => []

/-- The most slots that a request comes to ask for. -/
def MapRequest.mostSlots (t : Table κ ν) : MapRequest κ ν ε → Nat
  | .set _ _ => t.slotsFor 1
  | .rehash size => t.rehashCapacity size
  | .update entries => t.slotsFor entries.length
  | .updateFrom partner => t.slotsFor (partner.given ε t).length
  | _ => 0

def TableRequest.mostSlots (t : Table κ ν) : TableRequest κ ν ε → Nat
  | .map request => request.mostSlots t
  | .plan _ => t.slotsFor 0
  | .merge _ _ partner => t.slotsFor (partner.given ε t).length
  | _ => 0

theorem Table.Refloored.slotsFor_eq {t t' : Table κ ν} (h : t.Refloored t') (n : Nat) :
    t'.slotsFor n = t.slotsFor n := by
  obtain ⟨floor, rfl, -, -⟩ := h
  rfl

variable [Inhabited κ] [Inhabited ν]

/-- The request stops because there is no memory for the slots that it comes to ask for. -/
def MapRequest.Starves (rules : Rules κ ε) (request : MapRequest κ ν ε) (s : Journal κ ν) : Prop :=
  rules.Starves (request.mostSlots s.table) (request.onTable rules s).1

def TableRequest.Starves (rules : Rules κ ε) (request : TableRequest κ ν ε) (s : Journal κ ν) :
    Prop := rules.Starves (request.mostSlots s.table) (request.onTable rules s).1

def Starved (rules : Rules κ ε) (hint : Int) (requests : List (TableRequest κ ν ε)) : Prop :=
  Breaks (TableRequest.onTable rules) (TableRequest.Starves rules) requests ⟨Table.new hint, #[]⟩

theorem Starved.limited {hint : Int} {requests : List (TableRequest κ ν ε)}
    (h : Starved rules hint requests) : rules.slotLimit ≠ none := by
  obtain ⟨before, request, after, -, hstarves⟩ := h
  exact Rules.Starves.limited hstarves

namespace Table

variable {t t' u : Table κ ν} {request : TableRequest κ ν ε} {p q : Prop}

/-- One change on the way of an insertion or of a visit, which breaks off only on the condition
`p`. None takes an entry away. -/
inductive Inserting (rules : Rules κ ε) (same : Setoid κ) (p : Prop) (t : Table κ ν) :
    Table κ ν → Prop where
  | assigned {key : κ} {value : ν} {t' : Table κ ν}
      (h : Assigned rules same key value t t') : Inserting rules same p t t'
  | lost {fault : Fault κ ε} {key : κ} {t' : Table κ ν} (hp : p)
      (h : AssignLost rules same key fault t t') : Inserting rules same p t t'
  | planned {key : κ} {hash : Int} {plan : Plan} {t' : Table κ ν}
      (h : Planned rules same key hash t plan t') : Inserting rules same p t t'
  | revalued {i : Nat} {value : ν} (hf : (t.tagAt i).isFilled = true) :
      Inserting rules same p t (t.revalued i value)
  | refloored {t' : Table κ ν} (h : Refloored t t') : Inserting rules same p t t'

abbrev Insertions (rules : Rules κ ε) (same : Setoid κ) (p : Prop) :
    Table κ ν → Table κ ν → Prop :=
  Relation.ReflTransGen (Inserting rules same p)

/-- What a request can make of a table, if only on the condition `p` it breaks off. -/
inductive Effect (rules : Rules κ ε) (same : Setoid κ) (p : Prop) (t : Table κ ν) :
    TableRequest κ ν ε → Table κ ν → Prop where
  | inserted {request : TableRequest κ ν ε} {t' : Table κ ν}
      (h : Insertions rules same p t t') : Effect rules same p t request t'
  | deleted {request : TableRequest κ ν ε} {i : Nat} {t' : Table κ ν}
      (hf : (t.tagAt i).isFilled = true) (h : Deleted t i t') : Effect rules same p t request t'
  | copied {request : TableRequest κ ν ε} : Effect rules same p t request t.copy
  | cleared {request : TableRequest κ ν ε} :
      Effect rules same p t request { (blank t.capacity : Table κ ν) with age := t.age + 1 }
  | freed : Effect rules same p t (.map .free) { (blank 0 : Table κ ν) with age := t.age + 1 }
  | rehashed {size : Int} {t' : Table κ ν} (h : t.Rehashed rules same size t') :
      Effect rules same p t (.map (.rehash size)) t'
  | renewed {size : Int} (hp : p) : Effect rules same p t (.map (.rehash size)) t.renewed

/-- The faults at which a request to a table can stop. -/
inductive Stops (rules : Rules κ ε) (same : Setoid κ) (t : Table κ ν) :
    TableRequest κ ν ε → Fault κ ε → Prop where
  | memory {request : TableRequest κ ν ε} {fault : Fault κ ε}
      (h : rules.LacksSlots (request.mostSlots t) fault) : Stops rules same t request fault
  | lookup {key : κ} (h : t.Lacks same key) :
      Stops rules same t (.map (.lookup key)) (.missing key)
  | remove {key : κ} (h : t.Lacks same key) :
      Stops rules same t (.map (.remove key)) (.missing key)
  | pop {key : κ} (h : t.Lacks same key) :
      Stops rules same t (.map (.pop key none)) (.missing key)
  | length (h : 0x8000000000000000 ≤ t.count) : Stops rules same t (.map .length) .wideLength
  | update {entries : List (Except ε (κ × ν))} {cause : ε} (h : .error cause ∈ entries) :
      Stops rules same t (.map (.update entries)) (.refused cause)
  | updateFrom {other : Table κ ν} {fault : Fault κ ε} (h : other.listed = .error fault) :
      Stops rules same t (.map (.updateFrom (.other other))) fault
  | mergeFrom {combine : Nat → ν → ν → Except ε ν} {serial : Nat} {other : Table κ ν}
      {fault : Fault κ ε} (h : other.listed = .error fault) :
      Stops rules same t (.merge combine serial (.other other)) fault
  | merge {combine : Nat → ν → ν → Except ε ν} {serial n : Nat} {partner : Partner κ ν}
      {old new : ν} {cause : ε} (h : combine n old new = .error cause) :
      Stops rules same t (.merge combine serial partner) (.refused cause)
  | deleteAt {i : Nat} {fault : Fault κ ε} (h : (t.tagAt i).isFilled = false) :
      Stops rules same t (.deleteAt i) fault
  | iterate {i : Int} (h : i < -(t.capacity : Int)) :
      Stops rules same t (.iterate (some i)) (outside i .slotIndex)

def Halts (rules : Rules κ ε) (same : Setoid κ) (t : Table κ ν) (request : TableRequest κ ν ε)
    (fault : Fault κ ε) : Prop := rules.Refuses fault ∨ Stops rules same t request fault

/-! ## Soundness is kept -/

theorem Planned.sound {key : κ} {hash : Int} {plan : Plan}
    (h : Planned rules same key hash t plan t') (ht : t.Sound rules same) :
    t'.Sound rules same := by
  cases h with
  | found => exact ht
  | @vacant u i d hgrown hv hcrowd =>
      have hu := hgrown.sound ht
      refine ⟨hu.toWellFormed.congr ⟨rfl, rfl, rfl⟩ rfl rfl (fun _ _ hle => hle)
        (Int.le_max_left _ _), ?_, hu.floor_nonneg⟩
      exact Int.le_trans hu.maxProbe_nonneg (Int.le_max_left _ _)

theorem Inserting.mono (h : Inserting rules same p t t') (hpq : p → q) :
    Inserting rules same q t t' := by
  cases h with
  | assigned h => exact .assigned h
  | lost hp h => exact .lost (hpq hp) h
  | planned h => exact .planned h
  | revalued hf => exact .revalued hf
  | refloored h => exact .refloored h

theorem Insertions.mono (h : Insertions rules same p t t') (hpq : p → q) :
    Insertions rules same q t t' :=
  Relation.ReflTransGen.mono (fun _ _ hstep => hstep.mono hpq) _ _ h

theorem Effect.mono (h : Effect rules same p t request t') (hpq : p → q) :
    Effect rules same q t request t' := by
  cases h with
  | inserted h => exact .inserted (Insertions.mono h hpq)
  | deleted hf h => exact .deleted hf h
  | copied => exact .copied
  | cleared => exact .cleared
  | freed => exact .freed
  | rehashed h => exact .rehashed h
  | renewed hp => exact .renewed (hpq hp)

theorem Inserting.sound (h : Inserting rules same p t t') (ht : t.Sound rules same) :
    t'.Sound rules same := by
  cases h with
  | assigned h => exact h.sound ht
  | lost _ h => exact h.sound ht
  | planned h => exact h.sound ht
  | revalued hf => exact ht.revalued (lt_of_isFilled hf) _
  | refloored h => exact h.sound ht

theorem Insertions.sound (h : Insertions rules same p t t') (ht : t.Sound rules same) :
    t'.Sound rules same := by
  induction h with
  | refl => exact ht
  | tail _ hstep ih => exact hstep.sound ih

theorem Effect.sound (h : Effect rules same p t request t') (ht : t.Sound rules same) :
    t'.Sound rules same := by
  cases h with
  | inserted h => exact h.sound ht
  | deleted hf h => exact h.sound ht hf
  | copied =>
      exact ⟨ht.toWellFormed.congr ⟨rfl, rfl, rfl⟩ rfl rfl (fun _ _ hle => hle) (Int.le_refl _),
        ht.maxProbe_nonneg, ht.floor_nonneg⟩
  | cleared => exact sound_blank_age ht.capacity _
  | freed => exact sound_blank_age (Or.inl rfl) _
  | rehashed h => exact h.toSound
  | renewed => exact ht.renewed

end Table

/-! ## Several entries -/

namespace Op

open Table

variable {s : Journal κ ν}

theorem update_outcome (hr : rules.Respects same) (entries : List (Except ε (κ × ν)))
    (h : s.table.Sound rules same) :
    (update rules entries).Outcome s (fun _ s' => Insertions rules same False s.table s'.table)
      (fun fault s' => (rules.Denies (s.table.slotsFor entries.length) fault ∨
          ∃ cause, .error cause ∈ entries ∧ fault = .refused cause) ∧
        Insertions rules same (rules.Denies (s.table.slotsFor entries.length) fault)
          s.table s'.table) := by
  induction entries generalizing s with
  | nil => exact .refl
  | cons entry rest ih =>
      cases entry with
      | error cause => exact ⟨Or.inr ⟨cause, List.mem_cons_self, rfl⟩, .refl⟩
      | ok entry =>
          apply (set_outcome hr h entry.1 entry.2).bind
          · intro _ s' hs'
            apply (ih (hs'.sound h)).imp (fun _ s'' hs'' => .head (.assigned hs') hs'')
            intro fault s'' hlost
            -- A key that was set still counts for the slots that may be asked for.
            have hle := hs'.slotsFor_le h rest.length
            refine ⟨?_, .head (.assigned hs') (Insertions.mono hlost.2 fun hd => hd.mono hle)⟩
            rcases hlost.1 with hdenied | ⟨cause, hmem, rfl⟩
            · exact Or.inl (hdenied.mono hle)
            · exact Or.inr ⟨cause, List.mem_cons_of_mem _ hmem, rfl⟩
          · intro fault s' hlost
            have hdenied := (hlost.denies h).mono
              (s.table.slotsFor_mono (show 1 ≤ (Except.ok entry :: rest).length by simp))
            exact ⟨Or.inl hdenied, .single (.lost hdenied hlost)⟩

theorem update_slotsFor_le (hr : rules.Respects same) (entries : List (Except ε (κ × ν)))
    (h : s.table.Sound rules same) :
    (update rules entries).Outcome s
      (fun _ s' => ∀ n, s'.table.slotsFor n ≤ s.table.slotsFor (entries.length + n))
      fun _ _ => True := by
  induction entries generalizing s with
  | nil => exact fun n => s.table.slotsFor_mono (Nat.le_add_left n 0)
  | cons entry rest ih =>
      cases entry with
      | error cause => trivial
      | ok entry =>
          apply (set_outcome hr h entry.1 entry.2).bind _ fun _ _ _ => trivial
          intro _ s' hs'
          refine (ih (hs'.sound h)).imp (fun _ s'' hle n => ?_) fun _ _ _ => trivial
          refine ((hle n).trans (hs'.slotsFor_le h _)).trans (s.table.slotsFor_mono ?_)
          rw [List.length_cons]
          omega

theorem mergeWith_outcome (hr : rules.Respects same) (combine : Nat → ν → ν → Except ε ν)
    (entries : List (κ × ν)) (serial : Nat) (h : s.table.Sound rules same) :
    (mergeWith rules combine serial entries).Outcome s
      (fun _ s' => Insertions rules same False s.table s'.table)
      (fun fault s' => (rules.Denies (s.table.slotsFor entries.length) fault ∨
          ∃ n old new cause, combine n old new = .error cause ∧ fault = .refused cause) ∧
        Insertions rules same (rules.Denies (s.table.slotsFor entries.length) fault)
          s.table s'.table) := by
  induction entries generalizing s serial with
  | nil => exact .refl
  | cons entry rest ih =>
      rw [mergeWith, outcome_bind, outcome_query]
      refine (h.toWellFormed.find?_found hr entry.1).imp ?_
        (fun _ href => ⟨Or.inl (Or.inl href), .refl⟩)
      -- What follows the first entry begins in a sound table again.
      have hrest {s' : Journal κ ν} (hs' : ∀ p, Inserting rules same p s.table s'.table)
          (hle : s'.table.slotsFor rest.length ≤ s.table.slotsFor (rest.length + 1)) :
          (mergeWith rules combine (serial + 1) rest).Outcome s'
            (fun _ s'' => Insertions rules same False s.table s''.table)
            (fun fault s'' => (rules.Denies (s.table.slotsFor (rest.length + 1)) fault ∨
                ∃ n old new cause, combine n old new = .error cause ∧ fault = .refused cause) ∧
              Insertions rules same (rules.Denies (s.table.slotsFor (rest.length + 1)) fault)
                s.table s''.table) := by
        refine (ih (serial + 1) ((hs' False).sound h)).imp
          (fun _ s'' hs'' => .head (hs' _) hs'') fun fault s'' hlost => ?_
        have hmore (hd : rules.Denies (s'.table.slotsFor rest.length) fault) := hd.mono hle
        exact ⟨hlost.1.imp_left hmore, .head (hs' _) (Insertions.mono hlost.2 hmore)⟩
      intro found hfound
      cases found with
      | none =>
          apply (set_outcome hr h entry.1 entry.2).bind
            (fun _ s' hs' => hrest (fun _ => .assigned hs') (hs'.slotsFor_le h rest.length))
          intro fault s' hlost
          have hdenied := (hlost.denies h).mono
            (s.table.slotsFor_mono (show 1 ≤ (entry :: rest).length by simp))
          exact ⟨Or.inl hdenied, .single (.lost hdenied hlost)⟩
      | some i =>
          obtain ⟨k, v, hk, -⟩ := hfound
          rw [outcome_bind, outcome_query_ok (val_eq hk.val), outcome_bind, outcome_query]
          cases hcombine : combine serial v entry.2 with
          | error cause => exact ⟨Or.inr ⟨_, _, _, _, hcombine, rfl⟩, .refl⟩
          | ok value =>
              have hi : i < s.table.vals.size := by
                rw [h.vals_size]
                exact hk.lt
              change (putVal i value >>= _).Outcome s _ _
              rw [outcome_bind, outcome_putVal hi, outcome_bind, outcome_edit]
              exact hrest (fun _ => .revalued hk.filled)
                (slotsFor_mono s.table (Nat.le_succ rest.length))

omit [Inhabited κ] [Inhabited ν] in
theorem entriesOf_outcome (h : s.table.Sound rules same) (partner : Partner κ ν) :
    (entriesOf partner : Op κ ν ε (List (κ × ν))).Outcome s
      (fun entries s' => entries = partner.given ε s.table ∧ s.table.Refloored s'.table)
      (fun fault s' => (∃ other, partner = .other other ∧ other.listed = .error fault) ∧
        s' = s) := by
  cases partner with
  | itself =>
      exact (items_outcome h).bind (fun _ _ hs' => hs') fun _ _ hl => hl.elim
  | other t =>
      rw [entriesOf, outcome_query, Partner.given]
      cases hlisted : (t.listed : Except (Fault κ ε) (List (κ × ν))) with
      | ok entries => exact ⟨rfl, h.refloored⟩
      | error fault => exact ⟨⟨t, rfl, hlisted⟩, rfl⟩

end Op

/-! ## Requests -/

section Perform

open Op Table

variable {α : Type} {s : Journal κ ν}

/-- However it ends, the operation has an effect that the request can have, and the fault at
which it stops is one for the request to stop at. It breaks off only for a key that is refused,
and for want of memory. -/
def Op.Serves (rules : Rules κ ε) (same : Setoid κ) (request : TableRequest κ ν ε)
    (op : Op κ ν ε α) (s : Journal κ ν) : Prop :=
  op.Outcome s (fun _ s' => Effect rules same False s.table request s'.table)
    (fun fault s' => Halts rules same s.table request fault ∧
      Effect rules same (rules.Denies (request.mostSlots s.table) fault) s.table request s'.table)

private theorem Table.Removed.effect {t t' : Table κ ν} {key : κ} {e : Option (κ × ν)}
    (h : t.Removed same key t' e) (p : Prop) (request : TableRequest κ ν ε) :
    Effect rules same p t request t' := by
  cases e with
  | none => exact h.2 ▸ .inserted .refl
  | some e =>
      obtain ⟨i, hi, -, hdel⟩ := h
      exact .deleted hi.filled hdel

private theorem query_serves {f : Table κ ν → Except (Fault κ ε) α} {answer : α → MapAnswer κ ν}
    {request : TableRequest κ ν ε}
    (h : Gives (f s.table) (fun _ => True) (Halts rules same s.table request)) :
    (do return answer (← query f) : Op κ ν ε (MapAnswer κ ν)).Serves rules same request s := by
  rw [Serves, outcome_bind, outcome_query]
  exact h.imp (fun _ _ => .inserted .refl) (fun _ hstop => ⟨hstop, .inserted .refl⟩)

omit [Inhabited κ] [Inhabited ν] in
private theorem refused_serves {request : TableRequest κ ν ε} {f : Except (Fault κ ε) α}
    {P : α → Prop} (h : Gives f P rules.Refuses) :
    Gives f (fun _ => True) (Halts rules same s.table request) :=
  h.imp (fun _ _ => trivial) fun _ => Or.inl

omit [Inhabited κ] [Inhabited ν] in
private theorem Table.Halts.of_denies {t : Table κ ν} {request : TableRequest κ ν ε}
    {fault : Fault κ ε} (h : rules.Denies (request.mostSlots t) fault) :
    Halts rules same t request fault := h.imp_right .memory

private theorem halts_of_missing {t t' : Table κ ν} {key : κ} {request : TableRequest κ ν ε}
    {fault : Fault κ ε} {p : Prop}
    (hmissing : t.Lacks same key → Stops rules same t request (.missing key))
    (hlost : (rules.Refuses fault ∨ t.Found same key none ∧ fault = .missing key) ∧ t' = t) :
    Halts rules same t request fault ∧ Effect rules same p t request t' := by
  rcases hlost with ⟨href | ⟨hlacks, rfl⟩, rfl⟩
  · exact ⟨Or.inl href, .inserted .refl⟩
  · exact ⟨Or.inr (hmissing hlacks), .inserted .refl⟩

private theorem set_serves (hr : rules.Respects same) (h : s.table.Sound rules same) (key : κ)
    (value : ν) : (Op.set rules key value).Serves rules same (.map (.set key value)) s := by
  refine (set_outcome hr h key value).imp (fun _ s' hs' => .inserted (.single (.assigned hs'))) ?_
  intro fault s' hlost
  have hdenied := hlost.denies h
  exact ⟨.of_denies hdenied, .inserted (.single (.lost hdenied hlost))⟩

private theorem rehash_serves (h : s.table.Sound rules same) (size : Int) :
    (Op.rehash rules size).Serves rules same (.map (.rehash size)) s := by
  refine (rehash_outcome h.toWellFormed size).imp (fun _ s' hs' => .rehashed hs') ?_
  intro fault s' hlost
  rw [hlost.2]
  have hlacks : rules.LacksSlots (s.table.rehashCapacity size) fault := ⟨_, Nat.le_refl _, hlost.1⟩
  exact ⟨Or.inr (.memory hlacks), .renewed (Or.inr hlacks)⟩

private theorem update_serves (hr : rules.Respects same) (h : s.table.Sound rules same)
    (entries : List (Except ε (κ × ν))) :
    (Op.update rules entries).Serves rules same (.map (.update entries)) s := by
  refine (update_outcome hr entries h).imp (fun _ s' hs' => .inserted hs') ?_
  intro fault s' hlost
  refine ⟨?_, .inserted hlost.2⟩
  rcases hlost.1 with hdenied | ⟨cause, hmem, rfl⟩
  · exact .of_denies hdenied
  · exact Or.inr (.update hmem)

private theorem entriesOf_serves {request : TableRequest κ ν ε} {partner : Partner κ ν}
    {use : List (κ × ν) → Op κ ν ε α} (h : s.table.Sound rules same)
    (hunlisted : ∀ other fault, partner = .other other → other.listed = .error fault →
      Stops rules same s.table request fault)
    (huse : ∀ s' : Journal κ ν, s.table.Refloored s'.table → s'.table.Sound rules same →
      (use (partner.given ε s.table)).Outcome s'
        (fun _ s'' => Insertions rules same False s'.table s''.table)
        (fun fault s'' => Halts rules same s.table request fault ∧
          Insertions rules same (rules.Denies (request.mostSlots s.table) fault)
            s'.table s''.table)) :
    (entriesOf partner >>= use).Serves rules same request s := by
  apply (entriesOf_outcome h partner).bind
  · intro entries s' hs'
    obtain ⟨rfl, hfloor⟩ := hs'
    refine (huse s' hfloor (hfloor.sound h)).imp ?_ ?_
    · exact fun _ s'' hs'' => .inserted (.head (.refloored hfloor) hs'')
    · exact fun fault s'' hlost => ⟨hlost.1, .inserted (.head (.refloored hfloor) hlost.2)⟩
  · intro fault s' hlost
    obtain ⟨⟨other, hother, hlisted⟩, rfl⟩ := hlost
    exact ⟨Or.inr (hunlisted other fault hother hlisted), .inserted .refl⟩

private theorem updateFrom_serves (hr : rules.Respects same) (h : s.table.Sound rules same)
    (partner : Partner κ ν) :
    ((MapRequest.updateFrom partner).perform rules).Serves rules same
      (.map (.updateFrom partner)) s := by
  refine entriesOf_serves h (fun other fault hother hlisted => ?_) fun s' hfloor hs' => ?_
  · subst hother
    exact .updateFrom hlisted
  · refine (update_outcome hr ((partner.given ε s.table).map .ok) hs').bind
      (fun _ s'' hs'' => hs'') fun fault s'' hlost => ?_
    rw [List.length_map, hfloor.slotsFor_eq] at hlost
    refine ⟨?_, hlost.2⟩
    rcases hlost.1 with hdenied | ⟨cause, hmem, rfl⟩
    · exact .of_denies hdenied
    · simp at hmem

private theorem merge_serves (hr : rules.Respects same) (h : s.table.Sound rules same)
    (combine : Nat → ν → ν → Except ε ν) (serial : Nat) (partner : Partner κ ν) :
    ((TableRequest.merge combine serial partner).perform rules).Serves rules same
      (.merge combine serial partner) s := by
  refine entriesOf_serves h (fun other fault hother hlisted => ?_) fun s' hfloor hs' => ?_
  · subst hother
    exact .mergeFrom hlisted
  · refine (mergeWith_outcome hr combine (partner.given ε s.table) serial hs').imp
      (fun _ s'' hs'' => hs'') fun fault s'' hlost => ?_
    rw [hfloor.slotsFor_eq] at hlost
    refine ⟨?_, hlost.2⟩
    rcases hlost.1 with hdenied | ⟨n, old, new, cause, hcombine, rfl⟩
    · exact .of_denies hdenied
    · exact Or.inr (.merge hcombine)

omit [Inhabited κ] [Inhabited ν] in
private theorem length_serves (h : s.table.Sound rules same) :
    Gives (s.table.length : Except (Fault κ ε) Int) (fun _ => True)
      (Halts rules same s.table (.map .length)) := by
  have hcount := h.count_eq
  rw [Table.length, if_neg (by omega)]
  split
  · trivial
  · exact Or.inr (.length (by omega))

theorem MapRequest.perform_serves (hr : rules.Respects same) (h : s.table.Sound rules same)
    (request : MapRequest κ ν ε) :
    (request.perform rules).Serves rules same (.map request) s := by
  cases request with
  | set key value => exact (set_serves hr h key value).bind (fun _ _ hs' => hs') fun _ _ hl => hl
  | get key default => exact query_serves (refused_serves (h.get?_spec hr key))
  | getKey key default => exact query_serves (refused_serves (h.getKey?_spec hr key))
  | lookup key =>
      refine query_serves ((h.get_spec hr key).imp (fun _ _ => trivial) fun fault hlost => ?_)
      exact (halts_of_missing (p := False) .lookup ⟨hlost, rfl⟩).1
  | contains key => exact query_serves (refused_serves (h.contains_spec hr key))
  | delete key =>
      exact (delete_outcome hr h key).bind (fun _ _ ⟨_, he, _⟩ => he.effect _ _)
        fun _ _ hl => ⟨Or.inl hl.1, hl.2 ▸ .inserted .refl⟩
  | remove key =>
      exact (remove_outcome hr h key).bind (fun _ _ ⟨_, he⟩ => he.effect _ _)
        fun _ _ hl => halts_of_missing .remove hl
  | pop key default =>
      cases default with
      | none =>
          exact (pop_outcome hr h key).bind (fun _ _ ⟨_, he⟩ => he.effect _ _)
            fun _ _ hl => halts_of_missing .pop hl
      | some default =>
          exact (pop?_outcome hr h key).bind (fun _ _ ⟨_, he, _⟩ => he.effect _ _)
            fun _ _ hl => ⟨Or.inl hl.1, hl.2 ▸ .inserted .refl⟩
  | length => exact query_serves (length_serves h)
  | isEmpty => exact query_serves (f := fun t => .ok t.isEmpty) trivial
  | clear => exact Effect.cleared
  | free => exact Effect.freed
  | rehash size => exact (rehash_serves h size).bind (fun _ _ hs' => hs') fun _ _ hl => hl
  | update entries => exact (update_serves hr h entries).bind (fun _ _ hs' => hs') fun _ _ hl => hl
  | updateFrom partner => exact updateFrom_serves hr h partner
  | items =>
      exact (items_outcome h).bind (fun _ _ hs' => .inserted (.single (.refloored hs'.2)))
        fun _ _ hl => hl.elim

private theorem plan_serves (hr : rules.Respects same) (h : s.table.Sound rules same) (key : κ) :
    (Op.plan rules key).Serves rules same (.plan key) s := by
  refine (plan_outcome hr h key).imp ?_ ?_
  · intro plan s' hpost
    obtain ⟨hash, -, hs'⟩ := hpost
    exact .inserted (.single (.planned hs'))
  · intro fault s' hlost
    have hdenied := hlost.denies h
    exact ⟨.of_denies hdenied, .inserted (.single (.lost hdenied (.plan hlost)))⟩

private theorem deleteAt_serves (h : s.table.Sound rules same) (i : Nat) :
    (Op.deleteAt i : Op κ ν ε Unit).Serves rules same (.deleteAt i) s := by
  cases hf : (s.table.tagAt i).isFilled with
  | true =>
      exact (deleteAt_outcome h.fitted hf).imp (fun _ _ hs' => .deleted hf hs')
        fun _ _ hl => hl.elim
  | false =>
      exact (deleteAt_outcome_of_not_filled hf).imp (fun _ _ hl => hl.elim)
        fun _ _ hs' => ⟨Or.inr (.deleteAt hf), hs' ▸ .inserted .refl⟩

private theorem iterate_serves (h : s.table.Sound rules same) (start : Option Int) :
    (Op.iterate start : Op κ ν ε (Option (Step κ ν))).Serves rules same (.iterate start) s := by
  cases start with
  | none =>
      exact (iterate_none_outcome h).imp (fun _ _ hs' => .inserted (.single (.refloored hs'.2)))
        fun _ _ hl => hl.elim
  | some i =>
      refine (iterate_some_outcome h i).imp (fun _ _ hs' => hs' ▸ .inserted .refl) ?_
      intro fault s' hlost
      obtain ⟨hi, rfl, rfl⟩ := hlost
      exact ⟨Or.inr (.iterate hi), .inserted .refl⟩

theorem TableRequest.perform_serves (hr : rules.Respects same) (h : s.table.Sound rules same)
    (request : TableRequest κ ν ε) : (request.perform rules).Serves rules same request s := by
  cases request with
  | map request => exact (request.perform_serves hr h).bind (fun _ _ hs' => hs') fun _ _ hl => hl
  | plan key => exact (plan_serves hr h key).bind (fun _ _ hs' => hs') fun _ _ hl => hl
  | deleteAt i => exact deleteAt_serves h i
  | filledFromFloor =>
      exact (filledFromFloor?_outcome h).bind
        (fun _ _ hs' => .inserted (.single (.refloored hs'.2))) fun _ _ hl => hl.elim
  | iterate start => exact (iterate_serves h start).bind (fun _ _ hs' => hs') fun _ _ hl => hl
  | copy => exact Effect.copied
  | merge combine serial partner => exact merge_serves hr h combine serial partner

theorem TableRequest.onTable_halts (hr : rules.Respects same) (h : s.table.Sound rules same)
    (request : TableRequest κ ν ε) :
    Effect rules same
        (∃ fault, (request.onTable rules s).1 = .error fault ∧
          rules.Denies (request.mostSlots s.table) fault)
        s.table request (request.onTable rules s).2.table ∧
      ∀ fault, (request.onTable rules s).1 = .error fault →
        Halts rules same s.table request fault := by
  rcases (request.perform_serves hr h).carry with
    ⟨_, hok, heffect⟩ | ⟨fault, herror, hhalt, heffect⟩
  · refine ⟨heffect.mono False.elim, fun fault herror => ?_⟩
    rw [onTable, hok] at herror
    cases herror
  · refine ⟨heffect.mono fun hdenied => ⟨fault, herror, hdenied⟩, fun fault' herror' => ?_⟩
    rw [onTable, herror] at herror'
    cases herror'
    exact hhalt

theorem TableRequest.onTable_effect (hr : rules.Lawful same) (h : s.table.Sound rules same)
    (request : TableRequest κ ν ε) :
    Effect rules same (request.Starves rules s) s.table request (request.onTable rules s).2.table ∧
      ∀ fault, (request.onTable rules s).1 = .error fault →
        Stops rules same s.table request fault := by
  obtain ⟨heffect, hhalt⟩ := request.onTable_halts hr.toRespects h
  refine ⟨heffect.mono ?_, fun fault herror => (hhalt fault herror).resolve_left hr.not_refuses⟩
  intro hdenies
  obtain ⟨fault, herror, hdenied⟩ := hdenies
  exact ⟨fault, herror, hr.denies hdenied⟩

end Perform

end OpenAddressing
