import OpenAddressing.Proofs.Encoding
import OpenAddressing.Proofs.Invariant
import OpenAddressing.Proofs.Observation

/-!
# Faults of lawful tables

In tables whose rules are lawful, a request stops for reasons that a caller can see: a key
that has to be there is not, there is no memory, or a key or value cannot be written. The
checks that a table makes of itself never fail.
-/

namespace OpenAddressing

variable {κ ν ε : Type} {rules : Rules κ ε} {same : Setoid κ} {manner : Manner κ ν ε}

/-! ## Listings -/

namespace Table

variable {t : Table κ ν} {i : Nat}

def Unwritable (manner : Manner κ ν ε) (t : Table κ ν) (fault : Fault κ ε) : Prop :=
  ∃ k v cause, t.Has k v ∧ (manner.key k = .error cause ∨ manner.value v = .error cause) ∧
    fault = .refused cause

private theorem Arranged.stateName_isSome (h : t.Arranged rules same) (i : Nat) :
    ∃ state, stateName? (t.tagAt i).code = some state := by
  rcases h.tags i with htag | htag | hf
  · exact ⟨"EMPTY", by rw [htag]; rfl⟩
  · exact ⟨"TOMBSTONE", by rw [htag]; rfl⟩
  · exact ⟨"FILLED", Tag.stateName_of_isFilled hf⟩

private theorem Arranged.slotText_spec (h : t.Arranged rules same) (manner : Manner κ ν ε)
    (hi : i < t.capacity) :
    Gives (t.slotText manner.key manner.value i) (fun _ => True) (t.Unwritable manner) := by
  obtain ⟨state, hstate⟩ := h.stateName_isSome i
  rw [slotText, gives_bind, Op.tag_natCast hi, gives_ok, hstate]
  dsimp only
  split
  · next hf =>
    obtain ⟨k, v, hk⟩ := h.exists_holds hf
    rw [key_eq hk.key, gives_bind, gives_ok, val_eq hk.val, gives_bind, gives_ok, gives_bind]
    cases hkey : manner.key k with
    | error cause => exact ⟨k, v, cause, ⟨i, hk⟩, Or.inl hkey, rfl⟩
    | ok text =>
        rw [Except.mapError, gives_ok, gives_bind]
        cases hvalue : manner.value v with
        | error cause => exact ⟨k, v, cause, ⟨i, hk⟩, Or.inr hvalue, rfl⟩
        | ok text => trivial
  · trivial

theorem Arranged.dump_fault (h : t.Arranged rules same) (name : String) {fault : Fault κ ε}
    (hfault : (t.dump manner.key manner.value name).fault = some fault) :
    t.Unwritable manner fault := by
  have hslots (n i : Nat) (hn : i + n ≤ t.capacity) (text : String)
      (hfault : (t.dumpSlots manner.key manner.value n i text).fault = some fault) :
      t.Unwritable manner fault := by
    induction n generalizing i text with
    | zero => cases hfault
    | succ n ih =>
        have hslot := h.slotText_spec manner (show i < t.capacity by omega)
        rw [dumpSlots, dumpSlot] at hfault
        cases hline : t.slotText manner.key manner.value i with
        | ok line =>
            rw [hline] at hfault
            exact ih (i + 1) (by omega) _ hfault
        | error fault' =>
            rw [hline] at hfault hslot
            cases hfault
            exact hslot
  exact hslots t.capacity 0 (by omega) _ hfault

end Table

/-- The faults of checks that tables make of indices, of their storage and of their counts. -/
def Fault.isInternal : Fault κ ε → Bool
  | .refused _ | .missing _ | .wideLength | .noMemory => false
  | _ => true

def Table.Without (rules : Rules κ ε) (t : Table κ ν) (key : κ) : Prop :=
  ∀ k v, t.Has k v → rules.equal key k = .ok false

theorem Table.Lacks.without {t : Table κ ν} {key : κ} (h : t.Lacks same key)
    (hr : rules.Lawful same) : t.Without rules key := by
  intro k v hk
  obtain ⟨i, hi⟩ := hk
  obtain ⟨r, heq⟩ := hr.equal_total key k
  cases r with
  | false => exact heq
  | true => exact absurd ((hr.equal_iff heq).mp rfl) (h hi)

theorem Table.Sound.copy {t : Table κ ν} (h : t.Sound rules same) : t.copy.Sound rules same :=
  ⟨h.toWellFormed.congr ⟨rfl, rfl, rfl⟩ rfl rfl (fun _ _ hle => hle) (Int.le_refl _),
    h.maxProbe_nonneg, h.floor_nonneg⟩

theorem Table.WellFormed.agrees_total {t : Table κ ν} (h : t.WellFormed rules same)
    (hr : rules.Lawful same) (differ : ν → ν → Bool) (entries : List (κ × ν)) :
    Gives (t.agrees rules differ entries) (fun _ => True) fun _ => False := by
  induction entries with
  | nil => trivial
  | cons entry rest ih =>
      rw [agrees, gives_bind]
      refine (h.get?_spec hr.toRespects entry.1).imp ?_ fun _ href => hr.not_refuses href
      intro found _
      cases found with
      | none => trivial
      | some other =>
          dsimp only
          split
          · trivial
          · exact ih

/-! ## What requests may stop at -/

namespace Shelf

def Request.Lawful : Request κ ν ε → Prop
  | .create rules _ | .build rules _ => ∃ same, rules.Lawful same
  | _ => True

/-- Visits that start at a given index may start before the first slot. -/
def Question.Proper : Question κ ν → Prop
  | .filledFrom _ | .stepFrom _ => False
  | _ => True

def Change.Proper : Change κ ν ε → Prop
  | .update entries => ∀ cause, .error cause ∉ entries
  | .deleteAt _ => False
  | _ => True

/-- The request leaves indices to the table, and what it brings along never refuses. -/
def Request.Proper : Request κ ν ε → Prop
  | .observe (.ask _ question) => question.Proper
  | .change _ c => c.Proper
  | .build _ entries => ∀ cause, .error cause ∉ entries
  | .mergeWith combine _ _ _ | .mergeInto combine _ _ _ =>
    ∀ serial old new, ∃ value, combine serial old new = .ok value
  | _ => True

def Request.demanded? : Request κ ν ε → Option (Nat × κ)
  | .observe (.ask id (.lookup key)) | .change id (.remove key) | .change id (.pop key none) =>
    some (id, key)
  | _ => none

def Rule (s : Shelf κ ν ε) : Request κ ν ε → Rules κ ε → Prop
  | .create rules _, rules' | .build rules _, rules' => rules' = rules
  | .observe _, _ => False
  | .change id _, rules' | .plan id _, rules' | .insert id _, rules' | .copy id, rules'
  | .updateFrom id _, rules' | .merge id _, rules' | .mergeWith _ _ id _, rules'
  | .mergeInto _ _ id _, rules' => ∃ v, s.volumes[id]? = some v ∧ v.rules = rules'

def measure (s : Shelf κ ν ε) (id : Nat) (f : Table κ ν → Nat) : Nat :=
  (s.volumes[id]?).elim 0 fun v => f v.table

theorem measure_eq {s : Shelf κ ν ε} {id : Nat} {v : Volume κ ν ε} (hv : s.volumes[id]? = some v)
    (f : Table κ ν → Nat) : s.measure id f = f v.table := by
  rw [measure, hv]
  rfl

def Change.slots (c : Change κ ν ε) (t : Table κ ν) : Nat :=
  match c with
  | .set _ _ => t.slotsFor 1
  | .rehash size => t.rehashCapacity size
  | .update entries => t.slotsFor entries.length
  | .clear => t.capacity
  | _ => 0

/-- The most slots that a request comes to ask for. -/
def Request.slots [Inhabited κ] [Inhabited ν] (s : Shelf κ ν ε) : Request κ ν ε → Nat
  | .observe _ => 0
  | .create _ hint => capacityFor hint
  | .build _ entries => (Table.new 0 : Table κ ν).slotsFor entries.length
  | .change id c => s.measure id c.slots
  | .plan id _ => s.measure id (·.slotsFor 0)
  | .insert id _ => s.measure id (·.slotsFor 1)
  | .copy id => s.measure id (·.capacity)
  | .updateFrom id other | .mergeWith _ _ id other | .mergeInto _ _ id other =>
    s.measure id (·.slotsFor (s.measure other (·.entries.length)))
  | .merge id other => (Table.new 0 : Table κ ν).slotsFor
      (s.measure id (·.entries.length) + s.measure other (·.entries.length))

def Request.counted? : Request κ ν ε → Option Nat
  | .observe (.ask id .length) | .observe (.survey id .list) => some id
  | _ => none

def Request.written? : Request κ ν ε → Option Nat
  | .observe (.ask id (.dump _)) | .observe (.survey id .render) => some id
  | _ => none

/-- The faults that lie with the request, the memory or the entries, and not with a table. -/
inductive Expected [Inhabited κ] [Inhabited ν] (manner : Manner κ ν ε) (s : Shelf κ ν ε)
    (request : Request κ ν ε) : Fault κ ε → Prop where
  | missing {id : Nat} {key : κ} {v : Volume κ ν ε} (hkey : request.demanded? = some (id, key))
      (hv : s.volumes[id]? = some v) (habsent : v.table.Without v.rules key) :
      Expected manner s request (.missing key)
  | room {rules : Rules κ ε} {fault : Fault κ ε} (hrules : s.Rule request rules)
      (hroom : rules.LacksSlots (request.slots s) fault) : Expected manner s request fault
  | length {id : Nat} {v : Volume κ ν ε} (hid : request.counted? = some id)
      (hv : s.volumes[id]? = some v) (hcount : 0x8000000000000000 ≤ v.table.count) :
      Expected manner s request .wideLength
  | list {id limit : Nat} {v : Volume κ ν ε} (hid : request = .observe (.survey id .list))
      (hv : s.volumes[id]? = some v) (hlimit : manner.listLimit = some limit)
      (hcount : limit < v.table.count) : Expected manner s request .noMemory
  | writing {id : Nat} {v : Volume κ ν ε} {fault : Fault κ ε} (hid : request.written? = some id)
      (hv : s.volumes[id]? = some v) (h : v.table.Unwritable manner fault) :
      Expected manner s request fault

variable [Inhabited κ] [Inhabited ν]

omit [Inhabited κ] [Inhabited ν] in
theorem isInternal_of_lacksRoom {fault : Fault κ ε} (h : rules.LacksRoom fault) :
    fault.isInternal = false := by
  obtain ⟨size, h⟩ := h
  rcases Rules.demandRoom_error h with rfl | rfl
  · rfl
  · rfl

theorem Expected.isInternal {s : Shelf κ ν ε} {request : Request κ ν ε} {fault : Fault κ ε}
    (h : s.Expected manner request fault) : fault.isInternal = false := by
  cases h with
  | missing => rfl
  | room _ hroom => exact isInternal_of_lacksRoom hroom.lacksRoom
  | length => rfl
  | list => rfl
  | writing _ _ h =>
      obtain ⟨k, v, cause, -, -, rfl⟩ := h
      rfl

end Shelf

/-! ## Single tables -/

namespace Shelf

variable [Inhabited κ] [Inhabited ν] {s : Shelf κ ν ε} {id : Nat} {v : Volume κ ν ε}

theorem Question.answer_faults (manner : Manner κ ν ε) (hv : s.volumes[id]? = some v)
    (hr : v.rules.Lawful same) (h : v.table.Sound v.rules same) (question : Question κ ν) :
    Gives (question.answer manner v.rules v.table)
      (fun a => ∀ f, a.fault? = some f → s.Expected manner (.observe (.ask id question)) f)
      (fun f => question.Proper → s.Expected manner (.observe (.ask id question)) f) := by
  have hrefuse {P : Fault κ ε → Prop} (fault : Fault κ ε) (href : v.rules.Refuses fault) :
      P fault := absurd href hr.not_refuses
  cases question with
  | get key default =>
      rw [answer, gives_bind]
      exact (h.get?_spec hr.toRespects key).imp (fun _ _ _ => absurd_of_none rfl) hrefuse
  | getKey key default =>
      rw [answer, gives_bind]
      exact (h.getKey?_spec hr.toRespects key).imp (fun _ _ _ => absurd_of_none rfl) hrefuse
  | lookup key =>
      rw [answer, gives_bind]
      refine (h.get_spec hr.toRespects key).imp (fun _ _ _ => absurd_of_none rfl) ?_
      intro fault hlost _
      rcases hlost with href | ⟨hlacks, rfl⟩
      · exact hrefuse fault href
      · exact .missing rfl hv (Table.Lacks.without hlacks hr)
  | contains key =>
      rw [answer, gives_bind]
      exact (h.contains_spec hr.toRespects key).imp (fun _ _ _ => absurd_of_none rfl) hrefuse
  | findIndex key =>
      rw [answer, gives_bind]
      exact (h.find?_found hr.toRespects key).imp (fun _ _ _ => absurd_of_none rfl) hrefuse
  | length =>
      have hcount := h.count_eq
      rw [answer, gives_bind, Table.length, if_neg (by omega)]
      split
      · exact fun _ => absurd_of_none rfl
      · exact fun _ => .length rfl hv (by omega)
  | isEmpty => exact fun _ => absurd_of_none rfl
  | filledFrom index =>
      rw [answer, gives_bind]
      cases (v.table.filledFrom? index : Except (Fault κ ε) (Option Int)) with
      | ok found => exact fun _ => absurd_of_none rfl
      | error fault => exact False.elim
  | stepFrom index =>
      rw [answer, gives_bind]
      cases (v.table.stepFrom index : Except (Fault κ ε) _) with
      | ok step => exact fun _ => absurd_of_none rfl
      | error fault => exact False.elim
  | audit =>
      rw [answer, gives_bind, (Table.audit_eq_ok_iff hr).mpr h.toWellFormed]
      exact fun _ => absurd_of_none rfl
  | dump name => exact fun f hf => .writing rfl hv (h.dump_fault name hf)

omit [Inhabited κ] [Inhabited ν] in
private theorem items_answer {j : Journal κ ν} (h : j.table.Sound rules same)
    {lost : Fault κ ε → Prop} (answer : Array (κ × ν) → Answer κ ν ε)
    (hanswer : ∀ entries, (answer entries).fault? = none) :
    (do return answer (← Op.items) : Op κ ν ε (Answer κ ν ε)).Outcome j
      (fun a j' => a.fault? = none ∧ j.table.Refloored j'.table)
      (fun f j' => lost f ∧ j.table.Refloored j'.table) :=
  (Op.items_outcome h).bind (fun entries _ hj => ⟨hanswer entries, hj.2⟩) fun _ _ hl => hl.elim

omit [Inhabited κ] [Inhabited ν] in
private theorem entryText_faults {entry : κ × ν} {cause : ε}
    (h : entryText manner entry = .error cause) :
    manner.key entry.1 = .error cause ∨ manner.value entry.2 = .error cause := by
  rw [entryText] at h
  cases hkey : manner.key entry.1 with
  | error cause' =>
      rw [hkey] at h
      exact Or.inl h
  | ok text =>
      cases hvalue : manner.value entry.2 with
      | error cause' =>
          rw [hkey, hvalue] at h
          exact Or.inr h
      | ok text' =>
          rw [hkey, hvalue] at h
          cases h

omit [Inhabited κ] [Inhabited ν] in
private theorem mapM_entryText_faults {entries : List (κ × ν)} {cause : ε}
    (h : entries.mapM (entryText manner) = .error cause) :
    ∃ entry ∈ entries, manner.key entry.1 = .error cause ∨ manner.value entry.2 = .error cause := by
  induction entries with
  | nil => cases h
  | cons entry rest ih =>
      rw [List.mapM_cons] at h
      cases hentry : entryText manner entry with
      | error cause' =>
          rw [hentry] at h
          obtain rfl : cause' = cause := Except.error.inj h
          exact ⟨entry, List.mem_cons_self, entryText_faults hentry⟩
      | ok text =>
          rw [hentry] at h
          cases hrest : rest.mapM (entryText manner) with
          | error cause' =>
              rw [hrest] at h
              obtain rfl : cause' = cause := Except.error.inj h
              obtain ⟨entry', hmem, hfault⟩ := ih hrest
              exact ⟨entry', List.mem_cons_of_mem _ hmem, hfault⟩
          | ok texts =>
              rw [hrest] at h
              cases h

omit [Inhabited κ] [Inhabited ν] in
private theorem entriesText_faults {entries : List (κ × ν)} {cause : ε}
    (h : entriesText manner entries = .error cause) :
    ∃ entry ∈ entries, manner.key entry.1 = .error cause ∨ manner.value entry.2 = .error cause := by
  rw [entriesText] at h
  cases hmap : entries.mapM (entryText manner) with
  | error cause' =>
      rw [hmap] at h
      obtain rfl : cause' = cause := Except.error.inj h
      exact mapM_entryText_faults hmap
  | ok texts =>
      rw [hmap] at h
      cases h

theorem Survey.op_faults (manner : Manner κ ν ε) (hv : s.volumes[id]? = some v)
    (h : v.table.Sound v.rules same) (survey : Survey) {j : Journal κ ν} (hj : j.table = v.table) :
    (survey.op manner).Outcome j
      (fun a j' => a.fault? = none ∧ v.table.Refloored j'.table)
      (fun f j' => s.Expected manner (.observe (.survey id survey)) f ∧
        v.table.Refloored j'.table) := by
  rw [← hj] at h ⊢
  cases survey with
  | filledFromFloor =>
      exact (Op.filledFromFloor?_outcome h).bind (fun _ _ hj => ⟨rfl, hj.2⟩) fun _ _ hl => hl.elim
  | firstStep =>
      exact (Op.iterate_none_outcome h).bind (fun _ _ hj => ⟨rfl, hj.2⟩) fun _ _ hl => hl.elim
  | items => exact items_answer h _ fun _ => rfl
  | keys => exact items_answer h _ fun _ => rfl
  | values => exact items_answer h _ fun _ => rfl
  | list =>
      have hcount := h.count_eq
      rw [op, Op.outcome_bind, Op.outcome_query, Table.length, if_neg (by omega)]
      split
      · rw [gives_ok, Op.outcome_bind, Op.outcome_query]
        cases hlist : demandList manner j.table.count with
        | ok => exact items_answer h _ fun _ => rfl
        | error fault =>
            obtain ⟨rfl, limit, hlimit, hlong⟩ := demandList_faults hlist
            exact ⟨.list rfl hv hlimit (hj ▸ hlong), h.refloored⟩
      · exact ⟨.length rfl hv (by rw [← hj]; omega), h.refloored⟩
  | render =>
      refine (Op.items_outcome h).bind (fun entries j' hj' => ?_) fun _ _ hl => hl.elim
      rw [Op.outcome_bind, Op.outcome_query]
      cases htext : entriesText manner entries.toList with
      | ok text => exact ⟨rfl, hj'.2⟩
      | error cause =>
          obtain ⟨entry, hmem, hentry⟩ := entriesText_faults htext
          rw [hj'.1] at hmem
          have hhas : v.table.Has entry.1 entry.2 := hj ▸ Table.mem_entries.mp hmem
          exact ⟨.writing rfl hv ⟨_, _, cause, hhas, hentry, rfl⟩, hj'.2⟩

private theorem removed_sound {t t' : Table κ ν} {key : κ} {e : Option (κ × ν)}
    (h : t.Removed same key t' e) (ht : t.Sound rules same) : t'.Sound rules same := by
  cases e with
  | none => exact h.2 ▸ ht
  | some e =>
      obtain ⟨i, hi, -, hdel⟩ := h
      exact hdel.sound ht hi.filled

theorem update_sound (hr : rules.Lawful same) {j : Journal κ ν} (h : j.table.Sound rules same)
    (entries : List (Except ε (κ × ν))) :
    (Op.update rules entries).Outcome j (fun _ j' => j'.table.Sound rules same)
      (fun f j' => ((∀ cause, .error cause ∉ entries) →
        rules.LacksSlots (j.table.slotsFor entries.length) f) ∧ j'.table.Sound rules same) := by
  refine (Op.update_outcome hr.toRespects entries h).imp (fun _ _ hj => hj.sound h) ?_
  intro f j' hlost
  obtain ⟨hfault, hj'⟩ := hlost
  refine ⟨fun hproper => ?_, hj'.sound h⟩
  rcases hfault with hdenied | ⟨cause, hmem, -⟩
  · exact hr.denies hdenied
  · exact absurd hmem (hproper cause)

theorem mergeWith_sound (hr : rules.Lawful same) {j : Journal κ ν} (h : j.table.Sound rules same)
    (combine : Nat → ν → ν → Except ε ν) (serial : Nat) (entries : List (κ × ν)) :
    (Op.mergeWith rules combine serial entries).Outcome j (fun _ j' => j'.table.Sound rules same)
      (fun f j' => ((∀ serial old new, ∃ value, combine serial old new = .ok value) →
        rules.LacksSlots (j.table.slotsFor entries.length) f) ∧ j'.table.Sound rules same) := by
  refine (Op.mergeWith_outcome hr.toRespects combine entries serial h).imp
    (fun _ _ hj => hj.sound h) ?_
  intro f j' hlost
  obtain ⟨hfault, hj'⟩ := hlost
  refine ⟨fun htotal => ?_, hj'.sound h⟩
  rcases hfault with hdenied | ⟨n, old, new, cause, hcombine, -⟩
  · exact hr.denies hdenied
  · obtain ⟨value, hvalue⟩ := htotal n old new
    rw [hvalue] at hcombine
    cases hcombine

theorem Change.op_faults (manner : Manner κ ν ε) (hv : s.volumes[id]? = some v)
    (hr : v.rules.Lawful same) (h : v.table.Sound v.rules same) (c : Change κ ν ε)
    {j : Journal κ ν} (hj : j.table = v.table) :
    (c.op v.rules).Outcome j (fun a j' => a.fault? = none ∧ j'.table.Sound v.rules same)
      (fun f j' => (c.Proper → s.Expected manner (.change id c) f) ∧
        j'.table.Sound v.rules same) := by
  have hroom {fault : Fault κ ε} (hlacks : v.rules.LacksSlots (c.slots j.table) fault) :
      s.Expected manner (.change id c) fault := by
    rw [hj, ← measure_eq hv c.slots] at hlacks
    exact .room ⟨v, hv, rfl⟩ hlacks
  have hrefuse {P : Prop} {fault : Fault κ ε} (href : v.rules.Refuses fault) : P :=
    absurd href hr.not_refuses
  have hmissing {key : κ} {fault : Fault κ ε}
      (hkey : (Request.change id c).demanded? = some (id, key))
      (hlost : v.rules.Refuses fault ∨ j.table.Found same key none ∧ fault = .missing key) :
      s.Expected manner (.change id c) fault := by
    rcases hlost with href | ⟨hlacks, rfl⟩
    · exact hrefuse href
    · rw [hj] at hlacks
      exact .missing hkey hv (Table.Lacks.without hlacks hr)
  rw [← hj] at h
  cases c with
  | set key value =>
      refine (Op.set_outcome hr.toRespects h key value).bind
        (fun _ _ hj' => ⟨rfl, hj'.sound h⟩) fun f j' hlost => ⟨fun _ => ?_, hlost.sound h⟩
      exact hroom (hr.denies (hlost.denies h))
  | delete key =>
      refine (Op.delete_outcome hr.toRespects h key).bind ?_ fun _ _ hl => hrefuse hl.1
      intro deleted j' hj'
      obtain ⟨e, he, -⟩ := hj'
      exact ⟨rfl, removed_sound he h⟩
  | remove key =>
      refine (Op.remove_outcome hr.toRespects h key).bind ?_ fun _ _ hl => ?_
      · intro _ j' hj'
        obtain ⟨e, he⟩ := hj'
        exact ⟨rfl, removed_sound he h⟩
      · exact ⟨fun _ => hmissing rfl hl.1, hl.2 ▸ h⟩
  | pop key default =>
      cases default with
      | none =>
          refine (Op.pop_outcome hr.toRespects h key).bind ?_ fun _ _ hl => ?_
          · intro _ j' hj'
            obtain ⟨k, he⟩ := hj'
            exact ⟨rfl, removed_sound he h⟩
          · exact ⟨fun _ => hmissing rfl hl.1, hl.2 ▸ h⟩
      | some default =>
          refine (Op.pop?_outcome hr.toRespects h key).bind ?_ fun _ _ hl => hrefuse hl.1
          intro _ j' hj'
          obtain ⟨e, he, -⟩ := hj'
          exact ⟨rfl, removed_sound he h⟩
  | clear => exact ⟨rfl, Table.sound_blank_age h.capacity _⟩
  | free => exact ⟨rfl, Table.sound_blank_age (Or.inl rfl) _⟩
  | rehash size =>
      refine (Op.rehash_outcome h.toWellFormed size).bind (fun _ _ hj' => ⟨rfl, hj'.toSound⟩) ?_
      intro f j' hlost
      obtain ⟨hlacks, hj'⟩ := hlost
      exact ⟨fun _ => hroom ⟨_, Nat.le_refl _, hlacks⟩, hj' ▸ h.renewed⟩
  | update entries =>
      refine (update_sound hr h entries).bind (fun _ _ hj' => ⟨rfl, hj'⟩) ?_
      intro f j' hlost
      exact ⟨fun hproper => hroom (hlost.1 hproper), hlost.2⟩
  | deleteAt i =>
      cases hf : (j.table.tagAt i).isFilled with
      | true =>
          exact (Op.deleteAt_outcome h.fitted hf).bind (fun _ _ hj' => ⟨rfl, hj'.sound h hf⟩)
            fun _ _ hl => hl.elim
      | false =>
          exact (Op.deleteAt_outcome_of_not_filled hf).bind (fun _ _ hl => hl.elim)
            fun _ _ hj' => ⟨False.elim, hj' ▸ h⟩

end Shelf

end OpenAddressing
