import OpenAddressing.Proofs.Age

/-!
# Age as a witness of change

Along every run on a shelf of tables, whatever their rules, the age of a table never goes
back, and as long as it stays the same the storage and the counts stay the same. So whoever
remembers the age of a table can tell whether it has changed since.
-/

namespace OpenAddressing

variable {κ ν ε : Type}

open Errand Journal

namespace Volume

structure Fitted (v : Volume κ ν ε) : Prop where
  table : v.table.Fitted
  plan : ∀ key p, v.plan? = some (key, p) → p.Fits v.table

/-- What requests make of a table on the shelf. -/
structure Ages (v v' : Volume κ ν ε) : Prop where
  rules : v'.rules = v.rules
  table : v.table.Later v'.table

theorem ages_composes : Composes (Ages (κ := κ) (ν := ν) (ε := ε)) where
  refl _ := ⟨rfl, .refl _⟩
  trans h h' := ⟨h'.rules.trans h.rules, h.table.trans h'.table⟩

theorem fitted_renew {t : Table κ ν} (v : Volume κ ν ε) (h : t.Fitted) : (v.renew t).Fitted :=
  ⟨h, fun _ _ => absurd_of_none rfl⟩

theorem Fitted.alike {v : Volume κ ν ε} {t : Table κ ν} (h : v.Fitted) (ht : v.table.Alike t) :
    (v.withTable t).Fitted ∧ v.Ages (v.withTable t) := by
  refine ⟨⟨h.table.of_alike ht, fun key p hp => (h.plan key p hp).of_capacity_eq ?_⟩,
    rfl, ht.later⟩
  obtain ⟨low, rfl⟩ := ht
  rfl

end Volume

namespace Shelf

open Volume (Fitted Ages)

private theorem moves_of_onward {α : Type} {op : Rules κ ε → Op κ ν ε α}
    (h : ∀ rules s, s.table.Fitted →
      (op rules).Outcome s (fun _ s' => s.Onward s') (fun _ s' => s.Onward s')) :
    Moves Fitted Ages (fun _ => True) op := by
  intro v hv events
  refine (h v.rules ⟨v.table, events⟩ hv.table).imp ?_ ?_
  · exact fun _ j hj => ⟨Volume.fitted_renew v hj.fitted, rfl, hj.later⟩
  · exact fun _ j hj => ⟨trivial, Volume.fitted_renew v hj.fitted, rfl, hj.later⟩

variable [Inhabited κ] [Inhabited ν]

theorem fitted_new (hint : Int) : (Table.new hint : Table κ ν).Fitted :=
  Table.fitted_blank (Or.inr (isCapacity_capacityFor hint))

theorem Change.op_ages (change : Change κ ν ε) (rules : Rules κ ε) {s : Journal κ ν}
    (h : s.table.Fitted) :
    (change.op rules).Outcome s (fun _ s' => s.Onward s') (fun _ s' => s.Onward s') := by
  have hblank {size : Nat} (hsize : size = 0 ∨ IsCapacity size) : s.Onward
      ⟨{ (Table.blank size : Table κ ν) with age := s.table.age + 1 }, s.events⟩ :=
    onward_of_lt ((Table.fitted_blank hsize).of_sameSlots ⟨rfl, rfl, rfl⟩) (Int.lt_succ _)
  cases change with
  | set key value =>
      exact (Op.set_ages rules key value h).bind (fun _ _ hs => hs.onward) fun _ _ hs => hs
  | delete key =>
      exact (Op.delete_ages rules key h).bind (fun _ _ hs => hs.onward) fun _ _ hs => hs.onward
  | remove key =>
      exact (Op.remove_ages rules key h).bind (fun _ _ hs => hs.onward) fun _ _ hs => hs.onward
  | pop key default =>
      cases default with
      | none =>
          exact (Op.pop_ages rules key h).bind (fun _ _ hs => hs.onward) fun _ _ hs => hs.onward
      | some default =>
          exact (Op.pop?_ages rules key h).bind (fun _ _ hs => hs.onward) fun _ _ hs => hs.onward
  | clear => exact hblank h.capacity
  | free => exact hblank (Or.inl rfl)
  | rehash size =>
      refine (Op.rehash_ages rules size h).bind ?_ ?_
      · exact fun _ _ hs => onward_of_lt hs.1 (by omega)
      · exact fun _ _ hs => onward_of_lt hs.1 (by omega)
  | update entries =>
      exact (Op.update_ages rules entries h).bind (fun _ _ hs => hs.1) fun _ _ hs => hs
  | deleteAt i =>
      cases hf : (s.table.tagAt i).isFilled with
      | true =>
          refine (Op.deleteAt_ages h hf).bind ?_ fun _ _ hl => hl.elim
          exact fun _ _ hs => onward_of_lt hs.1 (by omega)
      | false =>
          exact (Op.deleteAt_outcome_of_not_filled hf).bind (fun _ _ hl => hl.elim)
            fun _ _ hs => onward_of_eq h hs

theorem governs_fitted (manner : Manner κ ν ε) : Governs manner Fitted Ages where
  toComposes := Volume.ages_composes
  new rules hint := ⟨fitted_new hint, fun _ _ => absurd_of_none rfl⟩
  copy {v} h := v.fitted_renew (h.table.of_sameSlots ⟨rfl, rfl, rfl⟩)
  survey {v} h survey events := (survey.op_alike manner).imp (fun _ _ hj => h.alike hj.table)
    fun _ _ hj => h.alike hj.table
  change c := moves_of_onward fun rules s => c.op_ages rules
  mergeWith combine serial entries := moves_of_onward fun rules s hs =>
    (Op.mergeWith_ages rules combine serial entries hs).imp (fun _ _ hj => hj.1) fun _ _ hj => hj
  plan {v} h key events := by
    refine (Op.plan_ages v.rules key h.table).imp ?_ ?_
    · intro p j hj
      refine ⟨⟨hj.1.fitted, fun k q hq => ?_⟩, rfl, hj.1.later⟩
      cases hq
      exact hj.2.1
    · exact fun _ j hj => ⟨v.fitted_renew hj.fitted, rfl, hj.later⟩
  insert {v} h key p hp value events := by
    refine (Op.insertAt_ages v.rules key value h.table (h.plan key p hp)).imp ?_ ?_
    · exact fun _ _ hj => ⟨v.fitted_renew hj.1, rfl, hj.onward.later⟩
    · exact fun _ _ hj => ⟨v.fitted_renew hj.fitted, rfl, hj.later⟩

theorem run_over (manner : Manner κ ν ε) (requests : List (Request κ ν ε)) {s : Shelf κ ν ε}
    (hs : ∀ v ∈ s.volumes, Fitted v) :
    Over Fitted Ages s (runAll (Request.onShelf manner) requests s).2 :=
  (governs_fitted manner).run_over requests hs

/-! ## What single requests charge -/

def table? (s : Shelf κ ν ε) (id : Nat) : Option (Table κ ν) := s.volumes[id]?.map (·.table)

omit [Inhabited κ] [Inhabited ν] in
theorem table?_set {s : Shelf κ ν ε} {id : Nat} {v v' : Volume κ ν ε}
    (hv : s.volumes[id]? = some v) (events : Array (Event κ)) :
    table? ⟨s.volumes.set id v', events⟩ id = some v'.table := by
  rw [table?, List.getElem?_set_self (List.getElem?_eq_some_iff.mp hv).1]
  rfl

/-- What requests to a table charge to its age: each key that is set, combined or taken away is one
change, new storage is one, also where there is no memory for it, and so is each rehash on the
way. -/
structure Charges (manner : Manner κ ν ε) (s : Shelf κ ν ε) (id : Nat) (v : Volume κ ν ε) :
    Prop where
  enter (request : Request κ ν ε) (answer : Answer κ ν ε)
    (hrequest : (∃ key value, request = .change id (.set key value)) ∨
      ∃ value, request = .insert id value) :
    let r := request.onShelf manner s
    r.1 = .ok answer → ∃ t', r.2.table? id = some t' ∧ v.table.age < t'.age ∧
      t'.age = v.table.age + 1 + (rehashes r.2.events - rehashes s.events)
  strike (key : κ) (change : Change κ ν ε)
    (hchange : change = .delete key ∨ change = .remove key ∨ ∃ default, change = .pop key default) :
    ∃ t', ((Request.change id change).onShelf manner s).2.table? id = some t' ∧
      ((∃ i, v.table.find? v.rules key = .ok (some i)) ∧ t'.age = v.table.age + 1 ∨
        (∀ i, v.table.find? v.rules key ≠ .ok (some i)) ∧ t' = v.table)
  renew (change : Change κ ν ε)
    (hchange : change = .clear ∨ change = .free ∨ ∃ size, change = .rehash size) :
    ∃ t', ((Request.change id change).onShelf manner s).2.table? id = some t' ∧
      t'.age = v.table.age + 1
  combine (combine : Nat → ν → ν → Except ε ν) (serial : Nat) (key : κ) (value : ν) {i : Nat}
    (hfind : v.table.find? v.rules key = .ok (some i)) :
    (Op.mergeWith v.rules combine serial [(key, value)]).Outcome ⟨v.table, s.events⟩
      (fun _ j => j.table.age = v.table.age + 1) (fun _ j => j.table = v.table)
  merge (combine : Nat → ν → ν → Except ε ν) (serial other : Nat) (w : Volume κ ν ε)
    (hw : s.volumes[other]? = some w) (entries : Array (κ × ν)) (j : Journal κ ν)
    (hentries : (Op.items : Op κ ν ε _) ⟨w.table, s.events⟩ = .ok entries j)
    (answer : Answer κ ν ε) :
    let r := (Request.mergeInto combine serial id other).onShelf manner s
    r.1 = .ok answer → ∃ t', r.2.table? id = some t' ∧
      v.table.age + entries.size ≤ t'.age

section Charges

variable {manner : Manner κ ν ε} {s : Shelf κ ν ε} {id : Nat} {v : Volume κ ν ε}

omit [Inhabited κ] [Inhabited ν] in
private theorem change_ends {α : Type} {op : Rules κ ε → Op κ ν ε α} (hv : s.volumes[id]? = some v)
    {post lost : Journal κ ν → Prop}
    (h : (op v.rules).Outcome ⟨v.table, s.events⟩ (fun _ j => post j) (fun _ j => lost j)) :
    (Errand.change id op).Ends s
      (fun _ s' => ∃ j, post j ∧ s'.table? id = some j.table ∧ s'.events = j.events)
      (fun _ s' => ∃ j, lost j ∧ s'.table? id = some j.table ∧ s'.events = j.events) :=
  (ends_tend hv).mpr (h.imp (fun _ j hj => ⟨j, hj, table?_set hv _, rfl⟩)
    fun _ j hj => ⟨j, hj, table?_set hv _, rfl⟩)

private theorem change_charge {change : Change κ ν ε} (hv : s.volumes[id]? = some v)
    {P : Journal κ ν → Prop}
    (h : (change.op v.rules).Outcome ⟨v.table, s.events⟩ (fun _ j => P j) (fun _ j => P j)) :
    ∃ j, P j ∧ ((Request.change id change).onShelf manner s).2.table? id = some j.table := by
  have hends : ((Request.change id change).perform manner).Ends s
      (fun _ s' => ∃ j, P j ∧ s'.table? id = some j.table)
      (fun _ s' => ∃ j, P j ∧ s'.table? id = some j.table) :=
    (change_ends hv h).imp (fun _ _ ⟨j, hj, htable, _⟩ => ⟨j, hj, htable⟩)
      fun _ _ ⟨j, hj, htable, _⟩ => ⟨j, hj, htable⟩
  exact hends.onShelf_state

private theorem enter_charge {request : Request κ ν ε} {answer : Answer κ ν ε}
    (h : (request.perform manner).Ends s (fun _ s' => ∃ j, Op.Ages ⟨v.table, s.events⟩ j ∧
      s'.table? id = some j.table ∧ s'.events = j.events) fun _ _ => True)
    (hok : (request.onShelf manner s).1 = .ok answer) :
    ∃ t', (request.onShelf manner s).2.table? id = some t' ∧ v.table.age < t'.age ∧
      t'.age = v.table.age + 1 + (rehashes (request.onShelf manner s).2.events -
        rehashes s.events) := by
  obtain ⟨j, ⟨-, hlt, hedits⟩, htable, hevents⟩ := h.onShelf_ok hok
  refine ⟨j.table, htable, hlt, ?_⟩
  rw [hevents]
  simp only [edits] at hedits
  omega

private theorem merge_charge {combine : Nat → ν → ν → Except ε ν} {serial other : Nat}
    {w : Volume κ ν ε} {entries : Array (κ × ν)} {j : Journal κ ν} (hv : s.volumes[id]? = some v)
    (h : Fitted v) (hw : s.volumes[other]? = some w)
    (hentries : (Op.items : Op κ ν ε _) ⟨w.table, s.events⟩ = .ok entries j) :
    ((Request.mergeInto combine serial id other).perform manner).Ends s
      (fun _ s' => ∃ t', s'.table? id = some t' ∧ v.table.age + entries.size ≤ t'.age)
      fun _ _ => True := by
  have halike : Journal.Alike ⟨w.table, s.events⟩ j := by
    have hitems := Op.items_alike (ε := ε) (s := ⟨w.table, s.events⟩)
    unfold Op.Outcome at hitems
    rwa [hentries] at hitems
  -- The visit raises the floor of the second table, which may be the first one.
  have hvisited : ∃ u, (s.volumes.set other (w.withTable j.table))[id]? = some u ∧
      u.table.Fitted ∧ u.table.age = v.table.age := by
    by_cases heq : other = id
    · subst heq
      obtain rfl := Option.some.inj (hw.symm.trans hv)
      obtain ⟨low, hlow⟩ := halike.table
      refine ⟨_, List.getElem?_set_self (List.getElem?_eq_some_iff.mp hv).1,
        (h.alike halike.table).1.table, ?_⟩
      rw [Volume.withTable, hlow]
    · exact ⟨v, (List.getElem?_set_ne heq).trans hv, h.table, rfl⟩
  obtain ⟨u, hu, hfit, hage⟩ := hvisited
  rw [Request.perform, ends_bind, entriesOf, ends_bind, onTable, ends_tend hw]
  unfold Op.Outcome
  rw [hentries]
  dsimp only
  rw [ends_pure, ends_bind, Errand.change, ends_tend hu]
  refine (Op.mergeWith_ages u.rules combine serial entries.toList hfit).imp ?_ fun _ _ _ => trivial
  intro _ j' hj'
  refine ⟨j'.table, table?_set hu _, ?_⟩
  have := hj'.2
  rw [hage, Array.length_toList] at this
  exact this

theorem charges_of_fitted (hv : s.volumes[id]? = some v) (h : Fitted v) :
    Charges manner s id v where
  enter request answer hrequest := by
    intro r hok
    refine enter_charge (v := v) ?_ hok
    obtain ⟨key, value, rfl⟩ | ⟨value, rfl⟩ := hrequest
    · have hop : ((Change.set key value).op v.rules).Outcome ⟨v.table, s.events⟩
          (fun _ j => Op.Ages ⟨v.table, s.events⟩ j) fun _ _ => True :=
        (Op.set_ages v.rules key value h.table).bind (fun _ _ hs => hs) fun _ _ _ => trivial
      exact (change_ends hv hop).imp (fun _ _ hs => hs) fun _ _ _ => trivial
    · rw [Request.perform, ends_bind, ends_volume, hv]
      dsimp only
      cases hp : v.plan? with
      | none => trivial
      | some planned =>
          have hop : (Op.insertAt v.rules planned.1 value planned.2).Outcome ⟨v.table, s.events⟩
              (fun _ j => Op.Ages ⟨v.table, s.events⟩ j) fun _ _ => True :=
            (Op.insertAt_ages v.rules planned.1 value h.table (h.plan _ _ hp)).imp
              (fun _ _ hs => hs) fun _ _ _ => trivial
          rw [ends_bind]
          exact (change_ends hv hop).imp (fun _ _ hs => hs) fun _ _ _ => trivial
  strike key change hchange := by
    have hop : (change.op v.rules).Outcome ⟨v.table, s.events⟩
        (fun _ j => Op.Strikes v.rules key ⟨v.table, s.events⟩ j)
        (fun _ j => Op.Strikes v.rules key ⟨v.table, s.events⟩ j) := by
      obtain rfl | rfl | ⟨default, rfl⟩ := hchange
      · exact (Op.delete_ages v.rules key h.table).bind (fun _ _ hs => hs) fun _ _ hs => hs
      · exact (Op.remove_ages v.rules key h.table).bind (fun _ _ hs => hs) fun _ _ hs => hs
      · cases default with
        | none => exact (Op.pop_ages v.rules key h.table).bind (fun _ _ hs => hs) fun _ _ hs => hs
        | some default =>
            exact (Op.pop?_ages v.rules key h.table).bind (fun _ _ hs => hs) fun _ _ hs => hs
    obtain ⟨j, hj, htable⟩ := change_charge hv hop
    refine ⟨j.table, htable, ?_⟩
    obtain ⟨-, hhit | ⟨hmiss, rfl⟩⟩ := hj
    · exact Or.inl hhit
    · exact Or.inr ⟨hmiss, rfl⟩
  renew change hchange := by
    have hop : (change.op v.rules).Outcome ⟨v.table, s.events⟩
        (fun _ j => j.table.age = v.table.age + 1) (fun _ j => j.table.age = v.table.age + 1) := by
      obtain rfl | rfl | ⟨size, rfl⟩ := hchange
      · rfl
      · rfl
      · exact (Op.rehash_ages v.rules size h.table).bind (fun _ _ hs => hs.2.1) fun _ _ hs => hs.2
    obtain ⟨j, hj, htable⟩ := change_charge hv hop
    exact ⟨j.table, htable, hj⟩
  combine combine serial key value i hfind :=
    (Op.mergeWith_single_ages v.rules combine serial (key, value) h.table hfind).imp
      (fun _ _ hj => hj.2) fun _ _ hj => by rw [hj]
  merge combine serial other w hw entries j hentries answer :=
    (merge_charge hv h hw hentries).onShelf_ok

end Charges

/-- The age of a table never goes back, and between two points of a run at which it is the same
nothing about the storage and the counts has changed. Every change is charged to it, a rehash on
the way separately, and observations change nothing but floors. -/
theorem age_witnesses_change (manner : Manner κ ν ε) (requests : List (Request κ ν ε)) :
    let s := reached manner requests
    (∀ (later : List (Request κ ν ε)) (id : Nat) (t : Table κ ν), s.table? id = some t →
      ∃ t', (runAll (Request.onShelf manner) later s).2.table? id = some t' ∧ t.age ≤ t'.age ∧
        (t'.age = t.age → t'.tags = t.tags ∧ t'.keys = t.keys ∧ t'.vals = t.vals ∧
          t'.count = t.count ∧ t'.dead = t.dead)) ∧
    (∀ (id : Nat) (v : Volume κ ν ε), s.volumes[id]? = some v → Charges manner s id v) ∧
    ∀ observation, s.Alike ((Request.observe observation).onShelf manner s).2 := by
  intro s
  have hs : ∀ v ∈ s.volumes, Fitted v :=
    (run_over manner requests fun _ hv => absurd hv List.not_mem_nil).all
  refine ⟨fun later id t ht => ?_, fun id v hv => ?_, fun observation => ?_⟩
  · obtain ⟨v, hv, rfl⟩ := Option.map_eq_some_iff.mp ht
    obtain ⟨v', hv', hages⟩ := (run_over manner later hs).step id v hv
    refine ⟨v'.table, by rw [table?, hv']; rfl, hages.table.age_le, fun heq => ?_⟩
    have hsame := hages.table.unaltered heq
    exact ⟨hsame.tags, hsame.keys, hsame.vals, hsame.count_eq, hsame.dead_eq⟩
  · exact charges_of_fitted hv (hs v (List.mem_of_getElem? hv))
  · have hends : ((Request.observe observation).perform manner).Ends s (fun _ s' => s.Alike s')
        (fun _ s' => s.Alike s') := observation.harmless manner s
    exact hends.onShelf_state

end Shelf

end OpenAddressing
