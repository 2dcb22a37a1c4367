import Mathlib.Data.List.Perm.Subperm
import OpenAddressing.Proofs.Refinement
import OpenAddressing.Proofs.Soundness

/-!
# Comparison of tables

A comparison looks at the counts, and then only for the keys of the first table in the second one.
That is enough: no two entries of a table have keys of one class, so where as many classes are on
either side, and those of the first are among those of the second, there are no others.
-/

namespace OpenAddressing

variable {κ ν ε : Type} {rules rules' : Rules κ ε} {same : Setoid κ}

namespace Table

variable {t t' : Table κ ν} {key k l : κ} {v w : ν} {differ : ν → ν → Bool}

/-- The tables have the same classes of keys, and the values of no class differ. -/
structure Coincides (same : Setoid κ) (differ : ν → ν → Bool) (t t' : Table κ ν) : Prop where
  stores_iff (key : κ) : (∃ i, t.Stores same key i) ↔ ∃ i, t'.Stores same key i
  values {k l : κ} {v w : ν} : t.Has k v → t'.Has l w → same.r k l → differ w v = false

theorem Coincides.symm (h : t.Coincides same differ t')
    (hdiffer : ∀ v w, differ v w = differ w v) : t'.Coincides same differ t where
  stores_iff key := (h.stores_iff key).symm
  values hl hk hs := by
    rw [hdiffer]
    exact h.values hk hl (same.symm hs)

/-! ## Classes of keys -/

def classes (same : Setoid κ) (t : Table κ ν) : List (Quotient same) :=
  t.entries.map fun entry => ⟦entry.1⟧

theorem mem_classes :
    (⟦key⟧ : Quotient same) ∈ t.classes same ↔ ∃ i, t.Stores same key i := by
  rw [classes, List.mem_map]
  constructor
  · intro h
    obtain ⟨entry, hmem, hclass⟩ := h
    obtain ⟨i, hi⟩ := mem_entries.mp hmem
    exact ⟨i, entry.1, entry.2, hi, same.symm (Quotient.exact hclass)⟩
  · intro h
    obtain ⟨i, k, v, hk, hs⟩ := h
    exact ⟨(k, v), mem_entries.mpr ⟨i, hk⟩, Quotient.sound (same.symm hs)⟩

theorem Arranged.has_unique (h : t.Arranged rules same) (hk : t.Has k v) (hl : t.Has l w)
    (hs : same.r k l) : k = l ∧ v = w := by
  obtain ⟨i, hi⟩ := hk
  obtain ⟨j, hj⟩ := hl
  obtain rfl := h.distinct hi hj hs
  exact hi.unique hj

theorem Arranged.nodup_classes (h : t.Arranged rules same) : (t.classes same).Nodup := by
  apply List.Nodup.map_on _ h.nodup_entries
  intro x hx y hy hclass
  obtain ⟨hkey, hvalue⟩ :=
    h.has_unique (mem_entries.mp hx) (mem_entries.mp hy) (Quotient.exact hclass)
  exact Prod.ext hkey hvalue

theorem WellFormed.length_classes (h : t.WellFormed rules same) :
    (t.classes same).length = t.count := by
  rw [classes, List.length_map, length_entries h.keys_size h.vals_size, h.count_eq]

/-- Classes that are as many and among others are all of those. -/
theorem WellFormed.mem_classes_iff (h : t.WellFormed rules same) (h' : t'.WellFormed rules' same) :
    (∀ c, c ∈ t.classes same ↔ c ∈ t'.classes same) ↔
      t.count = t'.count ∧ t.classes same ⊆ t'.classes same := by
  have hlength := h.length_classes
  have hlength' := h'.length_classes
  constructor
  · intro hmem
    have hperm := (List.perm_ext_iff_of_nodup h.nodup_classes h'.nodup_classes).mpr hmem
    have := hperm.length_eq
    exact ⟨by omega, fun c => (hmem c).mp⟩
  · intro hsub c
    have hsubperm := List.subperm_of_subset h.nodup_classes hsub.2
    exact (hsubperm.perm_of_length_le (by omega)).mem_iff

theorem WellFormed.coincides_iff (h : t.WellFormed rules same) (h' : t'.WellFormed rules' same) :
    t.Coincides same differ t' ↔ t.count = t'.count ∧
      ∀ e ∈ t.entries, ∃ l w, t'.Has l w ∧ same.r e.1 l ∧ differ w e.2 = false := by
  constructor
  · intro hc
    have hclasses := (h.mem_classes_iff h').mp fun c =>
      c.inductionOn fun key => by rw [mem_classes, mem_classes, hc.stores_iff]
    refine ⟨hclasses.1, fun e he => ?_⟩
    have hhas := mem_entries.mp he
    obtain ⟨i, hi⟩ := hhas
    obtain ⟨j, l, w, hl, hs⟩ := (hc.stores_iff e.1).mp ⟨i, e.1, e.2, hi, same.refl e.1⟩
    exact ⟨l, w, ⟨j, hl⟩, hs, hc.values ⟨i, hi⟩ ⟨j, hl⟩ hs⟩
  · intro hall
    obtain ⟨hcount, hentries⟩ := hall
    have hsub : t.classes same ⊆ t'.classes same := by
      intro c hc
      obtain ⟨e, he, rfl⟩ := List.mem_map.mp hc
      obtain ⟨l, w, ⟨j, hl⟩, hs, -⟩ := hentries e he
      exact mem_classes.mpr ⟨j, l, w, hl, hs⟩
    refine ⟨fun key => ?_, fun {k l v w} hk hl hs => ?_⟩
    · rw [← mem_classes, ← mem_classes]
      exact (h.mem_classes_iff h').mpr ⟨hcount, hsub⟩ _
    · obtain ⟨l', w', hl', hs', hdiffer⟩ := hentries (k, v) (mem_entries.mpr hk)
      obtain ⟨-, rfl⟩ := h'.has_unique hl hl' (same.trans (same.symm hs) hs')
      exact hdiffer

theorem Arranged.coincides (h : t.Arranged rules same) (h' : t'.Arranged rules' same)
    (hvalues : ∀ key, ∃ e e', t.Found same key e ∧ t'.Found same key e' ∧
      e.map (·.2) = e'.map (·.2))
    (hself : ∀ k v, t.Has k v → differ v v = false) : t.Coincides same differ t' where
  stores_iff key := by
    obtain ⟨e, e', he, he', heq⟩ := hvalues key
    cases e with
    | none =>
        obtain rfl : e' = none := by simpa using heq.symm
        constructor
        · rintro ⟨i, k, v, hk, hs⟩
          exact absurd hs (he hk)
        · rintro ⟨i, k, v, hk, hs⟩
          exact absurd hs (he' hk)
    | some e =>
        obtain ⟨f, rfl, -⟩ : ∃ f, e' = some f ∧ f.2 = e.2 := by simpa using heq.symm
        obtain ⟨⟨i, hi⟩, hs⟩ := he
        obtain ⟨⟨j, hj⟩, hs'⟩ := he'
        exact ⟨fun _ => ⟨j, f.1, f.2, hj, hs'⟩, fun _ => ⟨i, e.1, e.2, hi, hs⟩⟩
  values {k l v w} hk hl hs := by
    obtain ⟨e, e', he, he', heq⟩ := hvalues k
    cases e with
    | none =>
        obtain ⟨i, hi⟩ := hk
        exact absurd (same.refl k) (he hi)
    | some e =>
        obtain ⟨f, rfl, hfe⟩ : ∃ f, e' = some f ∧ f.2 = e.2 := by simpa using heq.symm
        obtain ⟨-, rfl⟩ := h.has_unique hk he.1 he.2
        obtain ⟨-, rfl⟩ := h'.has_unique hl he'.1 (same.trans (same.symm hs) he'.2)
        rw [hfe]
        exact hself _ _ hk

/-- Entry after entry is looked for, up to one that is not there or has another value. -/
theorem WellFormed.agrees_spec (h : t.WellFormed rules same) (hr : rules.Lawful same)
    (differ : ν → ν → Bool) (entries : List (κ × ν)) :
    ∃ b, t.agrees rules differ entries = .ok b ∧
      (b = true ↔ ∀ e ∈ entries, ∃ l w, t.Has l w ∧ same.r e.1 l ∧ differ w e.2 = false) := by
  induction entries with
  | nil => exact ⟨true, rfl, by simp⟩
  | cons entry rest ih =>
      obtain ⟨b, hrest, hb⟩ := ih
      obtain ⟨_, hget, found, hfound, rfl⟩ :=
        (h.get?_spec hr.toRespects entry.1).exists_ok fun _ => hr.not_refuses
      rw [agrees, hget]
      cases found with
      | none =>
          refine ⟨false, rfl, ?_⟩
          simp only [Bool.false_eq_true, false_iff]
          intro hall
          obtain ⟨l, w, ⟨i, hl⟩, hs, -⟩ := hall entry List.mem_cons_self
          exact hfound hl hs
      | some e =>
          obtain ⟨hhas, hsame⟩ := hfound
          cases hdiffer : differ e.2 entry.2 with
          | true =>
              refine ⟨false, by simp [bind, Except.bind, hdiffer], ?_⟩
              simp only [Bool.false_eq_true, false_iff]
              intro hall
              obtain ⟨l, w, hl, hs, hequal⟩ := hall entry List.mem_cons_self
              -- There is no other entry of this class whose value could be the same.
              obtain ⟨-, rfl⟩ := h.has_unique hhas hl (same.trans (same.symm hsame) hs)
              rw [hdiffer] at hequal
              cases hequal
          | false =>
              refine ⟨b, by simp [bind, Except.bind, hdiffer, hrest], ?_⟩
              rw [hb, List.forall_mem_cons]
              constructor
              · intro hall
                exact ⟨⟨e.1, e.2, hhas, hsame, hdiffer⟩, hall⟩
              · intro hall
                exact hall.2

end Table

namespace Errand

open Table

variable {manner : Manner κ ν ε} {s : Shelf κ ν ε} {id other : Nat} {v w : Volume κ ν ε}

theorem ends_entriesOf (hv : s.volumes[id]? = some v) (h : v.table.Sound v.rules same)
    (hw : s.volumes[other]? = some w) (hw' : w.table.Sound w.rules same) :
    (entriesOf id).Ends s (fun entries s' => entries = v.table.entries ∧
      ∃ u, s'.volumes[other]? = some u ∧ u.rules = w.rules ∧ w.table.Refloored u.table)
      fun _ _ => False := by
  apply (ends_entriesOf_set hv h).imp _ fun _ _ hl => hl
  rintro entries s' ⟨hentries, low, hlow, rfl⟩
  refine ⟨hentries, ?_⟩
  by_cases hid : id = other
  · subst hid
    obtain rfl := Option.some.inj (hv.symm.trans hw)
    exact ⟨_, List.getElem?_set_self (List.getElem?_eq_some_iff.mp hv).1, rfl, hlow⟩
  · exact ⟨w, (List.getElem?_set_ne hid).trans hw, rfl, hw'.refloored⟩

theorem ends_equals (hv : s.volumes[id]? = some v) (hw : s.volumes[other]? = some w)
    (h : v.table.Sound v.rules same) (hr : w.rules.Lawful same)
    (hw' : w.table.Sound w.rules same) :
    (equals manner id other).Ends s
      (fun b _ => b = true ↔ v.table.Coincides same manner.differ w.table) fun _ _ => False := by
  rw [equals, ends_bind, ends_query hv, gives_ok, ends_bind, ends_query hw, gives_ok]
  by_cases hcount : v.table.count = w.table.count
  · rw [if_pos hcount, ends_bind]
    apply (ends_entriesOf hv h hw hw').imp _ fun _ _ hl => hl
    intro entries s' hentries
    obtain ⟨rfl, u, hu, hrules, hfloor⟩ := hentries
    have hsound : u.table.Sound u.rules same := hrules ▸ hfloor.sound hw'
    obtain ⟨b, hb, hiff⟩ :=
      hsound.toWellFormed.agrees_spec (hrules ▸ hr) manner.differ v.table.entries
    rw [ends_query hu, hb, gives_ok, hiff, h.toWellFormed.coincides_iff hw'.toWellFormed]
    simp only [hcount, true_and, hfloor.sameSlots.has_iff]
  · rw [if_neg hcount, ends_pure, h.toWellFormed.coincides_iff hw'.toWellFormed]
    simp [hcount]

end Errand

namespace Shelf

open Table Errand

variable [Inhabited κ] [Inhabited ν] {manner : Manner κ ν ε} {s : Shelf κ ν ε} {id other : Nat}
  {v w : Volume κ ν ε}

def compare (manner : Manner κ ν ε) (s : Shelf κ ν ε) (id other : Nat) : Reply κ ν ε :=
  s.reply manner (.equals id other)

theorem compare_spec (manner : Manner κ ν ε) (hv : s.volumes[id]? = some v)
    (hw : s.volumes[other]? = some w) (h : v.table.Sound v.rules same)
    (hr : w.rules.Lawful same) (hw' : w.table.Sound w.rules same) :
    ∃ b, s.compare manner id other = .ok (.bool b) ∧
      (b = true ↔ v.table.Coincides same manner.differ w.table) := by
  have hends : ((Request.observe (.equals id other)).perform manner).Ends s
      (fun a _ => ∃ b, a = .bool b ∧ (b = true ↔ v.table.Coincides same manner.differ w.table))
      fun _ _ => False := by
    rw [Request.perform, Observation.perform, ends_bind]
    exact (ends_equals hv hw h hr hw').imp (fun b _ hb => ⟨b, rfl, hb⟩) fun _ _ hl => hl
  rcases hends.onShelf with ⟨a, ha, b, rfl, hb⟩ | ⟨_, -, hlost⟩
  · exact ⟨b, ha, hb⟩
  · exact hlost.elim

theorem compare_eq_true_iff (hv : s.volumes[id]? = some v) (hw : s.volumes[other]? = some w)
    (h : v.table.Sound v.rules same) (hr : w.rules.Lawful same)
    (hw' : w.table.Sound w.rules same) :
    s.compare manner id other = .ok (.bool true) ↔
      v.table.Coincides same manner.differ w.table := by
  obtain ⟨b, hb, hiff⟩ := compare_spec manner hv hw h hr hw'
  rw [hb, ← hiff]
  simp

theorem compare_comm (hv : s.volumes[id]? = some v) (hw : s.volumes[other]? = some w)
    (hr : v.rules.Lawful same) (h : v.table.Sound v.rules same) (hr' : w.rules.Lawful same)
    (hw' : w.table.Sound w.rules same)
    (hdiffer : ∀ a b, manner.differ a b = manner.differ b a) :
    s.compare manner id other = s.compare manner other id := by
  obtain ⟨b, hb, hiff⟩ := compare_spec manner hv hw h hr' hw'
  obtain ⟨c, hc, hiff'⟩ := compare_spec manner hw hv hw' hr h
  have hbc : b = true ↔ c = true := by
    rw [hiff, hiff']
    exact ⟨fun hco => hco.symm hdiffer, fun hco => hco.symm hdiffer⟩
  rw [hb, hc, Bool.eq_iff_iff.mpr hbc]

theorem compare_of_get?_eq (hv : s.volumes[id]? = some v) (hw : s.volumes[other]? = some w)
    (hr : v.rules.Lawful same) (h : v.table.Sound v.rules same) (hr' : w.rules.Lawful same)
    (hw' : w.table.Sound w.rules same)
    (hget : ∀ key, v.table.get? v.rules key = w.table.get? w.rules key)
    (hself : ∀ k a, v.table.Has k a → manner.differ a a = false) :
    s.compare manner id other = .ok (.bool true) := by
  apply (compare_eq_true_iff hv hw h hr' hw').mpr
  apply h.toArranged.coincides hw'.toArranged _ hself
  intro key
  obtain ⟨_, hvalue, e, he, rfl⟩ :=
    (h.toWellFormed.get?_spec hr.toRespects key).exists_ok fun _ => hr.not_refuses
  obtain ⟨_, hvalue', e', he', rfl⟩ :=
    (hw'.toWellFormed.get?_spec hr'.toRespects key).exists_ok fun _ => hr'.not_refuses
  rw [hget key, hvalue'] at hvalue
  exact ⟨e, e', he, he', (Except.ok.inj hvalue).symm⟩

end Shelf

section Runs

open Table

variable [DecidableEq (Quotient same)]

theorem Table.Models.found {t : Table κ ν} {m : Content same ν} (h : Models rules t m) (key : κ) :
    t.Found same key (m.get? key) := by
  cases hget : m.get? key with
  | some e => exact (h.get?_iff key e).mp hget
  | none =>
      intro i k v hk hs
      have := (h.get?_iff key (k, v)).mpr ⟨⟨i, hk⟩, hs⟩
      exact absurd_of_none hget this

variable [Inhabited κ] [Inhabited ν]

/-- A run of requests to a new table leads to a table that models the map it leads to, unless
memory is wanting on the way. -/
theorem models_run (hr : rules.Lawful same) (hint : Int) (requests : List (MapRequest κ ν ε)) :
    Models rules (runAll (MapRequest.onTable rules) requests ⟨Table.new hint, #[]⟩).2.table
        (runAll MapRequest.onContent requests (∅ : Content same ν)).2 ∨
      Breaks (MapRequest.onTable rules) (MapRequest.Starves rules) requests
        (⟨Table.new hint, #[]⟩ : Journal κ ν) := by
  have hnew : Models rules (Table.new hint : Table κ ν) (∅ : Content same ν) :=
    Models.blank (Or.inr (isCapacity_capacityFor hint)) 0
  obtain ⟨before, after, rfl, -, hmodels, hhead⟩ := runAll_simulation
    (R := fun (s : Journal κ ν) (m : Content same ν) => Models rules s.table m)
    (fun request _ _ h => request.onTable_follows hr h) requests (s := ⟨Table.new hint, #[]⟩) hnew
  cases after with
  | nil =>
      rw [List.append_nil]
      exact Or.inl hmodels
  | cons request rest => exact Or.inr ⟨before, request, rest, rfl, hhead request rfl⟩

/-- Whether two tables are equal depends on the maps they stand for, and on nothing else. On every
shelf that a run leads to, the question whether a table equals another has an answer if both have
lawful rules for the same keys, and it is yes exactly if they have the same classes of keys and the
values of no class differ. So where differing is symmetric the answer is the same the other way
round, and tables that give all keys the same values are equal if no value differs from itself. The
latter holds in particular of tables that two runs lead to, if the runs lead to maps with the same
values and no request on the way wants memory. -/
theorem equality_extensional (manner : Manner κ ν ε) :
    (∀ (requests : List (Shelf.Request κ ν ε)) (id other : Nat) (v w : Volume κ ν ε),
      let s := Shelf.reached manner requests
      s.volumes[id]? = some v → s.volumes[other]? = some w →
      v.rules.Lawful same → w.rules.Lawful same →
        (s.compare manner id other = .ok (.bool true) ∨
          s.compare manner id other = .ok (.bool false)) ∧
        (s.compare manner id other = .ok (.bool true) ↔
          v.table.Coincides same manner.differ w.table) ∧
        ((∀ a b, manner.differ a b = manner.differ b a) →
          s.compare manner id other = s.compare manner other id) ∧
        ((∀ key, v.table.get? v.rules key = w.table.get? w.rules key) →
          (∀ k a, v.table.Has k a → manner.differ a a = false) →
          s.compare manner id other = .ok (.bool true))) ∧
    ∀ (rules rules' : Rules κ ε) (hint hint' : Int) (run run' : List (MapRequest κ ν ε)),
      rules.Lawful same → rules'.Lawful same →
      let t := (runAll (MapRequest.onTable rules) run ⟨Table.new hint, #[]⟩).2.table
      let t' := (runAll (MapRequest.onTable rules') run' ⟨Table.new hint', #[]⟩).2.table
      let m := (runAll MapRequest.onContent run (∅ : Content same ν)).2
      let m' := (runAll MapRequest.onContent run' (∅ : Content same ν)).2
      (∀ key, (m.get? key).map (·.2) = (m'.get? key).map (·.2)) →
      (∀ key e, m.get? key = some e → manner.differ e.2 e.2 = false) →
        Shelf.compare manner
            { volumes := [{ rules, table := t }, { rules := rules', table := t' }] } 0 1 =
              .ok (.bool true) ∨
          Breaks (MapRequest.onTable rules) (MapRequest.Starves rules) run
            (⟨Table.new hint, #[]⟩ : Journal κ ν) ∨
          Breaks (MapRequest.onTable rules') (MapRequest.Starves rules') run'
            (⟨Table.new hint', #[]⟩ : Journal κ ν) := by
  constructor
  · intro requests id other v w s hv hw hr hr'
    have hall : ∀ u ∈ s.volumes, Shelf.SoundUnder same u :=
      (Shelf.governs_sound manner same).all_reached requests
    have hsound := (hall v (List.mem_of_getElem? hv) hr).1
    have hsound' := (hall w (List.mem_of_getElem? hw) hr').1
    refine ⟨?_, Shelf.compare_eq_true_iff hv hw hsound hr' hsound',
      Shelf.compare_comm hv hw hr hsound hr' hsound',
      Shelf.compare_of_get?_eq hv hw hr hsound hr' hsound'⟩
    obtain ⟨b, hb, -⟩ := Shelf.compare_spec manner hv hw hsound hr' hsound'
    cases b with
    | true => exact Or.inl hb
    | false => exact Or.inr hb
  · intro rules rules' hint hint' run run' hr hr' t t' m m' hvalues hself
    rcases models_run (ν := ν) hr hint run with hmodels | hstarved
    swap
    · exact Or.inr (Or.inl hstarved)
    rcases models_run (ν := ν) hr' hint' run' with hmodels' | hstarved
    swap
    · exact Or.inr (Or.inr hstarved)
    left
    apply (Shelf.compare_eq_true_iff rfl rfl hmodels.toSound hr' hmodels'.toSound).mpr
    apply hmodels.toArranged.coincides hmodels'.toArranged
    · intro key
      exact ⟨m.get? key, m'.get? key, hmodels.found key, hmodels'.found key, hvalues key⟩
    · intro k v hk
      exact hself k (k, v) ((hmodels.get?_iff k (k, v)).mpr ⟨hk, same.refl k⟩)

private def digitRules (hash : Nat → Int) : Rules Nat Empty := .through (· % 100) hash 64000 none

private theorem digitRules_lawful (hash : Nat → Int) :
    (digitRules hash).Lawful (Setoid.ker (· % 100)) := Rules.lawful_through _ _ _ _

private def digitTables : List (Shelf.Request Nat Nat Empty) :=
  [.create (digitRules fun n => n % 4) 0, .create (digitRules fun n => -n) 100]

private def digitChanges : List (Shelf.Request Nat Nat Empty) :=
  [.change 0 (.set 3 30), .change 0 (.set 5 50), .change 0 (.set 7 70), .change 0 (.delete 105),
    .change 1 (.set 107 70), .change 1 (.set 203 30)]

private def digitRun : List (MapRequest Nat Nat Empty) :=
  [.set 3 30, .set 5 50, .set 7 70, .delete 105]

private def digitDetour : List (MapRequest Nat Nat Empty) := [.set 7 70, .rehash 100, .set 3 30]

private def isYes : Shelf.Reply Nat Nat Empty → Bool
  | .ok (.bool b) => b
  | _ => false

private theorem yes_of_bool {reply : Shelf.Reply Nat Nat Empty}
    (h : reply = .ok (.bool true) ∨ reply = .ok (.bool false)) (hyes : isYes reply = true) :
    reply = .ok (.bool true) := by
  rcases h with htrue | rfl
  · exact htrue
  · cases hyes

/-- Two tables with different hashes and capacities. In the first one an entry was deleted, and the
second one got its entries in another order and with other keys of the same classes. -/
theorem equality_extensional_digits :
    let s := Shelf.reached Manner.decimal (digitTables ++ digitChanges)
    let t := (runAll (MapRequest.onTable (digitRules fun n => n % 4)) digitRun
      ⟨Table.new 0, #[]⟩).2.table
    let t' := (runAll (MapRequest.onTable (digitRules fun n => -n)) digitDetour
      ⟨Table.new 0, #[]⟩).2.table
    (∃ v w, s.volumes[0]? = some v ∧ s.volumes[1]? = some w ∧
      s.compare Manner.decimal 0 1 = .ok (.bool true) ∧
      s.compare Manner.decimal 1 0 = .ok (.bool true) ∧
      v.table.Coincides (Setoid.ker (· % 100)) (· != ·) w.table) ∧
    Shelf.compare Manner.decimal { volumes := [{ rules := digitRules fun n => n % 4, table := t },
      { rules := digitRules fun n => -n, table := t' }] } 0 1 = .ok (.bool true) := by
  constructor
  · have hgoverns := Shelf.governs_sound (ε := Empty) Manner.decimal (Setoid.ker (· % 100))
    have hover := hgoverns.run_over digitChanges (hgoverns.all_reached digitTables)
    rw [← Shelf.reached_append] at hover
    obtain ⟨v, hv, hrules⟩ :=
      hover.step 0 { rules := digitRules fun n => n % 4, table := .new 0 } rfl
    obtain ⟨w, hw, hrules'⟩ :=
      hover.step 1 { rules := digitRules fun n => -n, table := .new 100 } rfl
    have hr : v.rules.Lawful (Setoid.ker (· % 100)) := by
      rw [hrules]
      exact digitRules_lawful fun n => n % 4
    have hr' : w.rules.Lawful (Setoid.ker (· % 100)) := by
      rw [hrules']
      exact digitRules_lawful fun n => -n
    obtain ⟨hbool, hiff, hcomm, -⟩ :=
      (equality_extensional Manner.decimal).1 (digitTables ++ digitChanges) 0 1 v w hv hw hr hr'
    have hsymm (a b : Nat) : (a != b) = (b != a) := bne_comm
    have htrue := yes_of_bool hbool (by decide +kernel)
    exact ⟨v, w, hv, hw, htrue, (hcomm hsymm).symm.trans htrue, hiff.mp htrue⟩
  · have hmaps : (runAll MapRequest.onContent digitRun
        (∅ : Content (Setoid.ker fun n : Nat => n % 100) Nat)).2 =
        (runAll MapRequest.onContent digitDetour ∅).2 := by decide +kernel
    have hequal := (equality_extensional Manner.decimal).2 (digitRules fun n => n % 4)
      (digitRules fun n => -n) 0 0 digitRun digitDetour (digitRules_lawful _) (digitRules_lawful _)
      (fun key => by rw [hmaps]) (fun key e _ => by simp [Manner.decimal])
    refine hequal.resolve_right fun hstarved => ?_
    rcases hstarved with ⟨_, _, _, -, hstarves⟩ | ⟨_, _, _, -, hstarves⟩
    · exact hstarves.limited rfl
    · exact hstarves.limited rfl

end Runs

end OpenAddressing
