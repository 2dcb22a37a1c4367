import OpenAddressing.Proofs.Content
import OpenAddressing.Proofs.Invariant

/-!
# Tables are finite maps

A sound table models the map of its entries. Each request to the table gives the answer that
the map gives, and leaves a table that models the map left. So a run of any length cannot
tell the two apart.
-/

namespace OpenAddressing

variable {κ ν ε : Type} {rules : Rules κ ε} {same : Setoid κ} [DecidableEq (Quotient same)]

namespace Table

variable {t t' : Table κ ν} {m : Content same ν} {key : κ}

/-- The table is sound, and its entries are those of the map. -/
structure Models (rules : Rules κ ε) (t : Table κ ν) (m : Content same ν) : Prop
    extends t.Sound rules same where
  get?_iff (key : κ) (e : κ × ν) : m.get? key = some e ↔ t.Found same key (some e)

namespace Models

theorem get?_eq (h : Models rules t m) {e : Option (κ × ν)} (hfound : t.Found same key e) :
    m.get? key = e := by
  cases e with
  | some e => exact (h.get?_iff key e).mpr hfound
  | none =>
      rw [Option.eq_none_iff_forall_not_mem]
      intro e he
      obtain ⟨⟨i, hi⟩, hs⟩ := (h.get?_iff key e).mp he
      exact hfound hi hs

theorem congr (h : Models rules t m) (ht' : t'.Sound rules same)
    (hhas : ∀ k v, t'.Has k v ↔ t.Has k v) : Models rules t' m where
  toSound := ht'
  get?_iff key e := by
    rw [h.get?_iff, Found, Found, hhas]

theorem empty (ht : t.Sound rules same) (hnone : ∀ k v, ¬t.Has k v) :
    Models rules t (∅ : Content same ν) where
  toSound := ht
  get?_iff key e := by
    constructor
    · intro he
      rw [Content.get?, Finmap.lookup_empty] at he
      cases he
    · exact fun hfound => absurd hfound.1 (hnone _ _)

theorem blank [Inhabited κ] [Inhabited ν] {size : Nat} (h : size = 0 ∨ IsCapacity size)
    (age : Int) :
    Models rules { (Table.blank size : Table κ ν) with age := age } (∅ : Content same ν) := by
  have hs : (Table.blank size).SameSlots { (Table.blank size : Table κ ν) with age := age } :=
    ⟨rfl, rfl, rfl⟩
  refine empty (sound_blank_age h age) fun k v hhas => ?_
  obtain ⟨i, hi⟩ := hs.has_iff.mp hhas
  exact not_holds_blank size hi

theorem assign [Inhabited κ] [Inhabited ν] (h : Models rules t m) {value : ν}
    (hset : Assigned rules same key value t t') : Models rules t' (m.assign key value) where
  toSound := hset.sound h.toSound
  get?_iff k e := by
    obtain ⟨old, hold, hhas⟩ := hset.has_iff h.toSound
    have hstored : same.r key ((old.map (·.1)).getD key) := by
      cases old with
      | none => exact same.refl key
      | some e => exact hold.2
    rw [Found, hhas]
    by_cases hk : same.r k key
    · rw [Content.get?_assign_of_same hk, h.get?_eq hold]
      constructor
      · intro h'
        cases h'
        exact ⟨Or.inr ⟨rfl, rfl⟩, same.trans hk hstored⟩
      · intro h'
        rcases h' with ⟨⟨-, hne⟩ | ⟨hkey, hvalue⟩, hs⟩
        · exact absurd (same.trans (same.symm hk) hs) hne
        · rw [← hkey, ← hvalue]
    · rw [Content.get?_assign_of_not_same hk, h.get?_iff]
      constructor
      · intro h'
        obtain ⟨hhas', hs⟩ := h'
        exact ⟨Or.inl ⟨hhas', fun hne => hk (same.trans hs (same.symm hne))⟩, hs⟩
      · intro h'
        rcases h' with ⟨⟨hhas', -⟩ | ⟨hkey, -⟩, hs⟩
        · exact ⟨hhas', hs⟩
        · exact absurd (same.trans hs (same.symm (hkey ▸ hstored))) hk

theorem discard [Inhabited κ] [Inhabited ν] (h : Models rules t m) {e : Option (κ × ν)}
    (hremoved : t.Removed same key t' e) : Models rules t' (m.discard key) := by
  cases e with
  | none =>
      obtain ⟨hlacks, rfl⟩ := hremoved
      have hnone : m.discard key = m := Content.ext fun k => by
        by_cases hk : same.r k key
        · have hk' : t'.Found same k none := fun i l v hl hs =>
            hlacks hl (same.trans (same.symm hk) hs)
          rw [Content.get?_discard_of_same hk, h.get?_eq hk']
        · exact Content.get?_discard_of_not_same hk
      rwa [hnone]
  | some e =>
      obtain ⟨i, hi, hs, hdel⟩ := hremoved
      refine ⟨hdel.sound h.toSound hi.filled, fun k e' => ?_⟩
      rw [Found, hdel.has_iff h.toSound hi]
      by_cases hk : same.r k key
      · rw [Content.get?_discard_of_same hk]
        constructor
        · intro h'
          cases h'
        · intro h'
          obtain ⟨⟨-, hne⟩, hs'⟩ := h'
          exact absurd (same.trans (same.symm (same.trans hk hs)) hs') hne
      · rw [Content.get?_discard_of_not_same hk, h.get?_iff]
        constructor
        · intro h'
          obtain ⟨hhas, hs'⟩ := h'
          exact ⟨⟨hhas, fun hne => hk (same.trans hs' (same.symm (same.trans hs hne)))⟩, hs'⟩
        · intro h'
          obtain ⟨⟨hhas, -⟩, hs'⟩ := h'
          exact ⟨hhas, hs'⟩

theorem listing_eq (h : Models rules t m) : m.listing = (t.entries : Multiset (κ × ν)) := by
  have hmem (x : Sigma fun _ : Quotient same => κ × ν) (hx : x ∈ Finmap.entries m) :
      x.1 = ⟦x.2.1⟧ ∧ t.Has x.2.1 x.2.2 := by
    obtain ⟨c, e⟩ := x
    induction c using Quotient.inductionOn with
    | h key =>
        obtain ⟨hhas, hs⟩ := (h.get?_iff key e).mp (Finmap.lookup_eq_some_iff.mpr hx)
        exact ⟨Quotient.sound hs, hhas⟩
  have hnodup : m.listing.Nodup := by
    refine Multiset.Nodup.map_on ?_ (Finmap.nodup_entries m)
    intro x hx y hy heq
    have hclass : x.1 = y.1 := by rw [(hmem x hx).1, (hmem y hy).1, heq]
    exact Sigma.ext hclass (heq_of_eq heq)
  apply (Multiset.Nodup.ext hnodup (Multiset.coe_nodup.mpr (h.nodup_entries))).mpr
  intro entry
  obtain ⟨k, v⟩ := entry
  rw [Multiset.mem_coe, mem_entries, Content.listing, Multiset.mem_map]
  constructor
  · intro h'
    obtain ⟨x, hx, heq⟩ := h'
    rw [← show x.2.1 = k from congrArg Prod.fst heq, ← show x.2.2 = v from congrArg Prod.snd heq]
    exact (hmem x hx).2
  · intro hhas
    have hentry := (h.get?_iff k (k, v)).mpr ⟨hhas, same.refl k⟩
    exact ⟨⟨⟦k⟧, (k, v)⟩, Finmap.lookup_eq_some_iff.mp hentry, rfl⟩

theorem count_eq_size (h : Models rules t m) : t.count = m.size := by
  have hcard : m.size = m.listing.card := by
    rw [Content.listing, Multiset.card_map, Content.size]
    exact Multiset.card_map _ _
  rw [hcard, h.listing_eq, Multiset.coe_card, length_entries h.keys_size h.vals_size, h.count_eq]

end Models

end Table

open Table

variable {α : Type} [Inhabited κ] [Inhabited ν] {s : Journal κ ν} {m : Content same ν}

/-- An operation on a table ends as the map does, and leaves a table that models it, unless there
is no memory for storage of at most so many slots. -/
def Op.Follows (rules : Rules κ ε) (most : Nat) (op : Op κ ν ε α) (s : Journal κ ν)
    (result : Except (Fault κ ε) α × Content same ν) : Prop :=
  op.Outcome s (fun a s' => result.1 = .ok a ∧ Models rules s'.table result.2)
    (fun fault s' => rules.LacksSlots most fault ∨
      result.1 = .error fault ∧ Models rules s'.table result.2)

omit [Inhabited κ] [Inhabited ν] in
private theorem Op.Follows.nothing {op : Op κ ν ε Unit} {most : Nat}
    {result : Except (Fault κ ε) Unit × Content same ν} (h : op.Follows rules most s result) :
    (do
      op
      pure MapAnswer.nothing : Op κ ν ε (MapAnswer κ ν)).Follows rules most s
        (result.map (·.map fun _ => .nothing) id) := by
  apply Outcome.bind h
  · intro _ s' hs'
    refine ⟨?_, hs'.2⟩
    rw [Prod.map_fst, hs'.1]
    rfl
  · intro fault s' hlost
    refine hlost.imp_right fun hs' => ⟨?_, hs'.2⟩
    rw [Prod.map_fst, hs'.1]
    rfl

omit [Inhabited κ] [Inhabited ν] in
private theorem query_follows {β : Type} {most : Nat} (h : Models rules s.table m)
    {f : Table κ ν → Except (Fault κ ε) α} {answer : α → β} {result : Except (Fault κ ε) β}
    (hf : Gives (f s.table) (fun a => result = .ok (answer a))
      (fun fault => result = .error fault)) :
    (do return answer (← Op.query f) : Op κ ν ε β).Follows rules most s (result, m) := by
  rw [Op.Follows, Op.outcome_bind, Op.outcome_query]
  exact hf.imp (fun _ ha => ⟨ha, h⟩) (fun _ hfault => Or.inr ⟨hfault, h⟩)

omit [Inhabited κ] [Inhabited ν] in
private theorem items_models (h : Models rules s.table m) :
    (Op.items : Op κ ν ε (Array (κ × ν))).Outcome s
      (fun entries s' => entries.toList = s.table.entries ∧ Models rules s'.table m)
      (fun _ _ => False) := by
  refine (Op.items_outcome h.toSound).imp ?_ fun _ _ hl => hl
  intro entries s' hpost
  obtain ⟨hentries, hs'⟩ := hpost
  exact ⟨hentries, h.congr (hs'.sound h.toSound) fun k v => hs'.sameSlots.has_iff⟩

omit [Inhabited κ] [Inhabited ν] in
private theorem assignAll_self {entries : List (κ × ν)}
    (h : ∀ e ∈ entries, m.get? e.1 = some e) :
    m.assignAll (entries.map (.ok : κ × ν → Except ε (κ × ν))) = (.ok (), m) := by
  induction entries with
  | nil => rfl
  | cons e rest ih =>
      have hfirst := h e List.mem_cons_self
      have hsame : m.assign e.1 e.2 = m := Content.ext fun k => by
        by_cases hk : same.r k e.1
        · have hclass : m.get? k = m.get? e.1 :=
            congrArg (Finmap.lookup · m) (Quotient.sound hk : (⟦k⟧ : Quotient same) = ⟦e.1⟧)
          rw [Content.get?_assign_of_same hk, hclass, hfirst]
          rfl
        · exact Content.get?_assign_of_not_same hk
      rw [List.map_cons, Content.assignAll, hsame]
      exact ih fun e' he' => h e' (List.mem_cons_of_mem _ he')

section Lawful

variable (hr : rules.Lawful same)

include hr

private theorem update_follows (entries : List (Except ε (κ × ν))) (h : Models rules s.table m) :
    (Op.update rules entries).Follows rules (s.table.slotsFor entries.length) s
      (m.assignAll entries) := by
  induction entries generalizing s m with
  | nil => exact ⟨rfl, h⟩
  | cons entry rest ih =>
      cases entry with
      | error cause => exact Or.inr ⟨rfl, h⟩
      | ok entry =>
          apply (Op.set_outcome hr.toRespects h.toSound entry.1 entry.2).bind
          · intro _ s' hs'
            refine (ih (h.assign hs')).imp (fun _ _ hs'' => hs'') fun fault s'' hlost => ?_
            exact hlost.imp_left fun hlacks => hlacks.mono (hs'.slotsFor_le h.toSound rest.length)
          · intro fault s' hlost
            have hlacks := hr.denies (hlost.denies h.toSound)
            exact Or.inl (hlacks.mono (slotsFor_mono _ (by simp)))

private theorem set_follows (h : Models rules s.table m) (key : κ) (value : ν) :
    (Op.set rules key value).Follows rules (s.table.slotsFor 1) s (.ok (), m.assign key value) :=
  (Op.set_outcome hr.toRespects h.toSound key value).imp (fun _ _ hs' => ⟨rfl, h.assign hs'⟩)
    fun _ _ hlost => Or.inl (hr.denies (hlost.denies h.toSound))

private theorem updateFrom_itself_follows (h : Models rules s.table m) :
    ((MapRequest.updateFrom .itself).perform rules).Follows rules
      (s.table.slotsFor s.table.entries.length) s (.ok .nothing, m) := by
  -- Each key gets the value that it has.
  have hself : m.assignAll (s.table.entries.map (.ok : κ × ν → Except ε (κ × ν))) =
      (.ok (), m) := assignAll_self fun e he =>
    (h.get?_iff e.1 e).mpr ⟨mem_entries.mp he, same.refl e.1⟩
  apply (Op.entriesOf_outcome h.toSound .itself).bind
  · intro entries s' hpost
    obtain ⟨rfl, hfloor⟩ := hpost
    have hs' : Models rules s'.table m :=
      h.congr (hfloor.sound h.toSound) fun k v => hfloor.sameSlots.has_iff
    have hupdate := (update_follows hr (s.table.entries.map .ok) hs').nothing
    rwa [hself, List.length_map, hfloor.slotsFor_eq] at hupdate
  · intro fault s' hlost
    obtain ⟨⟨other, hother, -⟩, -⟩ := hlost
    cases hother

private theorem updateFrom_other_follows (h : Models rules s.table m) (t : Table κ ν) :
    ((MapRequest.updateFrom (.other t)).perform rules).Follows rules
      (s.table.slotsFor ((Partner.other t).given ε s.table).length) s
      ((MapRequest.updateFrom (.other t)).onContent m) := by
  rw [MapRequest.perform, MapRequest.onContent, Op.Follows, Op.outcome_bind, Op.entriesOf,
    Op.outcome_query, Partner.given]
  cases (t.listed : Except (Fault κ ε) (List (κ × ν))) with
  | error fault => exact Or.inr ⟨rfl, h⟩
  | ok entries =>
      have hupdate := (update_follows hr (entries.map .ok) h).nothing
      rwa [List.length_map] at hupdate

omit [Inhabited κ] [Inhabited ν] in
private theorem read_follows {β : Type} {most : Nat} {f : Table κ ν → Except (Fault κ ε) α}
    {answer : α → β} {key : κ} {entry : Option (κ × ν) → α} (h : Models rules s.table m)
    (hf : Gives (f s.table) (fun a => ∃ e, s.table.Found same key e ∧ a = entry e)
      rules.Refuses) :
    (do return answer (← Op.query f) : Op κ ν ε β).Follows rules most s
      (.ok (answer (entry (m.get? key))), m) := by
  refine query_follows h (hf.imp ?_ fun _ href => absurd href hr.not_refuses)
  intro a hpost
  obtain ⟨e, he, rfl⟩ := hpost
  rw [h.get?_eq he]

private theorem take_follows {β : Type} {most : Nat} {op : Op κ ν ε α} {answer : α → β} {key : κ}
    {entry : Option (κ × ν) → α} (h : Models rules s.table m)
    (hop : op.Outcome s (fun a s' => ∃ e, s.table.Removed same key s'.table e ∧ a = entry e)
      (fun fault s' => rules.Refuses fault ∧ s'.table = s.table)) :
    (do return answer (← op) : Op κ ν ε β).Follows rules most s
      (.ok (answer (entry (m.get? key))), m.discard key) := by
  refine hop.bind ?_ fun _ _ hl => absurd hl.1 hr.not_refuses
  intro a s' hpost
  obtain ⟨e, he, rfl⟩ := hpost
  refine ⟨?_, h.discard he⟩
  rw [h.get?_eq he.found]

private theorem lookup_follows {most : Nat} (h : Models rules s.table m) (key : κ) :
    ((MapRequest.lookup key).perform rules : Op κ ν ε (MapAnswer κ ν)).Follows rules most s
      ((MapRequest.lookup key).onContent m) := by
  refine query_follows h ((h.get_spec hr.toRespects key).imp ?_ ?_)
  · intro value hgives
    obtain ⟨k, he⟩ := hgives
    rw [h.get?_eq he]
    rfl
  · intro fault hlost
    rcases hlost with href | ⟨he, rfl⟩
    · exact absurd href hr.not_refuses
    · rw [h.get?_eq he]
      rfl

private theorem discard_follows {most : Nat} {op : Op κ ν ε α} {β : Type} (answer : α → β)
    {key : κ} {entry : κ × ν → β} (h : Models rules s.table m)
    (hop : op.Outcome s
      (fun a s' => ∃ e, s.table.Removed same key s'.table (some e) ∧ answer a = entry e)
      (fun fault s' => (rules.Refuses fault ∨ s.table.Found same key none ∧
        fault = .missing key) ∧ s'.table = s.table)) :
    (do return answer (← op) : Op κ ν ε β).Follows rules most s
      ((Content.present key (m.get? key)).map entry, m.discard key) := by
  apply hop.bind
  · intro a s' hpost
    obtain ⟨e, he, heq⟩ := hpost
    refine ⟨?_, h.discard he⟩
    rw [h.get?_eq he.found, heq]
    rfl
  · intro fault s' hlost
    rcases hlost with ⟨href | ⟨he, rfl⟩, hs'⟩
    · exact absurd href hr.not_refuses
    · refine Or.inr ⟨?_, h.discard (e := none) ⟨he, hs'⟩⟩
      rw [h.get?_eq he]
      rfl

private theorem remove_follows {most : Nat} (h : Models rules s.table m) (key : κ) :
    ((MapRequest.remove key).perform rules : Op κ ν ε (MapAnswer κ ν)).Follows rules most s
      ((MapRequest.remove key).onContent m) := by
  refine discard_follows hr (fun _ => MapAnswer.nothing) h ?_
  refine (Op.remove_outcome hr.toRespects h.toSound key).imp ?_ fun _ _ hl => hl
  intro _ s' hpost
  obtain ⟨e, he⟩ := hpost
  exact ⟨e, he, rfl⟩

private theorem pop_follows {most : Nat} (h : Models rules s.table m) (key : κ) :
    ((MapRequest.pop key none).perform rules : Op κ ν ε (MapAnswer κ ν)).Follows rules most s
      ((MapRequest.pop key none).onContent m) := by
  refine discard_follows hr MapAnswer.value h ?_
  refine (Op.pop_outcome hr.toRespects h.toSound key).imp ?_ fun _ _ hl => hl
  intro value s' hpost
  obtain ⟨k, he⟩ := hpost
  exact ⟨(k, value), he, rfl⟩

omit hr in
private theorem length_follows {most : Nat} (h : Models rules s.table m) :
    (MapRequest.length.perform rules : Op κ ν ε (MapAnswer κ ν)).Follows rules most s
      (MapRequest.length.onContent m) := by
  apply query_follows h
  have hsize := h.count_eq_size
  rw [Table.length, if_neg (by omega)]
  by_cases hsmall : s.table.count < 0x8000000000000000
  · rw [if_pos hsmall, gives_ok, if_pos (by omega), hsize]
  · rw [if_neg hsmall, gives_error, if_neg (by omega)]

/-- Each request to a table ends as it does for the map that the table models, unless it wants
memory. -/
theorem MapRequest.perform_follows (h : Models rules s.table m) (request : MapRequest κ ν ε) :
    (request.perform rules).Follows rules (request.mostSlots s.table) s (request.onContent m) := by
  have hr' := hr.toRespects
  have hs := h.toSound
  cases request with
  | set key value => exact (set_follows hr h key value).nothing
  | get key default => exact read_follows hr h (hs.get?_spec hr' key)
  | getKey key default => exact read_follows hr h (hs.getKey?_spec hr' key)
  | lookup key => exact lookup_follows hr h key
  | contains key => exact read_follows hr h (hs.contains_spec hr' key)
  | delete key => exact take_follows hr h (Op.delete_outcome hr' hs key)
  | remove key => exact remove_follows hr h key
  | pop key default =>
      cases default with
      | none => exact pop_follows hr h key
      | some default => exact take_follows hr h (Op.pop?_outcome hr' hs key)
  | length => exact length_follows h
  | isEmpty =>
      apply query_follows h
      rw [gives_ok, Table.isEmpty, h.count_eq_size]
      simp
  | clear => exact ⟨rfl, Models.blank hs.capacity _⟩
  | free => exact ⟨rfl, Models.blank (Or.inl rfl) _⟩
  | rehash size =>
      exact (Op.rehash_outcome hs.toWellFormed size).bind
        (fun _ s' hs' => ⟨rfl, h.congr hs'.toSound hs'.has_iff⟩)
        fun _ _ hl => Or.inl ⟨_, Nat.le_refl _, hl.1⟩
  | update entries => exact (update_follows hr entries h).nothing
  | updateFrom partner =>
      cases partner with
      | itself => exact updateFrom_itself_follows hr h
      | other t => exact updateFrom_other_follows hr h t
  | items =>
      refine (items_models h).bind ?_ fun _ _ hl => hl.elim
      intro entries s' hpost
      obtain ⟨hentries, hs'⟩ := hpost
      refine ⟨?_, hs'⟩
      rw [onContent, h.listing_eq, hentries]

theorem MapRequest.onTable_follows (h : Models rules s.table m) (request : MapRequest κ ν ε) :
    (request.onTable rules s).1 = (request.onContent m).1 ∧
        Models rules (request.onTable rules s).2.table (request.onContent m).2 ∨
      request.Starves rules s := by
  rcases (request.perform_follows hr h).carry with
    ⟨a, hok, hanswer, hmodels⟩ | ⟨fault, herror, hlacks | ⟨hanswer, hmodels⟩⟩
  · exact Or.inl ⟨hok.trans hanswer.symm, hmodels⟩
  · exact Or.inr ⟨fault, herror, hlacks⟩
  · exact Or.inl ⟨herror.trans hanswer.symm, hmodels⟩

/-- Any run of requests to a new table, of any size asked for, gives the answers that it gives
to the empty map, and the count of the table is the number of classes of that map. It does so to
its end, or up to the first request that stops for want of memory. -/
theorem answers_of_table_eq_answers_of_map (hint : Int) (requests : List (MapRequest κ ν ε)) :
    (Table.create rules hint = .ok (Table.new hint : Table κ ν) ∨
      rules.Starves (capacityFor hint) (Table.create rules hint : Except _ (Table κ ν))) ∧
    ∃ before after, requests = before ++ after ∧
      (runAll (MapRequest.onTable rules) before ⟨Table.new hint, #[]⟩).1 =
        (runAll MapRequest.onContent before (∅ : Content same ν)).1 ∧
      (runAll (MapRequest.onTable rules) before ⟨Table.new hint, #[]⟩).2.table.count =
        (runAll MapRequest.onContent before (∅ : Content same ν)).2.size ∧
      ∀ request ∈ after.head?,
        request.Starves rules
          (runAll (MapRequest.onTable rules) before ⟨Table.new hint, #[]⟩).2 := by
  have hnew : Models rules (Table.new hint : Table κ ν) (∅ : Content same ν) :=
    Models.blank (Or.inr (isCapacity_capacityFor hint)) 0
  obtain ⟨before, after, hsplit, hanswers, hlast, hhead⟩ := runAll_simulation
    (R := fun (s : Journal κ ν) (m : Content same ν) => Models rules s.table m)
    (fun request _ _ h => request.onTable_follows hr h) requests (s := ⟨Table.new hint, #[]⟩) hnew
  refine ⟨?_, before, after, hsplit, hanswers, hlast.count_eq_size, hhead⟩
  rw [Table.create]
  cases hroom : rules.demandRoom (κ := κ) (capacityFor hint) with
  | ok => exact Or.inl rfl
  | error fault => exact Or.inr ⟨fault, rfl, _, Nat.le_refl _, hroom⟩

end Lawful

/-- Where memory is not limited, no request is left over. -/
theorem answers_of_table_eq_answers_of_map_digits :
    let rules : Rules Nat Empty := .through (· % 10) (fun n => -(n % 4 : Nat)) 64000 none
    let requests : List (MapRequest Nat Nat Empty) :=
      [.set 3 30, .set 13 31, .set 7 70, .getKey 23 0, .updateFrom .itself, .rehash (-1),
        .pop 33 none, .lookup 3, .length, .items]
    rules.Lawful (Setoid.ker (· % 10)) ∧
      (runAll (MapRequest.onTable rules) requests ⟨Table.new (-5), #[]⟩).1 =
        (runAll MapRequest.onContent requests
          (∅ : Content (Setoid.ker fun n : Nat => n % 10) Nat)).1 := by
  intro rules requests
  have hr : rules.Lawful (Setoid.ker (· % 10)) := Rules.lawful_through _ _ _ _
  obtain ⟨before, after, hsplit, hanswers, -, hhead⟩ :=
    (answers_of_table_eq_answers_of_map hr (-5) requests).2
  cases after with
  | nil =>
      rw [List.append_nil] at hsplit
      exact ⟨hr, hsplit ▸ hanswers⟩
  | cons request rest => exact absurd rfl (hhead request rfl).limited

end OpenAddressing
