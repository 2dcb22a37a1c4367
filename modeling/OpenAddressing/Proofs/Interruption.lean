import OpenAddressing.Proofs.Union
import OpenAddressing.Value.Source

/-!
# Bulk changes that are refused

Entries are set or merged one by one. An element that is no entry stops that, and so do values that
cannot be combined. By then the table is what the elements before have made of it: the run that is
stopped does what a run over those alone does, and is refused after that.
-/

namespace OpenAddressing

variable {κ ν ε : Type} {rules : Rules κ ε} {same : Setoid κ} {cause : ε}
  {combine : Nat → ν → ν → Except ε ν} {serial i : Nat}

private theorem eq_take_cons_drop {α : Type} {l : List α} {a : α} (h : l[i]? = some a) :
    l = l.take i ++ a :: l.drop (i + 1) := by
  obtain ⟨hi, rfl⟩ := List.getElem?_eq_some_iff.mp h
  rw [List.getElem_cons_drop, List.take_append_drop]

namespace Table

variable {t t' : Table κ ν} {entries : List (κ × ν)} {key : κ} {old : ν}

/-- Of the entries that are merged into a table, the one at `i` is the first whose value cannot be
combined with the value there, which is that of `key`. -/
structure FirstRefused (same : Setoid κ) (combine : Nat → ν → ν → Except ε ν) (serial : Nat)
    (t : Table κ ν) (entries : List (κ × ν)) (i : Nat) (key : κ) (old : ν) (cause : ε) : Prop where
  has : t.Has key old
  refused : ∃ e, entries[i]? = some e ∧ same.r key e.1 ∧
    combine (serial + i) old e.2 = .error cause
  earlier : Combinable same combine serial t (entries.take i)

namespace FirstRefused

theorem congr (h : FirstRefused same combine serial t entries i key old cause)
    (hhas : ∀ k v, t'.Has k v ↔ t.Has k v) :
    FirstRefused same combine serial t' entries i key old cause where
  has := (hhas key old).mpr h.has
  refused := h.refused
  earlier := h.earlier.congr hhas

theorem not_same (h : FirstRefused same combine serial t entries i key old cause)
    (hdistinct : Distinct same entries) : ∀ e ∈ entries.take i, ¬same.r key e.1 := by
  intro f hf hs
  obtain ⟨e, he, hke, -⟩ := h.refused
  rw [eq_take_cons_drop he] at hdistinct
  have hne := (List.pairwise_append.mp hdistinct).2.2 f hf e (by simp)
  exact hne (same.trans (same.symm hs) hke)

theorem exists_of_not_combinable (h : ¬Combinable same combine serial t entries) :
    ∃ i key old cause, FirstRefused same combine serial t entries i key old cause := by
  induction entries using List.reverseRecOn with
  | nil => exact absurd (combinable_nil t) h
  | append_singleton first last ih =>
      by_cases hfirst : Combinable same combine serial t first
      · -- Only the last value can be the one that is refused.
        obtain ⟨k, v, hk, hs, cause, hx⟩ : ∃ k v, t.Has k v ∧ same.r k last.1 ∧
            ∃ cause, combine (serial + first.length) v last.2 = .error cause := by
          by_contra hnone
          apply h
          apply hfirst.concat
          intro k v hk hs
          cases hx : combine (serial + first.length) v last.2 with
          | ok x => exact ⟨x, rfl⟩
          | error cause => exact absurd ⟨k, v, hk, hs, cause, hx⟩ hnone
        have hlast : (first ++ [last])[first.length]? = some last := by simp
        exact ⟨first.length, k, v, cause, hk, ⟨last, hlast, hs, hx⟩, by simpa using hfirst⟩
      · obtain ⟨i, key, old, cause, hhas, ⟨e, he, hs, hx⟩, hearlier⟩ := ih hfirst
        have hi : i < first.length := (List.getElem?_eq_some_iff.mp he).1
        have he' : (first ++ [last])[i]? = some e := by
          rw [List.getElem?_append_left hi, he]
        have htake : (first ++ [last]).take i = first.take i :=
          List.take_append_of_le_length hi.le
        exact ⟨i, key, old, cause, hhas, ⟨e, he', hs, hx⟩, htake ▸ hearlier⟩

end FirstRefused

end Table

namespace Value

theorem entries_list (items : List Value) : (list items).entries = .ok (items.map pair) := rfl

/-- Those items are no entries that cannot be taken apart into exactly two. -/
theorem pair_refused_iff (item : Value) :
    (∃ refusal, item.pair = .error refusal) ↔ ∀ a b, item.parts? ≠ some [a, b] := by
  rw [pair]
  split
  · next h => simp [h]
  · next a b h => simp [h]
  · next parts hne h =>
      have htwo (a b : Value) : parts ≠ [a, b] := hne a b
      by_cases hfew : parts.length < 2
      · simp [h, hfew, htwo]
      · simp [h, hfew, htwo]

end Value

/-! ## Operations -/

namespace Op

open Table

variable [Inhabited κ] [Inhabited ν] {s : Journal κ ν} {entries : List (κ × ν)} {key : κ} {old : ν}

theorem update_append (rules : Rules κ ε) (first rest : List (Except ε (κ × ν))) :
    (update rules (first ++ rest) : Op κ ν ε Unit) = (do
      update rules first
      update rules rest) := by
  induction first with
  | nil => rw [List.nil_append, update, pure_bind]
  | cons element first ih =>
      cases element with
      | error cause => rfl
      | ok entry => rw [List.cons_append, update, update, ih, bind_assoc]

theorem update_eq_forM (rules : Rules κ ε) (pairs : List (κ × ν)) :
    (update rules (pairs.map .ok) : Op κ ν ε Unit) = pairs.forM fun e => set rules e.1 e.2 := by
  induction pairs with
  | nil => rfl
  | cons e rest ih =>
      rw [List.map_cons, update, ih]
      rfl

theorem update_refused (rules : Rules κ ε) {elements : List (Except ε (κ × ν))}
    (h : elements[i]? = some (.error cause)) :
    (update rules elements : Op κ ν ε Unit) = (do
      update rules (elements.take i)
      throw (.refused cause)) := by
  conv_lhs => rw [eq_take_cons_drop h, update_append]
  simp only [update]

theorem mergeWith_take_merged (hr : rules.Lawful same) (h : s.table.Sound rules same)
    (hdistinct : Distinct same entries)
    (hrefused : FirstRefused same combine serial s.table entries i key old cause) :
    (mergeWith rules combine serial (entries.take i)).Outcome s
      (fun _ s' => s'.table.Sound rules same ∧
        Merged same combine serial s.table (entries.take i) s'.table ∧ s'.table.Has key old)
      (fun fault s' => rules.LacksRoom fault ∧ s'.table.Sound rules same) := by
  have htake : Distinct same (entries.take i) := hdistinct.sublist (List.take_sublist i entries)
  apply (mergeWith_merged hr h htake hrefused.earlier).imp _ fun _ _ hlost => hlost
  rintro _ s' ⟨hsound, hmerged⟩
  have hold := (hmerged key old).mpr (.kept hrefused.has (hrefused.not_same hdistinct))
  exact ⟨hsound, hmerged, hold⟩

theorem mergeWith_eq_of_firstRefused (hr : rules.Lawful same) (h : s.table.Sound rules same)
    (hdistinct : Distinct same entries)
    (hrefused : FirstRefused same combine serial s.table entries i key old cause) :
    mergeWith rules combine serial entries s = (do
      mergeWith rules combine serial (entries.take i)
      throw (.refused cause) : Op κ ν ε Unit) s := by
  have hfirst := mergeWith_take_merged hr h hdistinct hrefused
  obtain ⟨e, he, hs, hx⟩ := hrefused.refused
  have hlength : (entries.take i).length = i := by
    have hi := (List.getElem?_eq_some_iff.mp he).1
    rw [List.length_take]
    omega
  conv_lhs => rw [eq_take_cons_drop he, mergeWith_append, hlength]
  rw [bind_run, bind_run]
  unfold Outcome at hfirst
  cases hrun : mergeWith rules combine serial (entries.take i) s with
  | ok _ s' =>
      rw [hrun] at hfirst
      exact mergeWith_refused hr hfirst.1 hfirst.2.2 hs hx _
  | error fault s' => rfl

end Op

/-! ## Errands -/

namespace Errand

open Table

variable {α β γ : Type} {s : Shelf κ ν ε} {x : Errand κ ν ε α} {first : Errand κ ν ε β}
  {id other : Nat} {v w : Volume κ ν ε}

/-- Begun on `s`, an errand does what another one does, and is refused after that. If that one stops
by itself, so does this one, at the same fault. -/
def StopsAfter (x : Errand κ ν ε α) (first : Errand κ ν ε β) (cause : ε) (s : Shelf κ ν ε) : Prop :=
  x s = (do
    let _ ← first
    throw (some (.refused cause)) : Errand κ ν ε α) s

namespace StopsAfter

theorem bind (h : x.StopsAfter first cause s) (f : α → Errand κ ν ε γ) :
    (x >>= f).StopsAfter first cause s := by
  rw [StopsAfter, bind_run, h, bind_run, bind_run]
  cases first s <;> rfl

theorem after {y : Errand κ ν ε γ} {f : γ → Errand κ ν ε α} {g : γ → Errand κ ν ε β}
    (h : y.Ends s (fun a s' => (f a).StopsAfter (g a) cause s') fun _ _ => True) :
    (y >>= f).StopsAfter (y >>= g) cause s := by
  unfold Ends at h
  rw [StopsAfter, bind_assoc, bind_run, bind_run]
  cases hy : y s with
  | ok a s' =>
      rw [hy] at h
      exact h
  | error fault s' => rfl

theorem ends (h : x.StopsAfter first cause s) {post : β → Shelf κ ν ε → Prop}
    {lost : Option (Fault κ ε) → Shelf κ ν ε → Prop} (hfirst : first.Ends s post lost) :
    x.Ends s (fun _ _ => False) fun fault s' =>
      fault = some (.refused cause) ∧ (∃ b, post b s') ∨ lost fault s' := by
  rw [Ends, h]
  change Errand.Ends _ s _ _
  rw [ends_bind]
  apply hfirst.imp
  · exact fun b s' hb => Or.inl ⟨rfl, b, hb⟩
  · exact fun _ _ hlost => Or.inr hlost

end StopsAfter

theorem change_stopsAfter (hv : s.volumes[id]? = some v) {op op' : Rules κ ε → Op κ ν ε α}
    (h : op v.rules ⟨v.table, s.events⟩ = (do
      let _ ← op' v.rules
      throw (.refused cause) : Op κ ν ε α) ⟨v.table, s.events⟩) :
    (change id op).StopsAfter (change id op') cause s := by
  rw [StopsAfter, bind_run]
  simp only [change, tend, hv, h, Op.bind_run]
  cases op' v.rules ⟨v.table, s.events⟩ <;> rfl

variable [Inhabited κ] [Inhabited ν]

def mergeFirst (n : Nat) (combine : Nat → ν → ν → Except ε ν) (serial id other : Nat) :
    Errand κ ν ε Unit := do
  let entries ← entriesOf other
  change id fun rules => Op.mergeWith rules combine serial (entries.take n)

theorem update_stopsAfter (manner : Manner κ ν ε) (hv : s.volumes[id]? = some v)
    {elements : List (Except ε (κ × ν))} (h : elements[i]? = some (.error cause)) :
    ((Shelf.Request.change id (.update elements)).perform manner).StopsAfter
      ((Shelf.Request.change id (.update (elements.take i))).perform manner) cause s := by
  apply change_stopsAfter hv
  simp only [Shelf.Change.op, Op.update_refused v.rules h, bind_assoc, pure_bind]
  rfl

theorem mergeInto_stopsAfter (manner : Manner κ ν ε) (hv : s.volumes[id]? = some v)
    (hw : s.volumes[other]? = some w) (hr : v.rules.Lawful same)
    (h : v.table.Sound v.rules same) (hw' : w.table.Sound w.rules same) {key : κ} {old : ν}
    (hrefused : FirstRefused same combine serial v.table w.table.entries i key old cause) :
    ((Shelf.Request.mergeInto combine serial id other).perform manner).StopsAfter
      (mergeFirst i combine serial id other) cause s := by
  apply StopsAfter.after
  apply (ends_entriesOf_set hw hw').imp _ fun _ _ _ => trivial
  rintro entries _ ⟨rfl, low, hlow, rfl⟩
  obtain ⟨start, hstart, hid⟩ := exists_start hv hw h hlow
  have hstops := Op.mergeWith_eq_of_firstRefused (s := ⟨start, s.events⟩) hr (hstart.sound h)
    hw'.distinct_entries (hrefused.congr fun _ _ => hstart.sameSlots.has_iff)
  exact (change_stopsAfter hid hstops).bind _

theorem ends_mergeFirst (hv : s.volumes[id]? = some v) (hw : s.volumes[other]? = some w)
    (hr : v.rules.Lawful same) (h : v.table.Sound v.rules same)
    (hw' : w.table.Sound w.rules same) {key : κ} {old : ν}
    (hrefused : FirstRefused same combine serial v.table w.table.entries i key old cause) :
    (mergeFirst i combine serial id other).Ends s
      (fun _ s' => ∃ low t, w.table.Refloored low ∧ t.Sound v.rules same ∧
        s'.volumes = (s.volumes.set other (w.withTable low)).set id (v.renew t) ∧
        Merged same combine serial v.table (w.table.entries.take i) t ∧ t.Has key old)
      (fun fault s' => ∃ low t, w.table.Refloored low ∧ t.Sound v.rules same ∧
        s'.volumes = (s.volumes.set other (w.withTable low)).set id (v.renew t) ∧
        ∃ f, fault = some f ∧ v.rules.LacksRoom f) := by
  apply ends_passOn hv hw h hw' fun entries rules =>
    Op.mergeWith rules combine serial (entries.take i)
  intro start hstart
  have hhas (k : κ) (x : ν) : start.Has k x ↔ v.table.Has k x := hstart.sameSlots.has_iff
  apply (Op.mergeWith_take_merged (s := ⟨start, s.events⟩) hr (hstart.sound h)
    hw'.distinct_entries (hrefused.congr hhas)).imp _ fun _ _ hlost => hlost
  exact fun _ _ ⟨hsound, hmerged, hold⟩ => ⟨hsound, hmerged.congr hhas, hold⟩

end Errand

namespace Shelf

open Errand Table

variable [Inhabited κ] [Inhabited ν] {s : Shelf κ ν ε} {id other : Nat} {v w : Volume κ ν ε}
  {key : κ} {old : ν} {elements : List (Except ε (κ × ν))}

theorem onShelf_of_stopsAfter {manner : Manner κ ν ε} {request first : Request κ ν ε}
    (h : (request.perform manner).StopsAfter (first.perform manner) cause s) :
    (request.onShelf manner s).2 = (first.onShelf manner s).2 ∧
      (∀ a, (first.onShelf manner s).1 = .ok a →
        (request.onShelf manner s).1 = .error (some (.refused cause))) ∧
      ∀ fault, (first.onShelf manner s).1 = .error fault →
        (request.onShelf manner s).1 = .error fault := by
  rw [StopsAfter, bind_run] at h
  simp only [Request.onShelf, h]
  cases first.perform manner s with
  | ok a s' => exact ⟨rfl, fun _ _ => rfl, fun _ => nofun⟩
  | error fault s' => exact ⟨rfl, fun _ => nofun, fun _ hfault => hfault⟩

theorem update_onShelf (manner : Manner κ ν ε) (hv : s.volumes[id]? = some v)
    (good : Table κ ν → Prop)
    (hop : (Op.update v.rules elements).Outcome ⟨v.table, s.events⟩
      (fun _ j => j.table.Sound v.rules same ∧ good j.table)
      (fun f j => v.rules.LacksRoom f ∧ j.table.Sound v.rules same)) :
    let result := (Request.change id (.update elements)).onShelf manner s
    ∃ t, t.Sound v.rules same ∧ result.2.volumes = s.volumes.set id (v.renew t) ∧
      (result.1 = .ok .nothing ∧ good t ∨ v.Starves result.1) := by
  intro result
  have hends : ((Request.change id (.update elements)).perform manner).Ends s
      (fun a s' => a = .nothing ∧ ∃ t, t.Sound v.rules same ∧ good t ∧
        s'.volumes = s.volumes.set id (v.renew t))
      (fun fault s' => ∃ f t, fault = some f ∧ v.rules.LacksRoom f ∧ t.Sound v.rules same ∧
        s'.volumes = s.volumes.set id (v.renew t)) := by
    rw [Request.perform, change, ends_tend hv, Change.op, Op.outcome_bind]
    apply hop.imp
    · exact fun _ j hj => ⟨rfl, j.table, hj.1, hj.2, rfl⟩
    · exact fun fault j hj => ⟨fault, j.table, rfl, hj.1, hj.2, rfl⟩
  rcases hends.onShelf with ⟨a, ha, rfl, t, hsound, hgood, hs'⟩ |
    ⟨_, ha, f, t, rfl, hroom, hsound, hs'⟩
  · exact ⟨t, hsound, hs', Or.inl ⟨ha, hgood⟩⟩
  · exact ⟨t, hsound, hs', Or.inr ⟨f, ha, hroom⟩⟩

theorem update_stops (manner : Manner κ ν ε) (hv : s.volumes[id]? = some v)
    (hr : v.rules.Lawful same) (h : v.table.Sound v.rules same)
    (hi : elements[i]? = some (.error cause))
    (hfirst : ∀ earlier, .error earlier ∉ elements.take i) :
    let full := (Request.change id (.update elements)).onShelf manner s
    let cut := (Request.change id (.update (elements.take i))).onShelf manner s
    full.2 = cut.2 ∧
      (cut.1 = .ok .nothing ∧ full.1 = .error (some (.refused cause)) ∨
        v.Starves cut.1 ∧ full.1 = cut.1) := by
  intro full cut
  obtain ⟨hshelf, hok, herror⟩ := onShelf_of_stopsAfter (update_stopsAfter manner hv hi)
  have hop : (Op.update v.rules (elements.take i)).Outcome ⟨v.table, s.events⟩
      (fun _ j => j.table.Sound v.rules same ∧ True)
      (fun f j => v.rules.LacksRoom f ∧ j.table.Sound v.rules same) :=
    (update_sound hr h (elements.take i)).imp (fun _ _ hj => ⟨hj, trivial⟩)
      fun _ _ hj => ⟨(hj.1 hfirst).lacksRoom, hj.2⟩
  obtain ⟨-, -, -, hcut⟩ := update_onShelf manner hv (fun _ => True) hop
  refine ⟨hshelf, ?_⟩
  rcases hcut with ⟨hcut, -⟩ | ⟨f, hf, hroom⟩
  · exact Or.inl ⟨hcut, hok _ hcut⟩
  · exact Or.inr ⟨⟨f, hf, hroom⟩, (herror _ hf).trans hf.symm⟩

theorem mergeInto_stops (manner : Manner κ ν ε) (hv : s.volumes[id]? = some v)
    (hw : s.volumes[other]? = some w) (hr : v.rules.Lawful same)
    (h : v.table.Sound v.rules same) (hw' : w.table.Sound w.rules same)
    (hrefused : FirstRefused same combine serial v.table w.table.entries i key old cause) :
    let into := (Request.mergeInto combine serial id other).onShelf manner s
    ∃ low t, w.table.Refloored low ∧ t.audit v.rules = .ok () ∧
      into.2.volumes = (s.volumes.set other (w.withTable low)).set id (v.renew t) ∧
      (into.1 = .error (some (.refused cause)) ∧
          Merged same combine serial v.table (w.table.entries.take i) t ∧ t.Has key old ∨
        v.Starves into.1) := by
  intro into
  have hends := (mergeInto_stopsAfter manner hv hw hr h hw' hrefused).ends
    (ends_mergeFirst hv hw hr h hw' hrefused)
  rcases hends.onShelf with ⟨_, -, hfalse⟩ | ⟨_, ha, hstops⟩
  · exact hfalse.elim
  rcases hstops with ⟨rfl, _, low, t, hlow, hsound, hs', hmerged⟩ |
    ⟨low, t, hlow, hsound, hs', f, rfl, hroom⟩
  · exact ⟨low, t, hlow, (audit_eq_ok_iff hr).mpr hsound.toWellFormed, hs', Or.inl ⟨ha, hmerged⟩⟩
  · exact ⟨low, t, hlow, (audit_eq_ok_iff hr).mpr hsound.toWellFormed, hs',
      Or.inr ⟨f, ha, hroom⟩⟩

/-- If a merge is refused, there is a first entry whose value cannot be combined. -/
theorem exists_firstRefused (manner : Manner κ ν ε) (hv : s.volumes[id]? = some v)
    (hw : s.volumes[other]? = some w) (hr : v.rules.Lawful same)
    (h : v.table.Sound v.rules same) (hw' : w.table.Sound w.rules same)
    (hinto : ((Request.mergeInto combine serial id other).onShelf manner s).1 =
      .error (some (.refused cause))) :
    ∃ i key old, FirstRefused same combine serial v.table w.table.entries i key old cause := by
  have hstarves : ¬v.Starves (.error (some (.refused cause))) := by
    rintro ⟨f, hf, hroom⟩
    exact hroom.ne_refused cause (by simpa using hf.symm)
  by_cases hcombine : Combinable same combine serial v.table w.table.entries
  · obtain ⟨_, _, -, -, -, ⟨hok, -⟩ | hlost⟩ :=
      mergeInto_merges manner hv hw hr h hw' serial hcombine
    · rw [hinto] at hok
      cases hok
    · rw [hinto] at hlost
      exact absurd hlost hstarves
  · obtain ⟨i, key, old, cause', hrefused⟩ := FirstRefused.exists_of_not_combinable hcombine
    obtain ⟨_, _, -, -, -, ⟨hcause, -⟩ | hlost⟩ :=
      mergeInto_stops manner hv hw hr h hw' hrefused
    · rw [hinto] at hcause
      cases hcause
      exact ⟨i, key, old, hrefused⟩
    · rw [hinto] at hlost
      exact absurd hlost hstarves

theorem mergeWith_stops (manner : Manner κ ν ε) (hv : s.volumes[id]? = some v)
    (hw : s.volumes[other]? = some w) (hr : v.rules.Lawful same)
    (h : v.table.Sound v.rules same) (hw' : w.table.Sound w.rules same)
    (hrefused : FirstRefused same combine serial v.table w.table.entries i key old cause) :
    let apart := (Request.mergeWith combine serial id other).onShelf manner s
    (∃ low, w.table.Refloored low ∧ apart.2.volumes = s.volumes.set other (w.withTable low)) ∧
      (apart.1 = .error (some (.refused cause)) ∨ v.Starves apart.1) := by
  intro apart
  have hcopy : v.table.SameSlots v.table.copy := ⟨rfl, rfl, rfl⟩
  have hrefused' := hrefused.congr fun _ _ => hcopy.has_iff
  have hop : (Op.mergeWith v.rules combine serial w.table.entries).Outcome
      ⟨v.table.copy, s.events⟩ (fun _ _ => False)
      fun f _ => f = .refused cause ∨ v.rules.LacksRoom f := by
    rw [Op.Outcome, Op.mergeWith_eq_of_firstRefused hr h.copy hw'.distinct_entries hrefused']
    change Op.Outcome _ _ _ _
    rw [Op.outcome_bind]
    apply (Op.mergeWith_take_merged hr h.copy hw'.distinct_entries hrefused').imp
    · exact fun _ _ _ => Or.inl rfl
    · exact fun _ _ hlost => Or.inr hlost.1
  have hpush : ∃ volumes, (∃ low, w.table.Refloored low ∧
      volumes = s.volumes.set other (w.withTable low)) ∧
      ((∃ t, apart.1 = .ok .nothing ∧ apart.2.volumes = volumes ++ [v.renew t] ∧ False) ∨
        (∃ f, apart.1 = .error (some f) ∧ (f = .refused cause ∨ v.rules.LacksRoom f)) ∧
          apart.2.volumes = volumes) := by
    apply push_onShelf manner _ rfl
    apply ends_mergedWith hv hw hw'
    exact hop
  obtain ⟨_, hframe, ⟨-, -, -, hfalse⟩ | ⟨⟨f, ha, hf⟩, hvolumes⟩⟩ := hpush
  · exact hfalse.elim
  · subst hvolumes
    refine ⟨hframe, ?_⟩
    rcases hf with rfl | hroom
    · exact Or.inl ha
    · exact Or.inr ⟨f, ha, hroom⟩

/-- Bulk changes of a table whose rules are lawful do all or stop exactly where an element is
refused, unless there is no memory. An update sets its entries in order, so that the last value of a
class is kept with the key that was stored first. An element that is no entry stops it in the state
that an update with those before leaves. A merge is refused if and only if values cannot be
combined. Those that meet first stop it in the state that the entries before leave: an audit still
accepts the table, and the key keeps its value. A merge into a copy leaves the table itself as it
was. The elements of a list that are no entries are those that have not exactly two parts. -/
theorem bulk_changes_exact (manner : Manner κ ν ε) (requests : List (Request κ ν ε))
    (hv : (reached manner requests).volumes[id]? = some v) (hr : v.rules.Lawful same) :
    let s := reached manner requests
    (∀ pairs : List (κ × ν),
      let all := (Request.change id (.update (pairs.map .ok))).onShelf manner s
      Op.update v.rules (pairs.map .ok) = pairs.forM (fun e => Op.set v.rules e.1 e.2) ∧
      ∃ t, t.Sound v.rules same ∧ all.2.volumes = s.volumes.set id (v.renew t) ∧
        (all.1 = .ok .nothing ∧ Updated same v.table pairs t ∨ v.Starves all.1)) ∧
    (∀ (elements : List (Except ε (κ × ν))) (i : Nat) (cause : ε),
      elements[i]? = some (.error cause) → (∀ earlier, .error earlier ∉ elements.take i) →
      let full := (Request.change id (.update elements)).onShelf manner s
      let cut := (Request.change id (.update (elements.take i))).onShelf manner s
      full.2 = cut.2 ∧
        (cut.1 = .ok .nothing ∧ full.1 = .error (some (.refused cause)) ∨
          v.Starves cut.1 ∧ full.1 = cut.1)) ∧
    (∀ (other : Nat) (w : Volume κ ν ε) (combine : Nat → ν → ν → Except ε ν) (serial : Nat)
      (cause : ε), s.volumes[other]? = some w → w.rules.Lawful same →
      let request := Request.mergeInto combine serial id other
      let into := request.onShelf manner s
      let apart := (Request.mergeWith combine serial id other).onShelf manner s
      (into.1 = .error (some (.refused cause)) →
        ∃ i key old, FirstRefused same combine serial v.table w.table.entries i key old cause) ∧
      ∀ i key old, FirstRefused same combine serial v.table w.table.entries i key old cause →
        (request.perform manner).StopsAfter (mergeFirst i combine serial id other) cause s ∧
        (∃ low t, w.table.Refloored low ∧ t.audit v.rules = .ok () ∧
          into.2.volumes = (s.volumes.set other (w.withTable low)).set id (v.renew t) ∧
          (into.1 = .error (some (.refused cause)) ∧
              Merged same combine serial v.table (w.table.entries.take i) t ∧ t.Has key old ∨
            v.Starves into.1)) ∧
        (apart.1 = .error (some (.refused cause)) ∨ v.Starves apart.1) ∧
        (other ≠ id → apart.2.volumes[id]? = some v)) ∧
    (∀ items, (Value.list items).entries = .ok (items.map Value.pair)) ∧
    ∀ item : Value, (∃ refusal, item.pair = .error refusal) ↔
      ∀ a b, item.parts? ≠ some [a, b] := by
  intro s
  have hall : ∀ u ∈ s.volumes, SoundUnder same u := (governs_sound manner same).all_reached requests
  have h := (hall v (List.mem_of_getElem? hv) hr).1
  refine ⟨fun pairs => ⟨Op.update_eq_forM v.rules pairs, ?_⟩, ?_, ?_, Value.entries_list,
    Value.pair_refused_iff⟩
  · exact update_onShelf manner hv _ (Op.update_updated (s := ⟨v.table, s.events⟩) hr h pairs)
  · intro elements i cause hi hfirst
    exact update_stops manner hv hr h hi hfirst
  · intro other w combine serial cause hw hr' request into apart
    have h' := (hall w (List.mem_of_getElem? hw) hr').1
    refine ⟨exists_firstRefused manner hv hw hr h h', fun i key old hrefused => ?_⟩
    obtain ⟨⟨low, -, hapart⟩, hreply⟩ := mergeWith_stops manner hv hw hr h h' hrefused
    refine ⟨mergeInto_stopsAfter manner hv hw hr h h' hrefused,
      mergeInto_stops manner hv hw hr h h' hrefused, hreply, fun hother => ?_⟩
    rw [hapart, List.getElem?_set_ne hother, hv]

private def causeOf : Reply Nat Nat String → Option String
  | .error (some (.refused cause)) => some cause
  | _ => none

private theorem eq_refused_of_causeOf {reply : Reply Nat Nat String} {cause : String}
    (h : causeOf reply = some cause) : reply = .error (some (.refused cause)) := by
  unfold causeOf at h
  split at h
  · rw [Option.some.inj h]
  · cases h

/-- A third element that is no entry, and a third entry whose value is refused. -/
theorem bulk_changes_exact_units :
    let s : Shelf Nat Nat String := reached Manner.decimal (unitTables ++ unitChanges)
    let elements : List (Except String (Nat × Nat)) :=
      [.ok (13, 5), .ok (21, 6), .error "single", .ok (3, 1)]
    let full := (Request.change 0 (.update elements)).onShelf Manner.decimal s
    let cut := (Request.change 0 (.update (elements.take 2))).onShelf Manner.decimal s
    let combine : Nat → Nat → Nat → Except String Nat := fun _ old new =>
      if new = 2 then .error "two" else .ok (old + new)
    let into := (Request.mergeInto combine 0 0 1).onShelf Manner.decimal s
    let apart := (Request.mergeWith combine 0 0 1).onShelf Manner.decimal s
    full.2 = cut.2 ∧ itemsAt 0 full.2 = [(21, 6), (3, 5), (7, 70)] ∧
    into.1 = .error (some (.refused "two")) ∧ itemsAt 0 into.2 = [(9, 90), (3, 30), (7, 71)] ∧
    ∃ v w t i key old, s.volumes[0]? = some v ∧ s.volumes[1]? = some w ∧
      FirstRefused (Setoid.ker (· % 10)) combine 0 v.table w.table.entries i key old "two" ∧
      into.2.volumes[0]? = some (v.renew t) ∧ t.audit v.rules = .ok () ∧
      apart.2.volumes[0]? = some v := by
  intro s elements full cut combine into apart
  obtain ⟨v, w, hv, hw, hr, hr'⟩ := exists_units (ε := String)
  obtain ⟨-, hupdate, hmerge, -⟩ :=
    bulk_changes_exact Manner.decimal (unitTables ++ unitChanges) hv hr
  have hfull := (hupdate elements 2 "single" rfl (by simp [elements])).1
  have hinto : into.1 = .error (some (.refused "two")) := eq_refused_of_causeOf (by decide +kernel)
  obtain ⟨hrefused, hstops⟩ := hmerge 1 w combine 0 "two" hw hr'
  obtain ⟨i, key, old, hfirst⟩ := hrefused hinto
  obtain ⟨-, ⟨low, t, -, haudit, hvolumes, -⟩, -, hapart⟩ := hstops i key old hfirst
  have hvolume : into.2.volumes[0]? = some (v.renew t) := by
    rw [hvolumes, List.getElem?_set_self]
    simpa using (List.getElem?_eq_some_iff.mp hv).1
  have hkept : apart.2.volumes[0]? = some v := by
    unfold apart s
    exact hapart (by simp)
  exact ⟨hfull, by decide +kernel, hinto, by decide +kernel, v, w, t, i, key, old, hv, hw, hfirst,
    hvolume, haudit, hkept⟩

end Shelf

end OpenAddressing
