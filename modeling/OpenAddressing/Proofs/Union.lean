import OpenAddressing.Proofs.Blend

/-!
# Merges of tables

Two tables on a shelf are merged into the first one, into a copy of it, or into a new table. Either
way the entries of the second one are read first and then taken in one after the other, so that it
does no harm if both are the same table.
-/

namespace OpenAddressing

variable {κ ν ε : Type} {same : Setoid κ} {manner : Manner κ ν ε}

def Volume.Starves (v : Volume κ ν ε) (reply : Shelf.Reply κ ν ε) : Prop :=
  ∃ fault, reply = .error (some fault) ∧ v.rules.LacksRoom fault

namespace Errand

open Table

variable {s : Shelf κ ν ε} {id other : Nat} {v w : Volume κ ν ε} {low : Table κ ν}

theorem Ends.answering {α : Type} {x : Errand κ ν ε Unit} {good : Shelf κ ν ε → Prop}
    {lost : Option (Fault κ ε) → Shelf κ ν ε → Prop} (h : x.Ends s (fun _ s' => good s') lost)
    (a : α) : (do x; pure a : Errand κ ν ε α).Ends s (fun b s' => b = a ∧ good s') lost :=
  (ends_bind x _).mpr (h.imp (fun _ _ hgood => ⟨rfl, hgood⟩) fun _ _ hlost => hlost)

theorem exists_start (hv : s.volumes[id]? = some v) (hw : s.volumes[other]? = some w)
    (h : v.table.Sound v.rules same) (hlow : w.table.Refloored low) :
    ∃ start, v.table.Refloored start ∧
      (s.volumes.set other (w.withTable low))[id]? = some (v.withTable start) := by
  by_cases hid : other = id
  · subst hid
    obtain rfl := Option.some.inj (hv.symm.trans hw)
    exact ⟨low, hlow, List.getElem?_set_self (List.getElem?_eq_some_iff.mp hv).1⟩
  · exact ⟨v.table, h.refloored, (List.getElem?_set_ne hid).trans hv⟩

theorem exists_refloored (hv : s.volumes[id]? = some v) (hw : s.volumes[other]? = some w)
    {low low' : Table κ ν} (hlow : v.table.Refloored low) (hlow' : w.table.Refloored low') :
    ∃ v', ((s.volumes.set id (v.withTable low)).set other (w.withTable low'))[id]? = some v' ∧
      v'.rules = v.rules ∧ v.table.Refloored v'.table := by
  have hlt := (List.getElem?_eq_some_iff.mp hv).1
  by_cases hid : other = id
  · subst hid
    obtain rfl := Option.some.inj (hv.symm.trans hw)
    exact ⟨v.withTable low', List.getElem?_set_self (by simpa using hlt), rfl, hlow'⟩
  · exact ⟨v.withTable low, (List.getElem?_set_ne hid).trans (List.getElem?_set_self hlt), rfl,
      hlow⟩

/-- The entries of a table are read, then another one, which may be the same, is changed. -/
theorem ends_passOn (hv : s.volumes[id]? = some v) (hw : s.volumes[other]? = some w)
    (h : v.table.Sound v.rules same) (hw' : w.table.Sound w.rules same)
    (op : List (κ × ν) → Rules κ ε → Op κ ν ε Unit) {good : Table κ ν → Prop}
    (hop : ∀ start, v.table.Refloored start →
      (op w.table.entries v.rules).Outcome ⟨start, s.events⟩
        (fun _ j => j.table.Sound v.rules same ∧ good j.table)
        (fun f j => v.rules.LacksRoom f ∧ j.table.Sound v.rules same)) :
    (do
      let entries ← entriesOf other
      change id (op entries) : Errand κ ν ε Unit).Ends s
      (fun _ s' => ∃ low t, w.table.Refloored low ∧ t.Sound v.rules same ∧
        s'.volumes = (s.volumes.set other (w.withTable low)).set id (v.renew t) ∧ good t)
      (fun fault s' => ∃ low t, w.table.Refloored low ∧ t.Sound v.rules same ∧
        s'.volumes = (s.volumes.set other (w.withTable low)).set id (v.renew t) ∧
        ∃ f, fault = some f ∧ v.rules.LacksRoom f) := by
  rw [ends_bind]
  apply (ends_entriesOf_set hw hw').imp _ fun _ _ hl => hl.elim
  rintro entries _ ⟨rfl, low, hlow, rfl⟩
  obtain ⟨start, hstart, hid⟩ := exists_start hv hw h hlow
  rw [change, ends_tend hid]
  apply (hop start hstart).imp
  · rintro _ j ⟨hsound, hgood⟩
    exact ⟨low, j.table, hlow, hsound, rfl, hgood⟩
  · rintro fault j ⟨hroom, hsound⟩
    exact ⟨low, j.table, hlow, hsound, rfl, fault, rfl, hroom⟩

theorem ends_mergedWith [Inhabited κ] [Inhabited ν] (hv : s.volumes[id]? = some v)
    (hw : s.volumes[other]? = some w) (hw' : w.table.Sound w.rules same)
    {combine : Nat → ν → ν → Except ε ν} {serial : Nat} {good : Table κ ν → Prop}
    {lost : Fault κ ε → Prop}
    (hop : (Op.mergeWith v.rules combine serial w.table.entries).Outcome
      ⟨v.table.copy, s.events⟩ (fun _ j => good j.table) fun f _ => lost f) :
    (mergedWith combine serial id other).Ends s
      (fun u s' => (∃ low, w.table.Refloored low ∧
        s'.volumes = s.volumes.set other (w.withTable low)) ∧ ∃ t, u = v.renew t ∧ good t)
      (fun fault s' => (∃ low, w.table.Refloored low ∧
        s'.volumes = s.volumes.set other (w.withTable low)) ∧ ∃ f, fault = some f ∧ lost f) := by
  rw [mergedWith, ends_bind, ends_volume, hv]
  dsimp only
  rw [ends_bind]
  apply (ends_entriesOf_set hw hw').imp _ fun _ _ hl => hl.elim
  rintro entries _ ⟨rfl, low, hlow, rfl⟩
  rw [ends_loose]
  apply hop.imp
  · intro _ j hj
    exact ⟨⟨low, hlow, rfl⟩, j.table, rfl, hj⟩
  · intro fault j hj
    exact ⟨⟨low, hlow, rfl⟩, fault, rfl, hj⟩

theorem ends_merged [Inhabited κ] [Inhabited ν] (hv : s.volumes[id]? = some v)
    (hw : s.volumes[other]? = some w) (hr : v.rules.Lawful same)
    (h : v.table.Sound v.rules same) (hw' : w.table.Sound w.rules same) (serial : Nat) :
    (merged id other : Errand κ ν ε (Volume κ ν ε)).Ends s
      (fun u s' => (∃ low low', v.table.Refloored low ∧ w.table.Refloored low' ∧
        s'.volumes = (s.volumes.set id (v.withTable low)).set other (w.withTable low')) ∧
        ∃ t, u = v.renew t ∧ t.Sound v.rules same ∧
          Merged same (ε := ε) second serial v.table w.table.entries t)
      (fun fault s' => (∃ low low', v.table.Refloored low ∧ w.table.Refloored low' ∧
        s'.volumes = (s.volumes.set id (v.withTable low)).set other (w.withTable low')) ∧
        ∃ f, fault = some f ∧ v.rules.LacksRoom f) := by
  rw [merged, ends_bind, ends_volume, hv]
  dsimp only
  rw [ends_bind]
  apply (ends_entriesOf_set hv h).imp _ fun _ _ hl => hl.elim
  rintro entries _ ⟨rfl, low, hlow, rfl⟩
  obtain ⟨start, hstart, hother⟩ := exists_start hw hv hw' hlow
  have hnew (k : κ) (x : ν) : ¬(Table.new 0 : Table κ ν).Has k x := by
    rintro ⟨_, hi⟩
    exact not_holds_blank _ hi
  rw [ends_bind, ends_loose]
  apply (Op.update_merged (s := ⟨Table.new 0, s.events⟩) hr (Table.sound_new 0)
    h.distinct_entries 0).imp
  · rintro _ j ⟨hsound, hhalf⟩
    have hhas (k : κ) (x : ν) : j.table.Has k x ↔ v.table.Has k x := by
      rw [hhalf.has_iff_of_empty hnew, mem_entries]
    rw [ends_bind]
    apply (ends_entriesOf_set hother (hstart.sound hw')).imp _ fun _ _ hl => hl.elim
    rintro entries _ ⟨rfl, low', hlow', rfl⟩
    have hentries : start.entries = w.table.entries := hstart.sameSlots.entries_eq
    rw [ends_loose]
    apply (Op.update_merged (s := ⟨j.table, j.events⟩) hr hsound
      (hstart.sound hw').distinct_entries serial).imp
    · rintro _ j' ⟨hsound', hwhole⟩
      rw [hentries] at hwhole
      exact ⟨⟨low, low', hlow, hstart.trans hlow', rfl⟩, j'.table, rfl, hsound',
        hwhole.congr hhas⟩
    · rintro fault j' ⟨hroom, -⟩
      exact ⟨⟨low, low', hlow, hstart.trans hlow', rfl⟩, fault, rfl, hroom⟩
  · rintro fault j ⟨hroom, -⟩
    exact ⟨⟨low, start, hlow, hstart, (set_self hother).symm⟩, fault, rfl, hroom⟩

end Errand

namespace Shelf

open Errand Table

/-- What comes of a request that puts a new table with the rules of `v` on a shelf: all goes well
and the table is good, or there is no memory for it. The volumes before it are known either way. -/
def Yields (v : Volume κ ν ε) (volumes : List (Volume κ ν ε)) (good : Table κ ν → Prop)
    (result : Reply κ ν ε × Shelf κ ν ε) : Prop :=
  (∃ t, result.1 = .ok .nothing ∧ result.2.volumes = volumes ++ [v.renew t] ∧ good t) ∨
    v.Starves result.1 ∧ result.2.volumes = volumes

variable [Inhabited κ] [Inhabited ν] {s : Shelf κ ν ε} {id other : Nat} {v w : Volume κ ν ε}
  {combine : Nat → ν → ν → Except ε ν}

omit [Inhabited κ] [Inhabited ν] in
theorem Yields.good_of_ok {volumes : List (Volume κ ν ε)} {good : Table κ ν → Prop}
    {result : Reply κ ν ε × Shelf κ ν ε} (h : Yields v volumes good result)
    (hok : result.1 = .ok .nothing) :
    ∃ t, result.2.volumes = volumes ++ [v.renew t] ∧ good t := by
  rcases h with ⟨t, -, ht⟩ | ⟨⟨fault, hfault, -⟩, -⟩
  · exact ⟨t, ht⟩
  · rw [hok] at hfault
    cases hfault

theorem push_onShelf (manner : Manner κ ν ε) (request : Request κ ν ε)
    {x : Errand κ ν ε (Volume κ ν ε)}
    (hrequest : request.perform manner = (do push (← x); pure .nothing))
    {frame : List (Volume κ ν ε) → Prop} {good : Table κ ν → Prop} {lost : Fault κ ε → Prop}
    (hx : x.Ends s (fun u s' => frame s'.volumes ∧ ∃ t, u = v.renew t ∧ good t)
      (fun fault s' => frame s'.volumes ∧ ∃ f, fault = some f ∧ lost f)) :
    let result := request.onShelf manner s
    ∃ volumes, frame volumes ∧
      ((∃ t, result.1 = .ok .nothing ∧ result.2.volumes = volumes ++ [v.renew t] ∧ good t) ∨
        (∃ f, result.1 = .error (some f) ∧ lost f) ∧ result.2.volumes = volumes) := by
  intro result
  have hends : (request.perform manner).Ends s
      (fun a s' => ∃ volumes, frame volumes ∧ ∃ t, a = .nothing ∧
        s'.volumes = volumes ++ [v.renew t] ∧ good t)
      (fun fault s' => frame s'.volumes ∧ ∃ f, fault = some f ∧ lost f) := by
    rw [hrequest, ends_bind]
    apply hx.imp _ fun _ _ hlost => hlost
    rintro u s' ⟨hframe, t, rfl, ht⟩
    exact ⟨s'.volumes, hframe, t, rfl, rfl, ht⟩
  rcases hends.onShelf with ⟨a, ha, volumes, hframe, t, rfl, hs', ht⟩ | ⟨_, ha, hframe, f, rfl, hf⟩
  · exact ⟨volumes, hframe, Or.inl ⟨t, ha, hs', ht⟩⟩
  · exact ⟨_, hframe, Or.inr ⟨⟨f, ha, hf⟩, rfl⟩⟩

theorem mergeInto_merges (manner : Manner κ ν ε) (hv : s.volumes[id]? = some v)
    (hw : s.volumes[other]? = some w) (hr : v.rules.Lawful same) (h : v.table.Sound v.rules same)
    (hw' : w.table.Sound w.rules same) (serial : Nat)
    (hcombine : Combinable same combine serial v.table w.table.entries) :
    let result := (Request.mergeInto combine serial id other).onShelf manner s
    ∃ low t, w.table.Refloored low ∧ t.Sound v.rules same ∧
      result.2.volumes = (s.volumes.set other (w.withTable low)).set id (v.renew t) ∧
      (result.1 = .ok .nothing ∧ Merged same combine serial v.table w.table.entries t ∨
        v.Starves result.1) := by
  intro result
  have hop (start : Table κ ν) (hstart : v.table.Refloored start) :
      (Op.mergeWith v.rules combine serial w.table.entries).Outcome ⟨start, s.events⟩
        (fun _ j => j.table.Sound v.rules same ∧
          Merged same combine serial v.table w.table.entries j.table)
        (fun f j => v.rules.LacksRoom f ∧ j.table.Sound v.rules same) := by
    have hhas (k : κ) (x : ν) : start.Has k x ↔ v.table.Has k x := hstart.sameSlots.has_iff
    apply (Op.mergeWith_merged (s := ⟨start, s.events⟩) hr (hstart.sound h)
      hw'.distinct_entries (hcombine.congr hhas)).imp _ fun _ _ hlost => hlost
    exact fun _ _ hj => ⟨hj.1, hj.2.congr hhas⟩
  have hends := (ends_passOn hv hw h hw' (fun entries rules =>
    Op.mergeWith rules combine serial entries) hop).answering (Answer.nothing : Answer κ ν ε)
  rw [bind_assoc] at hends
  have hperform : ((Request.mergeInto combine serial id other).perform manner).Ends s _ _ := hends
  rcases hperform.onShelf with ⟨a, ha, rfl, low, t, hlow, hsound, hs', hmerged⟩ |
    ⟨_, ha, low, t, hlow, hsound, hs', f, rfl, hroom⟩
  · exact ⟨low, t, hlow, hsound, hs', Or.inl ⟨ha, hmerged⟩⟩
  · exact ⟨low, t, hlow, hsound, hs', Or.inr ⟨f, ha, hroom⟩⟩

theorem mergeWith_merges (manner : Manner κ ν ε) (hv : s.volumes[id]? = some v)
    (hw : s.volumes[other]? = some w) (hr : v.rules.Lawful same) (h : v.table.Sound v.rules same)
    (hw' : w.table.Sound w.rules same) (serial : Nat)
    (hcombine : Combinable same combine serial v.table w.table.entries) :
    ∃ volumes, (∃ low, w.table.Refloored low ∧
      volumes = s.volumes.set other (w.withTable low)) ∧
      Yields v volumes
        (fun t => t.Sound v.rules same ∧ Merged same combine serial v.table w.table.entries t)
        ((Request.mergeWith combine serial id other).onShelf manner s) := by
  have hcopy : v.table.SameSlots v.table.copy := ⟨rfl, rfl, rfl⟩
  have hhas (k : κ) (x : ν) : v.table.copy.Has k x ↔ v.table.Has k x := hcopy.has_iff
  apply push_onShelf manner _ rfl
  apply ends_mergedWith hv hw hw'
  apply (Op.mergeWith_merged (s := ⟨v.table.copy, s.events⟩) hr h.copy hw'.distinct_entries
    (hcombine.congr hhas)).imp _ fun _ _ hl => hl.1
  exact fun _ _ hj => ⟨hj.1, hj.2.congr hhas⟩

theorem merge_merges (manner : Manner κ ν ε) (hv : s.volumes[id]? = some v)
    (hw : s.volumes[other]? = some w) (hr : v.rules.Lawful same) (h : v.table.Sound v.rules same)
    (hw' : w.table.Sound w.rules same) (serial : Nat) :
    ∃ volumes, (∃ low low', v.table.Refloored low ∧ w.table.Refloored low' ∧
      volumes = (s.volumes.set id (v.withTable low)).set other (w.withTable low')) ∧
      Yields v volumes
        (fun t => t.Sound v.rules same ∧
          Merged same (ε := ε) second serial v.table w.table.entries t)
        ((Request.merge id other).onShelf manner s) :=
  push_onShelf manner _ rfl (ends_merged hv hw hr h hw' serial)

/-- A merge puts the same entries into a new table as one that combines values by taking the new
ones puts into a copy. -/
theorem merge_equals_mergeWith (manner : Manner κ ν ε) (hv : s.volumes[id]? = some v)
    (hw : s.volumes[other]? = some w) (hr : v.rules.Lawful same) (h : v.table.Sound v.rules same)
    (hw' : w.table.Sound w.rules same) (serial : Nat)
    (hself : ∀ k a, v.table.Has k a ∨ w.table.Has k a → manner.differ a a = false) :
    let union := (Request.merge id other).onShelf manner s
    let again := (Request.mergeWith second serial id other).onShelf manner union.2
    let n := s.volumes.length
    union.1 = .ok .nothing → again.1 = .ok .nothing →
      again.2.compare manner n (n + 1) = .ok (.bool true) ∧
        again.2.compare manner (n + 1) n = .ok (.bool true) := by
  intro union again n hunion hagain
  obtain ⟨_, ⟨low, low', hlow, hlow', rfl⟩, hyields⟩ := merge_merges manner hv hw hr h hw' serial
  obtain ⟨t, hvolumes, hsound, ht⟩ := hyields.good_of_ok hunion
  obtain ⟨v', hv', hrules, hfloor⟩ := exists_refloored hv hw hlow hlow'
  have hn : other < n := (List.getElem?_eq_some_iff.mp hw).1
  have hother : union.2.volumes[other]? = some (w.withTable low') := by
    rw [hvolumes, List.getElem?_append_left (by simpa using hn),
      List.getElem?_set_self (by simpa using hn)]
  have hid : union.2.volumes[id]? = some v' := by
    rw [hvolumes]
    exact (List.getElem?_append_left (List.getElem?_eq_some_iff.mp hv').1).trans hv'
  have htotal (n : Nat) (old new : ν) : ∃ x, second (ε := ε) n old new = .ok x := ⟨new, rfl⟩
  have hr' : v'.rules.Lawful same := hrules ▸ hr
  have hsound' : v'.table.Sound v'.rules same := hrules ▸ hfloor.sound h
  obtain ⟨_, ⟨low'', -, rfl⟩, hyields'⟩ := mergeWith_merges manner hid hother hr' hsound'
    (hlow'.sound hw') serial (combinable_of_total htotal serial _ _)
  obtain ⟨t', hvolumes', hsound'', ht'⟩ := hyields'.good_of_ok hagain
  have hhas (k : κ) (x : ν) : t.Has k x ↔ t'.Has k x := by
    have hentries : low'.entries = w.table.entries := hlow'.sameSlots.entries_eq
    have hmerged := ht'.congr fun _ _ => hfloor.sameSlots.has_iff
    change Merged same second serial v.table low'.entries t' at hmerged
    rw [hentries] at hmerged
    rw [ht k x, hmerged k x]
  have hdiffer (k : κ) (x : ν) (hx : t.Has k x) : manner.differ x x = false := by
    rcases ht.has_of_second hx with hk | ⟨l, hl⟩
    · exact hself k x (Or.inl hk)
    · exact hself l x (Or.inr hl)
  have hboth : again.2.volumes =
      union.2.volumes.set other ((w.withTable low').withTable low'') ++ [v'.renew t'] := hvolumes'
  have hlast : union.2.volumes[n]? = some (v.renew t) := by
    rw [hvolumes]
    simp [n]
  have hlength : union.2.volumes.length = n + 1 := by
    rw [hvolumes]
    simp [n]
  have hfirst : again.2.volumes[n]? = some (v.renew t) := by
    rw [hboth, List.getElem?_append_left (by simp [hlength]),
      List.getElem?_set_ne (Nat.ne_of_lt hn), hlast]
  have hsecond : again.2.volumes[n + 1]? = some (v'.renew t') := by
    rw [hboth]
    simp [← hlength]
  constructor
  · apply (compare_eq_true_iff hfirst hsecond hsound hr' hsound'').mpr
    exact hsound''.coincides_of_has hhas hdiffer
  · apply (compare_eq_true_iff hsecond hfirst hsound'' hr hsound).mpr
    exact hsound.coincides_of_has (fun k x => (hhas k x).symm) fun k x hx =>
      hdiffer k x ((hhas k x).mpr hx)

/-- Merges are pointwise, on every shelf that a run leads to, for two tables or one with itself,
whose rules are lawful for the same keys and may hash them differently. A merge of one table into
another leaves there the entries of `Blend`: keys of one table alone with their values, and keys of
both spelled as before with their values combined once. A merge into a copy or into a new table
leaves the first one as it is. The second one keeps all but its floor, and all others keep that as
well. A merge into a new table is the one that takes the new values, so the two are equal if no
value differs from itself. Want of memory for the table that grows is all that can stop a merge. -/
theorem merges_pointwise (manner : Manner κ ν ε) (requests : List (Request κ ν ε))
    (hv : (reached manner requests).volumes[id]? = some v)
    (hw : (reached manner requests).volumes[other]? = some w) (hr : v.rules.Lawful same)
    (hr' : w.rules.Lawful same) (serial : Nat)
    (htotal : ∀ n old new, ∃ x, combine n old new = .ok x) :
    let s := reached manner requests
    let into := (Request.mergeInto combine serial id other).onShelf manner s
    let apart := (Request.mergeWith combine serial id other).onShelf manner s
    let union := (Request.merge id other).onShelf manner s
    let again := (Request.mergeWith second serial id other).onShelf manner union.2
    let n := s.volumes.length
    (∃ low t, w.table.Refloored low ∧
      into.2.volumes = (s.volumes.set other (w.withTable low)).set id (v.renew t) ∧
      t.Sound v.rules same ∧
      (into.1 = .ok .nothing ∧ Merged same combine serial v.table w.table.entries t ∨
        v.Starves into.1)) ∧
    (∃ low, w.table.Refloored low ∧ Yields v (s.volumes.set other (w.withTable low))
      (fun t => t.Sound v.rules same ∧ Merged same combine serial v.table w.table.entries t)
      apart) ∧
    (∃ low low', v.table.Refloored low ∧ w.table.Refloored low' ∧
      Yields v ((s.volumes.set id (v.withTable low)).set other (w.withTable low'))
        (fun t => t.Sound v.rules same ∧
          Merged same (ε := ε) second serial v.table w.table.entries t) union) ∧
    ((∀ k a, v.table.Has k a ∨ w.table.Has k a → manner.differ a a = false) →
      union.1 = .ok .nothing → again.1 = .ok .nothing →
        again.2.compare manner n (n + 1) = .ok (.bool true) ∧
          again.2.compare manner (n + 1) n = .ok (.bool true)) := by
  intro s into apart union again n
  have hall : ∀ u ∈ s.volumes, SoundUnder same u := (governs_sound manner same).all_reached requests
  have h := (hall v (List.mem_of_getElem? hv) hr).1
  have h' := (hall w (List.mem_of_getElem? hw) hr').1
  obtain ⟨low, t, hlow, hsound, hinto, hreply⟩ :=
    mergeInto_merges manner hv hw hr h h' serial (combinable_of_total htotal serial _ _)
  obtain ⟨_, ⟨low', hlow', rfl⟩, hapart⟩ := mergeWith_merges manner hv hw hr h h' serial
    (combinable_of_total htotal serial _ _)
  obtain ⟨_, ⟨lowv, loww, hlowv, hloww, rfl⟩, hunion⟩ := merge_merges manner hv hw hr h h' serial
  exact ⟨⟨low, t, hlow, hinto, hsound, hreply⟩, ⟨low', hlow', hapart⟩,
    ⟨lowv, loww, hlowv, hloww, hunion⟩,
    fun hself => merge_equals_mergeWith manner hv hw hr h h' serial hself⟩

def unitRules (hash : Nat → Int) : Rules Nat ε := .through (· % 10) hash 64000 none

theorem unitRules_lawful (hash : Nat → Int) :
    (unitRules hash : Rules Nat ε).Lawful (Setoid.ker (· % 10)) := Rules.lawful_through _ _ _ _

def unitTables : List (Request Nat Nat ε) :=
  [.create (unitRules fun n => n % 4) 0, .create (unitRules fun n => -n) 12]

def unitChanges : List (Request Nat Nat ε) :=
  [.change 0 (.set 3 30), .change 0 (.set 5 50), .change 0 (.set 7 70), .change 0 (.delete 15),
    .change 1 (.set 17 1), .change 1 (.set 23 2), .change 1 (.set 9 90)]

theorem exists_units :
    ∃ v w : Volume Nat Nat ε,
      (reached Manner.decimal (unitTables ++ unitChanges)).volumes[0]? = some v ∧
      (reached Manner.decimal (unitTables ++ unitChanges)).volumes[1]? = some w ∧
      v.rules.Lawful (Setoid.ker (· % 10)) ∧ w.rules.Lawful (Setoid.ker (· % 10)) := by
  have hgoverns := governs_sound (ε := ε) Manner.decimal (Setoid.ker fun n : Nat => n % 10)
  have hover := hgoverns.run_over unitChanges (hgoverns.all_reached unitTables)
  rw [← reached_append] at hover
  obtain ⟨v, hv, hrules⟩ :=
    hover.step 0 { rules := unitRules fun n => n % 4, table := .new 0 } rfl
  obtain ⟨w, hw, hrules'⟩ :=
    hover.step 1 { rules := unitRules fun n => -n, table := .new 12 } rfl
  refine ⟨v, w, hv, hw, ?_, ?_⟩
  · rw [hrules]
    exact unitRules_lawful fun n => n % 4
  · rw [hrules']
    exact unitRules_lawful fun n => -n

def itemsAt (id : Nat) (s : Shelf Nat Nat ε) : List (Nat × Nat) :=
  match s.reply Manner.decimal (.survey id .items) with
  | .ok (.entries entries) => entries
  | _ => []

private def isDone : Reply Nat Nat Empty → Bool
  | .ok .nothing => true
  | _ => false

private theorem eq_nothing_of_isDone {reply : Reply Nat Nat Empty} (h : isDone reply = true) :
    reply = .ok .nothing := by
  rcases reply with fault | (_ | _)
  all_goals first | rfl | cases h

/-- Two tables with different hashes and capacities, which spell the keys that they share
differently. -/
theorem merges_pointwise_units :
    let s := reached Manner.decimal (unitTables ++ unitChanges)
    let sum : Nat → Nat → Nat → Except Empty Nat := fun _ old new => .ok (old + new)
    let into := (Request.mergeInto sum 0 0 1).onShelf Manner.decimal s
    let union := (Request.merge 0 1).onShelf Manner.decimal s
    let again := (Request.mergeWith second 0 0 1).onShelf Manner.decimal union.2
    (∃ v w t, s.volumes[0]? = some v ∧ s.volumes[1]? = some w ∧
      into.2.volumes[0]? = some (v.renew t) ∧
      (into.1 = .ok .nothing ∧ Merged (Setoid.ker (· % 10)) sum 0 v.table w.table.entries t ∨
        v.Starves into.1)) ∧
    itemsAt 0 into.2 = [(9, 90), (3, 32), (7, 71)] ∧
    itemsAt 2 union.2 = [(9, 90), (3, 2), (7, 1)] ∧
    again.2.compare Manner.decimal 2 3 = .ok (.bool true) := by
  intro s sum into union again
  obtain ⟨v, w, hv, hw, hr, hr'⟩ := exists_units (ε := Empty)
  have htotal (n old new : Nat) : ∃ x, sum n old new = .ok x := ⟨old + new, rfl⟩
  obtain ⟨⟨low, t, hlow, hinto, -, hreply⟩, -, -, hequal⟩ :=
    merges_pointwise Manner.decimal (unitTables ++ unitChanges) hv hw hr hr' 0 htotal
  have hvolume : into.2.volumes[0]? = some (v.renew t) := by
    rw [hinto, List.getElem?_set_self]
    simpa using (List.getElem?_eq_some_iff.mp hv).1
  have hself (k a : Nat) (_ : v.table.Has k a ∨ w.table.Has k a) :
      (Manner.decimal (ε := Empty)).differ a a = false := by
    simp [Manner.decimal]
  have hunion : union.1 = .ok .nothing := eq_nothing_of_isDone (by decide +kernel)
  have hagain : again.1 = .ok .nothing := eq_nothing_of_isDone (by decide +kernel)
  have hsame := (hequal hself hunion hagain).1
  have hlength : s.volumes.length = 2 := by decide +kernel
  change again.2.compare Manner.decimal s.volumes.length (s.volumes.length + 1) = _ at hsame
  rw [hlength] at hsame
  exact ⟨⟨v, w, t, hv, hw, hvolume, hreply⟩, by decide +kernel, by decide +kernel, hsame⟩

end Shelf

end OpenAddressing
