import OpenAddressing.Proofs.Faults

/-!
# Soundness of shelves

As long as the rules that tables are made with are lawful, all tables on a shelf stay sound,
and no request stops at a check that a table makes of itself.
-/

namespace OpenAddressing

variable {κ ν ε : Type} {rules : Rules κ ε} {same : Setoid κ} {manner : Manner κ ν ε}

namespace Volume

/-- The rules are lawful and the table is sound under them, and the plan can be carried out. -/
def Sound (v : Volume κ ν ε) : Prop :=
  ∃ same, v.rules.Lawful same ∧ v.table.Sound v.rules same ∧
    ∀ key p, v.plan? = some (key, p) → v.table.Ready v.rules same key p

variable {v : Volume κ ν ε} {t : Table κ ν}

theorem sound_renew (hr : v.rules.Lawful same) (h : t.Sound v.rules same) : (v.renew t).Sound :=
  ⟨same, hr, h, fun _ _ => absurd_of_none rfl⟩

theorem Sound.refloored (h : v.Sound) (ht : v.table.Refloored t) : (v.withTable t).Sound := by
  obtain ⟨same, hr, hsound, hplan⟩ := h
  refine ⟨same, hr, ht.sound hsound, fun key p hp => (hplan key p hp).congr ht.sameSlots ?_⟩
  obtain ⟨low, rfl, -, -⟩ := ht
  rfl

end Volume

namespace Errand

variable {s : Shelf κ ν ε} {id : Nat} {v : Volume κ ν ε}

theorem ends_entriesOf_set (hv : s.volumes[id]? = some v) (h : v.table.Sound v.rules same) :
    (entriesOf id).Ends s (fun entries s' => entries = v.table.entries ∧
      ∃ low, v.table.Refloored low ∧ s' = ⟨s.volumes.set id (v.withTable low), s.events⟩)
      fun _ _ => False := by
  have hitems := (Op.items_outcome (s := ⟨v.table, s.events⟩) h).and Op.items_alike
  rw [entriesOf, ends_bind, onTable, ends_tend hv]
  apply hitems.imp _ fun _ _ hl => hl.1
  intro entries j hj
  have hevents : j.events = s.events := hj.2.events
  exact ⟨hj.1.1, j.table, hj.1.2, by rw [hevents]⟩

end Errand

namespace Shelf

open Errand

theorem always_composes : Composes (fun _ _ : Volume κ ν ε => True) :=
  ⟨fun _ => trivial, fun _ _ => trivial⟩

theorem reads_sound (manner : Manner κ ν ε) (lost : Fault κ ε → Prop) :
    Reads manner Volume.Sound (fun _ _ => True) lost where
  toComposes := always_composes
  items {v} hv events := by
    have ⟨same, hr, hsound, _⟩ := hv
    refine (Op.items_outcome (s := ⟨v.table, events⟩) hsound).imp ?_ fun _ _ hl => hl.elim
    exact fun _ _ hj => ⟨hv.refloored hj.2, trivial⟩
  agrees {v} h entries := by
    obtain ⟨same, hr, hsound, -⟩ := h
    have hagrees := hsound.agrees_total hr manner.differ entries
    exact hagrees.imp (fun _ _ => trivial) fun _ hl => hl.elim

variable [Inhabited κ] [Inhabited ν]

theorem sustains_sound (manner : Manner κ ν ε) :
    Sustains manner Volume.Sound (fun _ _ => True) fun _ => True where
  toReads := reads_sound manner _
  fresh {v} h := by
    obtain ⟨same, hr, -, -⟩ := h
    exact Volume.sound_renew hr (Table.sound_new 0)
  copy {v} h := by
    obtain ⟨same, hr, hsound, -⟩ := h
    exact Volume.sound_renew hr hsound.copy
  update entries v h events := by
    obtain ⟨same, hr, hsound, -⟩ := h
    refine (update_sound hr (j := ⟨v.table, events⟩) hsound (entries.map .ok)).imp ?_ ?_
    · exact fun _ _ hj => ⟨Volume.sound_renew hr hj, trivial⟩
    · exact fun _ _ hj => ⟨trivial, Volume.sound_renew hr hj.2, trivial⟩

/-- However it ends, a request leaves sound tables, and what it stops at is expected. -/
def Request.Behaves (manner : Manner κ ν ε) (request : Request κ ν ε) (s : Shelf κ ν ε) : Prop :=
  (request.perform manner).Ends s
    (fun a s' => (∀ f, a.fault? = some f → s.Expected manner request f) ∧
      ∀ v ∈ s'.volumes, v.Sound)
    (fun fault s' => (∀ f, fault = some f → request.Proper → s.Expected manner request f) ∧
      ∀ v ∈ s'.volumes, v.Sound)

section Behaves

variable {s : Shelf κ ν ε} {id : Nat} {v : Volume κ ν ε} {request : Request κ ν ε}

omit [Inhabited κ] [Inhabited ν] in
private theorem sound_set (id : Nat) (hs : ∀ w ∈ s.volumes, w.Sound) {w : Volume κ ν ε}
    (hw : w.Sound) :
    ∀ u ∈ s.volumes.set id w, u.Sound := by
  intro u hu
  rcases List.mem_or_eq_of_mem_set hu with hu | rfl
  · exact hs u hu
  · exact hw

omit [Inhabited κ] [Inhabited ν] in
private theorem sound_append (hs : ∀ w ∈ s.volumes, w.Sound) {w : Volume κ ν ε} (hw : w.Sound) :
    ∀ u ∈ s.volumes ++ [w], u.Sound := by
  intro u hu
  rcases List.mem_append.mp hu with hu | hu
  · exact hs u hu
  · exact List.mem_singleton.mp hu ▸ hw

omit [Inhabited κ] [Inhabited ν] in
private theorem ends_store {α : Type} {op : Rules κ ε → Op κ ν ε α}
    {store : Volume κ ν ε → Table κ ν → Option α → Volume κ ν ε} {good : α → Prop}
    {lost : Fault κ ε → Prop} (hs : ∀ w ∈ s.volumes, w.Sound)
    (h : ∀ v, s.volumes[id]? = some v → (op v.rules).Outcome ⟨v.table, s.events⟩
      (fun a j => good a ∧ (store v j.table (some a)).Sound)
      (fun f j => lost f ∧ (store v j.table none).Sound)) :
    (tend store id op).Ends s (fun a s' => good a ∧ ∀ w ∈ s'.volumes, w.Sound)
      (fun fault s' => (∀ f, fault = some f → lost f) ∧ ∀ w ∈ s'.volumes, w.Sound) := by
  cases hv : s.volumes[id]? with
  | none => exact (ends_tend_none hv).mpr ⟨fun _ => absurd_of_none rfl, hs⟩
  | some v =>
      refine (ends_tend hv).mpr ((h v hv).imp (fun a j hj => ⟨hj.1, sound_set id hs hj.2⟩) ?_)
      exact fun f j hj => ⟨fun _ hf => Option.some.inj hf ▸ hj.1, sound_set id hs hj.2⟩

omit [Inhabited κ] [Inhabited ν] in
private theorem ends_reading {α : Type} {other : Nat} {use : List (κ × ν) → Errand κ ν ε α}
    {post : α → Shelf κ ν ε → Prop} {lost : Option (Fault κ ε) → Shelf κ ν ε → Prop}
    (hs : ∀ w ∈ s.volumes, w.Sound) (hnone : lost none s)
    (huse : ∀ w low, s.volumes[other]? = some w → w.table.Refloored low →
      (use w.table.entries).Ends ⟨s.volumes.set other (w.withTable low), s.events⟩ post lost) :
    (entriesOf other >>= use).Ends s post lost := by
  rw [ends_bind]
  cases hw : s.volumes[other]? with
  | none =>
      rw [entriesOf, ends_bind, onTable]
      exact (ends_tend_none hw).mpr hnone
  | some w =>
      obtain ⟨same, hr, ht, -⟩ := hs w (List.mem_of_getElem? hw)
      refine (ends_entriesOf_set hw ht).imp ?_ fun _ _ hl => hl.elim
      intro entries s' hread
      obtain ⟨rfl, low, hlow, rfl⟩ := hread
      exact huse w low hw hlow

omit [Inhabited κ] [Inhabited ν] in
/-- Reading a table leaves all tables with their rules and, up to a floor, as they were. -/
private theorem exists_before {other : Nat} {w v' : Volume κ ν ε} {low : Table κ ν}
    (hs : ∀ u ∈ s.volumes, u.Sound) (hw : s.volumes[other]? = some w)
    (hlow : w.table.Refloored low)
    (hv' : (s.volumes.set other (w.withTable low))[id]? = some v') :
    ∃ v, s.volumes[id]? = some v ∧ v'.rules = v.rules ∧ v.table.Refloored v'.table := by
  by_cases hid : other = id
  · subst hid
    rw [List.getElem?_set_self (List.getElem?_eq_some_iff.mp hw).1] at hv'
    cases hv'
    exact ⟨w, hw, rfl, hlow⟩
  · rw [List.getElem?_set_ne hid] at hv'
    obtain ⟨same, -, ht, -⟩ := hs v' (List.mem_of_getElem? hv')
    exact ⟨v', hv', rfl, ht.refloored⟩

theorem Observation.behaves (manner : Manner κ ν ε) (observation : Observation κ ν)
    (hs : ∀ w ∈ s.volumes, w.Sound) :
    (Request.observe observation : Request κ ν ε).Behaves manner s := by
  unfold Request.Behaves
  rw [Request.perform]
  cases observation with
  | ask id question =>
      rw [Observation.perform, onTable]
      refine ends_store hs fun v hv => ?_
      have hsound := hs v (List.mem_of_getElem? hv)
      obtain ⟨same, hr, ht, -⟩ := hs v (List.mem_of_getElem? hv)
      exact Op.outcome_query.mpr ((question.answer_faults manner hv hr ht).imp
        (fun _ ha => ⟨ha, hsound⟩) fun _ hf => ⟨hf, hsound⟩)
  | survey id survey =>
      rw [Observation.perform, onTable]
      refine ends_store hs fun v hv => ?_
      have hsound := hs v (List.mem_of_getElem? hv)
      obtain ⟨same, hr, ht, -⟩ := hs v (List.mem_of_getElem? hv)
      refine (survey.op_faults manner hv ht rfl).imp ?_ ?_
      · exact fun a j hj => ⟨fun _ => absurd_of_none hj.1, hsound.refloored hj.2⟩
      · exact fun f j hj => ⟨fun _ => hj.1, hsound.refloored hj.2⟩
  | equals id other =>
      have hR := always_composes (κ := κ) (ν := ν) (ε := ε)
      have hkeeps : Keeps Volume.Sound (fun _ _ => True) (fun _ => False)
          ((Observation.equals id other).perform manner) fun a => a.fault? = none :=
        ((reads_sound manner _).keeps_equals id other).bind hR fun _ _ => keeps_pure hR rfl
      refine (hkeeps s hs).imp ?_ ?_
      · exact fun a s' ha => ⟨fun _ => absurd_of_none ha.1, ha.2.all⟩
      · exact fun fault s' hl => ⟨fun f hf => (hl.1 f hf).elim, hl.2.all⟩

private theorem plan_behaves (id : Nat) (key : κ) (hs : ∀ w ∈ s.volumes, w.Sound) :
    (Request.plan id key : Request κ ν ε).Behaves manner s := by
  have hplan : (makePlan id key : Errand κ ν ε Plan).Ends s
      (fun _ s' => True ∧ ∀ w ∈ s'.volumes, w.Sound)
      (fun fault s' => (∀ f, fault = some f → s.Expected manner (.plan id key) f) ∧
        ∀ w ∈ s'.volumes, w.Sound) := by
    refine ends_store hs fun v hv => ?_
    have hmem := List.mem_of_getElem? hv
    obtain ⟨same, hr, ht, -⟩ := hs v hmem
    refine (Op.plan_outcome (s := ⟨v.table, s.events⟩) hr.toRespects ht key).imp ?_ ?_
    · intro p j hj
      obtain ⟨hash, -, hplanned⟩ := hj
      refine ⟨trivial, same, hr, hplanned.sound ht, fun k q hq => ?_⟩
      cases hq
      exact hplanned.ready
    · intro f j hlost
      have hlacks := hr.denies (hlost.denies ht)
      rw [← measure_eq hv (·.slotsFor 0)] at hlacks
      exact ⟨.room ⟨v, hv, rfl⟩ hlacks, Volume.sound_renew hr (hlost.sound ht)⟩
  unfold Request.Behaves
  rw [Request.perform, ends_bind]
  exact hplan.imp (fun _ _ hp => ⟨fun _ => absurd_of_none rfl, hp.2⟩)
    fun _ _ hl => ⟨fun f hf _ => hl.1 f hf, hl.2⟩

private theorem insert_behaves (id : Nat) (value : ν) (hs : ∀ w ∈ s.volumes, w.Sound) :
    (Request.insert id value : Request κ ν ε).Behaves manner s := by
  unfold Request.Behaves
  rw [Request.perform, ends_bind, ends_volume]
  cases hv : s.volumes[id]? with
  | none => exact ⟨fun _ => absurd_of_none rfl, hs⟩
  | some v =>
      dsimp only
      cases hp : v.plan? with
      | none => exact ⟨fun _ => absurd_of_none rfl, hs⟩
      | some planned =>
          have hmem := List.mem_of_getElem? hv
          have hinsert : (Errand.change id fun rules =>
              Op.insertAt rules planned.1 value planned.2).Ends s
              (fun _ s' => True ∧ ∀ w ∈ s'.volumes, w.Sound)
              (fun fault s' => (∀ f, fault = some f → s.Expected manner (.insert id value) f) ∧
                ∀ w ∈ s'.volumes, w.Sound) := by
            refine ends_store hs fun w hw => ?_
            obtain rfl := Option.some.inj (hv.symm.trans hw)
            -- Whatever changes a table drops its plan, so the plan is for the table as it is.
            obtain ⟨same, hr, ht, hready⟩ := hs v hmem
            refine (Op.insertAt_ready_outcome (s := ⟨v.table, s.events⟩) ht
              (hready _ _ hp) value).imp ?_ ?_
            · exact fun _ j hj => ⟨trivial, Volume.sound_renew hr hj⟩
            · intro f j hlost
              have hlacks := hr.denies (hlost.denies ht)
              rw [← measure_eq hv (·.slotsFor 1)] at hlacks
              exact ⟨.room ⟨v, hv, rfl⟩ hlacks, Volume.sound_renew hr (hlost.sound ht)⟩
          rw [ends_bind]
          exact hinsert.imp (fun _ _ hi => ⟨fun _ => absurd_of_none rfl, hi.2⟩)
            fun _ _ hl => ⟨fun f hf _ => hl.1 f hf, hl.2⟩

private theorem create_behaves {hint : Int} (hr : rules.Lawful same)
    (hs : ∀ w ∈ s.volumes, w.Sound) :
    (Request.create rules hint : Request κ ν ε).Behaves manner s := by
  unfold Request.Behaves
  rw [Request.perform, Table.create]
  cases hroom : rules.demandRoom (capacityFor hint) with
  | ok =>
      exact ⟨fun _ => absurd_of_none rfl,
        sound_append hs ⟨same, hr, Table.sound_new hint, fun _ _ => absurd_of_none rfl⟩⟩
  | error fault =>
      refine ⟨fun f hf _ => ?_, hs⟩
      cases hf
      exact .room rfl ⟨_, Nat.le_refl _, hroom⟩

private theorem build_behaves (hr : rules.Lawful same) (entries : List (Except ε (κ × ν)))
    (hs : ∀ w ∈ s.volumes, w.Sound) : (Request.build rules entries).Behaves manner s := by
  unfold Request.Behaves
  rw [Request.perform, ends_bind, ends_loose]
  refine (update_sound hr (Table.sound_new 0) entries).imp ?_ ?_
  · intro _ j hj
    exact ⟨fun _ => absurd_of_none rfl,
      sound_append hs ⟨same, hr, hj, fun _ _ => absurd_of_none rfl⟩⟩
  · intro fault j hlost
    refine ⟨fun f hf hproper => ?_, hs⟩
    cases hf
    exact .room rfl (hlost.1 hproper)

private theorem passOn_behaves {request : Request κ ν ε} {id other : Nat}
    {op : List (κ × ν) → Rules κ ε → Op κ ν ε Unit} (hs : ∀ w ∈ s.volumes, w.Sound)
    (hperform : request.perform manner = do
      let entries ← entriesOf other
      Errand.change id (op entries)
      pure .nothing)
    (hrule : ∀ v, s.volumes[id]? = some v → s.Rule request v.rules)
    (hslots : request.slots s = s.measure id (·.slotsFor (s.measure other (·.entries.length))))
    (hop : ∀ rules same entries, Rules.Lawful rules same → ∀ j : Journal κ ν,
      j.table.Sound rules same → (op entries rules).Outcome j
        (fun _ j' => j'.table.Sound rules same)
        (fun f j' => (request.Proper → rules.LacksSlots (j.table.slotsFor entries.length) f) ∧
          j'.table.Sound rules same)) : request.Behaves manner s := by
  unfold Request.Behaves
  rw [hperform]
  refine ends_reading hs ⟨fun _ => absurd_of_none rfl, hs⟩ fun w low hw hlow => ?_
  have hread := sound_set other hs ((hs w (List.mem_of_getElem? hw)).refloored hlow)
  have hchange : (Errand.change id (op w.table.entries)).Ends
      ⟨s.volumes.set other (w.withTable low), s.events⟩
      (fun _ s' => True ∧ ∀ u ∈ s'.volumes, u.Sound)
      (fun fault s' => (∀ f, fault = some f → request.Proper → s.Expected manner request f) ∧
        ∀ u ∈ s'.volumes, u.Sound) := by
    refine ends_store hread fun v' hv' => ?_
    obtain ⟨v, hv, hrules, hfloor⟩ := exists_before hs hw hlow hv'
    obtain ⟨same, hr, ht, -⟩ := hread v' (List.mem_of_getElem? hv')
    refine (hop v'.rules same w.table.entries hr ⟨v'.table, s.events⟩ ht).imp ?_ ?_
    · exact fun _ j hj => ⟨trivial, Volume.sound_renew hr hj⟩
    · intro f j hlost
      refine ⟨fun hproper => .room (hrules ▸ hrule v hv) ?_, Volume.sound_renew hr hlost.2⟩
      have hlacks := hlost.1 hproper
      rw [hfloor.slotsFor_eq] at hlacks
      rwa [hslots, measure_eq hv, measure_eq hw]
  rw [ends_bind]
  exact hchange.imp (fun _ _ hj => ⟨fun _ => absurd_of_none rfl, hj.2⟩) fun _ _ hl => hl

private theorem push_behaves {request : Request κ ν ε} {x : Errand κ ν ε (Volume κ ν ε)}
    (hperform : request.perform manner = do
      push (← x)
      pure .nothing)
    (hx : x.Ends s (fun u s' => u.Sound ∧ ∀ w ∈ s'.volumes, w.Sound)
      (fun fault s' => (∀ f, fault = some f → request.Proper → s.Expected manner request f) ∧
        ∀ w ∈ s'.volumes, w.Sound)) : request.Behaves manner s := by
  unfold Request.Behaves
  rw [hperform, ends_bind]
  refine hx.imp ?_ fun _ _ hl => hl
  exact fun u s' hu => ⟨fun _ => absurd_of_none rfl, sound_append hu.2 hu.1⟩

private theorem mergeWith_behaves {id other serial : Nat} {combine : Nat → ν → ν → Except ε ν}
    (hs : ∀ w ∈ s.volumes, w.Sound) :
    (Request.mergeWith combine serial id other).Behaves manner s := by
  refine push_behaves rfl ?_
  rw [mergedWith, ends_bind, ends_volume]
  cases hv : s.volumes[id]? with
  | none => exact ⟨fun _ => absurd_of_none rfl, hs⟩
  | some v =>
      refine ends_reading hs ⟨fun _ => absurd_of_none rfl, hs⟩ fun w low hw hlow => ?_
      have hread := sound_set other hs ((hs w (List.mem_of_getElem? hw)).refloored hlow)
      obtain ⟨same, hr, ht, -⟩ := hs v (List.mem_of_getElem? hv)
      rw [ends_loose]
      refine (mergeWith_sound hr (j := ⟨v.table.copy, s.events⟩) ht.copy combine serial _).imp
        (fun _ j hj => ⟨Volume.sound_renew hr hj, hread⟩) fun fault j hlost => ⟨?_, hread⟩
      intro f hf hproper
      cases hf
      refine .room ⟨v, hv, rfl⟩ ?_
      rw [Request.slots, measure_eq hv, measure_eq hw]
      exact hlost.1 hproper

private theorem merge_behaves {id other : Nat} (hs : ∀ w ∈ s.volumes, w.Sound) :
    (Request.merge id other : Request κ ν ε).Behaves manner s := by
  refine push_behaves rfl ?_
  rw [merged, ends_bind, ends_volume]
  cases hv : s.volumes[id]? with
  | none => exact ⟨fun _ => absurd_of_none rfl, hs⟩
  | some v =>
      refine ends_reading hs ⟨fun _ => absurd_of_none rfl, hs⟩ fun v₁ low hv₁ hlow => ?_
      obtain rfl := Option.some.inj (hv.symm.trans hv₁)
      have hread := sound_set id hs ((hs v (List.mem_of_getElem? hv)).refloored hlow)
      obtain ⟨same, hr, -, -⟩ := hs v (List.mem_of_getElem? hv)
      have hnew : (Table.new 0 : Table κ ν).Sound v.rules same := Table.sound_new 0
      have hfirst := update_sound hr (j := ⟨.new 0, s.events⟩) hnew (v.table.entries.map .ok)
      have hsize := Op.update_slotsFor_le (s := ⟨.new 0, s.events⟩) hr.toRespects
        (v.table.entries.map .ok) hnew
      rw [List.length_map] at hfirst hsize
      -- What the second table brings is asked for on top of the first.
      have hroom {most : Nat} {f : Fault κ ε} (hlacks : v.rules.LacksSlots most f)
          (hmost : most ≤ (Request.merge id other : Request κ ν ε).slots s) :
          s.Expected manner (.merge id other) f := .room ⟨v, hv, rfl⟩ (hlacks.mono hmost)
      rw [ends_bind, ends_loose]
      refine (hfirst.and hsize).imp ?_ fun fault j hlost => ⟨?_, hread⟩
      · intro _ j hhalf
        obtain ⟨hj, hle⟩ := hhalf
        refine ends_reading hread ⟨fun _ => absurd_of_none rfl, hread⟩ fun u low' hu hlow' => ?_
        have hread' := sound_set (s := ⟨s.volumes.set id (v.withTable low), j.events⟩) other
          hread ((hread u (List.mem_of_getElem? hu)).refloored hlow')
        obtain ⟨w, hw, -, hfloor⟩ := exists_before hs hv hlow hu
        have hsecond := update_sound hr (j := ⟨j.table, j.events⟩) hj (u.table.entries.map .ok)
        rw [List.length_map, hfloor.sameSlots.entries_eq] at hsecond
        rw [ends_loose, hfloor.sameSlots.entries_eq]
        refine hsecond.imp (fun _ j' hj' => ⟨Volume.sound_renew hr hj', hread'⟩) ?_
        refine fun fault j' hlost => ⟨fun f hf _ => ?_, hread'⟩
        cases hf
        refine hroom (hlost.1 (by simp)) ((hle _).trans ?_)
        rw [Request.slots, measure_eq hv, measure_eq hw]
      · intro f hf _
        cases hf
        refine hroom (hlost.1.1 (by simp)) ?_
        rw [Request.slots, measure_eq hv]
        exact Table.slotsFor_mono _ (Nat.le_add_right _ _)

theorem Request.behaves (manner : Manner κ ν ε) (request : Request κ ν ε) (hl : request.Lawful)
    (hs : ∀ w ∈ s.volumes, w.Sound) : request.Behaves manner s := by
  cases request with
  | observe observation => exact observation.behaves manner hs
  | change id c =>
      unfold Behaves
      rw [perform, Errand.change]
      refine ends_store hs fun v hv => ?_
      obtain ⟨same, hr, ht, -⟩ := hs v (List.mem_of_getElem? hv)
      refine (c.op_faults manner hv hr ht rfl).imp ?_ ?_
      · exact fun a j hj => ⟨fun _ => absurd_of_none hj.1, Volume.sound_renew hr hj.2⟩
      · exact fun f j hj => ⟨hj.1, Volume.sound_renew hr hj.2⟩
  | plan id key => exact plan_behaves id key hs
  | insert id value => exact insert_behaves id value hs
  | create rules hint =>
      obtain ⟨same, hr⟩ := hl
      exact create_behaves hr hs
  | build rules entries =>
      obtain ⟨same, hr⟩ := hl
      exact build_behaves hr entries hs
  | copy id =>
      unfold Behaves
      rw [perform, ends_bind, ends_volume]
      cases hv : s.volumes[id]? with
      | none => exact ⟨fun _ => absurd_of_none rfl, hs⟩
      | some v =>
          obtain ⟨same, hr, ht, -⟩ := hs v (List.mem_of_getElem? hv)
          exact ⟨fun _ => absurd_of_none rfl, sound_append hs (Volume.sound_renew hr ht.copy)⟩
  | updateFrom id other =>
      refine passOn_behaves hs rfl (fun v hv => ⟨v, hv, rfl⟩) rfl ?_
      intro rules same entries hr j hj
      refine (update_sound hr hj (entries.map .ok)).imp (fun _ _ hj' => hj') fun f j' hlost => ?_
      rw [List.length_map] at hlost
      exact ⟨fun _ => hlost.1 (by simp), hlost.2⟩
  | merge id other => exact merge_behaves hs
  | mergeWith combine serial id other => exact mergeWith_behaves hs
  | mergeInto combine serial id other =>
      refine passOn_behaves hs rfl (fun v hv => ⟨v, hv, rfl⟩) rfl ?_
      exact fun rules same entries hr j hj => mergeWith_sound hr hj combine serial entries

end Behaves

theorem Request.onShelf_sound (manner : Manner κ ν ε) (request : Request κ ν ε)
    (hl : request.Lawful) {s : Shelf κ ν ε} (hs : ∀ v ∈ s.volumes, v.Sound) :
    ∀ v ∈ (request.onShelf manner s).2.volumes, v.Sound :=
  ((request.behaves manner hl hs).imp (fun _ _ h => h.2) fun _ _ h => h.2).onShelf_state
    (P := fun s' => ∀ v ∈ s'.volumes, v.Sound)

theorem sound_run (manner : Manner κ ν ε) {requests : List (Request κ ν ε)}
    (hl : ∀ r ∈ requests, r.Lawful) {s : Shelf κ ν ε} (hs : ∀ v ∈ s.volumes, v.Sound) :
    ∀ v ∈ (runAll (Request.onShelf manner) requests s).2.volumes, v.Sound := by
  induction requests generalizing s with
  | nil => exact hs
  | cons request rest ih =>
      rw [List.forall_mem_cons] at hl
      exact ih hl.2 (request.onShelf_sound manner hl.1 hs)

/-- In every run on tables with lawful rules, a request that leaves indices to the tables stops
only at a key that is missing, for want of memory, or at an entry that cannot be written. The
checks that tables make of indices, of their storage and of their counts never fail. -/
theorem only_expected_faults (manner : Manner κ ν ε) (requests : List (Request κ ν ε))
    (request : Request κ ν ε) (hlawful : ∀ r ∈ request :: requests, r.Lawful)
    (hproper : request.Proper) (fault : Fault κ ε) :
    let s := reached manner requests
    Reply.fault? (request.onShelf manner s).1 = some fault →
      s.Expected manner request fault ∧ fault.isInternal = false := by
  intro s hfault
  rw [List.forall_mem_cons] at hlawful
  have hs : ∀ v ∈ s.volumes, v.Sound :=
    sound_run manner hlawful.2 fun _ hv => absurd hv List.not_mem_nil
  have hexpected : s.Expected manner request fault := by
    rcases (request.behaves manner hlawful.1 hs).onShelf with ⟨a, ha, hpost⟩ | ⟨f, hf, hlost⟩
    · rw [ha] at hfault
      exact hpost.1 fault hfault
    · rw [hf] at hfault
      exact hlost.1 fault hfault hproper
  exact ⟨hexpected, hexpected.isInternal⟩

/-! ## Tables among others

A table with lawful rules is sound also where the rules of other tables are not lawful. -/

def SoundUnder (same : Setoid κ) (v : Volume κ ν ε) : Prop :=
  v.rules.Lawful same → v.table.Sound v.rules same ∧
    ∀ key p, v.plan? = some (key, p) → v.table.Ready v.rules same key p

omit [Inhabited κ] [Inhabited ν] in
private theorem soundUnder_renew {v : Volume κ ν ε} {t : Table κ ν}
    (h : v.rules.Lawful same → t.Sound v.rules same) : SoundUnder same (v.renew t) :=
  fun hr => ⟨h hr, fun _ _ => absurd_of_none rfl⟩

omit [Inhabited κ] [Inhabited ν] in
theorem rules_composes : Composes (fun v v' : Volume κ ν ε => v'.rules = v.rules) :=
  ⟨fun _ => rfl, fun h h' => h'.trans h⟩

omit [Inhabited κ] [Inhabited ν] in
private theorem moves_of_lawful {α : Type} {op : Rules κ ε → Op κ ν ε α}
    (h : ∀ rules, Rules.Lawful rules same → ∀ j : Journal κ ν, j.table.Sound rules same →
      (op rules).Outcome j (fun _ j' => j'.table.Sound rules same)
        (fun _ j' => j'.table.Sound rules same)) :
    Moves (SoundUnder same) (fun v v' => v'.rules = v.rules) (fun _ => True) op := by
  intro v hv events
  refine (Op.outcome_of_imp fun hr : v.rules.Lawful same =>
    h v.rules hr ⟨v.table, events⟩ (hv hr).1).imp ?_ ?_
  · exact fun _ _ hj => ⟨soundUnder_renew hj, rfl⟩
  · exact fun _ _ hj => ⟨trivial, soundUnder_renew hj, rfl⟩

theorem governs_sound (manner : Manner κ ν ε) (same : Setoid κ) :
    Governs manner (SoundUnder same) fun v v' => v'.rules = v.rules where
  toComposes := rules_composes
  new rules hint _ := ⟨Table.sound_new hint, fun _ _ => absurd_of_none rfl⟩
  copy h := soundUnder_renew fun hr => (h hr).1.copy
  survey {v} h survey events := by
    have hplan {j : Journal κ ν} (hj : v.rules.Lawful same → v.table.Refloored j.table) :
        SoundUnder same (v.withTable j.table) := fun hr => by
      refine ⟨(hj hr).sound (h hr).1, fun key p hp =>
        ((h hr).2 key p hp).congr (hj hr).sameSlots ?_⟩
      obtain ⟨low, hlow, -, -⟩ := hj hr
      change j.table.maxProbe = _
      rw [hlow]
    have halone : (⟨[v], events⟩ : Shelf κ ν ε).volumes[0]? = some v := rfl
    refine (Op.outcome_of_imp fun hr : v.rules.Lawful same =>
      survey.op_faults manner halone (j := ⟨v.table, events⟩) (h hr).1 rfl).imp ?_ ?_
    · exact fun _ _ hj => ⟨hplan fun hr => (hj hr).2, rfl⟩
    · exact fun _ _ hj => ⟨hplan fun hr => (hj hr).2, rfl⟩
  change c := by
    intro v hv events
    have halone : (⟨[v], events⟩ : Shelf κ ν ε).volumes[0]? = some v := rfl
    refine (Op.outcome_of_imp fun hr : v.rules.Lawful same =>
      c.op_faults manner halone hr (hv hr).1 (j := ⟨v.table, events⟩) rfl).imp ?_ ?_
    · exact fun _ _ hj => ⟨soundUnder_renew fun hr => (hj hr).2, rfl⟩
    · exact fun _ _ hj => ⟨trivial, soundUnder_renew fun hr => (hj hr).2, rfl⟩
  mergeWith combine serial entries := moves_of_lawful fun rules hr j hj =>
    (mergeWith_sound hr hj combine serial entries).imp (fun _ _ hj' => hj') fun _ _ hj' => hj'.2
  plan {v} h key events := by
    refine (Op.outcome_of_imp fun hr : v.rules.Lawful same =>
      Op.plan_outcome (s := ⟨v.table, events⟩) hr.toRespects (h hr).1 key).imp ?_ ?_
    · intro p j hj
      refine ⟨fun hr => ?_, rfl⟩
      obtain ⟨hash, -, hplanned⟩ := hj hr
      refine ⟨hplanned.sound (h hr).1, fun k q hq => ?_⟩
      cases hq
      exact hplanned.ready
    · exact fun _ _ hj => ⟨soundUnder_renew fun hr => (hj hr).sound (h hr).1, rfl⟩
  insert {v} h key p hp value events := by
    refine (Op.outcome_of_imp fun hr : v.rules.Lawful same => Op.insertAt_ready_outcome
      (s := ⟨v.table, events⟩) (h hr).1 ((h hr).2 key p hp) value).imp ?_ ?_
    · exact fun _ _ hj => ⟨soundUnder_renew hj, rfl⟩
    · exact fun _ _ hj => ⟨soundUnder_renew fun hr => (hj hr).sound (h hr).1, rfl⟩

deriving instance DecidableEq for Finding
deriving instance DecidableEq for Fault

private def decimals (slots : Option Nat) : Rules Nat String :=
  .through id Int.ofNat 64000 slots

/-- Values of more than 4300 digits are not written. -/
private def decimalManner : Manner Nat Nat String where
  key n := .ok (toString n)
  value n := if n < Nat.pow 10 4300 then .ok (toString n) else .error "too long"
  differ a b := a != b
  listLimit := none

theorem only_expected_faults_remove :
    let s := reached decimalManner [.create (decimals none) 0, .change 0 (.set 1 10)]
    Reply.fault? ((Request.change 0 (.remove 2)).onShelf decimalManner s).1 = some (.missing 2) ∧
      s.Expected decimalManner (.change 0 (.remove 2)) (.missing 2) := by
  intro s
  have hfault : Reply.fault? ((Request.change 0 (.remove 2)).onShelf decimalManner s).1 =
      some (.missing 2) := by decide +kernel
  have hlawful : ∃ same, (decimals none).Lawful same := ⟨_, Rules.lawful_through _ _ _ _⟩
  refine ⟨hfault, (only_expected_faults decimalManner _ (.change 0 (.remove 2)) ?_ trivial _
    hfault).1⟩
  simp only [List.forall_mem_cons, List.not_mem_nil, false_implies, implies_true, and_true]
  exact ⟨trivial, hlawful, trivial⟩

/-- Memory for the storage that a new table is to have may be wanting, and a listing may come
to a value that cannot be written, also where all rules are lawful. -/
theorem memory_and_writing_can_fail :
    let rules := decimals (some 0x10000000)
    (∃ same, rules.Lawful same) ∧
    Reply.fault? ((Request.create rules 2251799813685248 : Request Nat Nat String).onShelf
      decimalManner {}).1 = some .noMemory ∧
    Reply.fault? ((Request.observe (.ask 0 (.dump "d"))).onShelf decimalManner
      (reached decimalManner [.create rules 0, .change 0 (.set 3 (Nat.pow 10 6000))])).1 =
        some (.refused "too long") :=
  ⟨⟨_, Rules.lawful_through _ _ _ _⟩, by decide +kernel, by decide +kernel⟩

end Shelf

end OpenAddressing
