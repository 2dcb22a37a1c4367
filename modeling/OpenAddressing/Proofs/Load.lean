import OpenAddressing.Proofs.Shape

/-!
# Load, and slots to spare

A third of the slots is free of entries and tombstones, so that each path meets an empty slot
before it comes round. Capacities fall only where a rehash, or the release of all storage, is
asked for.
-/

namespace OpenAddressing

variable {κ ν ε : Type} {rules : Rules κ ε} {same : Setoid κ}

namespace Table

variable {t t' u : Table κ ν} {key : κ} {value : ν} {hash : Int} {p : Prop}

/-- Lookups stop before they come round to where they began. -/
def Short (t : Table κ ν) : Prop := 0 < t.capacity → t.maxProbe < t.capacity

structure Widens (t t' : Table κ ν) : Prop where
  capacity_le : t.capacity ≤ t'.capacity
  short : t.Short → t'.Short

theorem Widens.trans (h : t.Widens u) (h' : u.Widens t') : t.Widens t' where
  capacity_le := Nat.le_trans h.capacity_le h'.capacity_le
  short hs := h'.short (h.short hs)

theorem widens_of_eq (hcap : t'.capacity = t.capacity) (hreach : t'.maxProbe = t.maxProbe) :
    t.Widens t' where
  capacity_le := Nat.le_of_eq hcap.symm
  short hs := by
    intro hpos
    rw [hcap] at hpos ⊢
    rw [hreach]
    exact hs hpos

theorem widens_refl (t : Table κ ν) : t.Widens t := widens_of_eq rfl rfl

theorem widens_renewed (t : Table κ ν) : t.Widens t.renewed := widens_of_eq rfl rfl

theorem widens_reach {d : Nat} (hcap : t'.capacity = t.capacity) (hd : d < t.capacity)
    (hreach : t'.maxProbe = max t.maxProbe d) : t.Widens t' where
  capacity_le := Nat.le_of_eq hcap.symm
  short hs := by
    intro hpos
    rw [hcap] at hpos ⊢
    have := hs hpos
    omega

theorem WellFormed.exists_empty (h : t.WellFormed rules same)
    (hload : (t.count + t.dead) * 3 ≤ t.capacity * 2) (hpos : 0 < t.capacity) :
    ∃ i < t.capacity, t.tagAt i = .empty := by
  by_contra hnone
  push Not at hnone
  have hsub : Finset.range t.capacity ⊆ t.slots Tag.isFilled ∪ t.slots isTombstone := by
    intro i hi
    have hi := Finset.mem_range.mp hi
    rw [Finset.mem_union, mem_slots, mem_slots, isTombstone_iff]
    rcases h.tags i with hempty | htomb | hf
    · exact absurd hempty (hnone i hi)
    · exact Or.inr ⟨hi, htomb⟩
    · exact Or.inl ⟨hi, hf⟩
  have hcard := (Finset.card_le_card hsub).trans (Finset.card_union_le _ _)
  rw [Finset.card_range] at hcard
  change t.capacity ≤ t.tally Tag.isFilled + t.tally isTombstone at hcard
  have hcount := h.count_eq
  have hdead := h.dead_eq
  omega

theorem Vacant.widens_added {i d : Nat} (hv : u.Vacant rules same key hash i d) (value : ν) :
    u.Widens (u.added i d hash key value) :=
  widens_reach (capacity_added u i d hash key value) hv.lt rfl

variable [Inhabited κ] [Inhabited ν]

theorem Rehashed.widens {size : Int} (h : t.Rehashed rules same size t')
    (hsize : t.capacity ≤ size) : t.Widens t' where
  capacity_le := by
    have := le_rehashCapacity t size
    rw [h.capacity_eq]
    omega
  short _ _ := h.maxProbe_lt

theorem Grown.widens (h : Grown rules same key hash t u) : t.Widens u := by
  induction h with
  | refl t => exact widens_refl t
  | alloc hzero hu => exact hu.widens (by simp [hzero, minCapacity])
  | double _ _ _ hu _ ih => exact (hu.widens (by omega)).trans ih

theorem Assigned.widens (h : Assigned rules same key value t t') : t.Widens t' := by
  cases h with
  | replaced => exact widens_of_eq rfl rfl
  | added hgrown hv => exact hgrown.widens.trans (hv.widens_added value)
  | rehashed hgrown hv _ _ ht' =>
      exact (hgrown.widens.trans (hv.widens_added value)).trans (ht'.widens (Int.le_max_right _ _))

theorem AssignLost.widens {fault : Fault κ ε} (h : AssignLost rules same key fault t t') :
    t.Widens t' := by
  cases h with
  | plan hlost =>
      obtain ⟨hash, u, hgrown, rfl | rfl⟩ := hlost.exists_grown
      · exact hgrown.widens
      · exact hgrown.widens.trans (widens_renewed u)
  | load _ hgrown hv =>
      exact (hgrown.widens.trans (hv.widens_added _)).trans (widens_renewed _)

theorem Planned.widens {plan : Plan} (h : Planned rules same key hash t plan t') :
    t.Widens t' := by
  cases h with
  | found => exact widens_refl t
  | vacant hgrown hv => exact hgrown.widens.trans (widens_reach rfl hv.lt rfl)

theorem Inserting.widens (h : Inserting rules same p t t') : t.Widens t' := by
  cases h with
  | assigned h => exact h.widens
  | lost _ h => exact h.widens
  | planned h => exact h.widens
  | revalued => exact widens_of_eq rfl rfl
  | refloored h =>
      obtain ⟨floor, rfl, -, -⟩ := h
      exact widens_of_eq rfl rfl

theorem Insertions.widens (h : Insertions rules same p t t') : t.Widens t' := by
  induction h with
  | refl => exact widens_refl t
  | tail _ hstep ih => exact ih.trans hstep.widens

theorem Effect.widens {request : TableRequest κ ν ε} (h : Effect rules same p t request t') :
    t.Widens t' ∨ request = .map .free ∧ t'.capacity = 0 ∨
      ∃ size, request = .map (.rehash size) ∧ t'.Short := by
  cases h with
  | inserted h => exact Or.inl h.widens
  | deleted _ h =>
      obtain ⟨-, -, -, hreach⟩ := h.counters
      exact Or.inl (widens_of_eq h.capacity_eq hreach)
  | copied => exact Or.inl (widens_of_eq rfl rfl)
  | cleared =>
      refine Or.inl ⟨Nat.le_of_eq ?_, fun _ hpos => Int.natCast_pos.mpr hpos⟩
      exact (capacity_blank (κ := κ) (ν := ν) t.capacity).symm
  | freed => exact Or.inr (Or.inl ⟨rfl, rfl⟩)
  | rehashed h => exact Or.inr (Or.inr ⟨_, rfl, fun _ => h.maxProbe_lt⟩)
  | renewed => exact Or.inl (widens_renewed t)

theorem Effect.short {request : TableRequest κ ν ε} (h : Effect rules same p t request t')
    (hs : t.Short) : t'.Short := by
  rcases h.widens with hwide | ⟨-, hzero⟩ | ⟨size, -, hshort⟩
  · exact hwide.short hs
  · intro hpos
    omega
  · exact hshort

theorem Effect.capacity_mono {request : TableRequest κ ν ε}
    (h : Effect rules same p t request t') (hrehash : ∀ size, request ≠ .map (.rehash size))
    (hfree : request ≠ .map .free) : t.capacity ≤ t'.capacity := by
  rcases h.widens with hwide | ⟨heq, -⟩ | ⟨size, heq, -⟩
  · exact hwide.capacity_le
  · exact absurd heq hfree
  · exact absurd heq (hrehash size)

theorem Assigned.capacity_pos (h : Assigned rules same key value t t') : 0 < t'.capacity := by
  cases h with
  | replaced hk => exact Nat.zero_lt_of_lt hk.lt
  | added _ hv =>
      rw [capacity_added]
      exact Nat.zero_lt_of_lt hv.lt
  | rehashed _ _ _ _ ht' =>
      rw [ht'.capacity_eq]
      exact (isCapacity_rehashCapacity _ _).pos

theorem Planned.capacity_pos {plan : Plan} (h : Planned rules same key hash t plan t') :
    0 < t'.capacity := by
  cases h with
  | found hi =>
      obtain ⟨k, v, hk, -⟩ := hi
      exact Nat.zero_lt_of_lt hk.lt
  | vacant _ hv => exact Nat.zero_lt_of_lt hv.lt

end Table

/-! ## Tables without slots -/

/-- The request inserts an entry, plans to, or rehashes, so that slots are allocated if there
are none. -/
def TableRequest.NeedsSlots : TableRequest κ ν ε → Prop
  | .map (.set _ _) | .map (.rehash _) | .plan _ => True
  | .map (.update entries) => ∃ entry rest, entries = .ok entry :: rest
  | .map (.updateFrom (.other t)) | .merge _ _ (.other t) =>
    ∃ entry rest, (t.listed : Except (Fault κ ε) (List (κ × ν))) = .ok (entry :: rest)
  | _ => False

open Table Op

variable [Inhabited κ] [Inhabited ν] {s : Journal κ ν}

section Lawful

variable (hr : rules.Lawful same)

include hr

private theorem update_capacity_pos (h : s.table.Sound rules same) (entry : κ × ν)
    (rest : List (Except ε (κ × ν))) :
    (update rules (.ok entry :: rest)).Outcome s (fun _ s' => 0 < s'.table.capacity)
      (fun fault s' => 0 < s'.table.capacity ∨
        rules.LacksSlots (s.table.slotsFor (rest.length + 1)) fault) := by
  apply (set_outcome hr.toRespects h entry.1 entry.2).bind
  · intro _ s' hs'
    have hpos := hs'.capacity_pos
    apply (update_outcome hr.toRespects rest (hs'.sound h)).imp
    · exact fun _ s'' hs'' => Nat.lt_of_lt_of_le hpos hs''.widens.capacity_le
    · exact fun _ s'' hs'' => Or.inl (Nat.lt_of_lt_of_le hpos hs''.2.widens.capacity_le)
  · intro fault s' hlost
    exact Or.inr ((hr.denies (hlost.denies h)).mono (slotsFor_mono _ (Nat.le_add_left 1 _)))

private theorem mergeWith_capacity_pos (h : s.table.Sound rules same)
    (combine : Nat → ν → ν → Except ε ν) (serial : Nat) (entry : κ × ν) (rest : List (κ × ν)) :
    (mergeWith rules combine serial (entry :: rest)).Outcome s
      (fun _ s' => 0 < s'.table.capacity)
      (fun fault s' => 0 < s'.table.capacity ∨
        rules.LacksSlots (s.table.slotsFor (rest.length + 1)) fault) := by
  -- What follows an insertion into a table with slots leaves it with slots.
  have hmerge {s : Journal κ ν} (h : s.table.Sound rules same) (hpos : 0 < s.table.capacity)
      (serial : Nat) (entries : List (κ × ν)) :
      (mergeWith rules combine serial entries).Outcome s
        (fun _ s' => 0 < s'.table.capacity) (fun _ s' => 0 < s'.table.capacity) := by
    apply (mergeWith_outcome hr.toRespects combine entries serial h).imp
    · exact fun _ s' hs' => Nat.lt_of_lt_of_le hpos hs'.widens.capacity_le
    · exact fun _ s' hs' => Nat.lt_of_lt_of_le hpos hs'.2.widens.capacity_le
  by_cases hpos : 0 < s.table.capacity
  · exact (hmerge h hpos serial (entry :: rest)).imp (fun _ _ hs' => hs') fun _ _ => Or.inl
  · have hcount := h.count_le_capacity
    rw [mergeWith, outcome_bind, outcome_query_ok (if_pos (by omega))]
    apply (set_outcome hr.toRespects h entry.1 entry.2).bind
    · exact fun _ s' hs' => (hmerge (hs'.sound h) hs'.capacity_pos (serial + 1) rest).imp
        (fun _ _ hs'' => hs'') fun _ _ => Or.inl
    · intro fault s' hlost
      exact Or.inr ((hr.denies (hlost.denies h)).mono (slotsFor_mono _ (Nat.le_add_left 1 _)))

private theorem map_capacity_pos (h : s.table.Sound rules same) {request : MapRequest κ ν ε}
    (hneeds : (TableRequest.map request).NeedsSlots) :
    (request.perform rules).Outcome s (fun _ s' => 0 < s'.table.capacity)
      (fun fault s' => 0 < s'.table.capacity ∨
        rules.LacksSlots (request.mostSlots s.table) fault) := by
  cases request with
  | set key value =>
      exact (set_outcome hr.toRespects h key value).bind (fun _ _ hs' => hs'.capacity_pos)
        fun _ _ hl => Or.inr (hr.denies (hl.denies h))
  | rehash size =>
      apply (rehash_outcome h.toWellFormed size).bind
      · intro _ s' hs'
        have hpos := (isCapacity_rehashCapacity s.table size).pos
        rwa [← hs'.capacity_eq] at hpos
      · exact fun _ _ hl => Or.inr ⟨_, Nat.le_refl _, hl.1⟩
  | update entries =>
      obtain ⟨entry, rest, rfl⟩ := hneeds
      exact (update_capacity_pos hr h entry rest).bind (fun _ _ hpos => hpos) fun _ _ hpos => hpos
  | updateFrom partner =>
      cases partner with
      | itself => exact hneeds.elim
      | other t =>
          obtain ⟨entry, rest, hlisted⟩ := hneeds
          have hupdate := update_capacity_pos hr h entry (rest.map .ok)
          rw [List.length_map] at hupdate
          rw [MapRequest.perform, outcome_bind, entriesOf, outcome_query_ok hlisted,
            MapRequest.mostSlots, Partner.given, hlisted]
          exact hupdate.bind (fun _ _ hpos => hpos) fun _ _ hpos => hpos
  | _ => exact hneeds.elim

private theorem perform_capacity_pos (h : s.table.Sound rules same)
    {request : TableRequest κ ν ε} (hneeds : request.NeedsSlots) :
    (request.perform rules).Outcome s (fun _ s' => 0 < s'.table.capacity)
      (fun fault s' => 0 < s'.table.capacity ∨
        rules.LacksSlots (request.mostSlots s.table) fault) := by
  cases request with
  | plan key =>
      apply (plan_outcome hr.toRespects h key).bind
      · intro plan s' hpost
        obtain ⟨hash, -, hplan⟩ := hpost
        exact hplan.capacity_pos
      · exact fun _ _ hl => Or.inr (hr.denies (hl.denies h))
  | merge combine serial partner =>
      cases partner with
      | itself => exact hneeds.elim
      | other t =>
          obtain ⟨entry, rest, hlisted⟩ := hneeds
          rw [TableRequest.perform, outcome_bind, entriesOf, outcome_query_ok hlisted,
            TableRequest.mostSlots, Partner.given, hlisted]
          exact mergeWith_capacity_pos hr h combine serial entry rest
  | map request =>
      exact (map_capacity_pos hr h hneeds).bind (fun _ _ hpos => hpos) fun _ _ hpos => hpos
  | _ => exact hneeds.elim

/-- Slots are given up by a release of all storage, and by nothing else. Where memory is wanting
they may not come back. -/
private theorem exists_free (hint : Int) (requests : List (TableRequest κ ν ε))
    (hzero : (reached rules hint requests).table.capacity = 0) :
    (∃ before after, requests = before ++ .map .free :: after ∧
      ∀ request ∈ after, ¬request.NeedsSlots) ∨ Starved rules hint requests := by
  induction requests using List.reverseRecOn with
  | nil =>
      have hpos := (isCapacity_capacityFor hint).pos
      have hnew : (Table.new hint : Table κ ν).capacity = capacityFor hint := capacity_blank _
      change (Table.new hint : Table κ ν).capacity = 0 at hzero
      omega
  | append_singleton requests request ih =>
      have hs : (reached rules hint requests).table.Sound rules same :=
        sound_reached hr hint requests
      rw [reached, runAll_append] at hzero
      change (request.onTable rules (reached rules hint requests)).2.table.capacity = 0 at hzero
      -- The last request gave the slots up itself, or found none there and asked for none.
      by_cases hfree : request = .map .free
      · exact Or.inl ⟨requests, [], by rw [hfree], by simp⟩
      by_cases hneeds : request.NeedsSlots
      · rcases (perform_capacity_pos hr hs hneeds).carry with
          ⟨_, -, hpos⟩ | ⟨fault, herror, hpos | hlacks⟩
        · exact absurd hzero (Nat.ne_of_gt hpos)
        · exact absurd hzero (Nat.ne_of_gt hpos)
        · exact Or.inr ⟨requests, request, [], rfl, fault, herror, hlacks⟩
      have hrehash (size : Int) : request ≠ .map (.rehash size) := by
        intro heq
        subst heq
        exact hneeds trivial
      have hmono := (request.onTable_effect hr hs).1.capacity_mono hrehash hfree
      refine (ih (by omega)).imp ?_ fun hstarved => hstarved.append [request]
      intro hbefore
      obtain ⟨before, after, rfl, hafter⟩ := hbefore
      refine ⟨before, after ++ [request], by simp, ?_⟩
      intro other hmem
      rcases List.mem_append.mp hmem with hmem | hmem
      · exact hafter other hmem
      · rw [List.mem_singleton.mp hmem]
        exact hneeds

/-- In every table that a run leads to, entries and tombstones take two thirds of the slots at
most. There are no slots at all only where the storage was given back and nothing since then
asked for slots; otherwise the capacity is a power of two from 16 on, lookups stop before they
come round, and a slot is empty. The only thing that can come in between is a request for slots
for which there is no memory. Nothing but a rehash or the release of the storage makes the
capacity smaller. -/
theorem load_limited (hint : Int) (requests : List (TableRequest κ ν ε)) :
    let s := reached rules hint requests
    ((s.table.capacity = 0 ∧ s.table.count = 0 ∧ s.table.dead = 0 ∧
          (∃ before after, requests = before ++ .map .free :: after ∧
            ∀ request ∈ after, ¬request.NeedsSlots) ∨
        IsCapacity s.table.capacity ∧ s.table.maxProbe < s.table.capacity ∧
          ∃ i < s.table.capacity, s.table.tagAt i = .empty) ∧
      (s.table.count + s.table.dead) * 3 ≤ s.table.capacity * 2 ∨ Starved rules hint requests) ∧
    ∀ request : TableRequest κ ν ε, (∀ size, request ≠ .map (.rehash size)) →
      request ≠ .map .free → s.table.capacity ≤ (request.onTable rules s).2.table.capacity := by
  intro s
  have hnew : (Table.new hint : Table κ ν).Short := fun hpos => Int.natCast_pos.mpr hpos
  obtain ⟨hsound, hshort⟩ : s.table.Sound rules same ∧ s.table.Short := by
    refine runAll_invariant (s := ⟨Table.new hint, #[]⟩)
      (P := fun s : Journal κ ν => s.table.Sound rules same ∧ s.table.Short) ?_ requests
      ⟨sound_new hint, hnew⟩
    intro request s hs
    have heffect := (request.onTable_effect hr hs.1).1
    exact ⟨heffect.sound hs.1, heffect.short hs.2⟩
  refine ⟨?_, fun request hrehash hfree => ?_⟩
  · rcases neat_runAll hr hint requests with hneat | hstarved
    · have hload : (s.table.count + s.table.dead) * 3 ≤ s.table.capacity * 2 := hneat.load
      rcases hsound.capacity with hzero | hc
      · have hcount := hsound.count_eq
        have hdead := hsound.dead_eq
        refine (exists_free hr hint requests hzero).imp_left fun hfree => ⟨?_, hload⟩
        exact Or.inl ⟨hzero, by omega, by omega, hfree⟩
      · exact Or.inl ⟨Or.inr ⟨hc, hshort hc.pos, hsound.exists_empty hload hc.pos⟩, hload⟩
    · exact Or.inr hstarved
  · exact (request.onTable_effect hr hsound).1.capacity_mono hrehash hfree

end Lawful

/-- Eleven entries overload sixteen slots. After some deletions another key can be set without
a loss of slots, while a rehash that is asked for takes half of them away. -/
theorem load_limited_digits :
    let rules : Rules Nat Empty := .through (· % 100) (fun n => (n : Int)) 5 none
    let requests : List (TableRequest Nat Nat Empty) :=
      (List.range 11).map (fun n => .map (.set n n)) ++ [.map (.delete 3), .map (.delete 107)]
    let s := reached rules 0 requests
    rules.Lawful (Setoid.ker (· % 100)) ∧ s.table.capacity = 32 ∧
      (∃ i < s.table.capacity, s.table.tagAt i = .empty) ∧
      32 ≤ ((TableRequest.map (.set 3 30)).onTable rules s).2.table.capacity ∧
      ((TableRequest.map (.rehash 0)).onTable rules s).2.table.capacity = 16 := by
  intro rules requests
  have hr : rules.Lawful (Setoid.ker (· % 100)) := Rules.lawful_through _ _ _ _
  have hcap : (reached rules 0 requests).table.capacity = 32 := by decide +kernel
  obtain ⟨hlimits, hmono⟩ := load_limited hr 0 requests
  refine ⟨hr, hcap, ?_, ?_, by decide +kernel⟩
  · rcases hlimits with ⟨⟨hzero, -⟩ | ⟨-, -, hempty⟩, -⟩ | hstarved
    · exact absurd (hcap.symm.trans hzero) (by decide)
    · exact hempty
    · exact absurd rfl hstarved.limited
  · rw [← hcap]
    exact hmono (.map (.set 3 30)) (by simp) (by simp)

end OpenAddressing
