import OpenAddressing.Proofs.Invariant

/-!
# Capacities follow the number of entries

Requests change the capacity of a table only by insertions and by rehashes that are asked for.
Without those, any run keeps it within a multiple of the greatest number of entries.
-/

namespace OpenAddressing

variable {κ ν ε : Type} {rules : Rules κ ε} {same : Setoid κ}

namespace Table

variable {t t' : Table κ ν} {p : Prop}
variable [Inhabited κ] [Inhabited ν]

theorem Inserting.count_le (h : Inserting rules same p t t') : t.count ≤ t'.count := by
  cases h with
  | assigned h =>
      have := h.count_eq
      omega
  | lost _ h =>
      have := h.count_eq
      omega
  | planned h =>
      cases h with
      | found => exact Int.le_refl _
      | vacant hgrown => exact Int.le_of_eq hgrown.count_eq.symm
  | revalued => exact Int.le_refl _
  | refloored h =>
      obtain ⟨floor, rfl, -, -⟩ := h
      exact Int.le_refl _

theorem Inserting.grows (h : Inserting rules same p t t') (ht : t.Sound rules same) :
    Grows t t' := by
  cases h with
  | assigned h => exact h.grows ht
  | lost _ h => exact h.grows ht
  | planned h =>
      cases h with
      | found => exact Or.inl rfl
      | vacant hgrown => exact hgrown.grows ht.toWellFormed
  | revalued => exact Or.inl rfl
  | refloored h =>
      obtain ⟨floor, rfl, -, -⟩ := h
      exact Or.inl rfl

theorem Insertions.count_le (h : Insertions rules same p t t') : t.count ≤ t'.count := by
  induction h with
  | refl => exact Int.le_refl _
  | tail _ hstep ih => exact Int.le_trans ih hstep.count_le

theorem Insertions.capacity_le (h : Insertions rules same p t t') (ht : t.Sound rules same) :
    (t'.capacity : Int) ≤ max (t.capacity : Int) (128 * t'.count + 126) := by
  induction h with
  | refl => omega
  | tail hpast hstep ih =>
      have hgrows := (hstep.grows (Insertions.sound hpast ht)).capacity_le
      have := hstep.count_le
      omega

theorem Insertions.capacity_eq (h : Insertions rules same p t t') (ht : t.Sound rules same)
    (hcap : t.capacity = 16) (hcount : t'.count ≤ 8) : t'.capacity = 16 := by
  induction h with
  | refl => exact hcap
  | tail hpast hstep ih =>
      have hle := hstep.count_le
      have hmiddle := ih (by omega)
      rcases hstep.grows (Insertions.sound hpast ht) with hsame | ⟨hwhy, -⟩
      · rw [hsame, hmiddle]
      · have := hwhy (by omega)
        rw [hmiddle, probeLimit] at this
        omega

theorem Effect.capacity_le {request : TableRequest κ ν ε} (h : Effect rules same p t request t')
    (ht : t.Sound rules same) (hrehash : ∀ size, request ≠ .map (.rehash size)) :
    (t'.capacity : Int) ≤ max (t.capacity : Int) (128 * t'.count + 126) := by
  cases h with
  | inserted h => exact h.capacity_le ht
  | deleted hf h =>
      rw [h.capacity_eq]
      omega
  | copied => exact Int.le_max_left _ _
  | cleared =>
      change ((blank t.capacity : Table κ ν).capacity : Int) ≤ _
      rw [capacity_blank]
      omega
  | freed => exact Int.le_trans (Int.natCast_nonneg _) (Int.le_max_left _ _)
  | rehashed => exact absurd rfl (hrehash _)
  | renewed => exact absurd rfl (hrehash _)

theorem Effect.capacity_eq {request : TableRequest κ ν ε} (h : Effect rules same p t request t')
    (ht : t.Sound rules same) (hrehash : ∀ size, request ≠ .map (.rehash size))
    (hfree : request ≠ .map .free) (hcap : t.capacity = 16) (hcount : t'.count ≤ 8) :
    t'.capacity = 16 := by
  cases h with
  | inserted h => exact h.capacity_eq ht hcap hcount
  | deleted hf h => rw [h.capacity_eq, hcap]
  | copied => exact hcap
  | cleared =>
      change (blank t.capacity : Table κ ν).capacity = 16
      rw [capacity_blank, hcap]
  | freed => exact absurd rfl hfree
  | rehashed => exact absurd rfl (hrehash _)
  | renewed => exact absurd rfl (hrehash _)

end Table

open Table

variable [Inhabited κ] [Inhabited ν]

private theorem runAll_induct (hr : rules.Lawful same) {P : Table κ ν → Prop}
    {Q : TableRequest κ ν ε → Prop} {R : Table κ ν → Prop}
    (hstep : ∀ {p : Prop} {t t' : Table κ ν} {request}, t.Sound rules same →
      Effect rules same p t request t' → Q request → R t' → P t → P t')
    (requests : List (TableRequest κ ν ε)) {s : Journal κ ν} (hs : s.table.Sound rules same)
    (hp : P s.table) (hq : ∀ request ∈ requests, Q request)
    (hbefore : ∀ before, before <+: requests →
      R (runAll (TableRequest.onTable rules) before s).2.table) :
    P (runAll (TableRequest.onTable rules) requests s).2.table := by
  induction requests generalizing s with
  | nil => exact hp
  | cons request rest ih =>
      have heffect := (request.onTable_effect hr hs).1
      refine ih (heffect.sound hs) ?_ (fun r hr => hq r (List.mem_cons_of_mem _ hr)) ?_
      · exact hstep hs heffect (hq request List.mem_cons_self)
          (hbefore [request] ⟨rest, rfl⟩) hp
      · intro before h
        obtain ⟨after, rfl⟩ := h
        exact hbefore (request :: before) ⟨after, rfl⟩

/-! ## Setting a key -/

/-- Setting a key that is there keeps the capacity, and setting a new one changes it only for
want of a place within the probe limit or for load. -/
theorem set_capacity (hr : rules.Respects same) {s : Journal κ ν} (h : s.table.Sound rules same)
    (key : κ) (value : ν) :
    let t' := ((Op.set rules key value).carry s).2.table
    (∀ i, s.table.Stores same key i → t'.capacity = s.table.capacity) ∧ Grows s.table t' ∧
      t'.count ≤ s.table.count + 1 := by
  rcases (Op.set_outcome hr h key value).carry with ⟨_, -, hassigned⟩ | ⟨_, -, hlost⟩
  · refine ⟨fun i hi => (hassigned.settled h hi).capacity_eq, hassigned.grows h, ?_⟩
    have := hassigned.count_eq
    omega
  · refine ⟨fun i hi => (hlost.settled hi).capacity_eq, hlost.grows h, ?_⟩
    have := hlost.count_eq
    omega

/-- Capacities are bounded by numbers of entries, not by the length of runs. A key that is
there can be set without a change of capacity, and a new one changes it only if the entries
reach the probe limit or overload the table by themselves. So without a rehash that is asked
for, `n` entries at most keep the capacity within a multiple of `n`, and eight at most keep
the least capacity, unless the storage is given back. -/
theorem capacity_bounded (hr : rules.Lawful same) :
    (∀ (hint : Int) (requests : List (TableRequest κ ν ε)) (key : κ) (value : ν),
      let s := reached rules hint requests
      let t' := ((Op.set rules key value).carry s).2.table
      0 < s.table.capacity →
        (¬s.table.Lacks same key → t'.capacity = s.table.capacity) ∧
        (s.table.Lacks same key → t'.capacity ≠ s.table.capacity →
          max 16 (s.table.capacity >>> 6 : Nat) ≤ s.table.count ∨
            s.table.capacity < 2 * (s.table.count + 1))) ∧
    (∀ (hint : Int) (requests : List (TableRequest κ ν ε)) (n : Nat),
      (∀ size, .map (.rehash size) ∉ requests) →
      (∀ before, before <+: requests → (reached rules hint before).table.count ≤ n) →
      (reached rules hint requests).table.capacity ≤ max (capacityFor hint) (128 * n + 126)) ∧
    (∀ requests : List (TableRequest κ ν ε),
      (∀ size, .map (.rehash size) ∉ requests) → .map .free ∉ requests →
      (∀ before, before <+: requests → (reached rules 0 before).table.count ≤ 8) →
      (reached rules 0 requests).table.capacity = 16) := by
  refine ⟨?_, ?_, ?_⟩
  · intro hint requests key value s t' hpos
    have hs : s.table.Sound rules same := sound_reached hr hint requests
    obtain ⟨hpresent, hgrows, hcount⟩ := set_capacity hr.toRespects hs key value
    refine ⟨fun hlacks => ?_, fun _ hne => ?_⟩
    · simp only [Lacks, not_forall, not_not] at hlacks
      obtain ⟨i, k, v, hk, hsame⟩ := hlacks
      exact hpresent i ⟨k, v, hk, hsame⟩
    · obtain ⟨hwhy, -⟩ := hgrows.resolve_left hne
      have := hwhy hpos
      rw [probeLimit] at this
      omega
  · intro hint requests n hrehash hcount
    have hnew : (Table.new hint : Table κ ν).capacity = capacityFor hint := capacity_blank _
    refine runAll_induct hr (s := ⟨Table.new hint, #[]⟩)
      (P := fun t => t.capacity ≤ max (capacityFor hint) (128 * n + 126))
      (Q := fun request => ∀ size, request ≠ .map (.rehash size))
      (R := fun t => t.count ≤ n) ?_ requests (sound_new hint) (by simp [hnew]) ?_ hcount
    · intro p t t' request ht heffect hrequest hle hcap
      have := heffect.capacity_le ht hrequest
      omega
    · intro request hmem size heq
      subst heq
      exact hrehash size hmem
  · intro requests hrehash hfree hcount
    refine runAll_induct hr (s := ⟨Table.new 0, #[]⟩) (P := fun t => t.capacity = 16)
      (Q := fun request => (∀ size, request ≠ .map (.rehash size)) ∧ request ≠ .map .free)
      (R := fun t => t.count ≤ 8) ?_ requests (sound_new 0) (capacity_blank _) ?_ hcount
    · intro p t t' request ht heffect hrequest hle hcap
      exact heffect.capacity_eq ht hrequest.1 hrequest.2 hcap hle
    · intro request hmem
      constructor
      · intro size heq
        subst heq
        exact hrehash size hmem
      · intro heq
        subst heq
        exact hfree hmem

theorem capacity_bounded_digits :
    let rules : Rules Nat Empty := .through (· % 10) (fun _ => -1) (-7) none
    let requests : List (TableRequest Nat Nat Empty) :=
      [.map (.set 3 30), .map (.set 13 31), .map (.delete 23)]
    rules.Lawful (Setoid.ker (· % 10)) ∧ (reached rules 0 requests).table.capacity = 16 := by
  refine ⟨Rules.lawful_through _ _ _ _, ?_⟩
  apply (capacity_bounded (Rules.lawful_through _ _ _ _)).2.2 _ (by simp) (by simp)
  intro before hbefore
  simp only [List.prefix_cons_iff, List.prefix_nil] at hbefore
  rcases hbefore with rfl | ⟨_, rfl, rfl | ⟨_, rfl, rfl | ⟨_, rfl, rfl⟩⟩⟩ <;> decide +kernel

end OpenAddressing
