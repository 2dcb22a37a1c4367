import OpenAddressing.Proofs.Lookup
import OpenAddressing.Table.Iterate

/-!
# Visits of all entries

A visit steps from entry to entry by slot index. What is left to visit from an index on is the
list of the entries from there on, and each step takes the first of that list.
-/

namespace OpenAddressing

variable {κ ν ε : Type} {rules : Rules κ ε} {same : Setoid κ}

namespace Table

variable {t t' : Table κ ν} {i j : Nat} {k : κ} {v : ν}

def entryAt? (t : Table κ ν) (i : Nat) : Option (κ × ν) :=
  if (t.tagAt i).isFilled = true
    then t.keys[i]?.bind fun k => t.vals[i]?.map fun v => (k, v)
    else none

def entriesFrom (t : Table κ ν) (i : Nat) : List (κ × ν) :=
  (List.range' i (t.capacity - i)).filterMap t.entryAt?

def entries (t : Table κ ν) : List (κ × ν) := t.entriesFrom 0

/-- The arrays have one length, and no entry lies below the floor. -/
structure Visitable (t : Table κ ν) : Prop where
  keys_size : t.keys.size = t.capacity
  vals_size : t.vals.size = t.capacity
  floor_nonneg : 0 ≤ t.floor
  floor_le : ∀ i, (t.tagAt i).isFilled = true → t.floor ≤ i

/-- Only the floor has changed, and it is still below all entries. -/
def Refloored (t t' : Table κ ν) : Prop :=
  ∃ floor : Int, t' = { t with floor := floor } ∧ 0 ≤ floor ∧
    ∀ i, (t.tagAt i).isFilled = true → floor ≤ i

theorem entryAt?_eq_some : t.entryAt? i = some (k, v) ↔ t.Holds i k v := by
  rw [entryAt?]
  constructor
  · intro h
    split at h
    · next hf =>
      obtain ⟨l, hl, h⟩ := Option.bind_eq_some_iff.mp h
      obtain ⟨w, hw, h⟩ := Option.map_eq_some_iff.mp h
      obtain ⟨rfl, rfl⟩ := Prod.mk.inj h
      exact ⟨hf, hl, hw⟩
    · cases h
  · intro h'
    obtain ⟨hf, hk, hv⟩ := h'
    rw [if_pos hf, hk, hv]
    rfl

theorem entryAt?_of_not_filled (h : (t.tagAt i).isFilled = false) : t.entryAt? i = none := by
  rw [entryAt?, if_neg (by simp [h])]

theorem mem_entries : (k, v) ∈ t.entries ↔ t.Has k v := by
  rw [entries, entriesFrom, List.mem_filterMap]
  constructor
  · intro h
    obtain ⟨i, -, hi⟩ := h
    exact ⟨i, entryAt?_eq_some.mp hi⟩
  · intro h
    obtain ⟨i, hi⟩ := h
    refine ⟨i, ?_, entryAt?_eq_some.mpr hi⟩
    have := hi.lt
    simp only [List.mem_range'_1]
    omega

theorem entriesFrom_of_le (h : t.capacity ≤ i) : t.entriesFrom i = [] := by
  rw [entriesFrom, Nat.sub_eq_zero_of_le h]
  rfl

theorem entriesFrom_of_holds (h : t.Holds i k v) :
    t.entriesFrom i = (k, v) :: t.entriesFrom (i + 1) := by
  have hi := h.lt
  rw [entriesFrom, entriesFrom, show t.capacity - i = (t.capacity - (i + 1)) + 1 by omega,
    List.range'_succ, List.filterMap_cons_some (entryAt?_eq_some.mpr h)]

theorem entriesFrom_skip (hij : i ≤ j)
    (h : ∀ x, i ≤ x → x < j → (t.tagAt x).isFilled = false) :
    t.entriesFrom i = t.entriesFrom j := by
  induction j, hij using Nat.le_induction with
  | base => rfl
  | succ j hij ih =>
      rw [ih fun x hx hxj => h x hx (by omega)]
      by_cases hj : j < t.capacity
      · rw [entriesFrom, entriesFrom,
          show t.capacity - j = (t.capacity - (j + 1)) + 1 by omega, List.range'_succ,
          List.filterMap_cons_none (entryAt?_of_not_filled (h j hij (by omega)))]
      · rw [entriesFrom_of_le (by omega), entriesFrom_of_le (by omega)]

theorem entriesFrom_eq_nil (h : ∀ x, i ≤ x → (t.tagAt x).isFilled = false) :
    t.entriesFrom i = [] := by
  by_cases hi : i ≤ t.capacity
  · rw [entriesFrom_skip hi fun x hx _ => h x hx, entriesFrom_of_le (Nat.le_refl _)]
  · exact entriesFrom_of_le (by omega)

theorem length_entries (hk : t.keys.size = t.capacity) (hv : t.vals.size = t.capacity) :
    t.entries.length = t.tally Tag.isFilled := by
  have hsome (i : Nat) : (t.entryAt? i).isSome = (t.tagAt i).isFilled := by
    cases hf : (t.tagAt i).isFilled with
    | false => rw [entryAt?_of_not_filled hf]; rfl
    | true =>
        obtain ⟨k, v, h⟩ := exists_holds hk hv hf
        rw [entryAt?_eq_some.mpr h]
        rfl
  have htally : t.tally Tag.isFilled =
      ((List.range t.capacity).filter fun i => decide ((t.tagAt i).isFilled = true)).length := rfl
  rw [entries, entriesFrom, List.length_filterMap_eq_countP, Nat.sub_zero,
    List.countP_eq_length_filter, ← List.range_eq_range', htally]
  simp only [hsome, Bool.decide_eq_true]

theorem Arranged.nodup_entries (h : t.Arranged rules same) : t.entries.Nodup := by
  refine List.Nodup.filterMap (fun i j e hi hj => ?_) List.nodup_range'
  exact h.distinct (entryAt?_eq_some.mp hi) (entryAt?_eq_some.mp hj) (same.refl e.1)

theorem SameSlots.entries_eq (h : t.SameSlots t') : t'.entries = t.entries := by
  have hentry (i : Nat) : t'.entryAt? i = t.entryAt? i := by
    rw [entryAt?, entryAt?, h.tagAt_eq, h.keys, h.vals]
  rw [entries, entriesFrom, h.capacity_eq, funext hentry]
  rfl

theorem Refloored.sameSlots (h : Refloored t t') : t.SameSlots t' := by
  obtain ⟨floor, rfl, -, -⟩ := h
  exact ⟨rfl, rfl, rfl⟩

theorem Refloored.trans {u : Table κ ν} (h : Refloored t u) (h' : Refloored u t') :
    Refloored t t' := by
  obtain ⟨floor, rfl, -, -⟩ := h
  obtain ⟨floor', rfl, hrest⟩ := h'
  exact ⟨floor', rfl, hrest⟩

theorem Refloored.sound (h : Refloored t t') (ht : t.Sound rules same) : t'.Sound rules same := by
  obtain ⟨floor, rfl, hpos, hbelow⟩ := h
  exact ⟨ht.toWellFormed.congr ⟨rfl, rfl, rfl⟩ rfl rfl (fun i hf _ => hbelow i hf)
    (Int.le_refl _), ht.maxProbe_nonneg, hpos⟩

theorem Refloored.visitable (h : Refloored t t') (ht : t.Visitable) : t'.Visitable := by
  obtain ⟨floor, rfl, hpos, hbelow⟩ := h
  exact ⟨ht.keys_size, ht.vals_size, hpos, hbelow⟩

theorem Visitable.refloored (h : t.Visitable) : Refloored t t :=
  ⟨t.floor, rfl, h.floor_nonneg, h.floor_le⟩

theorem Sound.visitable (h : t.Sound rules same) : t.Visitable where
  keys_size := h.keys_size
  vals_size := h.vals_size
  floor_nonneg := h.floor_nonneg
  floor_le i hf := by
    obtain ⟨k, v, hk⟩ := h.exists_holds hf
    obtain ⟨hash, d, hp⟩ := h.placed hk
    exact hp.floor_le

theorem Sound.refloored (h : t.Sound rules same) : Refloored t t := h.visitable.refloored

/-! ## Steps of a visit -/

def NextFilled (t : Table κ ν) (i : Nat) : Option Int → Prop
  | none => ∀ x, i ≤ x → (t.tagAt x).isFilled = false
  | some index => ∃ m : Nat, index = m ∧ i ≤ m ∧ (t.tagAt m).isFilled = true ∧
      ∀ x, i ≤ x → x < m → (t.tagAt x).isFilled = false

def NextStep (t : Table κ ν) (i : Nat) : Option (Step κ ν) → Prop
  | none => ∀ x, i ≤ x → (t.tagAt x).isFilled = false
  | some step => ∃ m : Nat, step.resume = (m + 1 : Nat) ∧ i ≤ m ∧
      t.Holds m step.key step.value ∧ ∀ x, i ≤ x → x < m → (t.tagAt x).isFilled = false

private theorem firstFilled?_spec (n i : Nat) (hn : t.capacity ≤ i + n) :
    t.NextFilled i (t.firstFilled? n i) := by
  induction n generalizing i with
  | zero =>
      intro x hx
      rw [tagAt_of_le (by omega)]
      rfl
  | succ n ih =>
      have hcell : ((cell? t.capacity (i : Int)).map t.tagAt).getD .empty = t.tagAt i := by
        rw [cell?_natCast]
        split
        · rfl
        · exact (tagAt_of_le (by omega)).symm
      rw [firstFilled?, hcell]
      cases hf : (t.tagAt i).isFilled with
      | true => exact ⟨i, rfl, Nat.le_refl i, hf, fun x hx hxi => by omega⟩
      | false =>
          have hself {x : Nat} (hx : i ≤ x) (h : i + 1 ≤ x → (t.tagAt x).isFilled = false) :
              (t.tagAt x).isFilled = false := by
            by_cases hxi : x = i
            · rwa [hxi]
            · exact h (by omega)
          have hrest := ih (i + 1) (by omega)
          rw [if_neg (by simp), ← Int.natCast_add_one]
          cases hfound : t.firstFilled? n (i + 1 : Nat) with
          | none =>
              rw [hfound] at hrest
              exact fun x hx => hself hx (hrest x)
          | some index =>
              rw [hfound] at hrest
              obtain ⟨m, rfl, hm, hfm, hbelow⟩ := hrest
              exact ⟨m, rfl, by omega, hfm, fun x hx hxm => hself hx fun hx' => hbelow x hx' hxm⟩

private theorem isFilled_of_firstFilled? {n m : Nat} {index : Int}
    (h : t.firstFilled? n index = some (m : Int)) : (t.tagAt m).isFilled = true := by
  induction n generalizing index with
  | zero => cases h
  | succ n ih =>
      rw [firstFilled?] at h
      split at h
      · next hf =>
        rw [Option.some.inj h, cell?_natCast] at hf
        split at hf
        · exact hf
        · cases hf
      · exact ih h

theorem NextFilled.of_floor {found : Option Int} (h : t.NextFilled i found)
    (hnone : ∀ x < i, (t.tagAt x).isFilled = false) : t.NextFilled 0 found := by
  have hsplit {x : Nat} (hx : i ≤ x → (t.tagAt x).isFilled = false) :
      (t.tagAt x).isFilled = false := by
    by_cases hxi : x < i
    · exact hnone x hxi
    · exact hx (by omega)
  cases found with
  | none => exact fun x _ => hsplit (h x)
  | some index =>
      obtain ⟨m, hindex, -, hf, hbelow⟩ := h
      exact ⟨m, hindex, Nat.zero_le m, hf, fun x _ hxm => hsplit fun hx => hbelow x hx hxm⟩

theorem Visitable.nextFilled_zero (h : t.Visitable) {found : Option Int}
    (hnext : t.NextFilled t.floor.toNat found) : t.NextFilled 0 found := by
  refine hnext.of_floor fun x hx => ?_
  by_contra hf
  have := h.floor_le x (by simpa using hf)
  omega

theorem Sound.nextFilled_zero (h : t.Sound rules same) {found : Option Int}
    (hnext : t.NextFilled t.floor.toNat found) : t.NextFilled 0 found :=
  h.visitable.nextFilled_zero hnext

theorem NextFilled.unique {found found' : Option Int} (h : t.NextFilled i found)
    (h' : t.NextFilled i found') : found = found' := by
  have habsurd {m : Nat} (hf : (t.tagAt m).isFilled = true)
      (hnone : (t.tagAt m).isFilled = false) : False := by
    rw [hf] at hnone
    cases hnone
  cases found with
  | none =>
      cases found' with
      | none => rfl
      | some index' =>
          obtain ⟨m, -, hm, hf, -⟩ := h'
          exact (habsurd hf (h m hm)).elim
  | some index =>
      obtain ⟨m, rfl, hm, hf, hbelow⟩ := h
      cases found' with
      | none => exact (habsurd hf (h' m hm)).elim
      | some index' =>
          obtain ⟨n, rfl, hn, hf', hbelow'⟩ := h'
          rcases Nat.lt_trichotomy m n with hlt | rfl | hlt
          · exact (habsurd hf (hbelow' m hm hlt)).elim
          · rfl
          · exact (habsurd hf' (hbelow n hn hlt)).elim

theorem filledFrom?_spec (t : Table κ ν) (i : Nat) :
    ∃ found, (t.filledFrom? i : Except (Fault κ ε) (Option Int)) = .ok found ∧
      t.NextFilled i found := by
  refine ⟨t.firstFilled? (t.capacity - i : Int).toNat i, ?_, firstFilled?_spec _ i (by omega)⟩
  rw [filledFrom?, if_neg (by omega)]

theorem visit_spec (hk : t.keys.size = t.capacity) (hv : t.vals.size = t.capacity)
    {found : Option Int} (h : t.NextFilled i found) :
    ∃ step, (t.visit found : Except (Fault κ ε) (Option (Step κ ν))) = .ok step ∧
      t.NextStep i step := by
  cases found with
  | none => exact ⟨none, rfl, h⟩
  | some index =>
      obtain ⟨m, rfl, hm, hf, hbelow⟩ := h
      obtain ⟨k, v, hm'⟩ := exists_holds hk hv hf
      refine ⟨some ⟨k, v, m + 1⟩, ?_, m, rfl, hm, hm', hbelow⟩
      rw [visit, if_neg (by omega), key_eq hm'.key, val_eq hm'.val]
      rfl

theorem stepFrom_spec (hk : t.keys.size = t.capacity) (hv : t.vals.size = t.capacity) (i : Nat) :
    ∃ step, (t.stepFrom i : Except (Fault κ ε) (Option (Step κ ν))) = .ok step ∧
      t.NextStep i step := by
  obtain ⟨found, hfound, hnext⟩ := filledFrom?_spec (ε := ε) t i
  obtain ⟨step, hstep, hnext⟩ := visit_spec (ε := ε) hk hv hnext
  refine ⟨step, ?_, hnext⟩
  rw [stepFrom, hfound]
  exact hstep

/-- From a step on, the visit collects what is left to visit. -/
theorem collect_spec (hk : t.keys.size = t.capacity) (hv : t.vals.size = t.capacity) (n : Nat)
    {step : Option (Step κ ν)} (h : t.NextStep i step) (hn : t.capacity ≤ i + n)
    (visited : Array (κ × ν)) :
    (t.collect n step visited : Except (Fault κ ε) (Array (κ × ν))) =
      .ok (visited ++ (t.entriesFrom i).toArray) := by
  induction n generalizing i step visited with
  | zero =>
      rw [entriesFrom_of_le (by omega)]
      simp [collect]
  | succ n ih =>
      -- A step stands for the first entry from `i` on, and the next one is looked for behind it.
      cases step with
      | none =>
          rw [entriesFrom_eq_nil h]
          simp [collect]
      | some step =>
          obtain ⟨m, hresume, hm, hholds, hbelow⟩ := h
          obtain ⟨step', heq, hnext⟩ := stepFrom_spec (ε := ε) hk hv (m + 1)
          rw [collect, hresume, heq]
          apply (ih hnext (by omega) _).trans
          rw [entriesFrom_skip hm hbelow, entriesFrom_of_holds hholds]
          simp

theorem exists_stepFrom (hk : t.keys.size = t.capacity) (hv : t.vals.size = t.capacity)
    {index : Int} (h : ¬index < -(t.capacity : Int)) :
    ∃ step, (t.stepFrom index : Except (Fault κ ε) (Option (Step κ ν))) = .ok step := by
  rw [stepFrom, filledFrom?, if_neg h]
  cases hfound : t.firstFilled? (t.capacity - index).toNat index with
  | none => exact ⟨none, rfl⟩
  | some j =>
      by_cases hneg : j < 0
      · exact ⟨none, if_pos hneg⟩
      · obtain ⟨m, rfl⟩ := Int.eq_ofNat_of_zero_le (Int.not_lt.mp hneg)
        obtain ⟨k, v, hm⟩ := exists_holds hk hv (isFilled_of_firstFilled? hfound)
        refine ⟨some ⟨k, v, m + 1⟩, ?_⟩
        change t.visit (some (m : Int)) = _
        rw [visit, if_neg hneg, key_eq hm.key, val_eq hm.val]
        rfl

end Table

namespace Op

open Table

variable {s : Journal κ ν}

theorem filledFromFloor?_visits (h : s.table.Visitable) :
    (filledFromFloor? : Op κ ν ε (Option Int)).Outcome s
      (fun found s' => s.table.NextFilled s.table.floor.toNat found ∧
        Refloored s.table s'.table) (fun _ _ => False) := by
  have hfloor := h.floor_nonneg
  obtain ⟨found, heq, hnext⟩ := filledFrom?_spec (ε := ε) s.table s.table.floor.toNat
  rw [Int.toNat_of_nonneg hfloor] at heq
  rw [filledFromFloor?, outcome_bind, outcome_query_ok heq]
  cases found with
  | none => exact ⟨hnext, h.refloored⟩
  | some index =>
      have hnext' := hnext
      obtain ⟨m, rfl, -, -, hbelow⟩ := hnext
      dsimp only
      rw [if_pos (Int.natCast_nonneg m)]
      refine ⟨hnext', m, rfl, Int.natCast_nonneg m, fun i hf => ?_⟩
      have := h.floor_le i hf
      by_contra hi
      have := hbelow i (by omega) (by omega)
      rw [hf] at this
      cases this

theorem filledFromFloor?_outcome (h : s.table.Sound rules same) :
    (filledFromFloor? : Op κ ν ε (Option Int)).Outcome s
      (fun found s' => s.table.NextFilled s.table.floor.toNat found ∧
        Refloored s.table s'.table) (fun _ _ => False) :=
  filledFromFloor?_visits h.visitable

theorem iterate_none_visits (h : s.table.Visitable) :
    (iterate none : Op κ ν ε (Option (Step κ ν))).Outcome s
      (fun step s' => s'.table.NextStep 0 step ∧ Refloored s.table s'.table)
      (fun _ _ => False) := by
  refine (filledFromFloor?_visits h).bind ?_ (fun _ _ hl => hl)
  intro found s' hpost
  obtain ⟨hnext, hs'⟩ := hpost
  have hvisit := hs'.visitable h
  have hnext' : s'.table.NextFilled 0 found := by
    obtain ⟨floor, htable, -, -⟩ := hs'
    rw [htable]
    exact h.nextFilled_zero hnext
  obtain ⟨step, hstep, hfirst⟩ := visit_spec (ε := ε) hvisit.keys_size hvisit.vals_size hnext'
  rw [outcome_query_ok hstep]
  exact ⟨hfirst, hs'⟩

theorem iterate_none_outcome (h : s.table.Sound rules same) :
    (iterate none : Op κ ν ε (Option (Step κ ν))).Outcome s
      (fun step s' => s'.table.NextStep 0 step ∧ Refloored s.table s'.table)
      (fun _ _ => False) :=
  iterate_none_visits h.visitable

/-- A later step changes nothing. It fails only below all indices counted from the end. -/
theorem iterate_some_outcome (h : s.table.Sound rules same) (i : Int) :
    (iterate (some i) : Op κ ν ε (Option (Step κ ν))).Outcome s (fun _ s' => s' = s)
      (fun fault s' => i < -(s.table.capacity : Int) ∧ fault = outside i .slotIndex ∧ s' = s) := by
  rw [iterate, outcome_query]
  by_cases hi : i < -(s.table.capacity : Int)
  · rw [stepFrom, filledFrom?, if_pos hi]
    exact ⟨hi, rfl, rfl⟩
  · obtain ⟨step, heq⟩ := exists_stepFrom (ε := ε) h.keys_size h.vals_size hi
    rw [heq]
    rfl

/-- A visit of all entries gives them by index, and changes nothing but the floor. -/
theorem items_visits (h : s.table.Visitable) :
    (items : Op κ ν ε (Array (κ × ν))).Outcome s
      (fun entries s' => entries.toList = s.table.entries ∧ Refloored s.table s'.table)
      (fun _ _ => False) := by
  refine (iterate_none_visits h).bind ?_ (fun _ _ hl => hl)
  intro step s' hpost
  obtain ⟨hnext, hs'⟩ := hpost
  have hvisit := hs'.visitable h
  have hentries : s'.table.entriesFrom 0 = s.table.entries := by
    obtain ⟨floor, htable, -, -⟩ := hs'
    rw [htable]
    rfl
  rw [outcome_query_ok (collect_spec hvisit.keys_size hvisit.vals_size _ hnext
    (Nat.le_add_left _ _) #[]), hentries]
  exact ⟨by simp, hs'⟩

theorem items_outcome (h : s.table.Sound rules same) :
    (items : Op κ ν ε (Array (κ × ν))).Outcome s
      (fun entries s' => entries.toList = s.table.entries ∧ Refloored s.table s'.table)
      (fun _ _ => False) :=
  items_visits h.visitable

end Op

/-! ## Visits a step at a time -/

def Cursor.At : Cursor → Nat → Prop
  | .fresh, i => i = 0
  | .paused resume, i => resume = i
  | .finished, _ => False

open Table Op in
theorem Cursor.advance_outcome {s : Journal κ ν} {cursor : Cursor} (h : s.table.Sound rules same)
    {i : Nat} (hat : cursor.At i) :
    (cursor.advance : Op κ ν ε (Option κ × Cursor)).Outcome s
      (fun reply s' => Refloored s.table s'.table ∧
        ∃ step, s'.table.NextStep i step ∧ reply = Cursor.ofStep step) (fun _ _ => False) := by
  cases cursor with
  | fresh =>
      obtain rfl : i = 0 := hat
      refine (iterate_none_outcome h).bind ?_ (fun _ _ hl => hl)
      intro step s' hpost
      obtain ⟨hnext, hs'⟩ := hpost
      exact ⟨hs', step, hnext, rfl⟩
  | paused resume =>
      obtain rfl : resume = i := hat
      obtain ⟨step, hstep, hnext⟩ := stepFrom_spec (ε := ε) h.keys_size h.vals_size i
      rw [advance, outcome_bind, iterate, outcome_query_ok hstep]
      exact ⟨h.refloored, step, hnext, rfl⟩
  | finished => exact hat.elim

end OpenAddressing
