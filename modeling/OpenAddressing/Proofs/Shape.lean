import Mathlib.Data.Nat.Find
import OpenAddressing.Proofs.Invariant

/-!
# Tombstones are kept only where they are needed

A tombstone keeps probes going to an entry behind it. Deletions put none before an empty
slot, and when they empty a slot, they go back over all tombstones that end there. So behind
the tombstones of a run there is an entry, and a table without entries is as good as new.
-/

namespace OpenAddressing

variable {κ ν ε : Type} {rules : Rules κ ε} {same : Setoid κ}

namespace Table

variable {t t' u : Table κ ν} {i j : Nat} {p : Prop}

/-- No tombstone is followed by an empty slot. -/
def NoLeak (t : Table κ ν) : Prop :=
  ∀ i < t.capacity, t.tagAt i = .tombstone → t.tagAt (t.after i) ≠ .empty

structure Neat [Inhabited κ] [Inhabited ν] (t : Table κ ν) : Prop where
  noLeak : t.NoLeak
  tidy : t.Tidy
  load : (t.count + t.dead) * 3 ≤ t.capacity * 2

theorem SameSlots.noLeak (hs : t.SameSlots t') (h : t.NoLeak) : t'.NoLeak := by
  intro i hi htomb
  rw [hs.capacity_eq] at hi
  rw [hs.tagAt_eq] at htomb
  rw [after, hs.capacity_eq, hs.tagAt_eq]
  exact h i hi htomb

theorem NoLeak.write (h : t.NoLeak) (hi : i < t.capacity) {tag : Tag} {key : κ} {value : ν}
    (hne : tag ≠ .empty) (htag : tag = .tombstone → t.tagAt (t.after i) ≠ .empty) :
    (t.write i tag key value).NoLeak := by
  intro j hj htomb
  rw [capacity_write] at hj
  rw [after, capacity_write, tagAt_write hi]
  rw [tagAt_write hi] at htomb
  split
  · exact hne
  · split at htomb
    · next hji =>
      rw [hji]
      exact htag htomb
    · exact h j hj htomb

theorem noLeak_of_dead_zero (h : t.WellFormed rules same) (hdead : t.dead = 0) : t.NoLeak := by
  intro i hi htomb
  have hpos := tally_pos (p := isTombstone) hi (isTombstone_iff.mpr htomb)
  have := h.dead_eq
  omega

theorem before_after (hc : IsCapacity t.capacity) (hj : j < t.capacity) :
    t.before (t.after j) = j := by
  have hafter : (t.after j : Int) = (j + 1) % t.capacity := hc.mask_eq _
  have hbefore : (t.before (t.after j) : Int) = (t.after j - 1) % t.capacity := hc.mask_eq _
  rw [hafter, Int.emod_sub_emod] at hbefore
  have hsum : (j + 1 - 1 : Int) = j := by omega
  rw [hsum, Int.emod_eq_of_lt (by omega) (by omega)] at hbefore
  omega

variable [Inhabited κ] [Inhabited ν]

theorem Neat.congr (h : t.Neat) (hs : t.SameSlots t')
    (hload : t'.count + t'.dead ≤ t.count + t.dead) : t'.Neat where
  noLeak := hs.noLeak h.noLeak
  tidy := hs.tidy h.tidy
  load := by
    have := h.load
    rw [hs.capacity_eq]
    omega

/-! ## Deletions -/

/-- The slots are emptied backwards, so that at each moment no tombstone leaks but perhaps the
one to be emptied next. -/
theorem Vacated.noLeak {n : Nat} (h : Vacated t i n t') (hc : IsCapacity t.capacity)
    (hi : i < t.capacity)
    (hleak : ∀ j < t.capacity, t.tagAt j = .tombstone → t.tagAt (t.after j) = .empty → j = i) :
    t'.NoLeak := by
  -- After slot `i` is emptied, only the tombstone before it can leak.
  have hwiped {t : Table κ ν} {i : Nat} (hc : IsCapacity t.capacity) (hi : i < t.capacity)
      (hleak : ∀ j < t.capacity, t.tagAt j = .tombstone →
        t.tagAt (t.after j) = .empty → j = i) :
      ∀ j < (t.wiped i .empty).capacity, (t.wiped i .empty).tagAt j = .tombstone →
        (t.wiped i .empty).tagAt ((t.wiped i .empty).after j) = .empty → j = t.before i := by
    intro j hj htomb hempty
    rw [capacity_wiped] at hj
    rw [wiped, tagAt_write hi] at htomb
    rw [wiped, after, capacity_write, tagAt_write hi] at hempty
    split at htomb
    · cases htomb
    · next hji =>
      split at hempty
      · next hafter =>
        rw [← hafter]
        exact (before_after hc hj).symm
      · exact absurd (hleak j hj htomb hempty) hji
  induction h with
  | @stop t i hbefore =>
      intro j hj htomb hempty
      rw [hwiped hc hi hleak j hj htomb hempty] at htomb
      exact hbefore htomb
  | @more t t' i n hbefore hrest ih =>
      refine ih ?_ ?_ (hwiped hc hi hleak)
      · rwa [capacity_wiped]
      · rw [capacity_wiped]
        exact before_lt hc

theorem Vacated.tidy {n : Nat} (h : Vacated t i n t') (ht : t.Arranged rules same)
    (hi : i < t.capacity) (hnext : t.tagAt (t.after i) = .empty) (htidy : t.Tidy) : t'.Tidy := by
  refine (h.induct (P := fun u => u.Arranged rules same ∧ u.Tidy) ⟨ht, htidy⟩ hi
    (ht.isCapacity hi) hnext ?_).2
  intro u j h' _ hj hafter
  obtain ⟨hu, htidy⟩ := h'
  exact ⟨hu.vacate hj hafter, htidy.write hu.keys_size hu.vals_size hj fun _ => ⟨rfl, rfl⟩⟩

theorem Deleted.neat (h : Deleted t i t') (ht : t.Sound rules same)
    (hf : (t.tagAt i).isFilled = true) (hneat : t.Neat) : t'.Neat := by
  have hi := lt_of_isFilled hf
  have hload := hneat.load
  have hne : t.tagAt i ≠ .tombstone := by
    intro he
    rw [he] at hf
    cases hf
  cases h with
  | buried hnext =>
      have hs : (t.wiped i .tombstone).SameSlots { t.wiped i .tombstone with
        dead := t.dead + 1, count := t.count - 1, age := t.age + 1 } := ⟨rfl, rfl, rfl⟩
      refine ⟨hs.noLeak (hneat.noLeak.write hi (by decide) fun _ => hnext),
        hs.tidy (hneat.tidy.write ht.keys_size ht.vals_size hi fun _ => ⟨rfl, rfl⟩), ?_⟩
      rw [hs.capacity_eq, capacity_wiped]
      change (t.count - 1 + (t.dead + 1)) * 3 ≤ _
      omega
  | @vacated u n hnext hu =>
      have hs : u.SameSlots { u with
        dead := u.dead - n, count := u.count - 1, age := u.age + 1 } := ⟨rfl, rfl, rfl⟩
      obtain ⟨hcount, hdead, -, -, -⟩ := hu.counters
      refine ⟨hs.noLeak (hu.noLeak (ht.isCapacity hi) hi fun j hj htomb hempty =>
        absurd hempty (hneat.noLeak j hj htomb)),
        hs.tidy (hu.tidy ht.toArranged hi hnext hneat.tidy), ?_⟩
      rw [hs.capacity_eq, hu.capacity_eq]
      change (u.count - 1 + (u.dead - n)) * 3 ≤ _
      omega

/-! ## Insertions -/

theorem Rehashed.neat {size : Int} (h : t.Rehashed rules same size t') : t'.Neat where
  noLeak := noLeak_of_dead_zero h.toWellFormed h.dead_zero
  tidy := h.tidy
  load := by
    have := count_lt_rehashCapacity t size
    have h₁ := h.count_same
    have h₂ := h.dead_zero
    rw [h.capacity_eq]
    omega

theorem Grown.neat {key : κ} {hash : Int} (h : Grown rules same key hash t u) (ht : t.Neat) :
    u.Neat := by
  induction h with
  | refl => exact ht
  | alloc _ hu => exact hu.neat
  | double _ _ _ hu _ ih => exact ih hu.neat

theorem Vacant.neat_added {key : κ} {hash : Int} {d : Nat} {value : ν}
    (hv : u.Vacant rules same key hash i d) (hu : u.Sound rules same) (hneat : u.Neat)
    (hload : (u.added i d hash key value).overloaded = false) :
    (u.added i d hash key value).Neat := by
  have hi := hv.index_lt hu.toArranged
  have hs := sameSlots_added u i d hash key value
  refine ⟨hs.noLeak (hneat.noLeak.write hi (fingerprint_ne_empty hash) fun he =>
      absurd he (fingerprint_ne_tombstone hash)),
    hs.tidy (hneat.tidy.write hu.keys_size hu.vals_size hi (by simp)), ?_⟩
  simpa [overloaded] using hload

theorem Neat.revalued (h : t.Neat) (hf : (t.tagAt i).isFilled = true) (value : ν) :
    (t.revalued i value).Neat where
  noLeak := h.noLeak
  tidy := by
    intro j hj hjf
    obtain ⟨hk, hv⟩ := h.tidy j hj hjf
    have hji : i ≠ j := by
      intro heq
      subst heq
      have : (t.tagAt i).isFilled = false := hjf
      rw [hf] at this
      cases this
    refine ⟨hk, ?_⟩
    simpa only [Table.revalued, Array.getElem?_setIfInBounds, if_neg hji] using hv
  load := h.load

theorem Assigned.neat {key : κ} {value : ν} (h : Assigned rules same key value t t')
    (ht : t.Sound rules same) (hneat : t.Neat) : t'.Neat := by
  cases h with
  | replaced hk _ => exact hneat.revalued hk.filled value
  | added hgrown hv _ hload => exact hv.neat_added (hgrown.sound ht) (hgrown.neat hneat) hload
  | rehashed _ _ _ _ ht' => exact ht'.neat

theorem Inserting.neat (h : Inserting rules same p t t') (hp : ¬p) (ht : t.Sound rules same)
    (hneat : t.Neat) : t'.Neat := by
  cases h with
  | assigned h => exact h.neat ht hneat
  | lost hlost => exact absurd hlost hp
  | planned h =>
      cases h with
      | found => exact hneat
      | vacant hgrown _ _ => exact (hgrown.neat hneat).congr ⟨rfl, rfl, rfl⟩ (Int.le_refl _)
  | revalued hf => exact hneat.revalued hf _
  | refloored h =>
      obtain ⟨floor, rfl, -, -⟩ := h
      exact hneat.congr ⟨rfl, rfl, rfl⟩ (Int.le_refl _)

theorem Insertions.neat (h : Insertions rules same p t t') (hp : ¬p) (ht : t.Sound rules same)
    (hneat : t.Neat) : t'.Neat := by
  induction h with
  | refl => exact hneat
  | tail hpast hstep ih => exact hstep.neat hp (Insertions.sound hpast ht) ih

/-! ## All requests -/

theorem neat_blank (size : Nat) : (blank size : Table κ ν).Neat where
  noLeak i _ htomb := by
    rw [tagAt_blank] at htomb
    cases htomb
  tidy i hi _ := by
    rw [capacity_blank] at hi
    simp [blank, hi]
  load := by
    change (0 + 0 : Int) * 3 ≤ _
    omega

theorem Effect.neat {request : TableRequest κ ν ε} (h : Effect rules same p t request t')
    (hp : ¬p) (ht : t.Sound rules same) (hneat : t.Neat) : t'.Neat := by
  cases h with
  | inserted h => exact h.neat hp ht hneat
  | deleted hf h => exact h.neat ht hf hneat
  | copied => exact hneat.congr ⟨rfl, rfl, rfl⟩ (Int.le_refl _)
  | cleared => exact (neat_blank _).congr ⟨rfl, rfl, rfl⟩ (Int.le_refl _)
  | freed => exact (neat_blank _).congr ⟨rfl, rfl, rfl⟩ (Int.le_refl _)
  | rehashed h => exact h.neat
  | renewed hlost => exact absurd hlost hp

/-! ## What follows from the shape -/

/-- From a tombstone on, the path comes to an entry before anything else. -/
theorem Neat.exists_filled (h : t.Neat) (ht : t.Sound rules same) (hi : i < t.capacity)
    (htomb : t.tagAt i = .tombstone) :
    ∃ n < t.capacity, (∀ d < n, t.tagAt (along t.capacity i d) = .tombstone) ∧
      (t.tagAt (along t.capacity i n)).isFilled = true := by
  have hc := ht.isCapacity hi
  -- Tombstones take two thirds of the slots at most, so the path leaves them.
  have hleave : ∃ n, t.tagAt (along t.capacity i n) ≠ .tombstone ∧ n < t.capacity := by
    by_contra hnone
    push Not at hnone
    have hpath (d : Nat) (hd : d < t.capacity) :
        isTombstone (t.tagAt (along t.capacity i d)) = true := by
      rw [isTombstone_iff]
      by_contra hd'
      have := hnone d hd'
      omega
    have hall := le_tally_of_along hc (Nat.le_refl _) hpath
    have := h.load
    have := ht.dead_eq
    have := ht.count_eq
    have := hc.pos
    omega
  classical
  obtain ⟨n, ⟨hne, hn⟩, hmin⟩ : ∃ n, (t.tagAt (along t.capacity i n) ≠ .tombstone ∧
      n < t.capacity) ∧ ∀ d < n, ¬(t.tagAt (along t.capacity i d) ≠ .tombstone ∧
        d < t.capacity) :=
    ⟨Nat.find hleave, Nat.find_spec hleave, fun d => Nat.find_min hleave⟩
  have hbelow (d : Nat) (hd : d < n) : t.tagAt (along t.capacity i d) = .tombstone := by
    by_contra hd'
    exact hmin d hd ⟨hd', by omega⟩
  refine ⟨n, hn, hbelow, ?_⟩
  rcases ht.tags (along t.capacity i n) with hempty | htomb' | hf
  · -- The slot before it is a tombstone, which would leak.
    cases n with
    | zero =>
        rw [hc.along_self hi] at hne
        exact absurd htomb hne
    | succ n =>
        have hnext : t.after (along t.capacity i n) = along t.capacity i (n + 1) :=
          hc.next_along _ _
        rw [← hnext] at hempty
        exact absurd hempty (h.noLeak _ (hc.along_lt _ _) (hbelow n (by omega)))
  · exact absurd htomb' hne
  · exact hf

theorem Neat.blank_of_count_zero (h : t.Neat) (ht : t.Sound rules same) (hcount : t.count = 0) :
    t.dead = 0 ∧ (blank t.capacity : Table κ ν).SameSlots t := by
  have hnone (i : Nat) (hi : i < t.capacity) : (t.tagAt i).isFilled = false := by
    refine tally_eq_zero ?_ hi
    have := ht.count_eq
    omega
  have hempty (i : Nat) (hi : i < t.capacity) : t.tagAt i = .empty := by
    rcases ht.not_isFilled.mp (hnone i hi) with he | htomb
    · exact he
    · obtain ⟨n, -, -, hf⟩ := h.exists_filled ht hi htomb
      rw [hnone _ ((ht.isCapacity hi).along_lt _ _)] at hf
      cases hf
  refine ⟨?_, ?_, ?_, ?_⟩
  · by_contra hdead
    obtain ⟨i, hi⟩ : (t.slots isTombstone).Nonempty := by
      rw [← Finset.card_pos]
      have := ht.dead_eq
      rw [tally] at this
      omega
    obtain ⟨hlt, htomb⟩ := mem_slots.mp hi
    rw [isTombstone_iff, hempty i hlt] at htomb
    cases htomb
  · refine Array.ext (by simp [blank, capacity]) fun i hi _ => ?_
    have := hempty i hi
    simpa [blank, tagAt, Array.getD_eq_getD_getElem?, hi] using this
  · refine Array.ext (by simp [blank, ht.keys_size]) fun i hi _ => ?_
    have hi' : i < t.capacity := by rwa [← ht.keys_size]
    have := (h.tidy i hi' (hnone i hi')).1
    simpa [blank, hi] using this
  · refine Array.ext (by simp [blank, ht.vals_size]) fun i hi _ => ?_
    have hi' : i < t.capacity := by rwa [← ht.vals_size]
    have := (h.tidy i hi' (hnone i hi')).2
    simpa [blank, hi] using this

end Table

variable [Inhabited κ] [Inhabited ν]

theorem neat_runAll (hr : rules.Lawful same) (hint : Int) (requests : List (TableRequest κ ν ε)) :
    (reached rules hint requests).table.Neat ∨ Starved rules hint requests := by
  have hstep (request : TableRequest κ ν ε) (s : Journal κ ν)
      (h : s.table.Sound rules same ∧ s.table.Neat) :
      ((request.onTable rules s).2.table.Sound rules same ∧
        (request.onTable rules s).2.table.Neat) ∨ request.Starves rules s := by
    obtain ⟨hsound, hneat⟩ := h
    have heffect := (request.onTable_effect hr hsound).1
    by_cases hstarves : request.Starves rules s
    · exact Or.inr hstarves
    · exact Or.inl ⟨heffect.sound hsound, heffect.neat hstarves hsound hneat⟩
  have hrun := runAll_invariant_or hstep requests (s := ⟨Table.new hint, #[]⟩)
    ⟨Table.sound_new hint, Table.neat_blank _⟩
  exact hrun.imp_left fun h => h.2

/-- In every table that a run leads to, no tombstone is followed by an empty slot. So a path
through tombstones comes to an entry, and without entries the storage is that of a new table.
The only thing that can come in between is a request for slots for which there is no memory. -/
theorem tombstones_never_leak (hr : rules.Lawful same) (hint : Int)
    (requests : List (TableRequest κ ν ε)) :
    let t := (reached rules hint requests).table
    ((∀ i < t.capacity, t.tagAt i = .tombstone → t.tagAt (t.after i) ≠ .empty) ∧
      (∀ i < t.capacity, t.tagAt i = .tombstone →
        ∃ n < t.capacity, (∀ d < n, t.tagAt (along t.capacity i d) = .tombstone) ∧
          (t.tagAt (along t.capacity i n)).isFilled = true) ∧
      (t.count = 0 → t.dead = 0 ∧ (∀ i < t.capacity, t.tagAt i = .empty) ∧
        (Table.blank t.capacity : Table κ ν).SameSlots t)) ∨
    Starved rules hint requests := by
  have hsound : (reached rules hint requests).table.Sound rules same :=
    sound_reached hr hint requests
  refine (neat_runAll hr hint requests).imp_left fun hneat => ?_
  refine ⟨hneat.noLeak, fun i hi htomb => hneat.exists_filled hsound hi htomb, ?_⟩
  intro hcount
  obtain ⟨hdead, hblank⟩ := hneat.blank_of_count_zero hsound hcount
  exact ⟨hdead, fun i _ => by rw [hblank.tagAt_eq, Table.tagAt_blank], hblank⟩

/-- Two keys whose path begins at the last slot, so that the second one is in the first slot;
deleted in this order, the first leaves a tombstone and the second takes it away. -/
theorem tombstones_never_leak_digits :
    let rules : Rules Nat Empty := .through (· % 10) (fun _ => -1) 64000 none
    let requests : List (TableRequest Nat Nat Empty) :=
      [.map (.set 3 30), .map (.set 4 40), .map (.delete 13)]
    let t : Table Nat Nat := (reached rules 0 requests).table
    let t' : Table Nat Nat := (reached rules 0 (requests ++ [.map (.delete 4)])).table
    rules.Lawful (Setoid.ker (· % 10)) ∧
      (t.tagAt 15 = .tombstone ∧ t.tagAt (t.after 15) ≠ .empty) ∧ t'.count = 0 ∧ t'.dead = 0 := by
  intro rules requests t t'
  have hr : rules.Lawful (Setoid.ker (· % 10)) := Rules.lawful_through _ _ _ _
  refine ⟨hr, ⟨by decide +kernel, ?_⟩, by decide +kernel, ?_⟩
  · have hneat := (tombstones_never_leak hr 0 requests).resolve_right fun h => h.limited rfl
    exact hneat.1 15 (by decide +kernel) (by decide +kernel)
  · have hneat := (tombstones_never_leak hr 0 (requests ++ [.map (.delete 4)])).resolve_right
      fun h => h.limited rfl
    exact (hneat.2.2 (by decide +kernel)).1

end OpenAddressing
