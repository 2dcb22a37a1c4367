import OpenAddressing.Proofs.Search

/-!
# Removals slot by slot

Deleting the entry of a slot changes that slot and no other, unless the slot after it is empty.
Then the tombstones right before it become empty as well, and these are slots that no path to an
entry leads through. So each other entry stays in its slot, and lookups come to it as before.
-/

namespace OpenAddressing

variable {κ ν ε : Type} {rules : Rules κ ε} {same : Setoid κ}

namespace Table

variable {t t' u : Table κ ν} {i j n d e : Nat} {tag : Tag}

def behind (t : Table κ ν) (i d : Nat) : Nat := mask t.capacity (i - d)

/-- The `n` slots right before `i` are tombstones, and the one before them is not. -/
structure Trail (t : Table κ ν) (i n : Nat) : Prop where
  lt : n + 1 < t.capacity
  tombstone : ∀ d, 1 ≤ d → d ≤ n → t.tagAt (t.behind i d) = .tombstone
  ends : t.tagAt (t.behind i (n + 1)) ≠ .tombstone

structure SameSlot (t t' : Table κ ν) (j : Nat) : Prop where
  tag_eq : t'.tagAt j = t.tagAt j
  key_eq : t'.keys[j]? = t.keys[j]?
  val_eq : t'.vals[j]? = t.vals[j]?

structure Cleared [Inhabited κ] [Inhabited ν] (t : Table κ ν) (j : Nat) (tag : Tag) : Prop where
  tag_eq : t.tagAt j = tag
  key_eq : t.keys[j]? = some default
  val_eq : t.vals[j]? = some default

theorem SameSlot.trans (h : t.SameSlot u j) (h' : u.SameSlot t' j) : t.SameSlot t' j where
  tag_eq := h'.tag_eq.trans h.tag_eq
  key_eq := h'.key_eq.trans h.key_eq
  val_eq := h'.val_eq.trans h.val_eq

theorem SameSlots.sameSlot (h : t.SameSlots t') (j : Nat) : t.SameSlot t' j where
  tag_eq := h.tagAt_eq
  key_eq := by rw [h.keys]
  val_eq := by rw [h.vals]

theorem SameSlot.cleared [Inhabited κ] [Inhabited ν] (h : t.SameSlot t' j)
    (hc : t.Cleared j tag) : t'.Cleared j tag where
  tag_eq := h.tag_eq.trans hc.tag_eq
  key_eq := h.key_eq.trans hc.key_eq
  val_eq := h.val_eq.trans hc.val_eq

/-! ## Steps backwards -/

theorem behind_zero (hc : IsCapacity t.capacity) (hi : i < t.capacity) : t.behind i 0 = i := by
  have h := hc.along_self hi
  rwa [along_zero] at h

theorem behind_before (hc : IsCapacity t.capacity) (i d : Nat) :
    t.behind (t.before i) d = t.behind i (d + 1) := by
  have h₁ : (t.behind (t.before i) d : Int) = (t.before i - d) % t.capacity := hc.mask_eq _
  have h₂ : (t.before i : Int) = (i - 1) % t.capacity := hc.mask_eq _
  have h₃ : (t.behind i (d + 1) : Int) = (i - (d + 1 : Nat)) % t.capacity := hc.mask_eq _
  rw [h₂, Int.emod_sub_emod] at h₁
  have hsum : (i - 1 - d : Int) = i - (d + 1 : Nat) := by omega
  rw [hsum, ← h₃] at h₁
  omega

theorem behind_capacity_sub_one (hc : IsCapacity t.capacity) :
    t.behind i (t.capacity - 1) = t.after i := by
  have hpos := hc.pos
  have h₁ : (t.behind i (t.capacity - 1) : Int) = (i - (t.capacity - 1 : Nat)) % t.capacity :=
    hc.mask_eq _
  have h₂ : (t.after i : Int) = (i + 1) % t.capacity := hc.mask_eq _
  have hsum : (i - (t.capacity - 1 : Nat) : Int) = i + 1 - t.capacity := by omega
  rw [hsum, Int.sub_emod_right, ← h₂] at h₁
  omega

theorem behind_injective (hc : IsCapacity t.capacity) (hd : d < t.capacity)
    (he : e < t.capacity) (heq : t.behind i d = t.behind i e) : d = e := by
  -- Both are slots on the path that begins where the round back would end.
  have hpath {x : Nat} (hx : x < t.capacity) :
      t.behind i x = along t.capacity (i - (t.capacity - 1 : Nat)) (t.capacity - 1 - x) :=
    congrArg (mask t.capacity) (by omega)
  rw [hpath hd, hpath he] at heq
  have := hc.along_injective (by omega) (by omega) heq
  omega

variable [Inhabited κ] [Inhabited ν]

@[simp]
theorem behind_wiped (t : Table κ ν) (i : Nat) (tag : Tag) (j d : Nat) :
    (t.wiped i tag).behind j d = t.behind j d := by
  rw [behind, behind, capacity_wiped]

theorem sameSlot_wiped (hi : i < t.capacity) (hj : j ≠ i) : t.SameSlot (t.wiped i tag) j where
  tag_eq := tagAt_write_of_ne hi _ _ _ hj
  key_eq := by simp [wiped, write, Ne.symm hj]
  val_eq := by simp [wiped, write, Ne.symm hj]

theorem cleared_wiped (ht : t.Fitted) (hi : i < t.capacity) : (t.wiped i tag).Cleared i tag where
  tag_eq := tagAt_write_self hi _ _ _
  key_eq := by simp [wiped, write, ht.keys_size, hi]
  val_eq := by simp [wiped, write, ht.vals_size, hi]

/-! ## The slots a deletion empties -/

namespace Vacated

theorem untouched (h : Vacated t i n t') (hc : IsCapacity t.capacity) (hi : i < t.capacity)
    (hj : ∀ d ≤ n, j ≠ t.behind i d) : t.SameSlot t' j := by
  induction h with
  | @stop t i =>
      have hji := hj 0 (Nat.le_refl 0)
      rw [behind_zero hc hi] at hji
      exact sameSlot_wiped hi hji
  | @more t t' i n hbefore hrest ih =>
      have hji := hj 0 (Nat.zero_le _)
      rw [behind_zero hc hi] at hji
      apply (sameSlot_wiped hi hji).trans
      apply ih
      · rwa [capacity_wiped]
      · rw [capacity_wiped]
        exact before_lt hc
      -- One step behind the slot before `i` is two steps behind `i`.
      · intro d hd
        rw [behind_wiped, behind_before hc]
        exact hj (d + 1) (by omega)

theorem cleared (h : Vacated t i n t') (ht : t.Fitted) (hi : i < t.capacity) (hd : d ≤ n) :
    t'.Cleared (t.behind i d) .empty := by
  induction h generalizing d with
  | @stop t i =>
      obtain rfl : d = 0 := by omega
      rw [behind_zero (ht.isCapacity (Nat.zero_lt_of_lt hi)) hi]
      exact cleared_wiped ht hi
  | @more t t' i n hbefore hrest ih =>
      have hc := ht.isCapacity (Nat.zero_lt_of_lt hi)
      have hc' : IsCapacity (t.wiped i .empty).capacity := by rwa [capacity_wiped]
      have hb : t.before i < (t.wiped i .empty).capacity := by
        rw [capacity_wiped]
        exact before_lt hc
      have hrest' {e : Nat} (he : e ≤ n) : t'.Cleared (t.behind i (e + 1)) .empty := by
        have := ih (ht.write _ _ _ _) hb he
        rwa [behind_wiped, behind_before hc] at this
      cases d with
      | succ e => exact hrest' (by omega)
      | zero =>
          rw [behind_zero hc hi]
          by_cases hround : ∃ e ≤ n, i = t.behind i (e + 1)
          · obtain ⟨e, he, heq⟩ := hround
            rw [heq]
            exact hrest' he
          · apply (hrest.untouched hc' hb _).cleared (cleared_wiped ht hi)
            intro e he heq
            rw [behind_wiped, behind_before hc] at heq
            exact hround ⟨e, he, heq⟩

theorem tombstone (h : Vacated t i n t') (hc : IsCapacity t.capacity) (hi : i < t.capacity)
    (hpos : 1 ≤ d) (hd : d ≤ n) : t.tagAt (t.behind i d) = .tombstone := by
  induction h generalizing d with
  | stop => omega
  | @more t t' i n hbefore hrest ih =>
      -- In the table with slot `i` wiped out no tombstone is slot `i`.
      have hkeep {j : Nat} (hj : (t.wiped i .empty).tagAt j = .tombstone) :
          t.tagAt j = .tombstone := by
        rw [wiped, tagAt_write hi] at hj
        split at hj
        · cases hj
        · exact hj
      apply hkeep
      by_cases hone : d = 1
      · rw [hone]
        exact hbefore
      · have hlast := ih (d := d - 1) (by rwa [capacity_wiped])
          (by rw [capacity_wiped]; exact before_lt hc) (by omega) (by omega)
        rw [behind_wiped, behind_before hc] at hlast
        rwa [show d = d - 1 + 1 by omega]

theorem ends (h : Vacated t i n t') (hc : IsCapacity t.capacity) :
    t'.tagAt (t.behind i (n + 1)) ≠ .tombstone := by
  induction h with
  | stop hbefore => exact hbefore
  | @more t t' i n hbefore hrest ih =>
      have := ih (by rwa [capacity_wiped])
      rwa [behind_wiped, behind_before hc] at this

/-- The slots emptied besides `i` are the tombstones right before it. They do not make a whole
round, for the slot after `i` is none. -/
theorem trail (h : Vacated t i n t') (hc : IsCapacity t.capacity) (hi : i < t.capacity)
    (hnext : t.tagAt (t.after i) = .empty) : t.Trail i n := by
  have hsize := hc.sixteen_le
  have hlt : n + 1 < t.capacity := by
    by_contra hn
    have hround := h.tombstone hc hi (d := t.capacity - 1) (by omega) (by omega)
    rw [behind_capacity_sub_one hc, hnext] at hround
    cases hround
  refine ⟨hlt, fun d hpos hd => h.tombstone hc hi hpos hd, ?_⟩
  have hsame : t.SameSlot t' (t.behind i (n + 1)) := by
    apply h.untouched hc hi
    intro d hd heq
    have := behind_injective hc hlt (by omega) heq
    omega
  rw [← hsame.tag_eq]
  exact h.ends hc

end Vacated

/-- What deleting the entry with the key `k` of slot `i` does to a table: the slots it changes,
what lookups give afterwards, and the counters. -/
structure Excised (rules : Rules κ ε) (t : Table κ ν) (i : Nat) (k : κ) (t' : Table κ ν) :
    Prop where
  find?_other : ∀ key, rules.equal key k = .ok false → t'.find? rules key = t.find? rules key
  find?_self : ∀ key, rules.equal key k = .ok true → t'.find? rules key = .ok none
  filled : ∀ j ≠ i, (t.tagAt j).isFilled = true → t.SameSlot t' j
  buried : t.tagAt (t.after i) ≠ .empty → t'.Cleared i .tombstone ∧
    (∀ j ≠ i, t.SameSlot t' j) ∧ t'.dead = t.dead + 1
  vacated : t.tagAt (t.after i) = .empty → ∃ n, t.Trail i n ∧
    (∀ d ≤ n, t'.Cleared (t.behind i d) .empty) ∧
    (∀ j, (∀ d ≤ n, j ≠ t.behind i d) → t.SameSlot t' j) ∧ t'.dead = t.dead - n
  dead_eq : t'.dead = t'.tally isTombstone
  count_eq : t'.count = t.count - 1
  age_eq : t'.age = t.age + 1
  maxProbe_eq : t'.maxProbe = t.maxProbe
  floor_eq : t'.floor = t.floor
  capacity_eq : t'.capacity = t.capacity

namespace Deleted

theorem cleared_of_buried (h : Deleted t i t') (ht : t.Fitted) (hi : i < t.capacity)
    (hnext : t.tagAt (t.after i) ≠ .empty) :
    t'.Cleared i .tombstone ∧ (∀ j ≠ i, t.SameSlot t' j) ∧ t'.dead = t.dead + 1 := by
  cases h with
  | vacated hempty => exact absurd hempty hnext
  | buried =>
      have hs : (t.wiped i .tombstone).SameSlots { t.wiped i .tombstone with
        dead := t.dead + 1, count := t.count - 1, age := t.age + 1 } := ⟨rfl, rfl, rfl⟩
      refine ⟨(hs.sameSlot i).cleared (cleared_wiped ht hi), ?_, rfl⟩
      intro j hj
      exact (sameSlot_wiped hi hj).trans (hs.sameSlot j)

theorem cleared_of_vacated (h : Deleted t i t') (ht : t.Fitted) (hi : i < t.capacity)
    (hnext : t.tagAt (t.after i) = .empty) :
    ∃ n, t.Trail i n ∧ (∀ d ≤ n, t'.Cleared (t.behind i d) .empty) ∧
      (∀ j, (∀ d ≤ n, j ≠ t.behind i d) → t.SameSlot t' j) ∧ t'.dead = t.dead - n := by
  cases h with
  | buried hfull => exact absurd hnext hfull
  | @vacated u n _ hu =>
      have hs : u.SameSlots { u with
        dead := u.dead - n, count := u.count - 1, age := u.age + 1 } := ⟨rfl, rfl, rfl⟩
      have hc := ht.isCapacity (Nat.zero_lt_of_lt hi)
      refine ⟨n, hu.trail hc hi hnext, ?_, ?_, ?_⟩
      · intro d hd
        exact (hs.sameSlot _).cleared (hu.cleared ht hi hd)
      · intro j hj
        exact (hu.untouched hc hi hj).trans (hs.sameSlot j)
      · rw [← hu.counters.2.1]

theorem sameSlot_of_filled (h : Deleted t i t') (ht : t.Fitted) (hi : i < t.capacity)
    (hj : j ≠ i) (hf : (t.tagAt j).isFilled = true) : t.SameSlot t' j := by
  have hc := ht.isCapacity (Nat.zero_lt_of_lt hi)
  by_cases hnext : t.tagAt (t.after i) = .empty
  · obtain ⟨n, htrail, -, hsame, -⟩ := h.cleared_of_vacated ht hi hnext
    apply hsame
    intro d hd heq
    cases d with
    | zero =>
        rw [behind_zero hc hi] at heq
        exact hj heq
    | succ d =>
        rw [heq, htrail.tombstone (d + 1) (by omega) hd] at hf
        cases hf
  · exact (h.cleared_of_buried ht hi hnext).2.1 j hj

theorem stores_iff (h : Deleted t i t') (hi : i < t.capacity) (hc : IsCapacity t.capacity)
    {key : κ} : t'.Stores same key j ↔ j ≠ i ∧ t.Stores same key j := by
  simp only [Stores, h.holds_iff hi hc]
  constructor
  · intro hs
    obtain ⟨k, v, ⟨hj, hk⟩, hsame⟩ := hs
    exact ⟨hj, k, v, hk, hsame⟩
  · intro hs
    obtain ⟨hj, k, v, hk, hsame⟩ := hs
    exact ⟨k, v, ⟨hj, hk⟩, hsame⟩

theorem find?_other (h : Deleted t i t') (hr : rules.Lawful same) (ht : t.WellFormed rules same)
    {k key : κ} {v : ν} (hk : t.Holds i k v) (hs : ¬same.r key k) :
    t'.find? rules key = t.find? rules key := by
  have hc := ht.isCapacity hk.lt
  obtain ⟨found, hfind, hfound⟩ := ht.exists_find? hr key
  obtain ⟨found', hfind', hfound'⟩ := (h.wellFormed ht hk.filled).exists_find? hr key
  have hsame (j : Nat) : found' = some j ↔ found = some j := by
    rw [hfound, hfound', h.stores_iff hk.lt hc]
    constructor
    · intro hj
      exact hj.2
    · intro hj
      refine ⟨?_, hj⟩
      intro hji
      subst hji
      exact hk.not_stores hs hj
  rw [hfind, hfind', Option.ext hsame]

theorem find?_self (h : Deleted t i t') (hr : rules.Lawful same) (ht : t.WellFormed rules same)
    {k key : κ} {v : ν} (hk : t.Holds i k v) (hs : same.r key k) :
    t'.find? rules key = .ok none := by
  apply ((h.wellFormed ht hk.filled).find?_eq_none_iff hr).mpr
  intro j l w hl hsame
  obtain ⟨hj, hl⟩ := (h.holds_iff hk.lt (ht.isCapacity hk.lt)).mp hl
  exact hj (ht.distinct hk hl (same.trans (same.symm hs) hsame)).symm

theorem excised (h : Deleted t i t') (hr : rules.Lawful same) (ht : t.WellFormed rules same)
    {k : κ} {v : ν} (hk : t.Holds i k v) : Excised rules t i k t' where
  find?_other key heq := by
    apply h.find?_other hr ht hk
    intro hs
    cases (hr.equal_iff heq).mpr hs
  find?_self key heq := h.find?_self hr ht hk ((equal_eq_true_iff hr).mp heq)
  filled j hj hf := h.sameSlot_of_filled ht.fitted hk.lt hj hf
  buried hnext := h.cleared_of_buried ht.fitted hk.lt hnext
  vacated hnext := h.cleared_of_vacated ht.fitted hk.lt hnext
  dead_eq := (h.wellFormed ht hk.filled).dead_eq
  count_eq := h.counters.1
  age_eq := h.counters.2.1
  maxProbe_eq := h.counters.2.2.2
  floor_eq := h.counters.2.2.1
  capacity_eq := h.capacity_eq

end Deleted

end Table

namespace Op

open Table

variable [Inhabited κ] [Inhabited ν] {s : Journal κ ν} {i : Nat}

/-- In a table that an audit accepts, deleting the entry of a slot removes that entry and strands
no other. Lookups of all other keys give the slot they gave, and no lookup finds the key any more.
Where the slot after it is empty, the slot and exactly the tombstones right before it become empty;
otherwise it becomes a tombstone and nothing else changes. -/
theorem deleteAt_excises (hr : rules.Lawful same) (h : s.table.audit rules = .ok ())
    (hf : (s.table.tagAt i).isFilled = true) :
    ∃ k s', s.table.keys[i]? = some k ∧ (deleteAt i : Op κ ν ε Unit) s = .ok () s' ∧
      s.table.Excised rules i k s'.table := by
  have ht := (audit_eq_ok_iff hr).mp h
  obtain ⟨k, v, hk⟩ := ht.exists_holds hf
  obtain ⟨_, s', hrun, hdel⟩ := (deleteAt_outcome (ε := ε) ht.fitted hf).exists_ok
    fun _ _ hl => hl
  exact ⟨k, s', hk.key, hrun, hdel.excised hr ht hk⟩

/-- Four keys begin at the last slot but one, and the two in the middle are gone. Deleting the last
of them empties a run of tombstones that goes across the end of the array. -/
theorem deleteAt_excises_digits :
    let rules : Rules Nat Empty := .through (· % 100) (fun _ => -2) 64000 none
    let s := reached (ν := Nat) rules 0 [.map (.set 3 30), .map (.set 5 50), .map (.set 7 70),
      .map (.set 9 90), .map (.delete 5), .map (.delete 107)]
    rules.Lawful (Setoid.ker (· % 100)) ∧ s.table.audit rules = .ok () ∧
      (s.table.tagAt 1).isFilled = true ∧ s.table.tagAt 2 = .empty ∧
      s.table.tagAt 0 = .tombstone ∧ s.table.tagAt 15 = .tombstone ∧
      ∃ k s', s.table.keys[1]? = some k ∧
        (deleteAt (1 : Nat) : Op Nat Nat Empty Unit) s = .ok () s' ∧
        s.table.Excised rules 1 k s'.table := by
  intro rules s
  have hr : rules.Lawful (Setoid.ker (· % 100)) := Rules.lawful_through _ _ _ _
  have haudit : s.table.audit rules = .ok () :=
    (audit_eq_ok_iff hr).mpr (sound_reached hr 0 _).toWellFormed
  have hf : (s.table.tagAt 1).isFilled = true := by decide +kernel
  refine ⟨hr, haudit, hf, by decide +kernel, by decide +kernel, by decide +kernel, ?_⟩
  exact deleteAt_excises hr haudit hf

end Op

end OpenAddressing
