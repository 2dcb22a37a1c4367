import OpenAddressing.Proofs.Cycle

/-!
# Slots and their contents

What a slot holds, how many slots have tags of a kind, and what a write to one slot does to
both.
-/

namespace OpenAddressing.Table

variable {κ ν : Type} {t : Table κ ν} {i j : Nat} {k : κ} {v : ν}

structure Holds (t : Table κ ν) (i : Nat) (k : κ) (v : ν) : Prop where
  filled : (t.tagAt i).isFilled = true
  key : t.keys[i]? = some k
  val : t.vals[i]? = some v

def Has (t : Table κ ν) (k : κ) (v : ν) : Prop := ∃ i, t.Holds i k v

/-- Slots without an entry have blank cells. -/
def Tidy [Inhabited κ] [Inhabited ν] (t : Table κ ν) : Prop :=
  ∀ i < t.capacity, (t.tagAt i).isFilled = false →
    t.keys[i]? = some default ∧ t.vals[i]? = some default

def slots (t : Table κ ν) (p : Tag → Bool) : Finset Nat :=
  (Finset.range t.capacity).filter fun i => p (t.tagAt i) = true

def tally (t : Table κ ν) (p : Tag → Bool) : Nat := (t.slots p).card

def tallyBelow (t : Table κ ν) (p : Tag → Bool) (n : Nat) : Nat :=
  ((Finset.range n).filter fun i => p (t.tagAt i) = true).card

/-- The tables differ in their counters only. -/
structure SameSlots (t t' : Table κ ν) : Prop where
  tags : t'.tags = t.tags
  keys : t'.keys = t.keys
  vals : t'.vals = t.vals

/-- No entry was added or moved, and none has got another key. -/
structure Settled (t t' : Table κ ν) : Prop where
  capacity_eq : t'.capacity = t.capacity
  holds {i : Nat} {k : κ} {v : ν} : t'.Holds i k v → ∃ w, t.Holds i k w

def write (t : Table κ ν) (i : Nat) (tag : Tag) (key : κ) (value : ν) : Table κ ν :=
  { t with
    tags := t.tags.setIfInBounds i tag
    keys := t.keys.setIfInBounds i key
    vals := t.vals.setIfInBounds i value }

theorem tagAt_of_le (h : t.capacity ≤ i) : t.tagAt i = .empty := by
  simp [tagAt, Array.getD_eq_getD_getElem?, Array.getElem?_eq_none h]

theorem lt_of_tagAt_ne (h : t.tagAt i ≠ .empty) : i < t.capacity := by
  by_contra hi
  exact h (tagAt_of_le (by omega))

theorem lt_of_isFilled (h : (t.tagAt i).isFilled = true) : i < t.capacity := by
  apply lt_of_tagAt_ne
  intro he
  rw [he] at h
  cases h

theorem Holds.lt (h : t.Holds i k v) : i < t.capacity := lt_of_isFilled h.filled

theorem not_holds_of_free (h : (t.tagAt i).isFilled = false) : ¬t.Holds i k v := by
  intro hk
  have hf := hk.filled
  rw [h] at hf
  cases hf

theorem Holds.unique {l : κ} {w : ν} (h : t.Holds i k v) (h' : t.Holds i l w) :
    k = l ∧ v = w := by
  have hk := h.key.symm.trans h'.key
  have hv := h.val.symm.trans h'.val
  exact ⟨Option.some.inj hk, Option.some.inj hv⟩

theorem exists_holds (hk : t.keys.size = t.capacity) (hv : t.vals.size = t.capacity)
    (h : (t.tagAt i).isFilled = true) : ∃ k v, t.Holds i k v := by
  have hi := lt_of_isFilled h
  exact ⟨t.keys[i], t.vals[i], h, by simp [hk, hi], by simp [hv, hi]⟩

namespace SameSlots

variable {t' : Table κ ν}

theorem tagAt_eq (h : t.SameSlots t') : t'.tagAt i = t.tagAt i := by
  rw [tagAt, tagAt, h.tags]

theorem capacity_eq (h : t.SameSlots t') : t'.capacity = t.capacity := by
  rw [capacity, capacity, h.tags]

theorem holds_iff (h : t.SameSlots t') : t'.Holds i k v ↔ t.Holds i k v := by
  constructor
  · intro h'
    obtain ⟨hf, hk, hv⟩ := h'
    exact ⟨h.tagAt_eq ▸ hf, h.keys ▸ hk, h.vals ▸ hv⟩
  · intro h'
    obtain ⟨hf, hk, hv⟩ := h'
    exact ⟨h.tagAt_eq ▸ hf, h.keys ▸ hk, h.vals ▸ hv⟩

theorem has_iff (h : t.SameSlots t') : t'.Has k v ↔ t.Has k v :=
  exists_congr fun _ => h.holds_iff

theorem tally_eq (h : t.SameSlots t') (p : Tag → Bool) : t'.tally p = t.tally p := by
  simp only [tally, slots, h.tagAt_eq, h.capacity_eq]

theorem tidy [Inhabited κ] [Inhabited ν] (h : t.SameSlots t') (ht : t.Tidy) : t'.Tidy := by
  intro i hi hf
  rw [h.capacity_eq] at hi
  rw [h.tagAt_eq] at hf
  rw [h.keys, h.vals]
  exact ht i hi hf

theorem settled (h : t.SameSlots t') : Settled t t' where
  capacity_eq := h.capacity_eq
  holds hk := ⟨_, h.holds_iff.mp hk⟩

end SameSlots

theorem Settled.trans {t' u : Table κ ν} (h : Settled t u) (hu : Settled u t') : Settled t t' where
  capacity_eq := by rw [hu.capacity_eq, h.capacity_eq]
  holds hk := by
    obtain ⟨_, hk⟩ := hu.holds hk
    exact h.holds hk

theorem settled_of_eq {t' : Table κ ν} (h : t' = t) : Settled t t' where
  capacity_eq := by rw [h]
  holds hk := ⟨_, h ▸ hk⟩

/-! ## Counting -/

theorem mem_slots {p : Tag → Bool} :
    i ∈ t.slots p ↔ i < t.capacity ∧ p (t.tagAt i) = true := by
  simp [slots]

theorem tally_le_capacity (t : Table κ ν) (p : Tag → Bool) : t.tally p ≤ t.capacity := by
  have := Finset.card_filter_le (Finset.range t.capacity) fun i => p (t.tagAt i) = true
  rwa [Finset.card_range] at this

theorem tally_pos {p : Tag → Bool} (hi : i < t.capacity) (h : p (t.tagAt i) = true) :
    0 < t.tally p :=
  Finset.card_pos.mpr ⟨i, mem_slots.mpr ⟨hi, h⟩⟩

theorem tally_eq_zero {p : Tag → Bool} (h : t.tally p = 0) (hi : i < t.capacity) :
    p (t.tagAt i) = false := by
  cases hp : p (t.tagAt i) with
  | false => rfl
  | true =>
      have := tally_pos hi hp
      omega

theorem tallyBelow_capacity (t : Table κ ν) (p : Tag → Bool) :
    t.tallyBelow p t.capacity = t.tally p := rfl

theorem tallyBelow_succ (t : Table κ ν) (p : Tag → Bool) (n : Nat) :
    t.tallyBelow p (n + 1) = t.tallyBelow p n + if p (t.tagAt n) = true then 1 else 0 := by
  rw [tallyBelow, Finset.range_add_one, Finset.filter_insert]
  split
  · rw [Finset.card_insert_of_notMem (by simp)]
    rfl
  · rfl

theorem tallyBelow_le {p : Tag → Bool} {n : Nat} (hn : n ≤ t.capacity) :
    t.tallyBelow p n ≤ t.tally p :=
  Finset.card_le_card (Finset.filter_subset_filter _ (Finset.range_subset_range.mpr hn))

theorem le_tally_of_along {p : Tag → Bool} {start : Int} {n : Nat} (hc : IsCapacity t.capacity)
    (hn : n ≤ t.capacity) (h : ∀ d < n, p (t.tagAt (along t.capacity start d)) = true) :
    n ≤ t.tally p := by
  have hsub : (Finset.range n).image (along t.capacity start) ⊆ t.slots p := by
    intro i hi
    obtain ⟨d, hd, rfl⟩ := Finset.mem_image.mp hi
    exact mem_slots.mpr ⟨hc.along_lt _ _, h d (Finset.mem_range.mp hd)⟩
  have hinj : Set.InjOn (along t.capacity start) (Finset.range n) := by
    intro d hd e he heq
    have hd' := Finset.mem_range.mp hd
    have he' := Finset.mem_range.mp he
    exact hc.along_injective (by omega) (by omega) heq
  calc n = (Finset.range n).card := (Finset.card_range n).symm
    _ = ((Finset.range n).image (along t.capacity start)).card :=
      (Finset.card_image_of_injOn hinj).symm
    _ ≤ t.tally p := Finset.card_le_card hsub

/-! ## Writing -/

@[simp]
theorem capacity_write (t : Table κ ν) (i : Nat) (tag : Tag) (key : κ) (value : ν) :
    (t.write i tag key value).capacity = t.capacity := by
  simp [capacity, write]

theorem tagAt_write (hi : i < t.capacity) (tag : Tag) (key : κ) (value : ν) (j : Nat) :
    (t.write i tag key value).tagAt j = if j = i then tag else t.tagAt j := by
  simp only [tagAt, write, Array.getD_eq_getD_getElem?, Array.getElem?_setIfInBounds]
  by_cases hj : j = i
  · subst hj
    simp [hi]
  · simp [hj, Ne.symm hj]

@[simp]
theorem tagAt_write_self (hi : i < t.capacity) (tag : Tag) (key : κ) (value : ν) :
    (t.write i tag key value).tagAt i = tag := by
  rw [tagAt_write hi, if_pos rfl]

theorem tagAt_write_of_ne (hi : i < t.capacity) (tag : Tag) (key : κ) (value : ν) (hj : j ≠ i) :
    (t.write i tag key value).tagAt j = t.tagAt j := by
  rw [tagAt_write hi, if_neg hj]

theorem holds_write_of_ne (hi : i < t.capacity) (tag : Tag) (key : κ) (value : ν)
    (hj : j ≠ i) : (t.write i tag key value).Holds j k v ↔ t.Holds j k v := by
  constructor
  · intro h
    obtain ⟨hf, hk, hv⟩ := h
    rw [tagAt_write_of_ne hi _ _ _ hj] at hf
    simp only [write, Array.getElem?_setIfInBounds, if_neg (Ne.symm hj)] at hk hv
    exact ⟨hf, hk, hv⟩
  · intro h
    obtain ⟨hf, hk, hv⟩ := h
    refine ⟨by rwa [tagAt_write_of_ne hi _ _ _ hj], ?_, ?_⟩
    · simpa only [write, Array.getElem?_setIfInBounds, if_neg (Ne.symm hj)] using hk
    · simpa only [write, Array.getElem?_setIfInBounds, if_neg (Ne.symm hj)] using hv

theorem holds_write_self (hk : t.keys.size = t.capacity) (hv : t.vals.size = t.capacity)
    (hi : i < t.capacity) {tag : Tag} {key : κ} {value : ν} (htag : tag.isFilled = true) :
    (t.write i tag key value).Holds i k v ↔ k = key ∧ v = value := by
  constructor
  · intro h
    obtain ⟨-, hk', hv'⟩ := h
    simp [write, hk, hv, hi] at hk' hv'
    exact ⟨hk'.symm, hv'.symm⟩
  · intro h
    obtain ⟨rfl, rfl⟩ := h
    exact ⟨by rwa [tagAt_write_self hi], by simp [write, hk, hi], by simp [write, hv, hi]⟩

theorem not_holds_write_self (hi : i < t.capacity) {tag : Tag} {key : κ} {value : ν}
    (htag : tag.isFilled = false) : ¬(t.write i tag key value).Holds i k v := by
  intro h
  have hf := h.filled
  rw [tagAt_write_self hi, htag] at hf
  cases hf

theorem Tidy.write [Inhabited κ] [Inhabited ν] (h : t.Tidy) (hk : t.keys.size = t.capacity)
    (hv : t.vals.size = t.capacity) (hi : i < t.capacity) {tag : Tag} {key : κ} {value : ν}
    (hblank : tag.isFilled = false → key = default ∧ value = default) :
    (t.write i tag key value).Tidy := by
  intro j hj hf
  rw [capacity_write] at hj
  by_cases hji : j = i
  · subst hji
    rw [tagAt_write_self hi] at hf
    obtain ⟨rfl, rfl⟩ := hblank hf
    simp [Table.write, hk, hv, hi]
  · rw [tagAt_write_of_ne hi _ _ _ hji] at hf
    obtain ⟨hk', hv'⟩ := h j hj hf
    simp only [Table.write, Array.getElem?_setIfInBounds, if_neg (Ne.symm hji)]
    exact ⟨hk', hv'⟩

private theorem card_erase_slots (t : Table κ ν) (p : Tag → Bool) (hi : i < t.capacity) :
    ((t.slots p).erase i).card + (if p (t.tagAt i) = true then 1 else 0) = t.tally p := by
  by_cases hp : p (t.tagAt i) = true
  · rw [if_pos hp]
    exact Finset.card_erase_add_one (mem_slots.mpr ⟨hi, hp⟩)
  · rw [if_neg hp, Finset.erase_eq_of_notMem (fun h => hp (mem_slots.mp h).2)]
    rfl

/-- A write takes the slot from the kinds of its old tag and adds it to those of the new. -/
theorem tally_write (hi : i < t.capacity) (tag : Tag) (key : κ) (value : ν) (p : Tag → Bool) :
    (t.write i tag key value).tally p + (if p (t.tagAt i) = true then 1 else 0) =
      t.tally p + (if p tag = true then 1 else 0) := by
  have herase : ((t.write i tag key value).slots p).erase i = (t.slots p).erase i := by
    ext j
    simp only [Finset.mem_erase, mem_slots, capacity_write]
    by_cases hj : j = i
    · simp [hj]
    · simp [hj, tagAt_write_of_ne hi tag key value hj]
  have hnew := card_erase_slots (t.write i tag key value) p (by rwa [capacity_write])
  have hold := card_erase_slots t p hi
  rw [herase, tagAt_write_self hi] at hnew
  omega

/-! ## Arrays that fit together -/

variable {t' : Table κ ν}

/-- The arrays have one length, and it is a capacity. -/
structure Fitted (t : Table κ ν) : Prop where
  keys_size : t.keys.size = t.capacity
  vals_size : t.vals.size = t.capacity
  capacity : t.capacity = 0 ∨ IsCapacity t.capacity

namespace Fitted

theorem isCapacity (h : t.Fitted) (hpos : 0 < t.capacity) : IsCapacity t.capacity :=
  h.capacity.resolve_left (by omega)

theorem of_sameSlots (h : t.Fitted) (hs : t.SameSlots t') : t'.Fitted := by
  refine ⟨?_, ?_, ?_⟩
  · rw [hs.keys, hs.capacity_eq, h.keys_size]
  · rw [hs.vals, hs.capacity_eq, h.vals_size]
  · rw [hs.capacity_eq]
    exact h.capacity

theorem write (h : t.Fitted) (i : Nat) (tag : Tag) (key : κ) (value : ν) :
    (t.write i tag key value).Fitted := by
  refine ⟨?_, ?_, ?_⟩
  · rw [capacity_write, ← h.keys_size]
    exact Array.size_setIfInBounds
  · rw [capacity_write, ← h.vals_size]
    exact Array.size_setIfInBounds
  · rw [capacity_write]
    exact h.capacity

end Fitted

theorem fitted_blank [Inhabited κ] [Inhabited ν] {size : Nat} (h : size = 0 ∨ IsCapacity size) :
    (blank size : Table κ ν).Fitted := by
  refine ⟨?_, ?_, ?_⟩
  · rw [capacity_blank, blank, Array.size_replicate]
  · rw [capacity_blank, blank, Array.size_replicate]
  · rwa [capacity_blank]

end OpenAddressing.Table
