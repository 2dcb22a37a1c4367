import OpenAddressing.Proofs.Lawful
import OpenAddressing.Proofs.Slots

/-!
# Well-formed tables

The representation of a table: where entries may lie, and what the counters say. An entry
lies on the path of its key's hash, no further along than lookups go, and no slot before it
on that path is empty. The lemmas below say when a write to one slot keeps this so.
-/

namespace OpenAddressing.Table

variable {κ ν ε : Type} {rules : Rules κ ε} {same : Setoid κ} {t t' : Table κ ν}
variable {i : Nat} {k : κ} {v : ν}

/-- Slot `i` is `d` steps along the path of the key's hash, and lookups come so far. -/
structure Placed (rules : Rules κ ε) (t : Table κ ν) (i : Nat) (key : κ) (hash : Int) (d : Nat) :
    Prop where
  hash_eq : rules.hash key = .ok hash
  tag_eq : t.tagAt i = .fingerprint hash
  floor_le : t.floor ≤ i
  lt : d < t.capacity
  le_maxProbe : d ≤ t.maxProbe
  along_eq : along t.capacity hash d = i
  path : ∀ e < d, t.tagAt (along t.capacity hash e) ≠ .empty

/-- The storage is as lookups expect it. -/
structure Arranged (rules : Rules κ ε) (same : Setoid κ) (t : Table κ ν) : Prop where
  keys_size : t.keys.size = t.capacity
  vals_size : t.vals.size = t.capacity
  capacity : t.capacity = 0 ∨ IsCapacity t.capacity
  tags (i : Nat) : t.tagAt i = .empty ∨ t.tagAt i = .tombstone ∨ (t.tagAt i).isFilled = true
  placed {i : Nat} {k : κ} {v : ν} : t.Holds i k v → ∃ hash d, t.Placed rules i k hash d
  distinct {i j : Nat} {k l : κ} {v w : ν} :
    t.Holds i k v → t.Holds j l w → same.r k l → i = j

def isTombstone (tag : Tag) : Bool := tag = .tombstone

@[simp]
theorem isTombstone_iff {tag : Tag} : isTombstone tag = true ↔ tag = .tombstone := by
  simp [isTombstone]

structure WellFormed (rules : Rules κ ε) (same : Setoid κ) (t : Table κ ν) : Prop
    extends t.Arranged rules same where
  count_eq : t.count = t.tally Tag.isFilled
  dead_eq : t.dead = t.tally isTombstone

structure Sound (rules : Rules κ ε) (same : Setoid κ) (t : Table κ ν) : Prop
    extends t.WellFormed rules same where
  maxProbe_nonneg : 0 ≤ t.maxProbe
  floor_nonneg : 0 ≤ t.floor

def Lacks (same : Setoid κ) (t : Table κ ν) (key : κ) : Prop :=
  ∀ ⦃i k v⦄, t.Holds i k v → ¬same.r key k

/-- Slot `i`, which is `d` steps along the path of the hash, is free for a key that the table
lacks. -/
structure Vacant (rules : Rules κ ε) (same : Setoid κ) (t : Table κ ν) (key : κ) (hash : Int)
    (i d : Nat) : Prop where
  hash_eq : rules.hash key = .ok hash
  lt : d < t.capacity
  along_eq : along t.capacity hash d = i
  path : ∀ e < d, t.tagAt (along t.capacity hash e) ≠ .empty
  free : (t.tagAt i).isFilled = false
  lacks : t.Lacks same key

theorem Arranged.isCapacity (h : t.Arranged rules same) (hi : i < t.capacity) :
    IsCapacity t.capacity := by
  rcases h.capacity with h0 | hc
  · omega
  · exact hc

theorem Arranged.fitted (h : t.Arranged rules same) : t.Fitted :=
  ⟨h.keys_size, h.vals_size, h.capacity⟩

theorem Arranged.not_isFilled (h : t.Arranged rules same) :
    (t.tagAt i).isFilled = false ↔ t.tagAt i = .empty ∨ t.tagAt i = .tombstone := by
  constructor
  · intro hf
    rcases h.tags i with he | ht | hf'
    · exact Or.inl he
    · exact Or.inr ht
    · rw [hf] at hf'
      cases hf'
  · intro h'
    rcases h' with he | ht
    · rw [he]
      rfl
    · rw [ht]
      rfl

theorem Arranged.exists_holds (h : t.Arranged rules same) (hf : (t.tagAt i).isFilled = true) :
    ∃ k v, t.Holds i k v :=
  Table.exists_holds h.keys_size h.vals_size hf

theorem Arranged.congr (h : t.Arranged rules same) (hs : t.SameSlots t')
    (hfloor : ∀ i, (t.tagAt i).isFilled = true → t.floor ≤ i → t'.floor ≤ i)
    (hreach : t.maxProbe ≤ t'.maxProbe) :
    t'.Arranged rules same where
  keys_size := by rw [hs.keys, hs.capacity_eq, h.keys_size]
  vals_size := by rw [hs.vals, hs.capacity_eq, h.vals_size]
  capacity := by rw [hs.capacity_eq]; exact h.capacity
  tags i := by rw [hs.tagAt_eq]; exact h.tags i
  placed := by
    intro i k v hi
    obtain ⟨hash, d, hp⟩ := h.placed (hs.holds_iff.mp hi)
    refine ⟨hash, d, hp.hash_eq, ?_, ?_, ?_, ?_, ?_, ?_⟩
    · rw [hs.tagAt_eq, hp.tag_eq]
    · exact hfloor i (hs.holds_iff.mp hi).filled hp.floor_le
    · rw [hs.capacity_eq]
      exact hp.lt
    · have := hp.le_maxProbe
      omega
    · rw [hs.capacity_eq]
      exact hp.along_eq
    · intro e he
      rw [hs.capacity_eq, hs.tagAt_eq]
      exact hp.path e he
  distinct hi hj := h.distinct (hs.holds_iff.mp hi) (hs.holds_iff.mp hj)

theorem WellFormed.congr (h : t.WellFormed rules same) (hs : t.SameSlots t')
    (hcount : t'.count = t.count) (hdead : t'.dead = t.dead)
    (hfloor : ∀ i, (t.tagAt i).isFilled = true → t.floor ≤ i → t'.floor ≤ i)
    (hreach : t.maxProbe ≤ t'.maxProbe) :
    t'.WellFormed rules same where
  toArranged := h.toArranged.congr hs hfloor hreach
  count_eq := by rw [hs.tally_eq, hcount, h.count_eq]
  dead_eq := by rw [hs.tally_eq, hdead, h.dead_eq]

theorem SameSlots.lacks_iff (hs : t.SameSlots t') : t'.Lacks same k ↔ t.Lacks same k := by
  simp only [Lacks, hs.holds_iff]

/-! ## Writes to one slot -/

theorem Placed.write {j : Nat} {hash : Int} {d : Nat} {tag : Tag} {key : κ} {value : ν}
    (hp : t.Placed rules j k hash d) (hi : i < t.capacity) (hj : j ≠ i)
    (hpass : ∀ e < d, along t.capacity hash e = i → tag ≠ .empty) :
    (t.write i tag key value).Placed rules j k hash d where
  hash_eq := hp.hash_eq
  tag_eq := by rw [tagAt_write_of_ne hi _ _ _ hj, hp.tag_eq]
  floor_le := hp.floor_le
  lt := by rw [capacity_write]; exact hp.lt
  le_maxProbe := hp.le_maxProbe
  along_eq := by rw [capacity_write]; exact hp.along_eq
  path := by
    intro e he
    rw [capacity_write, tagAt_write hi]
    split
    · next heq => exact hpass e he heq
    · exact hp.path e he

/-- Keeps the other entries in place: what is left to show concerns the slot written. -/
private theorem Arranged.write (h : t.Arranged rules same) (hi : i < t.capacity) {tag : Tag}
    {key : κ} {value : ν}
    (htag : tag = .empty ∨ tag = .tombstone ∨ tag.isFilled = true)
    (hpass : ∀ {j k v hash d}, j ≠ i → t.Holds j k v → t.Placed rules j k hash d →
      ∀ e < d, along t.capacity hash e = i → tag ≠ .empty)
    (hplaced : tag.isFilled = true → ∃ hash d, (t.write i tag key value).Placed rules i key hash d)
    (hnew : tag.isFilled = true → ∀ {j k v}, j ≠ i → t.Holds j k v → ¬same.r key k) :
    (t.write i tag key value).Arranged rules same := by
  have hself {k : κ} {v : ν} (hk : (t.write i tag key value).Holds i k v) :
      tag.isFilled = true ∧ k = key := by
    have hf := hk.filled
    rw [tagAt_write_self hi] at hf
    exact ⟨hf, ((holds_write_self h.keys_size h.vals_size hi hf).mp hk).1⟩
  refine ⟨?_, ?_, by rw [capacity_write]; exact h.capacity, ?_, ?_, ?_⟩
  · rw [capacity_write, ← h.keys_size]
    exact Array.size_setIfInBounds
  · rw [capacity_write, ← h.vals_size]
    exact Array.size_setIfInBounds
  · intro j
    rw [tagAt_write hi]
    split
    · exact htag
    · exact h.tags j
  · intro j k v hk
    by_cases hj : j = i
    · subst hj
      obtain ⟨hf, rfl⟩ := hself hk
      exact hplaced hf
    · have hold := (holds_write_of_ne hi _ _ _ hj).mp hk
      obtain ⟨hash, d, hp⟩ := h.placed hold
      exact ⟨hash, d, hp.write hi hj (hpass hj hold hp)⟩
  · intro j₁ j₂ k l v w hk hl hs
    by_cases h₁ : j₁ = i <;> by_cases h₂ : j₂ = i
    · rw [h₁, h₂]
    · subst h₁
      obtain ⟨hf, rfl⟩ := hself hk
      exact absurd hs (hnew hf h₂ ((holds_write_of_ne hi _ _ _ h₂).mp hl))
    · subst h₂
      obtain ⟨hf, rfl⟩ := hself hl
      exact absurd (same.symm hs) (hnew hf h₁ ((holds_write_of_ne hi _ _ _ h₁).mp hk))
    · exact h.distinct ((holds_write_of_ne hi _ _ _ h₁).mp hk)
        ((holds_write_of_ne hi _ _ _ h₂).mp hl) hs

theorem fingerprint_ne_empty (hash : Int) : Tag.fingerprint hash ≠ .empty := by
  intro he
  have := Tag.isFilled_fingerprint hash
  rw [he] at this
  cases this

theorem fingerprint_ne_tombstone (hash : Int) : Tag.fingerprint hash ≠ .tombstone := by
  intro he
  have := Tag.isFilled_fingerprint hash
  rw [he] at this
  cases this

theorem Vacant.index_lt {hash : Int} {d : Nat} (hv : t.Vacant rules same k hash i d)
    (h : t.Arranged rules same) : i < t.capacity := by
  rw [← hv.along_eq]
  exact (h.isCapacity hv.lt).along_lt _ _

theorem Vacant.congr {hash : Int} {d : Nat} (hv : t.Vacant rules same k hash i d)
    (hs : t.SameSlots t') : t'.Vacant rules same k hash i d where
  hash_eq := hv.hash_eq
  lt := by rw [hs.capacity_eq]; exact hv.lt
  along_eq := by rw [hs.capacity_eq]; exact hv.along_eq
  path e he := by rw [hs.capacity_eq, hs.tagAt_eq]; exact hv.path e he
  free := by rw [hs.tagAt_eq]; exact hv.free
  lacks := hs.lacks_iff.mpr hv.lacks

private theorem Arranged.place (h : t.Arranged rules same) {hash : Int} {d : Nat}
    (hv : t.Vacant rules same k hash i d) (hfloor : t.floor ≤ i) (hle : d ≤ t.maxProbe) :
    (t.write i (.fingerprint hash) k v).Arranged rules same := by
  have hi := hv.index_lt h
  refine h.write hi (Or.inr (Or.inr (Tag.isFilled_fingerprint hash)))
    (fun _ _ _ _ _ _ => fingerprint_ne_empty hash)
    (fun _ => ⟨hash, d, hv.hash_eq, tagAt_write_self hi _ _ _, hfloor, ?_, hle, ?_, ?_⟩)
    (fun _ _ _ _ _ hk => hv.lacks hk)
  · rw [capacity_write]
    exact hv.lt
  · rw [capacity_write]
    exact hv.along_eq
  · intro e he
    rw [capacity_write, tagAt_write hi]
    split
    · exact fingerprint_ne_empty hash
    · exact hv.path e he

theorem WellFormed.place (h : t.WellFormed rules same) {hash : Int} {d : Nat}
    (hv : t.Vacant rules same k hash i d)
    (hs : (t.write i (.fingerprint hash) k v).SameSlots t') (hcount : t'.count = t.count + 1)
    (hdead : t'.dead = t.dead - if t.tagAt i = .tombstone then 1 else 0)
    (hfloor : t'.floor ≤ t.floor) (hindex : t'.floor ≤ i) (hreach : t.maxProbe ≤ t'.maxProbe)
    (hle : d ≤ t'.maxProbe) : t'.WellFormed rules same := by
  have hi := hv.index_lt h.toArranged
  -- The bounds are widened first, so that the new entry is within them when it is written.
  let wide : Table κ ν := { t with floor := t'.floor, maxProbe := t'.maxProbe }
  have hwide : t.SameSlots wide := ⟨rfl, rfl, rfl⟩
  have harranged : (wide.write i (.fingerprint hash) k v).Arranged rules same :=
    (h.toArranged.congr hwide (fun _ _ hle => Int.le_trans hfloor hle) hreach).place
      (hv.congr hwide) hindex hle
  have hfilled := tally_write hi (.fingerprint hash) k v Tag.isFilled
  have htombs := tally_write hi (.fingerprint hash) k v isTombstone
  rw [← hs.tally_eq] at hfilled htombs
  refine ⟨harranged.congr ⟨hs.tags, hs.keys, hs.vals⟩ (fun _ _ hle => hle) (Int.le_refl _),
    ?_, ?_⟩
  · have := h.count_eq
    simp only [hv.free, Tag.isFilled_fingerprint, if_true, Bool.false_eq_true, if_false] at hfilled
    omega
  · have := h.dead_eq
    simp only [isTombstone_iff, fingerprint_ne_tombstone, if_false] at htombs
    split at hdead <;> simp_all only [if_true, if_false] <;> omega

theorem Vacant.has_iff {hash : Int} {d : Nat} (hv : t.Vacant rules same k hash i d)
    (h : t.Arranged rules same) (hs : (t.write i (.fingerprint hash) k v).SameSlots t')
    (l : κ) (w : ν) : t'.Has l w ↔ t.Has l w ∨ l = k ∧ w = v := by
  have hi := hv.index_lt h
  rw [hs.has_iff]
  have hself {l : κ} {w : ν} :
      (t.write i (.fingerprint hash) k v).Holds i l w ↔ l = k ∧ w = v :=
    holds_write_self h.keys_size h.vals_size hi (Tag.isFilled_fingerprint hash)
  constructor
  · intro h'
    obtain ⟨j, hj⟩ := h'
    by_cases hji : j = i
    · subst hji
      exact Or.inr (hself.mp hj)
    · exact Or.inl ⟨j, (holds_write_of_ne hi _ _ _ hji).mp hj⟩
  · intro h'
    rcases h' with ⟨j, hj⟩ | hnew
    · have hji : j ≠ i := by
        intro heq
        subst heq
        have := hj.filled
        rw [hv.free] at this
        cases this
      exact ⟨j, (holds_write_of_ne hi _ _ _ hji).mpr hj⟩
    · exact ⟨i, hself.mpr hnew⟩

theorem Arranged.bury (h : t.Arranged rules same) (hi : i < t.capacity) {key : κ} {value : ν} :
    (t.write i .tombstone key value).Arranged rules same :=
  h.write hi (Or.inr (Or.inl rfl)) (fun _ _ _ _ _ _ he => by cases he)
    (fun hf => by cases hf) (fun hf => by cases hf)

/-- No path to an entry passes a slot that is followed by an empty one. -/
theorem Placed.along_ne {hash : Int} {d : Nat} (hp : t.Placed rules i k hash d)
    (hf : (t.tagAt i).isFilled = true) (hc : IsCapacity t.capacity) {j e : Nat}
    (hnext : t.tagAt (t.after j) = .empty) (he : e < d) : along t.capacity hash e ≠ j := by
  intro hj
  have hafter : along t.capacity hash (e + 1) = t.after j := by
    rw [← hc.next_along, hj]
    rfl
  by_cases hlast : e + 1 = d
  · rw [← hafter, hlast, hp.along_eq] at hnext
    rw [hnext] at hf
    cases hf
  · exact hp.path (e + 1) (by omega) (by rw [hafter, hnext])

/-- A slot may become empty where the next one is. -/
theorem Arranged.vacate (h : t.Arranged rules same) (hi : i < t.capacity)
    (hnext : t.tagAt (t.after i) = .empty) {key : κ} {value : ν} :
    (t.write i .empty key value).Arranged rules same := by
  refine h.write hi (Or.inl rfl) ?_ (fun hf => by cases hf) (fun hf => by cases hf)
  intro j k v hash d _ hk hp e he heq
  exact absurd heq (hp.along_ne hk.filled (h.isCapacity hi) hnext he)

/-! ## Tables without entries -/

section Blank

variable [Inhabited κ] [Inhabited ν]

@[simp]
theorem tagAt_blank (size i : Nat) : (blank size : Table κ ν).tagAt i = .empty := by
  simp only [tagAt, blank, Array.getD_eq_getD_getElem?, Array.getElem?_replicate]
  split <;> rfl

theorem not_holds_blank (size : Nat) : ¬(blank size : Table κ ν).Holds i k v := by
  intro h
  have := h.filled
  rw [tagAt_blank] at this
  cases this

theorem tally_blank (size : Nat) {p : Tag → Bool} (hp : p .empty = false) :
    (blank size : Table κ ν).tally p = 0 := by
  rw [tally, Finset.card_eq_zero, Finset.eq_empty_iff_forall_notMem]
  intro i hi
  have := (mem_slots.mp hi).2
  rw [tagAt_blank, hp] at this
  cases this

theorem sound_blank {size : Nat} (h : size = 0 ∨ IsCapacity size) :
    (blank size : Table κ ν).Sound rules same where
  keys_size := by rw [capacity_blank]; exact Array.size_replicate
  vals_size := by rw [capacity_blank]; exact Array.size_replicate
  capacity := by rwa [capacity_blank]
  tags i := Or.inl (tagAt_blank size i)
  placed hk := absurd hk (not_holds_blank size)
  distinct hk := absurd hk (not_holds_blank size)
  count_eq := by rw [tally_blank size rfl]; rfl
  dead_eq := by rw [tally_blank size rfl]; rfl
  maxProbe_nonneg := Int.le_refl 0
  floor_nonneg := Int.le_refl 0

theorem sound_blank_age {size : Nat} (h : size = 0 ∨ IsCapacity size) (age : Int) :
    ({ (blank size : Table κ ν) with age := age }).Sound rules same := by
  have hb : (blank size : Table κ ν).Sound rules same := sound_blank h
  exact ⟨hb.toWellFormed.congr ⟨rfl, rfl, rfl⟩ rfl rfl (fun _ _ hle => hle) (Int.le_refl _),
    hb.maxProbe_nonneg, hb.floor_nonneg⟩

end Blank

end OpenAddressing.Table
