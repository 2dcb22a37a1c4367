import OpenAddressing.Proofs.Insert

/-!
# Capacities on the way of an insertion

A table grows when so many entries lie on one path that the search for a place is given up,
or when it is overloaded by its entries; tombstones alone make it rehash to the size it has.
Either way the capacity after it is bounded by the number of entries, and so is the storage for
which there may be no memory.
-/

namespace OpenAddressing

variable {κ ν ε : Type} {rules : Rules κ ε} {same : Setoid κ}

namespace Table

variable {t t' u : Table κ ν} {key : κ} {value : ν} {hash : Int} {i d : Nat}

/-- A capacity changes only for a reason that lies in the number of entries, and stays within
a multiple of it. -/
def Grows (t t' : Table κ ν) : Prop :=
  t'.capacity = t.capacity ∨
    (0 < t.capacity → (probeLimit t.capacity : Int) ≤ t.count ∨ t.capacity < 2 * t'.count) ∧
    t'.capacity ≤ 128 * t'.count + 126

theorem Grows.trans {w : Table κ ν} (h : Grows t u) (hw : Grows u w) (heq : u.count = t.count)
    (hle : u.count ≤ w.count) : Grows t w := by
  rcases h with hsame | ⟨hwhy, hbound⟩
  · unfold Grows
    rw [← hsame, ← heq]
    exact hw
  · refine Or.inr ⟨fun hpos => ?_, ?_⟩
    · have := hwhy hpos
      omega
    · rcases hw with hsame | ⟨-, hbound'⟩
      · omega
      · exact hbound'

theorem Grows.capacity_le (h : Grows t t') :
    (t'.capacity : Int) ≤ max (t.capacity : Int) (128 * t'.count + 126) := by
  rcases h with hsame | ⟨-, hbound⟩ <;> omega

theorem WellFormed.count_le_capacity (h : t.WellFormed rules same) :
    0 ≤ t.count ∧ t.count ≤ t.capacity := by
  have h₁ := h.count_eq
  have h₂ := tally_le_capacity t Tag.isFilled
  omega

theorem WellFormed.rehashCapacity_alloc (h : t.WellFormed rules same) (hzero : t.capacity = 0) :
    t.rehashCapacity minCapacity = 16 := by
  have hcount := h.count_le_capacity
  rw [rehashCapacity, show t.count = 0 by omega]
  rfl

theorem WellFormed.rehashCapacity_double (h : t.WellFormed rules same) (hpos : 0 < t.capacity) :
    t.rehashCapacity (t.capacity * 2) = t.capacity * 2 := by
  have hc := h.isCapacity hpos
  have hcount := h.count_le_capacity
  have hsixteen := hc.sixteen_le
  have hmax : max ((t.capacity : Int) * 2) (t.count * 3 / 2 + 1) = (t.capacity * 2 : Nat) := by
    omega
  rw [rehashCapacity, hmax, capacityFor_self hc.double]

theorem WellFormed.rehashCapacity_load (h : t.WellFormed rules same) (hpos : 0 < t.capacity) :
    t.rehashCapacity (t.growthTarget rules) = t.capacity ∨
      (t.capacity : Int) < 2 * t.count ∧
        (t.rehashCapacity (t.growthTarget rules) : Int) ≤ 128 * t.count + 126 := by
  have hc := h.isCapacity hpos
  have hcount := h.count_le_capacity
  have hsixteen := hc.sixteen_le
  by_cases hsmall : 2 * t.count ≤ t.capacity
  · left
    have hmax : max (t.growthTarget rules) (t.count * 3 / 2 + 1) = t.capacity := by
      rw [growthTarget]
      split <;> omega
    rw [rehashCapacity, hmax, capacityFor_self hc]
  · refine Or.inr ⟨by omega, ?_⟩
    have htarget : max (t.growthTarget rules) (t.count * 3 / 2 + 1) ≤ 2 * t.count := by
      rw [growthTarget]
      split <;> omega
    rw [rehashCapacity]
    by_cases hlarge : 16 < max (t.growthTarget rules) (t.count * 3 / 2 + 1)
    · have := capacityFor_lt hlarge
      omega
    · have hleast : IsCapacity 16 := ⟨4, Nat.le_refl 4, rfl⟩
      have := capacityFor_le hleast (Int.not_lt.mp hlarge)
      omega

/-- The most slots that a table comes to ask for while `n` keys are set. -/
def slotsFor (t : Table κ ν) (n : Nat) : Nat := max t.capacity (128 * (t.count.toNat + n) + 126)

theorem slotsFor_mono (t : Table κ ν) {m n : Nat} (h : m ≤ n) : t.slotsFor m ≤ t.slotsFor n := by
  simp only [slotsFor]
  omega

variable [Inhabited κ] [Inhabited ν]

theorem Rehashed.grows_double (h : t.Rehashed rules same (t.capacity * 2) u)
    (ht : t.WellFormed rules same) (hpos : 0 < t.capacity)
    (hcrowd : t.Crowded hash t.searchWidth) : Grows t u := by
  have hlimit := hcrowd.probeLimit_le_count ht hpos
  have hcap := h.capacity_eq.trans (ht.rehashCapacity_double hpos)
  have hsame := h.count_same
  refine Or.inr ⟨fun _ => Or.inl hlimit, ?_⟩
  rw [probeLimit, Nat.shiftRight_eq_div_pow] at hlimit
  omega

theorem Grown.grows (h : Grown rules same key hash t u) (ht : t.WellFormed rules same) :
    Grows t u := by
  induction h with
  | refl => exact Or.inl rfl
  | @alloc t u hzero hu =>
      have hcount := ht.count_le_capacity
      have hcap := hu.capacity_eq.trans (ht.rehashCapacity_alloc hzero)
      have := hu.count_same
      exact Or.inr ⟨fun hpos => by omega, by omega⟩
  | @double t u w hpos hlacks hcrowd hu hw ih =>
      have hcount := hw.count_eq
      exact (hu.grows_double ht hpos hcrowd).trans (ih hu.toWellFormed) hu.count_same
        (by omega)

theorem Assigned.count_eq (h : Assigned rules same key value t t') :
    t'.count = t.count ∨ t'.count = t.count + 1 := by
  cases h with
  | replaced => exact Or.inl rfl
  | added hgrown =>
      right
      rw [← hgrown.count_eq]
      rfl
  | rehashed hgrown _ _ _ ht' =>
      right
      rw [ht'.count_same, ← hgrown.count_eq]
      rfl

private theorem Grown.grows_added (h : Grown rules same key hash t u) (ht : t.Sound rules same)
    (i d : Nat) (value : ν) : Grows t (u.added i d hash key value) := by
  have hle : u.count ≤ (u.added i d hash key value).count := by
    change u.count ≤ u.count + 1
    omega
  have hadded : Grows u (u.added i d hash key value) :=
    Or.inl (capacity_added u i d hash key value)
  exact (h.grows ht.toWellFormed).trans hadded h.count_eq hle

theorem Assigned.grows (h : Assigned rules same key value t t') (ht : t.Sound rules same) :
    Grows t t' := by
  cases h with
  | replaced => exact Or.inl rfl
  | added hgrown => exact hgrown.grows_added ht _ _ value
  | @rehashed hash u t' i d hgrown hv _ hload ht' =>
      have hu := hgrown.sound ht
      have hcount := hu.count_le_capacity
      have hpos : 0 < (u.added i d hash key value).capacity := by
        rw [capacity_added]
        have := hv.lt
        omega
      have hnew : (u.added i d hash key value).count = u.count + 1 := rfl
      have hsame := ht'.count_same
      refine (hgrown.grows ht.toWellFormed).trans ?_ hgrown.count_eq (by omega)
      have hload := (hv.sound_added hu value).rehashCapacity_load hpos
      rw [← ht'.capacity_eq, ← ht'.count_same, capacity_added] at hload
      exact hload.imp_right fun hlarge => ⟨fun _ => Or.inr hlarge.1, hlarge.2⟩

theorem AssignLost.count_eq {fault : Fault κ ε} (h : AssignLost rules same key fault t t') :
    t'.count = t.count ∨ t'.count = t.count + 1 := by
  cases h with
  | plan hlost =>
      obtain ⟨hash, u, hgrown, rfl | rfl⟩ := hlost.exists_grown
      · exact Or.inl hgrown.count_eq
      · exact Or.inl hgrown.count_eq
  | load _ hgrown =>
      right
      rw [← hgrown.count_eq]
      rfl

theorem AssignLost.grows {fault : Fault κ ε} (h : AssignLost rules same key fault t t')
    (ht : t.Sound rules same) : Grows t t' := by
  cases h with
  | plan hlost =>
      obtain ⟨hash, u, hgrown, rfl | rfl⟩ := hlost.exists_grown
      · exact hgrown.grows ht.toWellFormed
      · exact hgrown.grows ht.toWellFormed
  | @load hash u i d value _ hgrown _ => exact hgrown.grows_added ht i d value

/-! ## Memory that is wanting -/

theorem Grown.slotsFor_le (h : Grown rules same key hash t u) (ht : t.WellFormed rules same)
    (n : Nat) : u.slotsFor n ≤ t.slotsFor n := by
  have hcap := (h.grows ht).capacity_le
  have hcount := h.count_eq
  have := ht.count_le_capacity
  simp only [slotsFor]
  omega

omit [Inhabited κ] [Inhabited ν] in
theorem Wants.rehashCapacity_le {size : Int} (h : t.Wants hash size)
    (ht : t.WellFormed rules same) :
    t.rehashCapacity size ≤ t.slotsFor 0 := by
  rw [slotsFor]
  cases h with
  | alloc hzero =>
      rw [ht.rehashCapacity_alloc hzero]
      omega
  | double hpos hcrowd =>
      have hlimit := hcrowd.probeLimit_le_count ht hpos
      rw [probeLimit, Nat.shiftRight_eq_div_pow] at hlimit
      rw [ht.rehashCapacity_double hpos]
      omega

theorem PlanLost.denies {fault : Fault κ ε} (h : PlanLost rules same key fault t t')
    (ht : t.Sound rules same) : rules.Denies (t.slotsFor 0) fault := by
  cases h with
  | refused href => exact Or.inl href
  | doubled href => exact Or.inl href
  | cramped hwant hroom _ hgrown =>
      have hu := hgrown.sound ht
      have hle := (hwant.rehashCapacity_le hu.toWellFormed).trans
        (hgrown.slotsFor_le ht.toWellFormed 0)
      exact Or.inr ⟨_, hle, hroom⟩

theorem AssignLost.denies {fault : Fault κ ε} (h : AssignLost rules same key fault t t')
    (ht : t.Sound rules same) : rules.Denies (t.slotsFor 1) fault := by
  cases h with
  | plan hlost =>
      exact (hlost.denies ht).mono (t.slotsFor_mono (Nat.zero_le 1))
  | @load hash u i d value hload hgrown hv =>
      have hu := hgrown.sound ht
      have hadded := hv.sound_added hu value
      have hpos : 0 < (u.added i d hash key value).capacity := by
        rw [capacity_added]
        have := hv.lt
        omega
      have hcount := hu.count_le_capacity
      have hnew : (u.added i d hash key value).count = u.count + 1 := rfl
      have hsize := hadded.rehashCapacity_load hpos
      rw [capacity_added] at hsize
      have hle : (u.added i d hash key value).rehashCapacity
          ((u.added i d hash key value).growthTarget rules) ≤ u.slotsFor 1 := by
        simp only [slotsFor]
        omega
      exact Or.inr ⟨_, hle.trans (hgrown.slotsFor_le ht.toWellFormed 1), hload.2⟩

theorem Assigned.slotsFor_le (h : Assigned rules same key value t t') (ht : t.Sound rules same)
    (n : Nat) : t'.slotsFor n ≤ t.slotsFor (n + 1) := by
  have hcap := (h.grows ht).capacity_le
  have hcount := h.count_eq
  have := ht.count_le_capacity
  simp only [slotsFor]
  omega

end Table

end OpenAddressing
