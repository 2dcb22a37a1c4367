import OpenAddressing.Proofs.Outcome
import OpenAddressing.Proofs.WellFormed
import OpenAddressing.Table.Lookup

/-!
# Lookup finds what is there

In an arranged table, a walk along the path of a key that misses it up to an empty slot, or
up to where entries can lie, shows that the key is nowhere. So a lookup answers with the slot
of the key, or with nothing when no slot holds it.
-/

namespace OpenAddressing.Table

variable {κ ν ε : Type} {rules : Rules κ ε} {same : Setoid κ} {t : Table κ ν}
variable {key : κ} {hash : Int}

def Stores (same : Setoid κ) (t : Table κ ν) (key : κ) (i : Nat) : Prop :=
  ∃ k v, t.Holds i k v ∧ same.r key k

/-- The entry whose key is the same, if there is one. -/
def Found (same : Setoid κ) (t : Table κ ν) (key : κ) : Option (κ × ν) → Prop
  | some e => t.Has e.1 e.2 ∧ same.r key e.1
  | none => t.Lacks same key

def Misses (same : Setoid κ) (t : Table κ ν) (key : κ) (hash : Int) (n : Nat) : Prop :=
  ∀ d < n, ¬t.Stores same key (along t.capacity hash d)

theorem Misses.succ {n : Nat} (h : t.Misses same key hash n)
    (hn : ¬t.Stores same key (along t.capacity hash n)) : t.Misses same key hash (n + 1) := by
  intro d hd
  by_cases hlast : d = n
  · rwa [hlast]
  · exact h d (by omega)

theorem misses_zero : t.Misses same key hash 0 := by
  intro d hd
  omega

theorem key_eq {i : Nat} {k : κ} (h : t.keys[i]? = some k) :
    (t.key i : Except (Fault κ ε) κ) = .ok k := by
  have hi : i < t.keys.size := (Array.getElem?_eq_some_iff.mp h).1
  rw [key, readCell, cell?_natCast, if_pos hi, Option.bind_some, h]

theorem val_eq {i : Nat} {v : ν} (h : t.vals[i]? = some v) :
    (t.val i : Except (Fault κ ε) ν) = .ok v := by
  have hi : i < t.vals.size := (Array.getElem?_eq_some_iff.mp h).1
  rw [val, readCell, cell?_natCast, if_pos hi, Option.bind_some, h]

theorem Arranged.not_stores (h : t.Arranged rules same) (hr : rules.Respects same)
    (hh : rules.hash key = .ok hash) {i : Nat} (htag : t.tagAt i ≠ .fingerprint hash) :
    ¬t.Stores same key i := by
  intro h'
  obtain ⟨k, v, hk, hs⟩ := h'
  obtain ⟨hash', d, hp⟩ := h.placed hk
  exact htag (by rw [hp.tag_eq, hr.hash_eq hs hh hp.hash_eq])

theorem Holds.not_stores {i : Nat} {k : κ} {v : ν} (hk : t.Holds i k v) (hs : ¬same.r key k) :
    ¬t.Stores same key i := by
  intro h
  obtain ⟨l, w, hl, hs'⟩ := h
  exact hs ((hk.unique hl).1 ▸ hs')

/-- A key missed up to an empty slot, or up to where entries can lie, is nowhere. -/
theorem Arranged.lacks (h : t.Arranged rules same) (hr : rules.Respects same)
    (hh : rules.hash key = .ok hash) {n : Nat} (hmiss : t.Misses same key hash n)
    (hstop : t.tagAt (along t.capacity hash n) = .empty ∨ t.maxProbe < n) :
    t.Lacks same key := by
  intro i k v hk hs
  obtain ⟨hash', d, hp⟩ := h.placed hk
  obtain rfl := hr.hash_eq hs hh hp.hash_eq
  have hle := hp.le_maxProbe
  have hn : n ≤ d := by
    by_contra hd
    exact hmiss d (by omega) ⟨k, v, by rwa [hp.along_eq], hs⟩
  rcases hstop with hempty | hfar
  · by_cases hlast : n = d
    · have hf := hk.filled
      rw [← hp.along_eq, ← hlast, hempty] at hf
      cases hf
    · exact hp.path n (by omega) hempty
  · omega

theorem lacks_of_find? (h : ∀ i, none = some i ↔ t.Stores same key i) : t.Lacks same key := by
  intro i k v hk hs
  cases (h i).mpr ⟨k, v, hk, hs⟩

private def Sought (same : Setoid κ) (t : Table κ ν) (key : κ) (hash : Int) (stop : Nat) :
    Option Nat → Prop
  | some i => t.Stores same key i
  | none => ∃ n, t.Misses same key hash n ∧
      (t.tagAt (along t.capacity hash n) = .empty ∨ stop ≤ n)

private theorem seek_spec (h : t.Arranged rules same) (hr : rules.Respects same)
    (hc : IsCapacity t.capacity) (hh : rules.hash key = .ok hash) (window d : Nat)
    (hmiss : t.Misses same key hash d) :
    Gives (t.seek rules key (.fingerprint hash) window (along t.capacity hash d))
      (t.Sought same key hash (d + window)) rules.Refuses := by
  -- The slots missed so far are those below `d`; each slot that does not end the walk joins them.
  induction window generalizing d with
  | zero => exact ⟨d, hmiss, Or.inr (Nat.le_refl d)⟩
  | succ window ih =>
      have hnext : t.after (along t.capacity hash d) = along t.capacity hash (d + 1) :=
        hc.next_along hash d
      have hrest (hd : ¬t.Stores same key (along t.capacity hash d)) := ih (d + 1) (hmiss.succ hd)
      rw [Nat.add_right_comm, ← hnext] at hrest
      rw [seek]
      by_cases hempty : t.tagAt (along t.capacity hash d) = .empty
      · rw [if_pos hempty]
        exact ⟨d, hmiss, Or.inl hempty⟩
      rw [if_neg hempty]
      by_cases htag : t.tagAt (along t.capacity hash d) = .fingerprint hash
      · have hf : (t.tagAt (along t.capacity hash d)).isFilled = true := by simp [htag]
        obtain ⟨k, v, hk⟩ := h.exists_holds hf
        rw [if_pos htag, key_eq hk.key, gives_bind, gives_ok, gives_bind]
        rcases hr.isKey_cases key k with ⟨r, heq, hiff⟩ | ⟨fault, heq, href⟩
        · rw [heq, gives_ok]
          cases r with
          | true => exact ⟨k, v, hk, hiff.mp rfl⟩
          | false => exact hrest (hk.not_stores fun hs => by cases hiff.mpr hs)
        · rw [heq]
          exact href
      · rw [if_neg htag]
        exact hrest (h.not_stores hr hh htag)

/-- A lookup gives the slot that stores the key, if any does. -/
theorem WellFormed.find?_spec (h : t.WellFormed rules same) (hr : rules.Respects same) (key : κ) :
    Gives (t.find? rules key) (fun found => ∀ i, found = some i ↔ t.Stores same key i)
      rules.Refuses := by
  have hnone (hl : t.Lacks same key) (i : Nat) : none = some i ↔ t.Stores same key i := by
    simp only [reduceCtorEq, false_iff]
    intro h'
    obtain ⟨k, v, hk, hs⟩ := h'
    exact hl hk hs
  have hcount := h.count_eq
  rw [find?]
  by_cases hzero : t.count = 0
  · rw [if_pos hzero]
    refine hnone fun i k v hk => ?_
    have := tally_pos (p := Tag.isFilled) hk.lt hk.filled
    omega
  have hpos : 0 < t.capacity := by
    have := tally_le_capacity t Tag.isFilled
    omega
  have hc := h.isCapacity hpos
  rw [if_neg hzero, gives_bind]
  rcases rules.hashOf_cases key with ⟨hash, hh, heq⟩ | ⟨fault, heq, href⟩
  · rw [heq, gives_ok, if_pos hc.isPowerOfTwo]
    by_cases hneg : t.maxProbe < 0
    · rw [if_pos hneg]
      exact hnone (h.lacks hr hh misses_zero (Or.inr hneg))
    rw [if_neg hneg, if_neg (by omega), ← along_zero]
    refine (seek_spec h.toArranged hr hc hh _ 0 misses_zero).imp ?_ (fun _ href => href)
    intro found'
    cases found' with
    | none =>
        intro h'
        obtain ⟨n, hmiss, hstop⟩ := h'
        exact hnone (h.lacks hr hh hmiss (hstop.imp_right (by omega)))
    | some i =>
        intro h' j
        obtain ⟨k, v, hk, hs⟩ := h'
        constructor
        · intro h'
          cases h'
          exact ⟨k, v, hk, hs⟩
        · intro h'
          obtain ⟨l, w, hl, hs'⟩ := h'
          exact congrArg some (h.distinct hk hl (same.trans (same.symm hs) hs'))
  · rw [heq]
    exact href

theorem WellFormed.find?_found (h : t.WellFormed rules same) (hr : rules.Respects same) (key : κ) :
    Gives (t.find? rules key)
      (fun found => match found with
        | some i => ∃ k v, t.Holds i k v ∧ same.r key k
        | none => t.Lacks same key) rules.Refuses := by
  refine (h.find?_spec hr key).imp ?_ (fun _ href => href)
  intro found' hfound
  cases found' with
  | none => exact lacks_of_find? hfound
  | some i => exact (hfound i).mp rfl

end OpenAddressing.Table
