import Mathlib.Data.Int.ModEq
import OpenAddressing.Proofs.Census

/-!
# Hashes count modulo `2 ^ 64`

Slots are picked by the low bits of a hash and tags made from its bits 57 to 63. So up to a
capacity of `2 ^ 64` a table cannot tell two hash functions apart that are congruent modulo that:
every search ends alike, and every rehash puts the entries into the same slots.
-/

namespace OpenAddressing

variable {κ ν ε α β : Type}

def Rules.hashedBy (rules : Rules κ ε) (h : κ → Int) : Rules κ ε :=
  { rules with hash := fun key => .ok (h key) }

/-- Beyond this capacity, hashes that are congruent may lead to different slots. -/
def widestCapacity : Nat := 2 ^ 64

theorem hashOf_hashedBy (rules : Rules κ ε) (h : κ → Int) (key : κ) :
    (rules.hashedBy h).hashOf key = .ok (h key) := rfl

theorem IsCapacity.dvd_widestCapacity {size : Nat} (hc : IsCapacity size)
    (hle : size ≤ widestCapacity) : (size : Int) ∣ 2 ^ 64 := by
  obtain ⟨n, -, rfl⟩ := hc
  rw [Nat.one_shiftLeft] at hle ⊢
  have hn : n ≤ 64 := (Nat.pow_le_pow_iff_right (by decide)).mp hle
  exact_mod_cast Nat.pow_dvd_pow 2 hn

theorem IsCapacity.mask_congr {size : Nat} (hc : IsCapacity size) (hle : size ≤ widestCapacity)
    {g h : Int} (hmod : g ≡ h [ZMOD 2 ^ 64]) : mask size g = mask size h := by
  have hsize : g ≡ h [ZMOD size] := hmod.of_dvd (hc.dvd_widestCapacity hle)
  have hg := hc.mask_eq g
  have hh := hc.mask_eq h
  rw [hsize.eq] at hg
  omega

theorem Tag.fingerprint_congr {g h : Int} (hmod : g ≡ h [ZMOD 2 ^ 64]) :
    fingerprint g = fingerprint h := by
  have heq : g % 0x10000000000000000 = h % 0x10000000000000000 := hmod
  rw [fingerprint, fingerprint, heq]

def masked (h : κ → Int) (key : κ) : Int := conj (h key) 0xFFFFFFFFFFFFFFFF

theorem masked_modEq (h : κ → Int) (key : κ) : masked h key ≡ h key [ZMOD 2 ^ 64] := by
  have hnonneg : 0 ≤ masked h key := by
    unfold masked
    cases h key with
    | ofNat m => exact Int.natCast_nonneg _
    | negSucc m => exact Int.natCast_nonneg _
  have hmask : ((masked h key).toNat : Int) = h key % (1 <<< 64 : Nat) :=
    mask_one_shiftLeft 64 (h key)
  rw [Int.toNat_of_nonneg hnonneg] at hmask
  rw [hmask]
  exact Int.mod_modEq _ _

namespace Table

variable {t : Table κ ν} {rules : Rules κ ε} {g h : κ → Int}

/-! ## Searches -/

theorem seek_hashedBy (rules : Rules κ ε) (g h : κ → Int) (t : Table κ ν) (key : κ) (tag : Tag)
    (window i : Nat) :
    t.seek (rules.hashedBy g) key tag window i = t.seek (rules.hashedBy h) key tag window i := by
  induction window generalizing i with
  | zero => rfl
  | succ window ih =>
      simp only [seek, ih]
      rfl

theorem scan_hashedBy (rules : Rules κ ε) (g h : κ → Int) (t : Table κ ν) (key : κ) (tag : Tag)
    (window i walked : Nat) (spare : Option Nat) :
    t.scan (rules.hashedBy g) key tag window i walked spare =
      t.scan (rules.hashedBy h) key tag window i walked spare := by
  induction window generalizing i walked spare with
  | zero => cases spare <;> rfl
  | succ window ih =>
      simp only [scan, ih]
      rfl

theorem Accurate.find?_congr (ht : t.Accurate) (hle : t.capacity ≤ widestCapacity)
    (rules : Rules κ ε) {key : κ} (hmod : g key ≡ h key [ZMOD 2 ^ 64]) :
    t.find? (rules.hashedBy g) key = t.find? (rules.hashedBy h) key := by
  by_cases hzero : t.count = 0
  · simp [find?, hzero]
  · -- A table with an entry has slots, so the hash itself is no index.
    have hpos : 0 < t.capacity := by
      have := tally_le_capacity t Tag.isFilled
      have := ht.count_eq
      omega
    simp only [find?, hashOf_hashedBy, seek_hashedBy rules g h, Tag.fingerprint_congr hmod,
      (ht.isCapacity hpos).mask_congr hle hmod, bind, Except.bind, Nat.ne_of_gt hpos, if_false]

theorem Accurate.probe_congr (ht : t.Accurate) (hpos : 0 < t.capacity)
    (hle : t.capacity ≤ widestCapacity) (rules : Rules κ ε) (key : κ) {i j : Int}
    (hmod : i ≡ j [ZMOD 2 ^ 64]) :
    t.probe (rules.hashedBy g) key i = t.probe (rules.hashedBy h) key j := by
  simp only [probe, scan_hashedBy rules g h, Tag.fingerprint_congr hmod,
    (ht.isCapacity hpos).mask_congr hle hmod]

/-! ## Rehashes -/

theorem refill_congr (rules : Rules κ ε) (hmod : ∀ key, g key ≡ h key [ZMOD 2 ^ 64])
    (old : Table κ ν) (n i : Nat) {fresh : Table κ ν} (hc : IsCapacity fresh.capacity)
    (hle : fresh.capacity ≤ widestCapacity) :
    old.refill (rules.hashedBy g) n i fresh = old.refill (rules.hashedBy h) n i fresh := by
  induction n generalizing i fresh with
  | zero => rfl
  | succ n ih =>
      have hnext (j probe : Nat) (tag : Tag) (key : κ) (value : ν) :
          old.refill (rules.hashedBy g) n (i + 1) (fresh.occupy j probe tag key value) =
            old.refill (rules.hashedBy h) n (i + 1) (fresh.occupy j probe tag key value) := by
        have hcap : (fresh.occupy j probe tag key value).capacity = fresh.capacity :=
          capacity_write fresh j tag key value
        apply ih
        · rwa [hcap]
        · rwa [hcap]
      have hmask (key : κ) : mask fresh.capacity (g key) = mask fresh.capacity (h key) :=
        hc.mask_congr hle (hmod key)
      simp only [refill, hashOf_hashedBy, bind, Except.bind, hmask, hnext, ih _ hc hle]

/-- Where all keys can be hashed, storage with more slots than entries takes them all, whatever
else the rules say. -/
theorem refill_total (htotal : ∀ key, ∃ hash, rules.hash key = .ok hash) {old : Table κ ν}
    (hold : old.Fitted) (n i : Nat) {fresh : Table κ ν} (hn : i + n ≤ old.capacity)
    (hc : IsCapacity fresh.capacity)
    (htags : ∀ j, fresh.tagAt j = .empty ∨ (fresh.tagAt j).isFilled = true)
    (hcount : fresh.count = old.tallyBelow Tag.isFilled i)
    (htally : fresh.tally Tag.isFilled = old.tallyBelow Tag.isFilled i)
    (hroom : old.tally Tag.isFilled < fresh.capacity) :
    ∃ full, old.refill rules n i fresh = .ok full ∧
      full.count = old.tallyBelow Tag.isFilled (i + n) := by
  induction n generalizing i fresh with
  | zero => exact ⟨fresh, rfl, hcount⟩
  | succ n ih =>
      have hstep : i + (n + 1) = i + 1 + n := by omega
      rw [refill, hstep]
      have hbelow := tallyBelow_succ old Tag.isFilled i
      cases hf : (old.tagAt i).isFilled with
      | false =>
          rw [hf] at hbelow
          exact ih (i + 1) (by omega) hc htags (by simp [hcount, hbelow]) (by simp [htally, hbelow])
            hroom
      | true =>
          rw [hf, if_pos rfl] at hbelow
          obtain ⟨k, v, hk⟩ := exists_holds hold.keys_size hold.vals_size hf
          obtain ⟨hash, hhash⟩ := htotal k
          have hle := tallyBelow_le (t := old) (p := Tag.isFilled) (n := i) (by omega)
          -- One slot is filled for each entry met, which leaves an empty one on each path.
          obtain ⟨j, d, hj, -, halong, hempty, -⟩ := exists_vacancy hc htags (by omega) hash
          have hlt : j < fresh.capacity := halong ▸ hc.along_lt hash d
          let probe := mask fresh.capacity (j - mask fresh.capacity hash)
          let next := fresh.occupy j probe (old.tagAt i) k v
          have hs : (fresh.write j (old.tagAt i) k v).SameSlots next := ⟨rfl, rfl, rfl⟩
          have hcap : next.capacity = fresh.capacity := capacity_write fresh j (old.tagAt i) k v
          have htally' := tally_write hlt (old.tagAt i) k v Tag.isFilled
          rw [hempty, hf, ← hs.tally_eq] at htally'
          simp only [Tag.isFilled_empty, Bool.false_eq_true, if_true, if_false] at htally'
          have hnext : ∃ full, old.refill rules n (i + 1) next = .ok full ∧
              full.count = old.tallyBelow Tag.isFilled (i + 1 + n) := by
            refine ih (i + 1) (by omega) (by rwa [hcap]) ?_ ?_ (by omega) (by rwa [hcap])
            · intro m
              rw [hs.tagAt_eq, tagAt_write hlt]
              split
              · exact Or.inr hf
              · exact htags m
            · change fresh.count + 1 = _
              omega
          simp only [if_true, key_eq hk.key, Rules.hashOf_ok hhash, hj, val_eq hk.val, bind,
            Except.bind]
          exact hnext

end Table

namespace Op

open Table

variable [Inhabited κ] [Inhabited ν] {rules : Rules κ ε} {s : Journal κ ν} {g h : κ → Int}

theorem rehash_total (htotal : ∀ key, ∃ hash, rules.hash key = .ok hash)
    (hs : s.table.Accurate) {size : Int}
    (hroom : rules.demandRoom (s.table.rehashCapacity size) = .ok ()) :
    (rehash rules size).Outcome s (fun _ s' => s'.table.capacity = s.table.rehashCapacity size)
      fun _ _ => False := by
  have hc : IsCapacity (s.table.rehashCapacity size) := isCapacity_rehashCapacity _ _
  have hload := count_lt_rehashCapacity s.table size
  have hcount := hs.count_eq
  have hslots := sameSlots_renewed s.table
  rw [rehash, outcome_bind, outcome_query_ok rfl, outcome_bind, renewAge, outcome_edit,
    outcome_bind, outcome_query_ok hroom]
  by_cases hzero : s.table.count = 0
  · rw [if_pos hzero, outcome_bind, outcome_edit, outcome_report]
    exact capacity_blank (κ := κ) (ν := ν) _
  · have hblank : IsCapacity (blank (s.table.rehashCapacity size) : Table κ ν).capacity := by
      rwa [capacity_blank]
    obtain ⟨fresh, hfresh, hall⟩ := refill_total htotal (hs.toFitted.of_sameSlots hslots)
      s.table.capacity 0 (Nat.le_of_eq (Nat.zero_add _)) hblank
      (fun j => Or.inl (tagAt_blank _ j)) rfl (tally_blank _ rfl)
      (by rw [capacity_blank, hslots.tally_eq]; omega)
    have hfull : fresh.count = s.table.count := by
      rw [hall, Nat.zero_add]
      change ((s.table.renewed.tallyBelow Tag.isFilled s.table.renewed.capacity : Nat) : Int) = _
      rw [tallyBelow_capacity, hslots.tally_eq, hcount]
    have hfit := refill_fitted rules s.table.renewed s.table.capacity 0
      (fitted_blank (κ := κ) (ν := ν) (Or.inr hc))
    rw [hfresh, gives_ok, capacity_blank] at hfit
    rw [if_neg hzero, outcome_bind, outcome_query_ok hfresh, if_pos hfull, outcome_bind,
      outcome_edit, outcome_report]
    exact hfit.2

theorem rehash_congr_of_le (rules : Rules κ ε) (hmod : ∀ key, g key ≡ h key [ZMOD 2 ^ 64])
    {size : Int} (hle : s.table.rehashCapacity size ≤ widestCapacity) :
    rehash (rules.hashedBy g) size s = rehash (rules.hashedBy h) size s := by
  have hc : IsCapacity (blank (s.table.rehashCapacity size) : Table κ ν).capacity := by
    rw [capacity_blank]
    exact isCapacity_rehashCapacity _ _
  have hrefill := refill_congr rules hmod s.table.renewed s.table.capacity 0 hc
    (by rwa [capacity_blank])
  change (refill _ { s.table with age := s.table.age + 1, floor := 0 } _ _ _) = _ at hrefill
  have hroom (capacity : Nat) :
      (rules.hashedBy g).demandRoom capacity = (rules.hashedBy h).demandRoom capacity := rfl
  simp only [rehash, renewAge, bind_run, query_run, edit_run, hroom]
  cases (rules.hashedBy h).demandRoom (s.table.rehashCapacity size) with
  | error fault => rfl
  | ok =>
      by_cases hzero : s.table.count = 0
      · simp only [if_pos hzero]
      · simp only [if_neg hzero, bind_run, query_run, hrefill]
        rfl

end Op

end OpenAddressing
