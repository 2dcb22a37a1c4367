import OpenAddressing.Proofs.Lookup
import OpenAddressing.Table.Audit

/-!
# What an audit accepts

An audit looks each key up and compares the slot found with the slot of the key. On tables of
any content this is as good as a look at the path to the key and at all the other keys: two
keys that are the same are found in one slot, and the way to a slot that is found has no gap.
-/

namespace OpenAddressing.Table

variable {κ ν ε : Type} {rules : Rules κ ε} {same : Setoid κ} {t : Table κ ν}
variable {key : κ} {hash : Int} {i : Nat}

private theorem bind_eq_ok {α β : Type} {x : Except (Fault κ ε) α}
    {f : α → Except (Fault κ ε) β} {b : β} :
    (x >>= f) = .ok b ↔ ∃ a, x = .ok a ∧ f a = .ok b := by
  cases x with
  | ok a => simp [bind, Except.bind]
  | error fault => simp [bind, Except.bind]

private theorem seq_eq_ok {β : Type} {x : Except (Fault κ ε) Unit}
    {f : Unit → Except (Fault κ ε) β} {b : β} :
    (x >>= f) = .ok b ↔ x = .ok () ∧ f () = .ok b := by
  rw [bind_eq_ok]
  constructor
  · intro h
    obtain ⟨⟨⟩, hx, hf⟩ := h
    exact ⟨hx, hf⟩
  · intro h
    obtain ⟨hx, hf⟩ := h
    exact ⟨(), hx, hf⟩

@[simp]
theorem expect_eq_ok {holds : Bool} {finding : Finding κ} :
    (expect holds finding : Except (Fault κ ε) Unit) = .ok () ↔ holds = true := by
  cases holds <;> simp [expect]

/-! ## Lookups in any table -/

private theorem path_of_seek (hc : IsCapacity t.capacity) {tag : Tag} (window d : Nat)
    (h : t.seek rules key tag window (along t.capacity hash d) = .ok (some i)) :
    ∃ e, d ≤ e ∧ e < d + window ∧ along t.capacity hash e = i ∧
      ∀ x, d ≤ x → x < e → t.tagAt (along t.capacity hash x) ≠ .empty := by
  induction window generalizing d with
  | zero => cases h
  | succ window ih =>
      have hnext : t.after (along t.capacity hash d) = along t.capacity hash (d + 1) :=
        hc.next_along hash d
      rw [seek] at h
      by_cases hempty : t.tagAt (along t.capacity hash d) = .empty
      · rw [if_pos hempty] at h
        cases h
      have hrest
          (h : t.seek rules key tag window (along t.capacity hash (d + 1)) = .ok (some i)) :
          ∃ e, d ≤ e ∧ e < d + (window + 1) ∧ along t.capacity hash e = i ∧
            ∀ x, d ≤ x → x < e → t.tagAt (along t.capacity hash x) ≠ .empty := by
        obtain ⟨e, hde, he, halong, hpath⟩ := ih (d + 1) h
        refine ⟨e, by omega, by omega, halong, fun x hx hxe => ?_⟩
        by_cases hxd : x = d
        · rwa [hxd]
        · exact hpath x (by omega) hxe
      rw [if_neg hempty, hnext] at h
      by_cases htag : t.tagAt (along t.capacity hash d) = tag
      · rw [if_pos htag] at h
        obtain ⟨stored, -, h⟩ := bind_eq_ok.mp h
        obtain ⟨found, -, h⟩ := bind_eq_ok.mp h
        cases found with
        | true =>
            cases h
            exact ⟨d, Nat.le_refl d, by omega, rfl, fun x hx hxd => by omega⟩
        | false => exact hrest h
      · rw [if_neg htag] at h
        exact hrest h

private theorem path_of_find? (hc : IsCapacity t.capacity) (hh : rules.hash key = .ok hash)
    (hi : i < t.capacity) (h : t.find? rules key = .ok (some i)) :
    ∀ e < mask t.capacity (i - hash), t.tagAt (along t.capacity hash e) ≠ .empty := by
  have hpos := hc.pos
  rw [find?] at h
  split at h
  · cases h
  rw [Rules.hashOf_ok hh] at h
  change (if isPowerOfTwo t.capacity = true then _ else _) = _ at h
  rw [if_pos hc.isPowerOfTwo] at h
  split at h
  · cases h
  rw [if_neg (by omega), ← along_zero] at h
  obtain ⟨e, -, -, halong, hpath⟩ := path_of_seek hc _ 0 h
  -- The walk may have gone round more than once, so the way is only part of what it saw.
  have hslot : along t.capacity hash (e % t.capacity) =
      along t.capacity hash (mask t.capacity (i - hash)) := by
    rw [hc.along_mod, halong, hc.along_mask_sub hash hi]
  have hmod := hc.along_injective (Nat.mod_lt e hpos) (hc.mask_lt _) hslot
  have hle := Nat.mod_le e t.capacity
  exact fun x hx => hpath x (Nat.zero_le x) (by omega)

private theorem isKey_congr (hr : rules.Lawful same) {k l : κ} (hs : same.r k l) (stored : κ) :
    rules.isKey k stored = rules.isKey l stored := by
  obtain ⟨r₁, h₁⟩ := hr.equal_total k stored
  obtain ⟨r₂, h₂⟩ := hr.equal_total l stored
  have hiff : same.r k stored ↔ same.r l stored :=
    ⟨fun h => same.trans (same.symm hs) h, fun h => same.trans hs h⟩
  have heq : r₁ = r₂ := by
    rw [Bool.eq_iff_iff, hr.equal_iff h₁, hr.equal_iff h₂, hiff]
  rw [Rules.isKey, Rules.isKey, h₁, h₂, heq]

private theorem seek_congr (hr : rules.Lawful same) {k l : κ} (hs : same.r k l) (tag : Tag)
    (window i : Nat) : t.seek rules k tag window i = t.seek rules l tag window i := by
  induction window generalizing i with
  | zero => rfl
  | succ window ih => simp only [seek, isKey_congr hr hs, ih]

theorem find?_congr (hr : rules.Lawful same) {k l : κ} (hs : same.r k l) :
    t.find? rules k = t.find? rules l := by
  obtain ⟨g, hg⟩ := hr.hash_total k
  obtain ⟨h, hh⟩ := hr.hash_total l
  obtain rfl := hr.hash_eq hs hg hh
  simp only [find?, Rules.hashOf_ok hg, Rules.hashOf_ok hh, seek_congr hr hs]

/-! ## The checks one by one -/

/-- What the audit of an entry finds in order. -/
structure Passes (rules : Rules κ ε) (t : Table κ ν) (i : Nat) (key : κ) (hash : Int) : Prop where
  key_eq : t.key i = (.ok key : Except (Fault κ ε) κ)
  hash_eq : rules.hash key = .ok hash
  tag_eq : t.tagAt i = .fingerprint hash
  floor_le : t.floor ≤ i
  near : mask t.capacity (i - hash) ≤ t.maxProbe
  found : t.find? rules key = .ok (some i)

theorem auditEntry_eq_ok :
    t.auditEntry rules i (t.tagAt i) = .ok () ↔ ∃ key hash, t.Passes rules i key hash := by
  constructor
  · intro h
    rw [auditEntry] at h
    obtain ⟨key, hkey, h⟩ := bind_eq_ok.mp h
    obtain ⟨hash, hhash, h⟩ := bind_eq_ok.mp h
    obtain ⟨htag, h⟩ := seq_eq_ok.mp h
    obtain ⟨hfloor, h⟩ := seq_eq_ok.mp h
    obtain ⟨hnear, h⟩ := seq_eq_ok.mp h
    obtain ⟨found, hfound, h⟩ := bind_eq_ok.mp h
    simp only [expect_eq_ok, decide_eq_true_eq] at htag hfloor hnear h
    rcases rules.hashOf_cases key with ⟨hash', hh, heq⟩ | ⟨fault, heq, -⟩
    · rw [heq] at hhash
      cases hhash
      exact ⟨key, hash, hkey, hh, htag, hfloor, hnear, by rw [hfound, h]⟩
    · rw [heq] at hhash
      cases hhash
  · intro h'
    obtain ⟨key, hash, hkey, hhash, htag, hfloor, hnear, hfound⟩ := h'
    rw [auditEntry, hkey, htag]
    refine bind_eq_ok.mpr ⟨key, rfl, bind_eq_ok.mpr ⟨hash, Rules.hashOf_ok hhash, ?_⟩⟩
    refine seq_eq_ok.mpr ⟨by simp, seq_eq_ok.mpr ⟨by simpa using hfloor, ?_⟩⟩
    exact seq_eq_ok.mpr ⟨by simpa using hnear, bind_eq_ok.mpr ⟨some i, hfound, by simp⟩⟩

def Checked (rules : Rules κ ε) (t : Table κ ν) (i : Nat) : Prop :=
  t.tagAt i = .empty ∨ t.tagAt i = .tombstone ∨
    (t.tagAt i).isFilled = true ∧ ∃ key hash, t.Passes rules i key hash

theorem auditSlots_eq_ok (n i : Nat) {result : Nat × Nat} :
    t.auditSlots rules n i (t.tallyBelow Tag.isFilled i) (t.tallyBelow isTombstone i) =
        .ok result ↔
      (∀ x, i ≤ x → x < i + n → t.Checked rules x) ∧
        result = (t.tallyBelow Tag.isFilled (i + n), t.tallyBelow isTombstone (i + n)) := by
  -- The numbers handed on are those of the slots below `i`, so one slot more moves both of them on.
  induction n generalizing i with
  | zero =>
      simp only [auditSlots, Except.ok.injEq, Nat.add_zero]
      exact ⟨fun h => ⟨fun x hx hxi => by omega, h.symm⟩, fun h => h.2.symm⟩
  | succ n ih =>
      have hsplit : (∀ x, i ≤ x → x < i + (n + 1) → t.Checked rules x) ↔
          t.Checked rules i ∧ ∀ x, i + 1 ≤ x → x < i + 1 + n → t.Checked rules x := by
        constructor
        · exact fun h => ⟨h i (Nat.le_refl i) (by omega), fun x hx hxn => h x (by omega) (by omega)⟩
        · intro h' x hx hxn
          obtain ⟨hi, h⟩ := h'
          by_cases hxi : x = i
          · rwa [hxi]
          · exact h x (by omega) (by omega)
      have hrest := ih (i + 1)
      rw [tallyBelow_succ, tallyBelow_succ] at hrest
      rw [hsplit, and_assoc, show i + (n + 1) = i + 1 + n by omega, auditSlots]
      by_cases hempty : t.tagAt i = .empty
      · rw [if_pos hempty]
        rw [hempty] at hrest
        rw [show t.Checked rules i ↔ True from iff_true_intro (Or.inl hempty), true_and]
        exact hrest
      rw [if_neg hempty]
      by_cases htomb : t.tagAt i = .tombstone
      · rw [if_pos htomb]
        rw [htomb] at hrest
        rw [show t.Checked rules i ↔ True from iff_true_intro (Or.inr (Or.inl htomb)), true_and]
        exact hrest
      have hchecked : t.Checked rules i ↔
          (t.tagAt i).isFilled = true ∧ ∃ key hash, t.Passes rules i key hash := by
        simp only [Checked, hempty, htomb, false_or]
      rw [if_neg htomb, hchecked, seq_eq_ok, seq_eq_ok, expect_eq_ok, auditEntry_eq_ok,
        and_assoc]
      refine and_congr_right fun hf => and_congr_right fun _ => ?_
      simp only [hf, isTombstone_iff, htomb, if_true, if_false, Nat.add_zero] at hrest
      exact hrest

theorem audit_eq_ok :
    t.audit rules = .ok () ↔
      (t.keys.size = t.capacity ∧ t.vals.size = t.capacity) ∧
      (t.capacity = 0 ∨ IsCapacity t.capacity) ∧ (∀ i < t.capacity, t.Checked rules i) ∧
      t.count = t.tally Tag.isFilled ∧ t.dead = t.tally isTombstone := by
  have hslots (result : Nat × Nat) : t.auditSlots rules t.capacity 0 0 0 = .ok result ↔
      (∀ i < t.capacity, t.Checked rules i) ∧
        result = (t.tally Tag.isFilled, t.tally isTombstone) := by
    change t.auditSlots rules t.capacity 0 (t.tallyBelow Tag.isFilled 0)
      (t.tallyBelow isTombstone 0) = _ ↔ _
    rw [auditSlots_eq_ok]
    simp only [Nat.zero_add, tallyBelow_capacity, Nat.zero_le, forall_const]
  rw [audit, seq_eq_ok, seq_eq_ok, bind_eq_ok]
  simp only [seq_eq_ok, hslots, expect_eq_ok, decide_eq_true_eq, ← isCapacity_iff]
  constructor
  · intro h
    obtain ⟨⟨hk, hv⟩, hc, _, ⟨hall, rfl⟩, hcount, hdead⟩ := h
    exact ⟨⟨hk, hv.symm⟩, hc, hall, hcount.symm, hdead.symm⟩
  · intro h
    obtain ⟨⟨hk, hv⟩, hc, hall, hcount, hdead⟩ := h
    exact ⟨⟨hk, hv.symm⟩, hc, _, ⟨hall, rfl⟩, hcount.symm, hdead.symm⟩

theorem Passes.placed (h : t.Passes rules i key hash) (hc : IsCapacity t.capacity)
    (hi : i < t.capacity) : t.Placed rules i key hash (mask t.capacity (i - hash)) where
  hash_eq := h.hash_eq
  tag_eq := h.tag_eq
  floor_le := h.floor_le
  lt := hc.mask_lt _
  le_maxProbe := h.near
  along_eq := hc.along_mask_sub hash hi
  path := path_of_find? hc h.hash_eq hi h.found

private theorem Checked.passes {k : κ} {v : ν} (h : t.Checked rules i) (hk : t.Holds i k v) :
    ∃ hash, t.Passes rules i k hash := by
  have hf := hk.filled
  rcases h with hempty | htomb | ⟨-, key, hash, hp⟩
  · rw [hempty] at hf
    cases hf
  · rw [htomb] at hf
    cases hf
  · have hkey := hp.key_eq
    rw [key_eq hk.key] at hkey
    cases hkey
    exact ⟨hash, hp⟩

theorem WellFormed.passes (h : t.WellFormed rules same) (hr : rules.Lawful same) {k : κ} {v : ν}
    (hk : t.Holds i k v) : ∃ hash, t.Passes rules i k hash := by
  obtain ⟨hash, d, hp⟩ := h.placed hk
  obtain ⟨found, heq, hfound⟩ :=
    (h.find?_spec hr.toRespects k).exists_ok fun _ => hr.not_refuses
  have hi : found = some i := (hfound i).mpr ⟨k, v, hk, same.refl k⟩
  have hmask : mask t.capacity (i - hash) = d := by
    rw [← hp.along_eq]
    exact (h.isCapacity hk.lt).mask_sub_along hash hp.lt
  refine ⟨hash, key_eq hk.key, hp.hash_eq, hp.tag_eq, hp.floor_le, ?_, by rw [heq, hi]⟩
  rw [hmask]
  exact hp.le_maxProbe

/-- An audit accepts exactly the well-formed tables. -/
theorem audit_eq_ok_iff (hr : rules.Lawful same) :
    t.audit rules = .ok () ↔ t.WellFormed rules same := by
  rw [audit_eq_ok]
  constructor
  · intro h'
    obtain ⟨⟨hkeys, hvals⟩, hcap, hall, hcount, hdead⟩ := h'
    have hpass {i : Nat} {k : κ} {v : ν} (hk : t.Holds i k v) := (hall i hk.lt).passes hk
    refine ⟨⟨hkeys, hvals, hcap, fun i => ?_, fun {i k v} hk => ?_, ?_⟩, hcount, hdead⟩
    · by_cases hi : i < t.capacity
      · exact (hall i hi).imp_right (Or.imp_right fun h => h.1)
      · exact Or.inl (tagAt_of_le (by omega))
    · obtain ⟨hash, hp⟩ := hpass hk
      have hpos := hk.lt
      exact ⟨hash, _, hp.placed (hcap.resolve_left (by omega)) hk.lt⟩
    · intro i j k l v w hk hl hs
      obtain ⟨_, hpi⟩ := hpass hk
      obtain ⟨_, hpj⟩ := hpass hl
      have hfound := hpi.found
      rw [find?_congr hr hs, hpj.found] at hfound
      cases hfound
      rfl
  · intro h
    refine ⟨⟨h.keys_size, h.vals_size⟩, h.capacity, fun i _ => ?_, h.count_eq, h.dead_eq⟩
    refine (h.tags i).imp_right (Or.imp_right fun hf => ⟨hf, ?_⟩)
    obtain ⟨k, v, hk⟩ := h.exists_holds hf
    obtain ⟨hash, hp⟩ := h.passes hr hk
    exact ⟨k, hash, hp⟩

end OpenAddressing.Table
