import OpenAddressing.Proofs.Audit
import OpenAddressing.Proofs.Request

/-!
# Audits tell exactly whether the storage is in order

What an audit accepts can be said without a lookup: where entries may lie, and that their keys
differ. On a table of any content an audit accepts or has a finding, and stops for no other
reason, since the lengths of the arrays are looked at before their cells.
-/

namespace OpenAddressing.Table

variable {κ ν ε α : Type} {rules : Rules κ ε} {same : Setoid κ} {t : Table κ ν} {i : Nat}

/-- How far slot `i` lies from the first slot of a hash, in cyclic order. -/
def distance (t : Table κ ν) (hash : Int) (i : Nat) : Int := (i - hash) % t.capacity

/-- The storage is in order, said without a lookup. -/
structure InOrder (rules : Rules κ ε) (same : Setoid κ) (t : Table κ ν) : Prop where
  lengths : t.keys.size = t.capacity ∧ t.vals.size = t.capacity
  capacity : t.capacity = 0 ∨ 16 ≤ t.capacity ∧ t.capacity.isPowerOfTwo
  tags : ∀ i < t.capacity,
    t.tagAt i = .empty ∨ t.tagAt i = .tombstone ∨ 128 ≤ (t.tagAt i).code
  count_eq : t.count = t.tally Tag.isFilled
  dead_eq : t.dead = t.tally isTombstone
  reachable {i : Nat} {k : κ} {v : ν} : t.Holds i k v → ∃ hash,
    rules.hash k = .ok hash ∧ t.tagAt i = .fingerprint hash ∧ t.floor ≤ i ∧
    t.distance hash i ≤ t.maxProbe ∧
    ∀ j < t.capacity, t.distance hash j < t.distance hash i → t.tagAt j ≠ .empty
  unique {i j : Nat} {k l : κ} {v w : ν} :
    t.Holds i k v → t.Holds j l w → same.r k l → j = i

theorem distance_nonneg (hash : Int) (hi : i < t.capacity) : 0 ≤ t.distance hash i :=
  Int.emod_nonneg _ (by omega)

theorem distance_along (hc : IsCapacity t.capacity) (hash : Int) {d : Nat} (hd : d < t.capacity) :
    t.distance hash (along t.capacity hash d) = d := by
  rw [distance, ← hc.mask_eq, hc.mask_sub_along hash hd]

theorem along_distance (hc : IsCapacity t.capacity) (hash : Int) (hi : i < t.capacity) :
    along t.capacity hash (t.distance hash i).toNat = i := by
  rw [distance, ← hc.mask_eq, Int.toNat_natCast, hc.along_mask_sub hash hi]

theorem WellFormed.inOrder (h : t.WellFormed rules same) : t.InOrder rules same where
  lengths := ⟨h.keys_size, h.vals_size⟩
  capacity := h.capacity.imp_right isCapacity_iff_sixteen_le.mp
  tags i _ := (h.tags i).imp_right (Or.imp_right fun hf => of_decide_eq_true hf)
  count_eq := h.count_eq
  dead_eq := h.dead_eq
  reachable := by
    intro i k v hk
    obtain ⟨hash, d, hp⟩ := h.placed hk
    have hc := h.isCapacity hk.lt
    have hd : t.distance hash i = d := by rw [← hp.along_eq, distance_along hc hash hp.lt]
    refine ⟨hash, hp.hash_eq, hp.tag_eq, hp.floor_le, hd ▸ hp.le_maxProbe, fun j hj hji => ?_⟩
    have hnonneg := distance_nonneg hash hj
    rw [← along_distance hc hash hj]
    exact hp.path _ (by omega)
  unique hi hj hs := (h.distinct hi hj hs).symm

theorem InOrder.wellFormed (h : t.InOrder rules same) : t.WellFormed rules same where
  keys_size := h.lengths.1
  vals_size := h.lengths.2
  capacity := h.capacity.imp_right isCapacity_iff_sixteen_le.mpr
  tags i := by
    by_cases hi : i < t.capacity
    · exact (h.tags i hi).imp_right (Or.imp_right fun hf => decide_eq_true hf)
    · exact Or.inl (tagAt_of_le (by omega))
  count_eq := h.count_eq
  dead_eq := h.dead_eq
  placed := by
    intro i k v hk
    obtain ⟨hash, hh, htag, hfloor, hreach, hpath⟩ := h.reachable hk
    have hlt := hk.lt
    have hc := isCapacity_iff_sixteen_le.mpr (h.capacity.resolve_left (by omega))
    have hnonneg := distance_nonneg hash hlt
    have hbound : t.distance hash i < t.capacity := Int.emod_lt_of_pos _ (by omega)
    refine ⟨hash, (t.distance hash i).toNat, hh, htag, hfloor, by omega, by omega,
      along_distance hc hash hlt, fun e he => hpath _ (hc.along_lt _ _) ?_⟩
    rw [distance_along hc hash (by omega)]
    omega
  distinct hi hj hs := (h.unique hi hj hs).symm

/-! ## Audits end with a verdict -/

def Concludes (result : Except (Fault κ ε) α) : Prop :=
  Gives result (fun _ => True) fun fault => ∃ finding, fault = .audit finding

private theorem concludes_expect (holds : Bool) (finding : Finding κ) :
    Concludes (expect holds finding : Except (Fault κ ε) Unit) := by
  cases holds with
  | true => exact trivial
  | false => exact ⟨finding, rfl⟩

private theorem Concludes.bind {β : Type} {x : Except (Fault κ ε) α}
    {f : α → Except (Fault κ ε) β} (hx : Concludes x) (hf : ∀ a, x = .ok a → Concludes (f a)) :
    Concludes (x >>= f) := by
  cases x with
  | ok a => exact hf a rfl
  | error fault => exact hx

section Lawful

variable (hr : rules.Lawful same)

include hr

private theorem exists_seek (hkeys : t.keys.size = t.capacity) (hc : IsCapacity t.capacity)
    (key : κ) (tag : Tag) (window : Nat) (hi : i < t.capacity) :
    ∃ found, t.seek rules key tag window i = .ok found := by
  induction window generalizing i with
  | zero => exact ⟨none, rfl⟩
  | succ window ih =>
      have hafter : t.after i < t.capacity := hc.mask_lt _
      have hrest := ih hafter
      rw [seek]
      by_cases hempty : t.tagAt i = .empty
      · exact ⟨none, if_pos hempty⟩
      rw [if_neg hempty]
      by_cases htag : t.tagAt i = tag
      · have hkey : t.keys[i]? = some t.keys[i] := by simp [hkeys, hi]
        obtain ⟨r, hequal⟩ := hr.equal_total key t.keys[i]
        rw [if_pos htag, key_eq hkey]
        cases r with
        | true => exact ⟨some i, by simp [bind, Except.bind, Rules.isKey, hequal, Except.mapError]⟩
        | false => simpa [bind, Except.bind, Rules.isKey, hequal, Except.mapError] using hrest
      · rw [if_neg htag]
        exact hrest

private theorem exists_find? (hkeys : t.keys.size = t.capacity) (hc : IsCapacity t.capacity)
    (key : κ) : ∃ found, t.find? rules key = .ok found := by
  obtain ⟨hash, hh⟩ := hr.hash_total key
  have hpos := hc.pos
  rw [find?]
  by_cases hcount : t.count = 0
  · exact ⟨none, if_pos hcount⟩
  rw [if_neg hcount, Rules.hashOf_ok hh]
  simp only [bind, Except.bind]
  rw [if_pos hc.isPowerOfTwo]
  by_cases hreach : t.maxProbe < 0
  · exact ⟨none, if_pos hreach⟩
  · rw [if_neg hreach, if_neg (by omega)]
    exact exists_seek hr hkeys hc key _ _ (hc.mask_lt hash)

private theorem auditEntry_concludes (hkeys : t.keys.size = t.capacity)
    (hc : IsCapacity t.capacity) (hi : i < t.capacity) (tag : Tag) :
    Concludes (t.auditEntry rules i tag) := by
  have hkey : t.keys[i]? = some t.keys[i] := by simp [hkeys, hi]
  obtain ⟨hash, hh⟩ := hr.hash_total t.keys[i]
  obtain ⟨found, hfound⟩ := exists_find? hr hkeys hc t.keys[i]
  rw [auditEntry, key_eq hkey]
  change Concludes (rules.hashOf t.keys[i] >>= _)
  rw [Rules.hashOf_ok hh]
  refine (concludes_expect _ _).bind fun _ _ => (concludes_expect _ _).bind fun _ _ => ?_
  refine (concludes_expect _ _).bind fun _ _ => ?_
  rw [hfound]
  exact concludes_expect _ _

private theorem auditSlots_concludes (hkeys : t.keys.size = t.capacity)
    (hc : IsCapacity t.capacity) (n i live dead : Nat) (hn : i + n ≤ t.capacity) :
    Concludes (t.auditSlots rules n i live dead) := by
  induction n generalizing i live dead with
  | zero => exact trivial
  | succ n ih =>
      have hrest (live dead : Nat) := ih (i + 1) live dead (by omega)
      rw [auditSlots]
      by_cases hempty : t.tagAt i = .empty
      · rw [if_pos hempty]
        exact hrest live dead
      rw [if_neg hempty]
      by_cases htomb : t.tagAt i = .tombstone
      · rw [if_pos htomb]
        exact hrest live (dead + 1)
      · rw [if_neg htomb]
        refine (concludes_expect _ _).bind fun _ _ => ?_
        exact (auditEntry_concludes hr hkeys hc (by omega) _).bind fun _ _ => hrest (live + 1) dead

theorem audit_concludes (t : Table κ ν) : Concludes (t.audit rules) := by
  rw [audit]
  refine (concludes_expect _ _).bind fun _ hsizes => ?_
  refine (concludes_expect _ _).bind fun _ hsize => ?_
  rw [expect_eq_ok, decide_eq_true_eq] at hsizes hsize
  have hslots : Concludes (t.auditSlots rules t.capacity 0 0 0) := by
    rcases hsize with hzero | hc
    · rw [hzero]
      exact trivial
    · exact auditSlots_concludes hr hsizes.1 (isCapacity_iff.mpr hc) _ 0 0 0 (by omega)
  exact hslots.bind fun _ _ => (concludes_expect _ _).bind fun _ _ => concludes_expect _ _

/-- An audit accepts a table of whatever content if it is in order, and otherwise has a
finding. -/
theorem audit_accepts_iff_inOrder (t : Table κ ν) :
    (t.audit rules = .ok () ↔ t.InOrder rules same) ∧
      (¬t.InOrder rules same → ∃ finding, t.audit rules = .error (.audit finding)) := by
  have hiff : t.audit rules = .ok () ↔ t.InOrder rules same :=
    (audit_eq_ok_iff hr).trans ⟨WellFormed.inOrder, InOrder.wellFormed⟩
  refine ⟨hiff, fun hnot => ?_⟩
  have hverdict := audit_concludes hr t
  cases heq : t.audit rules with
  | ok _ => exact absurd (hiff.mp heq) hnot
  | error fault =>
      rw [heq] at hverdict
      obtain ⟨finding, rfl⟩ := hverdict
      exact ⟨finding, rfl⟩

end Lawful

/-- Two keys are left, one of them next to its first slot. A reach of no step at all does not
come to it, and a count of three is one too many. -/
theorem audit_accepts_iff_inOrder_digits :
    let rules : Rules Nat Empty := .through (· % 10) (fun n => (n % 4 : Nat)) 64000 none
    let t := (reached (ν := Nat) rules 0 [.map (.set 3 30), .map (.set 7 70), .map (.set 6 60),
      .map (.delete 3)]).table
    rules.Lawful (Setoid.ker (· % 10)) ∧ t.InOrder rules (Setoid.ker (· % 10)) ∧
      (∃ finding, ({ t with maxProbe := 0 }).audit rules = .error (.audit finding)) ∧
      ∃ finding, ({ t with count := 3 }).audit rules = .error (.audit finding) := by
  refine ⟨Rules.lawful_through _ _ _ _, ?_, ?_, ?_⟩
  · exact (audit_accepts_iff_inOrder (Rules.lawful_through _ _ _ _) _).1.mp rfl
  · refine (audit_accepts_iff_inOrder (Rules.lawful_through _ _ _ _) _).2 fun h => ?_
    obtain ⟨hash, hh, -, -, hreach, -⟩ := h.reachable (i := 4) (k := 7) (v := 70)
      ⟨by decide +kernel, by decide +kernel, by decide +kernel⟩
    cases hh
    exact absurd hreach (by decide +kernel)
  · refine (audit_accepts_iff_inOrder (Rules.lawful_through _ _ _ _) _).2 fun h => ?_
    exact absurd h.count_eq (by decide +kernel)

end OpenAddressing.Table
