import OpenAddressing.Proofs.Lookup
import OpenAddressing.Table.Delete

/-!
# Deletions

A deletion turns one slot into a tombstone, or empties it together with the tombstones right
before it. Slots are emptied from the last to the first, so the slot after the one at hand is
always empty, and no path to an entry leads through it.
-/

namespace OpenAddressing

variable {κ ν ε : Type} {rules : Rules κ ε} {same : Setoid κ}
variable [Inhabited κ] [Inhabited ν]

namespace Table

variable {t t' u : Table κ ν} {i j n : Nat}

def before (t : Table κ ν) (i : Nat) : Nat := mask t.capacity (i - 1)

def wiped (t : Table κ ν) (i : Nat) (tag : Tag) : Table κ ν := t.write i tag default default

/-- Slot `i` and the `n` slots before it are emptied, the latter being all the tombstones
there. -/
inductive Vacated : Table κ ν → Nat → Nat → Table κ ν → Prop where
  | stop {t : Table κ ν} {i : Nat}
      (hbefore : (t.wiped i .empty).tagAt (t.before i) ≠ .tombstone) :
      Vacated t i 0 (t.wiped i .empty)
  | more {t t' : Table κ ν} {i n : Nat}
      (hbefore : (t.wiped i .empty).tagAt (t.before i) = .tombstone)
      (hrest : Vacated (t.wiped i .empty) (t.before i) n t') : Vacated t i (n + 1) t'

/-- What deleting the entry of a slot makes of a table. -/
inductive Deleted (t : Table κ ν) (i : Nat) : Table κ ν → Prop where
  | buried (hnext : t.tagAt (t.after i) ≠ .empty) :
      Deleted t i { t.wiped i .tombstone with
        dead := t.dead + 1, count := t.count - 1, age := t.age + 1 }
  | vacated {u : Table κ ν} {n : Nat} (hnext : t.tagAt (t.after i) = .empty)
      (hu : Vacated t i n u) :
      Deleted t i { u with dead := u.dead - n, count := u.count - 1, age := u.age + 1 }

omit [Inhabited κ] [Inhabited ν] in
theorem after_before (hc : IsCapacity t.capacity) (hi : i < t.capacity) :
    t.after (t.before i) = i := by
  have h := hc.next_along (i - 1) 0
  have hlast : along t.capacity (i - 1) (0 + 1) = along t.capacity i 0 :=
    congrArg (mask t.capacity) (by omega)
  rw [along_zero, hlast, hc.along_self hi] at h
  exact h

omit [Inhabited κ] [Inhabited ν] in
theorem before_lt (hc : IsCapacity t.capacity) : t.before i < t.capacity := hc.mask_lt _

@[simp]
theorem capacity_wiped (t : Table κ ν) (i : Nat) (tag : Tag) :
    (t.wiped i tag).capacity = t.capacity := capacity_write t i tag _ _

theorem holds_wiped (hi : i < t.capacity) {tag : Tag} (htag : tag.isFilled = false) {k : κ}
    {v : ν} : (t.wiped i tag).Holds j k v ↔ j ≠ i ∧ t.Holds j k v := by
  by_cases hj : j = i
  · subst hj
    simp only [ne_eq, not_true_eq_false, false_and, iff_false]
    exact not_holds_write_self hi htag
  · simp only [ne_eq, hj, not_false_eq_true, true_and]
    exact holds_write_of_ne hi _ _ _ hj

theorem tally_isTombstone_wiped (hi : i < t.capacity) (hf : (t.tagAt i).isFilled = true)
    (tag : Tag) :
    (t.wiped i tag).tally isTombstone = t.tally isTombstone + if isTombstone tag then 1 else 0 := by
  have hkept : isTombstone (t.tagAt i) ≠ true := by
    intro htomb
    rw [isTombstone_iff.mp htomb] at hf
    cases hf
  have hwritten := tally_write hi tag (default : κ) (default : ν) isTombstone
  rw [if_neg hkept] at hwritten
  exact hwritten

namespace Vacated

theorem counters (h : Vacated t i n t') : t'.count = t.count ∧ t'.dead = t.dead ∧
    t'.age = t.age ∧ t'.floor = t.floor ∧ t'.maxProbe = t.maxProbe := by
  induction h with
  | stop => exact ⟨rfl, rfl, rfl, rfl, rfl⟩
  | more _ _ ih => exact ih

theorem capacity_eq (h : Vacated t i n t') : t'.capacity = t.capacity := by
  induction h with
  | stop => exact capacity_wiped _ _ _
  | more _ _ ih => rw [ih, capacity_wiped]

/-- Emptying slots by steps, each with an empty slot after it. -/
theorem induct (h : Vacated t i n t') {P : Table κ ν → Prop} (ht : P t)
    (hi : i < t.capacity) (hc : IsCapacity t.capacity) (hnext : t.tagAt (t.after i) = .empty)
    (hstep : ∀ u j, P u → u.capacity = t.capacity → j < u.capacity →
      u.tagAt (u.after j) = .empty → P (u.wiped j .empty)) : P t' := by
  induction h with
  | stop => exact hstep _ _ ht rfl hi hnext
  | @more t t' i n hbefore hrest ih =>
      have hafter : (t.wiped i .empty).after (t.before i) = i := by
        rw [after, capacity_wiped]
        exact after_before hc hi
      apply ih (hstep _ _ ht rfl hi hnext)
      · rw [capacity_wiped]
        exact before_lt hc
      · rwa [capacity_wiped]
      · rw [hafter]
        exact tagAt_write_self hi _ _ _
      · intro u j hu hcap
        rw [capacity_wiped] at hcap
        exact hstep u j hu hcap

theorem arranged (h : Vacated t i n t') (ht : t.Arranged rules same) (hi : i < t.capacity)
    (hnext : t.tagAt (t.after i) = .empty) : t'.Arranged rules same :=
  h.induct ht hi (ht.isCapacity hi) hnext fun _ _ hu _ hj hafter => hu.vacate hj hafter

theorem fitted (h : Vacated t i n t') (ht : t.Fitted) : t'.Fitted := by
  induction h with
  | stop => exact ht.write _ _ _ _
  | more _ _ ih => exact ih (ht.write _ _ _ _)

theorem holds_iff (h : Vacated t i n t') (hi : i < t.capacity) (hc : IsCapacity t.capacity)
    {k : κ} {v : ν} : t'.Holds j k v ↔ j ≠ i ∧ t.Holds j k v := by
  induction h with
  | stop => exact holds_wiped hi rfl
  | @more t t' i n hbefore hrest ih =>
      have hb : t.before i < (t.wiped i .empty).capacity := by
        rw [capacity_wiped]
        exact before_lt hc
      rw [ih hb (by rwa [capacity_wiped]), holds_wiped hi rfl]
      constructor
      · exact fun hj => hj.2
      · intro hj
        refine ⟨?_, hj⟩
        intro heq
        subst heq
        have hf := ((holds_wiped hi Tag.isFilled_empty).mpr hj).filled
        rw [hbefore] at hf
        cases hf

theorem tally_eq (h : Vacated t i n t') (hi : i < t.capacity) (hc : IsCapacity t.capacity)
    {p : Tag → Bool} (hp : p .empty = false) :
    t'.tally p + (if p .tombstone = true then n else 0) +
      (if p (t.tagAt i) = true then 1 else 0) = t.tally p := by
  induction h with
  | @stop t i hbefore =>
      have := tally_write hi .empty (default : κ) (default : ν) p
      simp only [hp, Bool.false_eq_true, if_false] at this
      simpa [wiped] using this
  | @more t t' i n hbefore hrest ih =>
      have hb : t.before i < (t.wiped i .empty).capacity := by
        rw [capacity_wiped]
        exact before_lt hc
      have h₁ := tally_write hi .empty (default : κ) (default : ν) p
      have h₂ := ih hb (by rwa [capacity_wiped])
      rw [hbefore] at h₂
      simp only [hp, Bool.false_eq_true, if_false, ← wiped.eq_def] at h₁
      cases hpt : p .tombstone with
      | true =>
          simp only [hpt, if_true] at h₂ ⊢
          omega
      | false =>
          simp only [hpt, Bool.false_eq_true, if_false] at h₂ ⊢
          omega

end Vacated

theorem tombstones_lt_capacity (hi : i < t.capacity) :
    (t.wiped i .empty).tally isTombstone < t.capacity := by
  have hsub : (t.wiped i .empty).slots isTombstone ⊂ Finset.range t.capacity := by
    refine Finset.ssubset_iff_subset_ne.mpr ⟨?_, ?_⟩
    · intro j hj
      have := (mem_slots.mp hj).1
      rw [capacity_wiped] at this
      exact Finset.mem_range.mpr this
    · intro heq
      have hmem := heq ▸ Finset.mem_range.mpr hi
      have htag := (mem_slots.mp hmem).2
      rw [wiped, tagAt_write_self hi] at htag
      cases htag
  have := Finset.card_lt_card hsub
  rwa [Finset.card_range] at this

namespace Deleted

theorem counters (h : Deleted t i t') : t'.count = t.count - 1 ∧ t'.age = t.age + 1 ∧
    t'.floor = t.floor ∧ t'.maxProbe = t.maxProbe := by
  cases h with
  | buried => exact ⟨rfl, rfl, rfl, rfl⟩
  | vacated _ hu =>
      obtain ⟨hcount, -, hage, hfloor, hreach⟩ := hu.counters
      exact ⟨by simp only [hcount], by simp only [hage], hfloor, hreach⟩

theorem capacity_eq (h : Deleted t i t') : t'.capacity = t.capacity := by
  cases h with
  | buried => exact capacity_wiped _ _ _
  | vacated _ hu => exact hu.capacity_eq

theorem fitted (h : Deleted t i t') (ht : t.Fitted) : t'.Fitted := by
  cases h with
  | buried => exact (ht.write i .tombstone default default).of_sameSlots ⟨rfl, rfl, rfl⟩
  | vacated _ hu => exact (hu.fitted ht).of_sameSlots ⟨rfl, rfl, rfl⟩

theorem holds_iff (h : Deleted t i t') (hi : i < t.capacity) (hc : IsCapacity t.capacity)
    {k : κ} {v : ν} : t'.Holds j k v ↔ j ≠ i ∧ t.Holds j k v := by
  cases h with
  | buried =>
      rw [← holds_wiped hi Tag.isFilled_tombstone]
      exact SameSlots.holds_iff ⟨rfl, rfl, rfl⟩
  | @vacated u n _ hu =>
      rw [← hu.holds_iff hi hc]
      exact SameSlots.holds_iff ⟨rfl, rfl, rfl⟩

theorem tally_isFilled (h : Deleted t i t') (hi : i < t.capacity) (hc : IsCapacity t.capacity)
    (hf : (t.tagAt i).isFilled = true) :
    t'.tally Tag.isFilled + 1 = t.tally Tag.isFilled := by
  cases h with
  | buried =>
      have hs : (t.wiped i .tombstone).SameSlots { t.wiped i .tombstone with
        dead := t.dead + 1, count := t.count - 1, age := t.age + 1 } := ⟨rfl, rfl, rfl⟩
      have htally := tally_write hi .tombstone (default : κ) (default : ν) Tag.isFilled
      simp only [hf, Tag.isFilled_tombstone, if_true, if_false, Bool.false_eq_true] at htally
      rw [hs.tally_eq, wiped]
      omega
  | @vacated u n _ hu =>
      have hs : u.SameSlots { u with
        dead := u.dead - n, count := u.count - 1, age := u.age + 1 } := ⟨rfl, rfl, rfl⟩
      have htally := hu.tally_eq hi hc (p := Tag.isFilled) rfl
      simp only [hf, Tag.isFilled_tombstone, if_true, if_false, Bool.false_eq_true] at htally
      rw [hs.tally_eq]
      omega

theorem count_eq (h : Deleted t i t') (hi : i < t.capacity) (hc : IsCapacity t.capacity)
    (hf : (t.tagAt i).isFilled = true) (hcount : t.count = t.tally Tag.isFilled) :
    t'.count = t'.tally Tag.isFilled := by
  have := h.counters.1
  have := h.tally_isFilled hi hc hf
  omega

theorem dead_eq (h : Deleted t i t') (hi : i < t.capacity) (hc : IsCapacity t.capacity)
    (hf : (t.tagAt i).isFilled = true) (hdead : t.dead = t.tally isTombstone) :
    t'.dead = t'.tally isTombstone := by
  have hne : t.tagAt i ≠ .tombstone := by
    intro he
    rw [he] at hf
    cases hf
  cases h with
  | buried =>
      have hs : (t.wiped i .tombstone).SameSlots { t.wiped i .tombstone with
        dead := t.dead + 1, count := t.count - 1, age := t.age + 1 } := ⟨rfl, rfl, rfl⟩
      rw [hs.tally_eq, tally_isTombstone_wiped hi hf]
      exact congrArg (· + 1) hdead
  | @vacated u n _ hu =>
      have hs : u.SameSlots { u with
        dead := u.dead - n, count := u.count - 1, age := u.age + 1 } := ⟨rfl, rfl, rfl⟩
      have htally := hu.tally_eq hi hc (p := isTombstone) rfl
      simp only [hne, isTombstone_iff, if_true, if_false] at htally
      obtain ⟨-, hdead', -, -, -⟩ := hu.counters
      rw [hs.tally_eq]
      simp only [hdead']
      omega

theorem wellFormed (h : Deleted t i t') (ht : t.WellFormed rules same)
    (hf : (t.tagAt i).isFilled = true) : t'.WellFormed rules same := by
  have hi := lt_of_isFilled hf
  have hc := ht.isCapacity hi
  refine ⟨?_, h.count_eq hi hc hf ht.count_eq, h.dead_eq hi hc hf ht.dead_eq⟩
  cases h with
  | buried =>
      have hs : (t.wiped i .tombstone).SameSlots { t.wiped i .tombstone with
        dead := t.dead + 1, count := t.count - 1, age := t.age + 1 } := ⟨rfl, rfl, rfl⟩
      exact (ht.toArranged.bury hi).congr hs (fun _ _ hle => hle) (Int.le_refl _)
  | @vacated u n hnext hu =>
      have hs : u.SameSlots { u with
        dead := u.dead - n, count := u.count - 1, age := u.age + 1 } := ⟨rfl, rfl, rfl⟩
      exact (hu.arranged ht.toArranged hi hnext).congr hs (fun _ _ hle => hle) (Int.le_refl _)

theorem sound (h : Deleted t i t') (ht : t.Sound rules same)
    (hf : (t.tagAt i).isFilled = true) : t'.Sound rules same := by
  obtain ⟨-, -, hfloor, hreach⟩ := h.counters
  refine ⟨h.wellFormed ht.toWellFormed hf, ?_, ?_⟩
  · rw [hreach]
    exact ht.maxProbe_nonneg
  · rw [hfloor]
    exact ht.floor_nonneg

theorem has_iff (h : Deleted t i t') (ht : t.Sound rules same) {k : κ} {v : ν}
    (hk : t.Holds i k v) (l : κ) (w : ν) : t'.Has l w ↔ t.Has l w ∧ ¬same.r k l := by
  have hc := ht.isCapacity hk.lt
  constructor
  · intro h'
    obtain ⟨j, hj⟩ := h'
    obtain ⟨hne, hj⟩ := (h.holds_iff hk.lt hc).mp hj
    exact ⟨⟨j, hj⟩, fun hs => hne (ht.distinct hk hj hs).symm⟩
  · intro h'
    obtain ⟨⟨j, hj⟩, hs⟩ := h'
    refine ⟨j, (h.holds_iff hk.lt hc).mpr ⟨?_, hj⟩⟩
    intro heq
    subst heq
    obtain ⟨rfl, -⟩ := hk.unique hj
    exact hs (same.refl k)

theorem settled (h : Deleted t i t') (ht : t.Sound rules same) (hi : i < t.capacity) :
    Settled t t' where
  capacity_eq := h.capacity_eq
  holds hk := ⟨_, ((h.holds_iff hi (ht.isCapacity hi)).mp hk).2⟩

end Deleted

def Removed (same : Setoid κ) (t : Table κ ν) (key : κ) (t' : Table κ ν) :
    Option (κ × ν) → Prop
  | some e => ∃ i, t.Holds i e.1 e.2 ∧ same.r key e.1 ∧ Deleted t i t'
  | none => t.Lacks same key ∧ t' = t

theorem Removed.settled {key : κ} {e : Option (κ × ν)} (h : t.Removed same key t' e)
    (ht : t.Sound rules same) : Settled t t' := by
  cases e with
  | none => exact settled_of_eq h.2
  | some e =>
      obtain ⟨i, hi, -, hdel⟩ := h
      exact hdel.settled ht hi.lt

theorem Removed.found {key : κ} {e : Option (κ × ν)} (h : t.Removed same key t' e) :
    t.Found same key e := by
  cases e with
  | none => exact h.1
  | some e =>
      obtain ⟨i, hi, hs, -⟩ := h
      exact ⟨⟨i, hi⟩, hs⟩

end Table

namespace Op

open Table

variable {s : Journal κ ν} {i : Nat}

theorem outcome_wipe {post : Unit → Journal κ ν → Prop} {lost : Fault κ ε → Journal κ ν → Prop}
    {tag : Tag} (hk : s.table.keys.size = s.table.capacity)
    (hv : s.table.vals.size = s.table.capacity) (hi : i < s.table.capacity) :
    (wipe i tag : Op κ ν ε Unit).Outcome s post lost ↔
      post () ⟨s.table.wiped i tag, s.events⟩ := by
  rw [wipe, outcome_bind, outcome_putTag hi, outcome_bind, outcome_putKey (by rwa [hk]),
    outcome_putVal (by rwa [hv])]
  rfl

/-- The steps suffice because each of them, except the first, uses up a tombstone. -/
theorem collapse_outcome (h : s.table.Fitted) (steps emptied : Nat) (hi : i < s.table.capacity)
    (hsteps : (s.table.wiped i .empty).tally isTombstone < steps) :
    (collapse steps i emptied : Op κ ν ε Nat).Outcome s
      (fun n s' => ∃ m, n = emptied + m ∧ Vacated s.table i m s'.table) (fun _ _ => False) := by
  induction steps generalizing s i emptied with
  | zero => omega
  | succ steps ih =>
      have hc := h.isCapacity (Nat.zero_lt_of_lt hi)
      have hw : (s.table.wiped i .empty).Fitted := h.write _ _ _ _
      have hb : s.table.before i < (s.table.wiped i .empty).capacity := by
        rw [capacity_wiped]
        exact before_lt hc
      rw [collapse, outcome_bind, outcome_wipe h.keys_size h.vals_size hi, outcome_bind,
        outcome_query_total, outcome_bind, outcome_query_total, capacity_wiped]
      by_cases hbefore : (s.table.wiped i .empty).tagAt (s.table.before i) = .tombstone
      · have hless := tally_write hb .empty (default : κ) (default : ν) isTombstone
        rw [hbefore] at hless
        change _ + 1 = _ + 0 at hless
        refine (if_pos (α := Op κ ν ε Nat) hbefore).symm ▸ ?_
        refine (ih (s := ⟨s.table.wiped i .empty, s.events⟩) hw (emptied + 1) hb ?_).imp ?_
          (fun _ _ hl => hl)
        · change ((s.table.wiped i .empty).write (s.table.before i) _ _ _).tally _ < _
          omega
        · intro n s' hpost
          obtain ⟨m, rfl, hs'⟩ := hpost
          exact ⟨m + 1, by omega, .more hbefore hs'⟩
      · refine (if_neg (α := Op κ ν ε Nat) hbefore).symm ▸ ?_
        exact ⟨0, rfl, .stop hbefore⟩

theorem deleteAt_outcome (h : s.table.Fitted) (hf : (s.table.tagAt i).isFilled = true) :
    (deleteAt i : Op κ ν ε Unit).Outcome s (fun _ s' => Deleted s.table i s'.table)
      (fun _ _ => False) := by
  have hi := lt_of_isFilled hf
  rw [deleteAt, outcome_bind, outcome_query_ok (tag_natCast hi), if_pos hf, outcome_bind,
    outcome_query_total]
  by_cases hnext : s.table.tagAt (s.table.after i) = .empty
  · have hsteps := tombstones_lt_capacity hi
    refine (if_pos (α := Op κ ν ε Unit) hnext).symm ▸ ?_
    rw [outcome_bind, outcome_query_total]
    refine (collapse_outcome h _ 0 hi hsteps).bind ?_ (fun _ _ hl => hl)
    intro n s' hpost
    obtain ⟨m, hm, hs'⟩ := hpost
    obtain rfl : n = m := by omega
    by_cases hn : n > 0
    · rw [if_pos hn]
      exact .vacated hnext hs'
    · rw [if_neg hn]
      exact .vacated hnext hs'
  · refine (if_neg (α := Op κ ν ε Unit) hnext).symm ▸ ?_
    rw [outcome_bind, outcome_wipe h.keys_size h.vals_size hi]
    exact .buried hnext

theorem deleteAt_outcome_of_not_filled (hf : (s.table.tagAt i).isFilled = false) :
    (deleteAt i : Op κ ν ε Unit).Outcome s (fun _ _ => False) (fun _ s' => s' = s) := by
  rw [deleteAt, outcome_bind, outcome_query]
  by_cases hi : i < s.table.capacity
  · rw [tag_natCast hi, gives_ok, if_neg (by simp [hf])]
    rfl
  · rw [Table.tag, cell, cell?_natCast, if_neg hi]
    rfl

theorem delete_outcome (hr : rules.Respects same) (h : s.table.Sound rules same) (key : κ) :
    (delete rules key).Outcome s
      (fun deleted s' => ∃ e : Option (κ × ν),
        s.table.Removed same key s'.table e ∧ deleted = e.isSome)
      (fun fault s' => rules.Refuses fault ∧ s'.table = s.table) := by
  rw [delete, outcome_bind, outcome_query]
  refine (h.toWellFormed.find?_found hr key).imp ?_ (fun _ href => ⟨href, rfl⟩)
  intro found hfound
  cases found with
  | none => exact ⟨none, ⟨hfound, rfl⟩, rfl⟩
  | some i =>
      obtain ⟨k, v, hk, hs⟩ := hfound
      refine (deleteAt_outcome h.fitted hk.filled).bind ?_ (fun _ _ hl => hl.elim)
      intro _ s' hs'
      exact ⟨some (k, v), ⟨i, hk, hs, hs'⟩, rfl⟩

theorem pop?_outcome (hr : rules.Respects same) (h : s.table.Sound rules same) (key : κ) :
    (pop? rules key).Outcome s
      (fun value s' => ∃ e, s.table.Removed same key s'.table e ∧ value = e.map (·.2))
      (fun fault s' => rules.Refuses fault ∧ s'.table = s.table) := by
  rw [pop?, outcome_bind, outcome_query]
  refine (h.toWellFormed.find?_found hr key).imp ?_ (fun _ href => ⟨href, rfl⟩)
  intro found hfound
  cases found with
  | none => exact ⟨none, ⟨hfound, rfl⟩, rfl⟩
  | some i =>
      obtain ⟨k, v, hk, hs⟩ := hfound
      rw [outcome_bind, outcome_query_ok (val_eq hk.val)]
      refine (deleteAt_outcome h.fitted hk.filled).bind ?_ (fun _ _ hl => hl.elim)
      intro _ s' hs'
      exact ⟨some (k, v), ⟨i, hk, hs, hs'⟩, rfl⟩

end Op

end OpenAddressing
