import OpenAddressing.Proofs.Outcome
import OpenAddressing.Proofs.Lookup
import OpenAddressing.Table.Rehash

/-!
# A rehash keeps the entries

The storage that a rehash fills is well-formed at every moment, and after the slots below `n`
of the old storage it has their entries and no others. There is always an empty slot left,
since the new capacity exceeds the number of entries.
-/

namespace OpenAddressing

variable {κ ν ε : Type} {rules : Rules κ ε} {same : Setoid κ}

namespace Table

variable {t old fresh : Table κ ν}

theorem vacancy?_spec (hc : IsCapacity t.capacity) (start : Int) (window d : Nat)
    (hpath : ∀ e < d, t.tagAt (along t.capacity start e) ≠ .empty) :
    match t.vacancy? window (along t.capacity start d) with
    | some j => ∃ e < d + window, along t.capacity start e = j ∧ t.tagAt j = .empty ∧
        ∀ x < e, t.tagAt (along t.capacity start x) ≠ .empty
    | none => ∀ e < d + window, t.tagAt (along t.capacity start e) ≠ .empty := by
  induction window generalizing d with
  | zero => exact hpath
  | succ window ih =>
      rw [vacancy?]
      by_cases hempty : t.tagAt (along t.capacity start d) = .empty
      · rw [if_pos hempty]
        exact ⟨d, by omega, rfl, hempty, hpath⟩
      · have hnext : t.after (along t.capacity start d) = along t.capacity start (d + 1) :=
          hc.next_along start d
        have hrest := ih (d + 1) (fun e he => by
          by_cases hlast : e = d
          · rwa [hlast]
          · exact hpath e (by omega))
        rw [if_neg hempty, hnext]
        rwa [Nat.add_right_comm] at hrest

/-- Storage with fewer entries than slots, and no tombstones, has an empty slot on each path. -/
theorem exists_vacancy (hc : IsCapacity t.capacity)
    (htags : ∀ i, t.tagAt i = .empty ∨ (t.tagAt i).isFilled = true)
    (hroom : t.tally Tag.isFilled < t.capacity) (start : Int) :
    ∃ j d, t.vacancy? t.capacity (mask t.capacity start) = some j ∧ d < t.capacity ∧
      along t.capacity start d = j ∧ t.tagAt j = .empty ∧
      ∀ e < d, t.tagAt (along t.capacity start e) ≠ .empty := by
  have h := vacancy?_spec hc start t.capacity 0 (by omega)
  rw [along_zero, Nat.zero_add] at h
  cases hj : t.vacancy? t.capacity (mask t.capacity start) with
  | none =>
      rw [hj] at h
      have hfull := le_tally_of_along (p := Tag.isFilled) hc (Nat.le_refl _) fun d hd =>
        (htags _).resolve_left (h d hd)
      omega
  | some j =>
      rw [hj] at h
      obtain ⟨d, hd, halong, hempty, hpath⟩ := h
      exact ⟨j, d, rfl, hd, halong, hempty, hpath⟩

def Attained (rules : Rules κ ε) (t : Table κ ν) : Prop :=
  ∃ i k v hash, ∃ d : Nat, t.Holds i k v ∧ rules.hash k = .ok hash ∧
    along t.capacity hash d = i ∧ d = t.maxProbe

variable [Inhabited κ] [Inhabited ν]

/-- What the new storage is like after the slots below `n` of the old one. -/
private structure Refilled (rules : Rules κ ε) (same : Setoid κ) (old fresh : Table κ ν)
    (n : Nat) : Prop extends fresh.Sound rules same where
  floor_eq : fresh.floor = 0
  maxProbe_lt : fresh.maxProbe < fresh.capacity
  dead_zero : fresh.dead = 0
  count_below : fresh.count = old.tallyBelow Tag.isFilled n
  has_iff (k : κ) (v : ν) : fresh.Has k v ↔ ∃ i < n, old.Holds i k v
  tidy : fresh.Tidy
  attained : 0 < fresh.maxProbe → fresh.Attained rules

private theorem refilled_blank {size : Nat} (h : IsCapacity size) {n : Nat}
    (hnone : ∀ i < n, (old.tagAt i).isFilled = false) :
    Refilled rules same old (blank size) n where
  toSound := sound_blank (Or.inr h)
  floor_eq := rfl
  maxProbe_lt := by
    rw [capacity_blank]
    exact Int.natCast_pos.mpr h.pos
  dead_zero := rfl
  count_below := by
    have hzero : old.tallyBelow Tag.isFilled n = 0 := by
      rw [tallyBelow, Finset.card_eq_zero, Finset.filter_eq_empty_iff]
      intro i hi
      simp [hnone i (Finset.mem_range.mp hi)]
    rw [hzero]
    rfl
  has_iff k v := by
    constructor
    · intro h'
      obtain ⟨i, hi⟩ := h'
      exact absurd hi (not_holds_blank size)
    · intro h'
      obtain ⟨i, hi, hk⟩ := h'
      have := hk.filled
      rw [hnone i hi] at this
      cases this
  tidy i hi _ := by
    rw [capacity_blank] at hi
    simp [blank, hi]
  attained hpos := absurd hpos (Int.lt_irrefl 0)

private theorem Refilled.attained_occupy {n : Nat} (h : Refilled rules same old fresh n) {k : κ}
    (v : ν) {hash : Int} {j d : Nat} (hv : fresh.Vacant rules same k hash j d)
    (hpos : 0 < (fresh.occupy j d (.fingerprint hash) k v).maxProbe) :
    (fresh.occupy j d (.fingerprint hash) k v).Attained rules := by
  have hj := hv.index_lt h.toArranged
  have hs : (fresh.write j (.fingerprint hash) k v).SameSlots
      (fresh.occupy j d (.fingerprint hash) k v) := ⟨rfl, rfl, rfl⟩
  have hcap : (fresh.occupy j d (.fingerprint hash) k v).capacity = fresh.capacity := by
    rw [hs.capacity_eq, capacity_write]
  simp only [Table.occupy] at hpos
  by_cases hfar : fresh.maxProbe < d
  · refine ⟨j, k, v, hash, d, ?_, hv.hash_eq, by rw [hcap]; exact hv.along_eq, ?_⟩
    · apply hs.holds_iff.mpr
      exact (holds_write_self h.keys_size h.vals_size hj (Tag.isFilled_fingerprint hash)).mpr
        ⟨rfl, rfl⟩
    · simp only [Table.occupy]
      omega
  · obtain ⟨i, l, w, hash', e, hl, hh, halong, he⟩ := h.attained (by omega)
    refine ⟨i, l, w, hash', e, ?_, hh, by rw [hcap]; exact halong, ?_⟩
    · apply hs.holds_iff.mpr
      refine (holds_write_of_ne hj _ _ _ ?_).mpr hl
      intro hij
      rw [hij] at hl
      exact not_holds_of_free hv.free hl
    · simp only [Table.occupy]
      omega

private theorem Refilled.occupy {n : Nat} (h : Refilled rules same old fresh n) {k : κ} {v : ν}
    (hn : old.Holds n k v) {hash : Int} {j d : Nat} (hv : fresh.Vacant rules same k hash j d)
    (hempty : fresh.tagAt j = .empty) :
    Refilled rules same old (fresh.occupy j d (.fingerprint hash) k v) (n + 1) := by
  have hj := hv.index_lt h.toArranged
  have hs : (fresh.write j (.fingerprint hash) k v).SameSlots
      (fresh.occupy j d (.fingerprint hash) k v) := ⟨rfl, rfl, rfl⟩
  have hwf : (fresh.occupy j d (.fingerprint hash) k v).WellFormed rules same := by
    refine h.toWellFormed.place hv hs rfl ?_ (Int.le_refl _) ?_ (Int.le_max_left _ _)
      (Int.le_max_right _ _)
    · simp [hempty, Table.occupy, Tag.empty, Tag.tombstone]
    · have := h.floor_eq
      simp only [Table.occupy]
      omega
  refine ⟨⟨hwf, ?_, h.floor_nonneg⟩, h.floor_eq, ?_, h.dead_zero, ?_, ?_, ?_,
    h.attained_occupy v hv⟩
  · have := h.maxProbe_nonneg
    simp only [Table.occupy]
    omega
  · have hold := h.maxProbe_lt
    have hnew := hv.lt
    rw [hs.capacity_eq, capacity_write]
    simp only [Table.occupy]
    omega
  · have := h.count_below
    rw [tallyBelow_succ, if_pos hn.filled]
    simp only [Table.occupy]
    omega
  · intro l w
    rw [hv.has_iff h.toArranged hs, h.has_iff]
    constructor
    · intro h'
      rcases h' with ⟨i, hi, hl⟩ | ⟨rfl, rfl⟩
      · exact ⟨i, by omega, hl⟩
      · exact ⟨n, by omega, hn⟩
    · intro h'
      obtain ⟨i, hi, hl⟩ := h'
      by_cases hlast : i = n
      · subst hlast
        obtain ⟨rfl, rfl⟩ := hn.unique hl
        exact Or.inr ⟨rfl, rfl⟩
      · exact Or.inl ⟨i, by omega, hl⟩
  · exact hs.tidy (h.tidy.write h.keys_size h.vals_size hj (by simp))

private theorem Refilled.not_tombstone {n : Nat} (h : Refilled rules same old fresh n) (j : Nat) :
    fresh.tagAt j = .empty ∨ (fresh.tagAt j).isFilled = true := by
  rcases h.tags j with he | ht | hf
  · exact Or.inl he
  · have hj : j < fresh.capacity := lt_of_tagAt_ne (by rw [ht]; decide)
    have hpos := tally_pos (p := isTombstone) hj (isTombstone_iff.mpr ht)
    have h₁ := h.dead_eq
    have h₂ := h.dead_zero
    omega
  · exact Or.inr hf

private theorem Refilled.lacks {n : Nat} (h : Refilled rules same old fresh n)
    (hold : old.Arranged rules same) {k : κ} {v : ν} (hk : old.Holds n k v) :
    fresh.Lacks same k := by
  intro m l w hm hs
  obtain ⟨i, hi, hl⟩ := (h.has_iff l w).mp ⟨m, hm⟩
  have := hold.distinct hk hl hs
  omega

private theorem Refilled.step_filled {i : Nat} (h : Refilled rules same old fresh i)
    (hold : old.Arranged rules same) (hi : i < old.capacity)
    (hroom : old.tally Tag.isFilled < fresh.capacity) (hf : (old.tagAt i).isFilled = true) :
    ∃ fresh', (∀ n, old.refill rules (n + 1) i fresh = old.refill rules n (i + 1) fresh') ∧
      Refilled rules same old fresh' (i + 1) ∧ fresh'.capacity = fresh.capacity := by
  obtain ⟨k, v, hk⟩ := hold.exists_holds hf
  obtain ⟨hash, _, hp⟩ := hold.placed hk
  have hc := h.isCapacity (i := 0) (by omega)
  have hcount : fresh.tally Tag.isFilled < fresh.capacity := by
    have h₁ := h.count_eq
    have h₂ := h.count_below
    have h₃ := tallyBelow_le (t := old) (p := Tag.isFilled) (n := i) (by omega)
    omega
  obtain ⟨j, d, hvac, hd, halong, hempty, hpath⟩ :=
    exists_vacancy hc h.not_tombstone hcount hash
  have hv : fresh.Vacant rules same k hash j d :=
    ⟨hp.hash_eq, hd, halong, hpath, by rw [hempty]; rfl, h.lacks hold hk⟩
  have hprobe : mask fresh.capacity (j - mask fresh.capacity hash) = d := by
    rw [← hc.along_mask] at halong
    rw [← halong]
    exact hc.mask_sub_along _ hd
  refine ⟨_, fun n => ?_, h.occupy hk hv hempty, capacity_write fresh j _ k v⟩
  rw [refill, if_pos hf, key_eq hk.key]
  simp only [bind, Except.bind, Rules.hashOf_ok hp.hash_eq, hvac, val_eq hk.val, hprobe, hp.tag_eq]

private theorem Refilled.step_not_filled {i : Nat} (h : Refilled rules same old fresh i)
    (hf : (old.tagAt i).isFilled = false) : Refilled rules same old fresh (i + 1) := by
  refine ⟨h.toSound, h.floor_eq, h.maxProbe_lt, h.dead_zero, ?_, ?_, h.tidy, h.attained⟩
  · rw [tallyBelow_succ, if_neg (by simp [hf]), h.count_below]
    rfl
  · intro k v
    rw [h.has_iff]
    constructor
    · intro h'
      obtain ⟨m, hm, hk⟩ := h'
      exact ⟨m, by omega, hk⟩
    · intro h'
      obtain ⟨m, hm, hk⟩ := h'
      have hne : m ≠ i := by
        intro heq
        subst heq
        have := hk.filled
        rw [hf] at this
        cases this
      exact ⟨m, by omega, hk⟩

private theorem Refilled.walk (hold : old.Arranged rules same) (n i : Nat)
    (h : Refilled rules same old fresh i) (hn : i + n ≤ old.capacity)
    (hroom : old.tally Tag.isFilled < fresh.capacity) :
    ∃ fresh', old.refill rules n i fresh = .ok fresh' ∧
      Refilled rules same old fresh' (i + n) ∧ fresh'.capacity = fresh.capacity := by
  induction n generalizing i fresh with
  | zero => exact ⟨fresh, rfl, h, rfl⟩
  | succ n ih =>
      rw [← Nat.add_assoc, Nat.add_right_comm]
      -- An entry takes up a slot of the new storage, which has more slots than there are entries.
      cases hf : (old.tagAt i).isFilled with
      | true =>
          obtain ⟨next, heq, hnext, hcap⟩ := h.step_filled hold (by omega) hroom hf
          obtain ⟨fresh', heq', hfresh, hcap'⟩ := ih (i + 1) hnext (by omega) (by omega)
          exact ⟨fresh', by rw [heq, heq'], hfresh, by rw [hcap', hcap]⟩
      | false =>
          obtain ⟨fresh', heq, hfresh, hcap⟩ := ih (i + 1) (h.step_not_filled hf) (by omega) hroom
          exact ⟨fresh', by rw [refill, if_neg (by simp [hf]), heq], hfresh, hcap⟩

/-- After any number of slots there is an empty slot left on each path, since the storage has
more slots than there are entries. -/
theorem Arranged.refill_leaves_room (hold : old.Arranged rules same) {size : Nat}
    (hc : IsCapacity size) (hroom : old.tally Tag.isFilled < size) {n : Nat}
    (hn : n ≤ old.capacity) :
    ∃ fresh, old.refill rules n 0 (blank size) = .ok fresh ∧ fresh.count < fresh.capacity ∧
      ∀ start : Int, ∃ j, fresh.vacancy? fresh.capacity (mask fresh.capacity start) = some j := by
  have hblank : Refilled rules same old (blank size) 0 := refilled_blank hc (by omega)
  obtain ⟨fresh, heq, hfresh, hcap⟩ := hblank.walk hold n 0 (by omega) (by rwa [capacity_blank])
  rw [capacity_blank] at hcap
  have hle := tallyBelow_le (t := old) (p := Tag.isFilled) (n := 0 + n) (by omega)
  have hbelow := hfresh.count_below
  have hcount := hfresh.count_eq
  refine ⟨fresh, heq, by omega, fun start => ?_⟩
  obtain ⟨j, -, hj, -⟩ := exists_vacancy (hcap ▸ hc) hfresh.not_tombstone (by omega) start
  exact ⟨j, hj⟩

def renewed (t : Table κ ν) : Table κ ν := { t with age := t.age + 1, floor := 0 }

omit [Inhabited κ] [Inhabited ν] in
theorem sameSlots_renewed (t : Table κ ν) : t.SameSlots t.renewed := ⟨rfl, rfl, rfl⟩

omit [Inhabited κ] [Inhabited ν] in
theorem Sound.renewed (h : t.Sound rules same) : t.renewed.Sound rules same where
  toWellFormed :=
    h.toWellFormed.congr t.sameSlots_renewed rfl rfl (fun i _ _ => Int.natCast_nonneg i)
    (Int.le_refl _)
  maxProbe_nonneg := h.maxProbe_nonneg
  floor_nonneg := Int.le_refl 0

structure Rehashed (rules : Rules κ ε) (same : Setoid κ) (t : Table κ ν) (size : Int)
    (t' : Table κ ν) : Prop extends t'.Sound rules same where
  capacity_eq : t'.capacity = t.rehashCapacity size
  count_same : t'.count = t.count
  dead_zero : t'.dead = 0
  floor_eq : t'.floor = 0
  maxProbe_lt : t'.maxProbe < t'.capacity
  age_eq : t'.age = t.age + 1
  has_iff (k : κ) (v : ν) : t'.Has k v ↔ t.Has k v
  tidy : t'.Tidy
  attained : 0 < t'.maxProbe → t'.Attained rules

private theorem Refilled.rehashed {size : Int} (h : Refilled rules same old fresh old.capacity)
    (hs : t.SameSlots old) (hcap : fresh.capacity = t.rehashCapacity size)
    (hcount : fresh.count = t.count) :
    t.Rehashed rules same size { fresh with age := t.age + 1 } := by
  have hs' : fresh.SameSlots { fresh with age := t.age + 1 } := ⟨rfl, rfl, rfl⟩
  refine ⟨⟨h.toWellFormed.congr hs' rfl rfl (fun _ _ hle => hle) (Int.le_refl _),
    h.maxProbe_nonneg, h.floor_nonneg⟩, hcap, hcount, h.dead_zero, h.floor_eq, h.maxProbe_lt,
    rfl, ?_, hs'.tidy h.tidy, ?_⟩
  · intro k v
    rw [hs'.has_iff, h.has_iff, ← hs.has_iff]
    exact ⟨fun ⟨i, _, hi⟩ => ⟨i, hi⟩, fun ⟨i, hi⟩ => ⟨i, hi.lt, hi⟩⟩
  · intro hpos
    obtain ⟨i, k, v, hash, d, hk, hrest⟩ := h.attained hpos
    exact ⟨i, k, v, hash, d, hs'.holds_iff.mpr hk, hrest⟩

section Capacity

omit [Inhabited κ] [Inhabited ν]

theorem isCapacity_rehashCapacity (t : Table κ ν) (size : Int) :
    IsCapacity (t.rehashCapacity size) := isCapacity_capacityFor _

theorem le_rehashCapacity (t : Table κ ν) (size : Int) : size ≤ t.rehashCapacity size := by
  have := le_capacityFor (max size (t.count * 3 / 2 + 1))
  rw [← rehashCapacity] at this
  omega

theorem count_lt_rehashCapacity (t : Table κ ν) (size : Int) :
    t.count * 3 < t.rehashCapacity size * 2 := by
  have := le_capacityFor (max size (t.count * 3 / 2 + 1))
  rw [← rehashCapacity] at this
  omega

end Capacity

end Table

namespace Op

open Table

variable [Inhabited κ] [Inhabited ν] {s : Journal κ ν}

/-- What a rehash leaves that is complete: blank storage if there was no entry, and otherwise
storage that was filled with as many entries as there were. -/
inductive Renewal (rules : Rules κ ε) (s : Journal κ ν) (capacity : Nat) : Journal κ ν → Prop where
  | renewed (hzero : s.table.count = 0) :
      Renewal rules s capacity ⟨{ (blank capacity : Table κ ν) with age := s.table.age + 1 },
        s.events.push (.renewed s.table.capacity capacity)⟩
  | rehashed {fresh : Table κ ν} (hzero : s.table.count ≠ 0)
      (hrefill : s.table.renewed.refill rules s.table.capacity 0 (blank capacity) = .ok fresh)
      (hcount : fresh.count = s.table.count) :
      Renewal rules s capacity ⟨{ fresh with age := s.table.age + 1 },
        s.events.push (.rehashed s.table.capacity capacity fresh.count fresh.maxProbe)⟩

/-- Whatever the rules and the table: the new storage takes the place of the old one only when
it is complete. -/
theorem rehash_cases (rules : Rules κ ε) (s : Journal κ ν) (size : Int) :
    (rehash rules size).Outcome s
      (fun _ s' => Renewal rules s (s.table.rehashCapacity size) s')
      (fun _ s' => s' = ⟨s.table.renewed, s.events⟩) := by
  rw [rehash, outcome_bind, outcome_query_ok rfl, outcome_bind, renewAge, outcome_edit,
    outcome_bind, outcome_query]
  cases rules.demandRoom (s.table.rehashCapacity size) with
  | error fault => rfl
  | ok =>
      rw [gives_ok]
      by_cases hzero : s.table.count = 0
      · rw [if_pos hzero, outcome_bind, outcome_edit, outcome_report]
        exact .renewed hzero
      · rw [if_neg hzero, outcome_bind, outcome_query]
        change Gives (s.table.renewed.refill rules s.table.capacity 0 _) _ _
        cases hrefill : s.table.renewed.refill rules s.table.capacity 0
            (blank (s.table.rehashCapacity size)) with
        | error fault => rfl
        | ok fresh =>
            rw [gives_ok]
            by_cases hcount : fresh.count = s.table.count
            · rw [if_pos hcount, outcome_bind, outcome_edit, outcome_report]
              exact .rehashed hzero hrefill hcount
            · rw [if_neg hcount]
              rfl

theorem rehash_outcome_of_room (h : s.table.WellFormed rules same) {size : Int}
    (hroom : rules.demandRoom (s.table.rehashCapacity size) = .ok ()) :
    (rehash rules size).Outcome s (fun _ s' => s.table.Rehashed rules same size s'.table)
      (fun _ _ => False) := by
  have hcap := isCapacity_rehashCapacity s.table size
  have hload := count_lt_rehashCapacity s.table size
  have hcount := h.count_eq
  have hs := sameSlots_renewed s.table
  rw [rehash, outcome_bind, outcome_query_ok rfl, outcome_bind, renewAge, outcome_edit,
    outcome_bind, outcome_query_ok hroom]
  by_cases hzero : s.table.count = 0
  · rw [if_pos hzero, outcome_bind, outcome_edit, outcome_report]
    have hnone : ∀ i < s.table.renewed.capacity,
        (s.table.renewed.tagAt i).isFilled = false := fun i hi =>
      tally_eq_zero (p := Tag.isFilled) (by rw [hs.tally_eq]; omega) hi
    have hblank : Refilled rules same s.table.renewed (blank (s.table.rehashCapacity size))
        s.table.renewed.capacity := refilled_blank hcap hnone
    exact hblank.rehashed hs (capacity_blank _) hzero.symm
  · have hold : s.table.renewed.Arranged rules same :=
      h.toArranged.congr hs (fun i _ _ => Int.natCast_nonneg i) (Int.le_refl _)
    have hblank : Refilled rules same s.table.renewed
        (blank (s.table.rehashCapacity size)) 0 := refilled_blank hcap (by omega)
    obtain ⟨fresh, heq, hfresh, hcap'⟩ := hblank.walk hold s.table.renewed.capacity 0
      (by omega) (by
        rw [capacity_blank, hs.tally_eq]
        omega)
    rw [capacity_blank] at hcap'
    rw [Nat.zero_add] at hfresh
    have hall : fresh.count = s.table.count := by
      rw [hfresh.count_below, tallyBelow_capacity, hs.tally_eq, hcount]
    rw [if_neg hzero, outcome_bind, outcome_query_ok heq, if_pos hall, outcome_bind,
      outcome_edit, outcome_report]
    exact hfresh.rehashed hs hcap' hall

theorem rehash_of_no_room {size : Int} {fault : Fault κ ε}
    (hroom : rules.demandRoom (s.table.rehashCapacity size) = .error fault) :
    rehash rules size s = .error fault ⟨s.table.renewed, s.events⟩ := by
  simp only [rehash, renewAge, bind_run, query_run, edit_run, hroom]
  rfl

theorem rehash_outcome (h : s.table.WellFormed rules same) (size : Int) :
    (rehash rules size).Outcome s (fun _ s' => s.table.Rehashed rules same size s'.table)
      (fun fault s' => rules.demandRoom (s.table.rehashCapacity size) = .error fault ∧
        s'.table = s.table.renewed) := by
  cases hroom : rules.demandRoom (s.table.rehashCapacity size) with
  | ok => exact (rehash_outcome_of_room h hroom).imp (fun _ _ hs' => hs') fun _ _ hl => hl.elim
  | error fault =>
      rw [Outcome, rehash_of_no_room hroom]
      exact ⟨rfl, rfl⟩

end Op

end OpenAddressing
