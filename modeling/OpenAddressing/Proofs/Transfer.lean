import Mathlib.Order.Bounds.Basic
import OpenAddressing.Proofs.Search

/-!
# Rehashes carry all entries over

A rehash copies the tags instead of computing them again, so that of each entry the tag, the key
and the value come into the new storage as they were. Lookups go no further there than the entry
that lies farthest from the first slot of its key.
-/

namespace OpenAddressing

variable {κ ν ε : Type} {rules : Rules κ ε} {same : Setoid κ}

namespace Table

variable {t t' : Table κ ν} {i : Nat} {size : Int}

def recordAt? (t : Table κ ν) (i : Nat) : Option (Tag × κ × ν) :=
  (t.entryAt? i).map fun entry => (t.tagAt i, entry)

def records (t : Table κ ν) : Multiset (Tag × κ × ν) :=
  ((List.range t.capacity).filterMap t.recordAt? : List (Tag × κ × ν))

/-- How far entries lie from the first slots of their keys. -/
def strays (rules : Rules κ ε) (t : Table κ ν) : Set Int :=
  {d | ∃ i k v hash, t.Holds i k v ∧ rules.hash k = .ok hash ∧ t.distance hash i = d}

/-- What becomes of a table by a rehash to `size` slots. -/
structure Transferred (rules : Rules κ ε) (t : Table κ ν) (size : Int) (t' : Table κ ν) : Prop where
  capacity_eq : t'.capacity = capacityFor (max size (t.count * 3 / 2 + 1))
  load_lt : t'.count * 3 < t'.capacity * 2
  records_eq : t'.records = t.records
  not_tombstone : ∀ i, t'.tagAt i ≠ .tombstone
  dead_eq : t'.dead = 0
  floor_eq : t'.floor = 0
  count_eq : t'.count = t.count
  age_eq : t'.age = t.age + 1
  maxProbe_eq : t'.strays rules = ∅ ∧ t'.maxProbe = 0 ∨ IsGreatest (t'.strays rules) t'.maxProbe
  find?_iff : ∀ key, t.find? rules key = .ok none ∧ t'.find? rules key = .ok none ∨
    ∃ i j k v, t.find? rules key = .ok (some i) ∧ t'.find? rules key = .ok (some j) ∧
      t.Holds i k v ∧ t'.Holds j k v

theorem Arranged.records_eq (h : t.Arranged rules same) :
    t.records = (t.entries : Multiset (κ × ν)).map
      fun entry => (.fingerprint ((rules.hash entry.1).toOption.getD 0), entry) := by
  rw [records, entries, entriesFrom, Nat.sub_zero, ← List.range_eq_range', Multiset.map_coe,
    List.map_filterMap]
  congr 1
  apply List.filterMap_congr
  intro i _
  rw [recordAt?]
  cases hentry : t.entryAt? i with
  | none => rfl
  | some entry =>
      obtain ⟨hash, d, hp⟩ := h.placed (entryAt?_eq_some.mp hentry)
      simp [hp.hash_eq, hp.tag_eq, Except.toOption]

theorem Placed.distance_eq {k : κ} {hash : Int} {d : Nat} (hp : t.Placed rules i k hash d)
    (hc : IsCapacity t.capacity) : t.distance hash i = d := by
  rw [← hp.along_eq, distance_along hc hash hp.lt]

theorem Arranged.stray_le (h : t.Arranged rules same) {d : Int} (hd : d ∈ t.strays rules) :
    d ≤ t.maxProbe := by
  obtain ⟨i, k, v, hash, hk, hh, rfl⟩ := hd
  obtain ⟨hash', e, hp⟩ := h.placed hk
  obtain rfl := Except.ok.inj (hp.hash_eq.symm.trans hh)
  rw [hp.distance_eq (h.isCapacity hk.lt)]
  exact hp.le_maxProbe

variable [Inhabited κ] [Inhabited ν]

namespace Rehashed

theorem not_tombstone (h : t.Rehashed rules same size t') : t'.tagAt i ≠ .tombstone := by
  intro htomb
  have hi : i < t'.capacity := lt_of_tagAt_ne (by rw [htomb]; decide)
  have hpos := tally_pos (p := isTombstone) hi (isTombstone_iff.mpr htomb)
  have hdead := h.dead_eq
  rw [h.dead_zero] at hdead
  omega

theorem records_eq (h : t.Rehashed rules same size t') (ht : t.Arranged rules same) :
    t'.records = t.records := by
  rw [h.toArranged.records_eq, ht.records_eq, entries_eq_of_has ht h.toArranged h.has_iff]

theorem maxProbe_eq (h : t.Rehashed rules same size t') :
    t'.strays rules = ∅ ∧ t'.maxProbe = 0 ∨ IsGreatest (t'.strays rules) t'.maxProbe := by
  have hbound : t'.maxProbe ∈ upperBounds (t'.strays rules) := fun d hd => h.toArranged.stray_le hd
  have hnonneg := h.maxProbe_nonneg
  by_cases hpos : 0 < t'.maxProbe
  · obtain ⟨i, k, v, hash, d, hk, hh, halong, hd⟩ := h.attained hpos
    have hlt := h.maxProbe_lt
    refine Or.inr ⟨⟨i, k, v, hash, hk, hh, ?_⟩, hbound⟩
    rw [← halong, distance_along (h.isCapacity hk.lt) hash (by omega), hd]
  · have hzero : t'.maxProbe = 0 := by omega
    rcases Set.eq_empty_or_nonempty (t'.strays rules) with hempty | ⟨d, hd⟩
    · exact Or.inl ⟨hempty, hzero⟩
    · have hle := h.toArranged.stray_le hd
      obtain ⟨i, k, v, hash, hk, hh, rfl⟩ := hd
      have hge := distance_nonneg hash hk.lt
      refine Or.inr ⟨⟨i, k, v, hash, hk, hh, ?_⟩, hbound⟩
      omega

theorem find?_iff (h : t.Rehashed rules same size t') (hr : rules.Lawful same)
    (ht : t.WellFormed rules same) (key : κ) :
    t.find? rules key = .ok none ∧ t'.find? rules key = .ok none ∨
      ∃ i j k v, t.find? rules key = .ok (some i) ∧ t'.find? rules key = .ok (some j) ∧
        t.Holds i k v ∧ t'.Holds j k v := by
  by_cases hlacks : t.Lacks same key
  · have hlacks' : t'.Lacks same key := by
      intro j k v hk
      obtain ⟨i, hi⟩ := (h.has_iff k v).mp ⟨j, hk⟩
      exact hlacks hi
    exact Or.inl ⟨(ht.find?_eq_none_iff hr).mpr hlacks,
      (h.toWellFormed.find?_eq_none_iff hr).mpr hlacks'⟩
  · obtain ⟨i, k, v, hk, hs⟩ : ∃ i k v, t.Holds i k v ∧ same.r key k := by
      simpa [Lacks] using hlacks
    obtain ⟨j, hj⟩ := (h.has_iff k v).mpr ⟨i, hk⟩
    exact Or.inr ⟨i, j, k, v, (ht.find?_eq_some_iff hr).mpr ⟨k, v, hk, hs⟩,
      (h.toWellFormed.find?_eq_some_iff hr).mpr ⟨k, v, hj, hs⟩, hk, hj⟩

theorem transferred (h : t.Rehashed rules same size t') (hr : rules.Lawful same)
    (ht : t.WellFormed rules same) : Transferred rules t size t' where
  capacity_eq := h.capacity_eq
  load_lt := by
    rw [h.count_same, h.capacity_eq]
    exact count_lt_rehashCapacity t size
  records_eq := h.records_eq ht.toArranged
  not_tombstone i := h.not_tombstone
  dead_eq := h.dead_zero
  floor_eq := h.floor_eq
  count_eq := h.count_same
  age_eq := h.age_eq
  maxProbe_eq := h.maxProbe_eq
  find?_iff := h.find?_iff hr ht

end Rehashed

end Table

namespace Op

open Table

variable [Inhabited κ] [Inhabited ν] {s : Journal κ ν}

/-- In a table that an audit accepts, a rehash to any number of slots, negative or huge, carries
all entries over where there is memory for the new slots, and there it never stops. Where there is
none, it stops for that reason only. -/
theorem rehash_transfers (hr : rules.Lawful same) (h : s.table.audit rules = .ok ()) (size : Int) :
    (rules.demandRoom (capacityFor (max size (s.table.count * 3 / 2 + 1))) = .ok () →
      ∃ s', rehash rules size s = .ok () s' ∧ s.table.Transferred rules size s'.table) ∧
    ∀ fault, rules.demandRoom (capacityFor (max size (s.table.count * 3 / 2 + 1))) = .error fault →
      (fault = .noMemory ∨ fault = .wideLength) ∧ ∃ s', rehash rules size s = .error fault s' := by
  have ht := (audit_eq_ok_iff hr).mp h
  constructor
  · intro hroom
    obtain ⟨_, s', hrun, hs'⟩ := (rehash_outcome_of_room ht hroom).exists_ok fun _ _ hl => hl
    exact ⟨s', hrun, hs'.transferred hr ht⟩
  · intro fault hroom
    exact ⟨Rules.demandRoom_error hroom, _, rehash_of_no_room hroom⟩

/-- Three keys begin at one slot and one of them is gone. The entries get the slots they need also
where less than none are asked for, and there is no memory for a thousand slots. -/
theorem rehash_transfers_digits :
    let rules : Rules Nat Empty := .through (· % 100) (fun n => (n % 2 : Nat)) 64000 (some 64)
    let s := reached (ν := Nat) rules 0 [.map (.set 3 30), .map (.set 5 50), .map (.set 7 70),
      .map (.delete 105)]
    rules.Lawful (Setoid.ker (· % 100)) ∧ s.table.audit rules = .ok () ∧ s.table.dead = 1 ∧
      (∃ s', rehash rules (-7) s = .ok () s' ∧ s.table.Transferred rules (-7) s'.table) ∧
      ∃ s', rehash rules 1000 s = .error .noMemory s' := by
  intro rules s
  have hr : rules.Lawful (Setoid.ker (· % 100)) := Rules.lawful_through _ _ _ _
  have haudit : s.table.audit rules = .ok () :=
    (audit_eq_ok_iff hr).mpr (sound_reached hr 0 _).toWellFormed
  have hcount : s.table.count = 2 := by decide +kernel
  refine ⟨hr, haudit, by decide +kernel, ?_, ?_⟩
  · exact (rehash_transfers hr haudit (-7)).1 (by rw [hcount]; rfl)
  · exact ((rehash_transfers hr haudit 1000).2 .noMemory (by rw [hcount]; rfl)).2

/-- Memory for the new slots may be wanting, also for a table without entries. -/
theorem rehash_can_lack_memory :
    let rules : Rules Nat Empty := .through (· % 100) (fun n => n) 64000 (some 0x10000000)
    let s : Journal Nat Nat := ⟨Table.new 0, #[]⟩
    rules.Lawful (Setoid.ker (· % 100)) ∧ s.table.audit rules = .ok () ∧
      (∃ s', rehash rules 2251799813685248 s = .error .noMemory s') ∧
      ¬∃ s', rehash rules 2251799813685248 s = .ok () s' := by
  intro rules s
  have hr : rules.Lawful (Setoid.ker (· % 100)) := Rules.lawful_through _ _ _ _
  have hcap : s.table.rehashCapacity 2251799813685248 = 2251799813685248 := by decide +kernel
  have hroom : rules.demandRoom (s.table.rehashCapacity 2251799813685248) = .error .noMemory := by
    rw [hcap]
    rfl
  have hrun := rehash_of_no_room hroom
  refine ⟨hr, (audit_eq_ok_iff hr).mpr (sound_new 0).toWellFormed, ⟨_, hrun⟩, ?_⟩
  rw [hrun]
  rintro ⟨s', hs'⟩
  cases hs'

end Op

end OpenAddressing
