import OpenAddressing.Proofs.Load

/-!
# What a failure leaves

A hash or a comparison can be refused in the middle of a request. Places are searched before
anything is written, and a rehash fills storage of its own, so a refusal finds the entries as
they were. The one trace that it can leave is a table grown for want of a place.
-/

namespace OpenAddressing

variable {κ ν ε : Type} {rules : Rules κ ε} {same : Setoid κ}

def MapRequest.key? : MapRequest κ ν ε → Option κ
  | .set key _ | .get key _ | .getKey key _ | .lookup key | .contains key | .delete key
  | .remove key | .pop key _ => some key
  | _ => none

namespace Table

variable {t t' : Table κ ν} {key : κ}

theorem entries_eq_of_has (h : t.Arranged rules same) (h' : t'.Arranged rules same)
    (hhas : ∀ k v, t'.Has k v ↔ t.Has k v) :
    (t'.entries : Multiset (κ × ν)) = t.entries := by
  apply Multiset.coe_eq_coe.mpr
  apply (List.perm_ext_iff_of_nodup h'.nodup_entries h.nodup_entries).mpr
  intro entry
  rw [mem_entries, mem_entries]
  exact hhas entry.1 entry.2

variable [Inhabited κ] [Inhabited ν]

/-- The table had no place for the key within the probe limit, and has grown. -/
def Enlarged (rules : Rules κ ε) (same : Setoid κ) (key : κ) (t t' : Table κ ν) : Prop :=
  ∃ hash u, rules.hash key = .ok hash ∧ 0 < t.capacity ∧ t.Lacks same key ∧
    t.Crowded hash t.searchWidth ∧ t.Rehashed rules same (t.capacity * 2) u ∧
    Grown rules same key hash u t'

theorem Enlarged.grown (h : Enlarged rules same key t t') :
    ∃ hash, rules.hash key = .ok hash ∧ t.Crowded hash t.searchWidth ∧
      Grown rules same key hash t t' := by
  obtain ⟨hash, u, hh, hpos, hlacks, hcrowd, hu, hgrown⟩ := h
  exact ⟨hash, hh, hcrowd, .double hpos hlacks hcrowd hu hgrown⟩

theorem Enlarged.capacity_le (h : Enlarged rules same key t t') :
    t.capacity * 2 ≤ t'.capacity := by
  obtain ⟨hash, u, -, -, -, -, hu, hgrown⟩ := h
  have hsize := le_rehashCapacity t (t.capacity * 2)
  rw [← hu.capacity_eq] at hsize
  have hwide := hgrown.widens.capacity_le
  omega

theorem AssignLost.enlarged {fault : Fault κ ε} (h : AssignLost rules same key fault t t')
    (hroom : ¬rules.LacksRoom fault) : t' = t ∨ Enlarged rules same key t t' := by
  cases h with
  | plan hlost =>
      cases hlost with
      | refused => exact Or.inl rfl
      | doubled _ hh hpos hlacks hcrowd hu hw =>
          exact Or.inr ⟨_, _, hh, hpos, hlacks, hcrowd, hu, hw⟩
      | cramped _ hlacks => exact absurd ⟨_, hlacks⟩ hroom
  | load hload => exact absurd ⟨_, hload.2⟩ hroom

end Table

open Table Op

variable [Inhabited κ] [Inhabited ν] {s : Journal κ ν}

theorem Op.rehash_frame (rules : Rules κ ε) (s : Journal κ ν) (size : Int) :
    (rehash rules size).Outcome s (fun _ _ => True)
      (fun _ s' => s'.table = { s.table with age := s.table.age + 1, floor := 0 }) :=
  (rehash_cases rules s size).imp (fun _ _ _ => trivial) fun _ _ hs' => by rw [hs']; rfl

theorem MapRequest.perform_lost (hr : rules.Respects same) (h : s.table.Sound rules same)
    {request : MapRequest κ ν ε} {key : κ} (hkey : request.key? = some key) :
    (request.perform rules).Outcome s (fun _ _ => True)
      (fun fault s' => s'.table = s.table ∨ (∃ value, request = .set key value) ∧
        (¬rules.LacksRoom fault → Enlarged rules same key s.table s'.table)) := by
  have hquery {α : Type} (f : Table κ ν → Except (Fault κ ε) α) (answer : α → MapAnswer κ ν) :
      (do return answer (← query f) : Op κ ν ε (MapAnswer κ ν)).Outcome s (fun _ _ => True)
        (fun fault s' => s'.table = s.table ∨ (∃ value, request = .set key value) ∧
          (¬rules.LacksRoom fault → Enlarged rules same key s.table s'.table)) :=
    (query_frame f answer).imp (fun _ _ _ => trivial) fun _ _ hs' => Or.inl (by rw [hs'])
  cases request with
  | set key value =>
      cases hkey
      refine (set_outcome hr h key value).bind (fun _ _ _ => trivial) ?_
      intro fault s' hlost
      by_cases heq : s'.table = s.table
      · exact Or.inl heq
      · exact Or.inr ⟨⟨value, rfl⟩, fun hroom => (hlost.enlarged hroom).resolve_left heq⟩
  | get key default => exact hquery _ _
  | getKey key default => exact hquery _ _
  | lookup key => exact hquery _ _
  | contains key => exact hquery _ _
  | delete key =>
      exact (delete_outcome hr h key).bind (fun _ _ _ => trivial) fun _ _ hl => Or.inl hl.2
  | remove key =>
      exact (remove_outcome hr h key).bind (fun _ _ _ => trivial) fun _ _ hl => Or.inl hl.2
  | pop key default =>
      cases default with
      | none => exact (pop_outcome hr h key).bind (fun _ _ _ => trivial) fun _ _ hl => Or.inl hl.2
      | some default =>
          exact (pop?_outcome hr h key).bind (fun _ _ _ => trivial) fun _ _ hl => Or.inl hl.2
  | _ => cases hkey

/-- Where a request about a key fails in a reachable table, and not for want of memory, the
entries and their number are as before and the storage is in order. The table itself is as
before, unless a key was to be set that had no place within the probe limit, so that the table
had grown. A search changes nothing at all, and a rehash that fails, with any rules and in any
table, changes only age and floor. -/
theorem failures_spare_entries (hr : rules.Respects same) (hint : Int)
    (requests : List (TableRequest κ ν ε)) :
    let s := reached rules hint requests
    (∀ (request : MapRequest κ ν ε) (key : κ) (fault : Fault κ ε), request.key? = some key →
      (request.onTable rules s).1 = .error fault → ¬rules.LacksRoom fault →
      let t' := (request.onTable rules s).2.table
      (t'.entries : Multiset (κ × ν)) = s.table.entries ∧ t'.count = s.table.count ∧
      t'.Sound rules same ∧
      (t' = s.table ∨ (∃ value, request = .set key value) ∧
        ∃ hash, rules.hash key = .ok hash ∧ s.table.Crowded hash s.table.searchWidth ∧
          s.table.capacity * 2 ≤ t'.capacity)) ∧
    (∀ key, ((query fun t => t.find? rules key : Op κ ν ε (Option Nat)).carry s).2 = s) ∧
    ∀ (others : Rules κ ε) (s : Journal κ ν) (size : Int) (fault : Fault κ ε),
      ((Op.rehash others size).carry s).1 = .error fault →
      ((Op.rehash others size).carry s).2.table =
        { s.table with age := s.table.age + 1, floor := 0 } := by
  intro s
  have hs : s.table.Sound rules same := sound_reached_of_respects hr hint requests
  refine ⟨fun request key fault hkey herror hroom => ?_, fun key => ?_, ?_⟩
  · intro t'
    have hlost : t' = s.table ∨ (∃ value, request = .set key value) ∧
        (¬rules.LacksRoom fault → Enlarged rules same key s.table t') :=
      (request.perform_lost hr hs hkey).of_carry_error herror
    rcases hlost with heq | ⟨hset, hgrowth⟩
    · rw [heq]
      exact ⟨rfl, rfl, hs, Or.inl rfl⟩
    · obtain ⟨hash, hh, hcrowd, hgrown⟩ := (hgrowth hroom).grown
      have hs' := hgrown.sound hs
      exact ⟨entries_eq_of_has hs.toArranged hs'.toArranged hgrown.has_iff, hgrown.count_eq, hs',
        Or.inr ⟨hset, hash, hh, hcrowd, (hgrowth hroom).capacity_le⟩⟩
  · rw [carry, query_run]
    cases s.table.find? rules key with
    | ok found => rfl
    | error fault => rfl
  · intro others s size fault herror
    exact (rehash_frame others s size).of_carry_error herror

private theorem exists_error_of_toBool {ε α : Type} {result : Except ε α}
    (h : result.toBool = false) : ∃ fault, result = .error fault := by
  cases result with
  | ok a => cases h
  | error fault => exact ⟨fault, rfl⟩

/-- Sixteen keys fill the path of key 17, so that the table has to grow. After that, key 16 lies
on that path too, with which key 17 cannot be compared. -/
theorem failures_spare_entries_digits :
    let rules : Rules Nat Unit :=
      { hash := fun n => .ok (if n = 16 then 43 else 28)
        equal := fun a b => if a = 17 ∧ b = 16 then .error () else .ok (a == b)
        largeCount := 64000
        slotLimit := none }
    let s := reached rules 32 ((List.range 17).map fun n => .map (.set n (10 * n)))
    let result := (MapRequest.set 17 170).onTable rules s
    rules.Respects (Setoid.ker id) ∧ s.table.capacity = 32 ∧ result.2.table.capacity = 64 ∧
      ∃ fault, result.1 = .error fault ∧
        (result.2.table.entries : Multiset (Nat × Nat)) = s.table.entries := by
  suffices hr : Rules.Respects _ (Setoid.ker id) by
    refine ⟨hr, by decide +kernel, by decide +kernel, ?_⟩
    refine (exists_error_of_toBool ?_).imp fun fault herror => ⟨herror,
      ((failures_spare_entries hr 32 _).1 _ 17 fault rfl herror (Rules.not_lacksRoom rfl)).1⟩
    decide +kernel
  refine ⟨fun {a b r} h => ?_, fun {a b g h} hs hg hh => ?_⟩
  · dsimp only at h
    split at h
    · cases h
    · cases h
      exact beq_iff_eq
  · obtain rfl : a = b := hs
    rw [hg] at hh
    exact Except.ok.inj hh

end OpenAddressing
