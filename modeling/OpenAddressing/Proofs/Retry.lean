import Mathlib.Algebra.Group.Nat.Defs
import OpenAddressing.Proofs.Growth

/-!
# The growth for want of a place ends

Planning an insertion rehashes to twice the capacity and starts again as long as the search for
a place meets nothing but entries. Such a search has met as many entries as the probe limit, and
the probe limit follows the capacity, so the number of entries bounds the number of turns. The
number of turns that planning is given in advance therefore never decides, and neither does the
number of slots that a rehash looks at for an empty one.
-/

namespace OpenAddressing

variable {κ ν ε : Type} [Inhabited κ] [Inhabited ν] {rules : Rules κ ε} {same : Setoid κ}
variable {key : κ} {hash : Int} {s u w : Journal κ ν}

/-- A turn of planning that is given up: the search for a place is exhausted, and the table is
rehashed to twice its capacity. -/
structure Retry (rules : Rules κ ε) (key : κ) (hash : Int) (s u : Journal κ ν) : Prop where
  pos : 0 < s.table.capacity
  exhausted : s.table.probe rules key hash = .ok .exhausted
  announced : rules.announceKey key s.table.capacity = .ok ()
  rehash : Op.rehash rules (s.table.capacity * 2)
    { s with events := s.events.push (.probeLimit key s.table.capacity) } = .ok () u

inductive Retries (rules : Rules κ ε) (key : κ) (hash : Int) :
    Nat → Journal κ ν → Journal κ ν → Prop where
  | zero (s : Journal κ ν) : Retries rules key hash 0 s s
  | succ {n : Nat} {s u w : Journal κ ν} (h : Retry rules key hash s u)
      (hrest : Retries rules key hash n u w) : Retries rules key hash (n + 1) s w

/-- What the search for a place relies on. The floor may be anything. -/
structure Searchable (rules : Rules κ ε) (same : Setoid κ) (t : Table κ ν) : Prop
    extends t.WellFormed rules same where
  maxProbe_nonneg : 0 ≤ t.maxProbe

namespace Retry

theorem crowded (h : Retry rules key hash s u) (hr : rules.Lawful same)
    (hs : Searchable rules same s.table) (hh : rules.hash key = .ok hash) :
    s.table.Crowded hash s.table.searchWidth := by
  have hprobed := hs.probe_spec hr.toRespects hs.maxProbe_nonneg h.pos hh
  rw [h.exhausted, gives_ok] at hprobed
  exact hprobed.2

theorem rehashed (h : Retry rules key hash s u) (hs : Searchable rules same s.table) :
    s.table.Rehashed rules same (s.table.capacity * 2) u.table := by
  let reported : Journal κ ν :=
    { s with events := s.events.push (.probeLimit key s.table.capacity) }
  have houtcome : (Op.rehash rules (s.table.capacity * 2)).Outcome reported
      (fun _ s' => s.table.Rehashed rules same (s.table.capacity * 2) s'.table)
      (fun fault s' => rules.demandRoom (s.table.rehashCapacity (s.table.capacity * 2)) =
        .error fault ∧ s'.table = s.table.renewed) :=
    Op.rehash_outcome (s := reported) hs.toWellFormed _
  unfold Op.Outcome at houtcome
  rw [h.rehash] at houtcome
  exact houtcome

theorem searchable (h : Retry rules key hash s u) (hs : Searchable rules same s.table) :
    Searchable rules same u.table :=
  ⟨(h.rehashed hs).toWellFormed, (h.rehashed hs).maxProbe_nonneg⟩

theorem capacity_eq (h : Retry rules key hash s u) (hs : Searchable rules same s.table) :
    u.table.capacity = 2 * s.table.capacity := by
  rw [(h.rehashed hs).capacity_eq, hs.rehashCapacity_double h.pos, Nat.mul_comm]

theorem probeLimit_le_count (h : Retry rules key hash s u) (hr : rules.Lawful same)
    (hs : Searchable rules same s.table) (hh : rules.hash key = .ok hash) :
    (probeLimit s.table.capacity : Int) ≤ s.table.count :=
  (h.crowded hr hs hh).probeLimit_le_count hs.toWellFormed h.pos

theorem capacity_le (h : Retry rules key hash s u) (hr : rules.Lawful same)
    (hs : Searchable rules same s.table) (hh : rules.hash key = .ok hash) :
    (u.table.capacity : Int) ≤ 128 * s.table.count + 126 := by
  have hlimit := h.probeLimit_le_count hr hs hh
  have hcap := h.capacity_eq hs
  rw [probeLimit, Nat.shiftRight_eq_div_pow] at hlimit
  omega

theorem planWithin_eq (h : Retry rules key hash s u) (retries : Nat) :
    Op.planWithin rules key hash (retries + 1) s = Op.planWithin rules key hash retries u := by
  rw [Op.planWithin_run h.pos, h.exhausted]
  dsimp only
  rw [h.announced]
  dsimp only
  rw [Op.bind_run, h.rehash]

end Retry

namespace Retries

theorem searchable {n : Nat} (h : Retries rules key hash n s u)
    (hs : Searchable rules same s.table) : Searchable rules same u.table := by
  induction h with
  | zero => exact hs
  | succ hfirst _ ih => exact ih (hfirst.searchable hs)

theorem count_eq {n : Nat} (h : Retries rules key hash n s u)
    (hs : Searchable rules same s.table) : u.table.count = s.table.count := by
  induction h with
  | zero => rfl
  | succ hfirst _ ih => rw [ih (hfirst.searchable hs), (hfirst.rehashed hs).count_same]

theorem capacity_eq {n : Nat} (h : Retries rules key hash n s u)
    (hs : Searchable rules same s.table) : u.table.capacity = 2 ^ n * s.table.capacity := by
  induction h with
  | zero => rw [Nat.pow_zero, Nat.one_mul]
  | succ hfirst _ ih =>
      rw [ih (hfirst.searchable hs), hfirst.capacity_eq hs, ← Nat.mul_assoc, Nat.pow_succ]

theorem capacity_le {n : Nat} (h : Retries rules key hash n s u) (hr : rules.Lawful same)
    (hs : Searchable rules same s.table) (hh : rules.hash key = .ok hash) (hn : 0 < n) :
    (u.table.capacity : Int) ≤ 128 * s.table.count + 126 := by
  induction h with
  | zero => omega
  | @succ n s u w hfirst hrest ih =>
      cases hrest with
      | zero => exact hfirst.capacity_le hr hs hh
      | succ hnext hlater =>
          rw [← (hfirst.rehashed hs).count_same]
          exact ih (hfirst.searchable hs) (by omega)

theorem lt_allowance {n : Nat} (h : Retries rules key hash n s u) (hr : rules.Lawful same)
    (hs : Searchable rules same s.table) (hh : rules.hash key = .ok hash) :
    n < 64 * s.table.count.toNat + 64 := by
  cases h with
  | zero => omega
  | @succ n _ _ _ hfirst hrest =>
      have hchain := Retries.succ hfirst hrest
      have hcap := hchain.capacity_eq hs
      have hbound := hchain.capacity_le hr hs hh (by omega)
      have hle : 2 ^ (n + 1) ≤ u.table.capacity := by
        rw [hcap]
        exact Nat.le_mul_of_pos_right _ hfirst.pos
      have hlt : n + 1 < 2 ^ (n + 1) := Nat.lt_two_pow_self
      have hsixteen := (hs.isCapacity hfirst.pos).sixteen_le
      have hwide : 2 ^ (n + 1) * 16 ≤ u.table.capacity := by
        rw [hcap]
        exact Nat.mul_le_mul_left _ hsixteen
      omega

theorem planWithin_eq {n : Nat} (h : Retries rules key hash n s u) (retries : Nat) :
    Op.planWithin rules key hash (n + retries) s = Op.planWithin rules key hash retries u := by
  induction h with
  | zero => rw [Nat.zero_add]
  | @succ n _ _ _ hfirst _ ih =>
      rw [show n + 1 + retries = (n + retries) + 1 by omega, hfirst.planWithin_eq, ih]

end Retries

/-- A turn that is not given up does not depend on how many turns are left. -/
theorem planWithin_stable (h : ∀ u, ¬Retry rules key hash s u) (m n : Nat) :
    Op.planWithin rules key hash (m + 1) s = Op.planWithin rules key hash (n + 1) s := by
  by_cases hpos : 0 < s.table.capacity
  · rw [Op.planWithin_run hpos, Op.planWithin_run hpos]
    cases hprobe : s.table.probe rules key hash with
    | error fault => rfl
    | ok probed =>
        cases probed with
        | found i => rfl
        | vacant i reach => rfl
        | exhausted =>
            dsimp only
            cases hannounced : rules.announceKey key s.table.capacity with
            | error fault => rfl
            | ok =>
            dsimp only
            rw [Op.bind_run, Op.bind_run]
            cases hrehash : Op.rehash rules (s.table.capacity * 2)
                { s with events := s.events.push (.probeLimit key s.table.capacity) } with
            | error fault u => rfl
            | ok a u => exact absurd ⟨hpos, hprobe, hannounced, hrehash⟩ (h u)
  · have hzero : s.table.capacity = 0 := by omega
    rw [Op.planWithin, Op.planWithin, Op.bind_run, Op.bind_run, Op.query_run]
    dsimp only
    rw [if_pos hzero, if_pos hzero]

/-- There is a last turn: each one doubles the capacity, which the number of entries bounds. -/
theorem exists_last_retry (hr : rules.Lawful same) (hh : rules.hash key = .ok hash) (room : Nat)
    (hs : Searchable rules same s.table)
    (hroom : 128 * s.table.count + 126 < s.table.capacity + room) :
    ∃ n u, Retries rules key hash n s u ∧ ∀ w, ¬Retry rules key hash u w := by
  -- The room is how far the capacity is from its bound, and each retry takes some of it.
  induction room generalizing s with
  | zero =>
      refine ⟨0, s, .zero s, fun w h => ?_⟩
      have hle := h.capacity_le hr hs hh
      have hcap := h.capacity_eq hs
      omega
  | succ room ih =>
      by_cases hnext : ∃ u, Retry rules key hash s u
      · obtain ⟨u, h⟩ := hnext
        have hcount := (h.rehashed hs).count_same
        have hcap := h.capacity_eq hs
        have hpos := h.pos
        obtain ⟨n, w, hchain, hlast⟩ := ih (h.searchable hs) (by omega)
        exact ⟨n + 1, w, .succ h hchain, hlast⟩
      · exact ⟨0, s, .zero s, fun u h => hnext ⟨u, h⟩⟩

theorem plan_capacity_le (hr : rules.Lawful same) (hs : Searchable rules same s.table) (key : κ) :
    (Op.plan rules key).Outcome s
      (fun _ s' => (s'.table.capacity : Int) ≤
        max (max (s.table.capacity : Int) 16) (128 * s.table.count + 126))
      (fun fault s' => rules.slotLimit ≠ none ∧ rules.LacksRoom fault ∧
        (s'.table.capacity : Int) ≤
          max (max (s.table.capacity : Int) 16) (128 * s.table.count + 126)) := by
  have hgrown {hash : Int} {t : Table κ ν} (h : Table.Grown rules same key hash s.table t) :
      (t.capacity : Int) ≤ max (max (s.table.capacity : Int) 16) (128 * s.table.count + 126) := by
    have hle := (h.grows hs.toWellFormed).capacity_le
    have hcount := h.count_eq
    omega
  refine (Op.plan_outcome_of_wellFormed hr.toRespects hs.toWellFormed hs.maxProbe_nonneg key).imp
    ?_ ?_
  · intro plan s' hplan
    obtain ⟨hash, -, hplanned⟩ := hplan
    generalize s'.table = t' at hplanned
    cases hplanned with
    | found => omega
    | vacant h =>
        have hle := hgrown h
        exact hle
  · intro fault s' hlost
    have hroom := hr.excuses hlost.excuses
    refine ⟨fun hnone => Rules.not_lacksRoom hnone hroom, hroom, ?_⟩
    obtain ⟨hash, t, h, heq⟩ := hlost.exists_grown
    have hcap : s'.table.capacity = t.capacity := by rcases heq with heq | heq <;> rw [heq]; rfl
    have hle := hgrown h
    omega

/-- Planning an insertion comes to an end in every table that an audit accepts, whatever its hashes
are. A turn is given up only if the whole search has met entries, so many as the probe limit, and
then the capacity doubles exactly. There is a last turn, after fewer turns than planning is given
in advance, so that any greater number of turns gives the same plan; the capacity stays within a
multiple of the number of entries. Each rehash on the way comes to an end as well: at any moment
the new storage has an empty slot on every path. -/
theorem planning_ends (hr : rules.Lawful same) (h : s.table.audit rules = .ok ())
    (hmax : 0 ≤ s.table.maxProbe) (hh : rules.hash key = .ok hash) :
    (∀ n u w, Retries rules key hash n s u → Retry rules key hash u w →
      (∀ d < max (u.table.maxProbe + 1).toNat (max 16 (u.table.capacity >>> 6)),
        (u.table.tagAt (along u.table.capacity hash d)).isFilled = true) ∧
      (max 16 (u.table.capacity >>> 6) : Nat) ≤ u.table.count ∧
      w.table.capacity = 2 * u.table.capacity ∧ w.table.count = s.table.count) ∧
    (∃ n u, Retries rules key hash n s u ∧ (∀ w, ¬Retry rules key hash u w) ∧
      u.table.capacity = 2 ^ n * s.table.capacity ∧
      ∀ m, n < m → Op.planWithin rules key hash m s = Op.plan rules key s) ∧
    (Op.plan rules key).Outcome s
      (fun _ s' => (s'.table.capacity : Int) ≤
        max (max (s.table.capacity : Int) 16) (128 * s.table.count + 126))
      (fun fault s' => rules.slotLimit ≠ none ∧ rules.LacksRoom fault ∧
        (s'.table.capacity : Int) ≤
          max (max (s.table.capacity : Int) 16) (128 * s.table.count + 126)) ∧
    ∀ n u, Retries rules key hash n s u → ∀ (size : Int),
      u.table.count < u.table.rehashCapacity size ∧
      ∀ m ≤ u.table.capacity, ∃ fresh,
        u.table.renewed.refill rules m 0 (.blank (u.table.rehashCapacity size)) = .ok fresh ∧
        fresh.count < fresh.capacity ∧
        ∀ start : Int, ∃ j, fresh.vacancy? fresh.capacity (mask fresh.capacity start) = some j := by
  have hs : Searchable rules same s.table := ⟨(Table.audit_eq_ok_iff hr).mp h, hmax⟩
  have hnonneg := hs.count_le_capacity.1
  refine ⟨?_, ?_, plan_capacity_le hr hs key, ?_⟩
  · intro n u w hchain hretry
    have hu := hchain.searchable hs
    refine ⟨hretry.crowded hr hu hh, hretry.probeLimit_le_count hr hu hh, hretry.capacity_eq hu, ?_⟩
    rw [(hretry.rehashed hu).count_same, hchain.count_eq hs]
  · obtain ⟨n, u, hchain, hlast⟩ := exists_last_retry hr hh
      (128 * s.table.count + 127).toNat hs (by omega)
    refine ⟨n, u, hchain, hlast, hchain.capacity_eq hs, fun m hm => ?_⟩
    have hlt := hchain.lt_allowance hr hs hh
    have hleft : m = n + ((m - n - 1) + 1) := by omega
    have hgiven : 64 * s.table.count.toNat + 64 =
        n + ((64 * s.table.count.toNat + 64 - n - 1) + 1) := by omega
    rw [Op.plan_run hh, hleft, hgiven, hchain.planWithin_eq, hchain.planWithin_eq]
    exact planWithin_stable hlast _ _
  · intro n u hchain size
    have hu := hchain.searchable hs
    have hload := Table.count_lt_rehashCapacity u.table size
    have hcount := hu.count_eq
    have hslots := u.table.sameSlots_renewed
    have hold : u.table.renewed.Arranged rules same :=
      hu.toArranged.congr hslots (fun i _ _ => Int.natCast_nonneg i) (Int.le_refl _)
    refine ⟨by omega, fun m hm => ?_⟩
    refine hold.refill_leaves_room (Table.isCapacity_rehashCapacity _ _) ?_ hm
    rw [hslots.tally_eq]
    omega

/-- Sixteen keys share a first slot among thirty-two, so the search for a place for a seventeenth
one is exhausted. Among sixty-four slots they are two groups of eight, and the search succeeds. -/
theorem planning_ends_digits :
    let rules : Rules Nat Empty := .through (· % 100) (fun n => 32 * (n : Int)) 64000 none
    let s := reached (ν := Nat) rules 0 ((List.range 16).map fun n => .map (.set n n))
    rules.Lawful (Setoid.ker (· % 100)) ∧ s.table.audit rules = .ok () ∧ s.table.maxProbe = 15 ∧
      s.table.capacity = 32 ∧ ((Op.plan rules 16).carry s).2.table.capacity = 64 ∧
      ∃ n u, Retries rules 16 512 n s u ∧ (∀ w, ¬Retry rules 16 512 u w) ∧
        u.table.capacity = 2 ^ n * s.table.capacity ∧
        ∀ m, n < m → Op.planWithin rules 16 512 m s = Op.plan rules 16 s := by
  intro rules s
  have hr : rules.Lawful (Setoid.ker (· % 100)) := Rules.lawful_through _ _ _ _
  have haudit : s.table.audit rules = .ok () :=
    ((Table.accepted_iff hr).mpr (sound_reached hr 0 _)).audit_ok
  have hgrowth : s.table.maxProbe = 15 ∧ s.table.capacity = 32 ∧
      ((Op.plan rules 16).carry s).2.table.capacity = 64 := by decide +kernel
  obtain ⟨hmax, hcap, hplanned⟩ := hgrowth
  refine ⟨hr, haudit, hmax, hcap, hplanned, ?_⟩
  exact (planning_ends hr haudit (by rw [hmax]; decide) rfl).2.1

end OpenAddressing
