import OpenAddressing.Proofs.Rehash
import OpenAddressing.Table.Insert

/-!
# Plans of insertions

A search for a place ends at the key, or at the first slot on its path that has no entry, or
has seen nothing but entries up to the probe limit. In the last case the table grows. Growth
ends because so many entries on one path are entries of the table.
-/

namespace OpenAddressing

variable {κ ν ε : Type} {rules : Rules κ ε} {same : Setoid κ}

namespace Table

variable {t t' u : Table κ ν} {key : κ} {hash : Int}

def Crowded (t : Table κ ν) (hash : Int) (n : Nat) : Prop :=
  ∀ d < n, (t.tagAt (along t.capacity hash d)).isFilled = true

def FirstFree (t : Table κ ν) (hash : Int) (n : Nat) : Option Nat → Prop
  | none => t.Crowded hash n
  | some i => ∃ d < n, along t.capacity hash d = i ∧ (t.tagAt i).isFilled = false ∧
      t.Crowded hash d

def searchWidth (t : Table κ ν) : Nat := max (t.maxProbe + 1).toNat (probeLimit t.capacity)

/-- What the search for the place of a key can meet. -/
def Probed (rules : Rules κ ε) (same : Setoid κ) (t : Table κ ν) (key : κ) (hash : Int) :
    Probe → Prop
  | .found i => t.Stores same key i
  | .vacant i reach => ∃ d, t.Vacant rules same key hash i d ∧ t.Crowded hash d ∧
      reach = max t.maxProbe d
  | .exhausted => t.Lacks same key ∧ t.Crowded hash t.searchWidth

theorem Crowded.mono {m n : Nat} (h : t.Crowded hash n) (hm : m ≤ n) : t.Crowded hash m :=
  fun d hd => h d (by omega)

theorem Crowded.succ {n : Nat} (h : t.Crowded hash n)
    (hn : (t.tagAt (along t.capacity hash n)).isFilled = true) : t.Crowded hash (n + 1) := by
  intro d hd
  by_cases hlast : d = n
  · rwa [hlast]
  · exact h d (by omega)

theorem Crowded.lt_capacity {d : Nat} (h : t.Crowded hash d) (hc : IsCapacity t.capacity)
    (hfree : (t.tagAt (along t.capacity hash d)).isFilled = false) : d < t.capacity := by
  by_contra hd
  have hlt := Nat.mod_lt d hc.pos
  have hf := h (d % t.capacity) (by omega)
  rw [hc.along_mod, hfree] at hf
  cases hf

theorem Crowded.vacant {d : Nat} (h : t.Crowded hash d) (hc : IsCapacity t.capacity)
    (hh : rules.hash key = .ok hash)
    (hfree : (t.tagAt (along t.capacity hash d)).isFilled = false) (hlacks : t.Lacks same key) :
    t.Vacant rules same key hash (along t.capacity hash d) d where
  hash_eq := hh
  lt := h.lt_capacity hc hfree
  along_eq := rfl
  path e he hempty := by
    have hf := h e he
    rw [hempty] at hf
    cases hf
  free := hfree
  lacks := hlacks

private theorem stretch_spec (hc : IsCapacity t.capacity) (hh : rules.hash key = .ok hash)
    (hlacks : t.Lacks same key) (n d : Nat) (hwidth : t.searchWidth ≤ d + n)
    (hreach : t.maxProbe < d) (hcrowd : t.Crowded hash d) :
    t.Probed rules same key hash (t.stretch n (along t.capacity hash d) d) := by
  induction n generalizing d with
  | zero => exact ⟨hlacks, hcrowd.mono hwidth⟩
  | succ n ih =>
      have hnext : t.after (along t.capacity hash d) = along t.capacity hash (d + 1) :=
        hc.next_along hash d
      rw [stretch]
      by_cases hf : (t.tagAt (along t.capacity hash d)).isFilled = true
      · rw [if_pos hf, hnext]
        exact ih (d + 1) (by omega) (by omega) (hcrowd.succ hf)
      · rw [if_neg hf]
        exact ⟨d, hcrowd.vacant hc hh (by simpa using hf) hlacks, hcrowd, by omega⟩

/-- At the end of the stretch that lookups cover, or at an empty slot, the key is known to be
lacking, and a slot without an entry that was met is taken. -/
private theorem probed_spare (hc : IsCapacity t.capacity) (hh : rules.hash key = .ok hash)
    (hlacks : t.Lacks same key) {n i : Nat} (hn : n ≤ (t.maxProbe + 1).toNat)
    (hfree : t.FirstFree hash n (some i)) :
    t.Probed rules same key hash (.vacant i t.maxProbe) := by
  obtain ⟨d, hd, rfl, hnone, hcrowd⟩ := hfree
  exact ⟨d, hcrowd.vacant hc hh hnone hlacks, hcrowd, by omega⟩

private theorem FirstFree.or {d : Nat} {spare : Option Nat} (h : t.FirstFree hash d spare)
    (hfree : (t.tagAt (along t.capacity hash d)).isFilled = false) :
    t.FirstFree hash (d + 1) (spare.or (some (along t.capacity hash d))) := by
  cases spare with
  | none => exact ⟨d, by omega, rfl, hfree, h⟩
  | some i =>
      obtain ⟨e, he, halong, hnone, hcrowd⟩ := h
      exact ⟨e, by omega, halong, hnone, hcrowd⟩

private theorem FirstFree.succ {d : Nat} {spare : Option Nat} (h : t.FirstFree hash d spare)
    (hf : (t.tagAt (along t.capacity hash d)).isFilled = true) :
    t.FirstFree hash (d + 1) spare := by
  cases spare with
  | none => exact Crowded.succ h hf
  | some i =>
      obtain ⟨e, he, halong, hnone, hcrowd⟩ := h
      exact ⟨e, by omega, halong, hnone, hcrowd⟩

private theorem scan_spec (h : t.Arranged rules same) (hr : rules.Respects same)
    (hc : IsCapacity t.capacity) (hh : rules.hash key = .ok hash) (window d : Nat)
    (hwindow : d + window = (t.maxProbe + 1).toNat) (hpos : 0 ≤ t.maxProbe)
    (hmiss : t.Misses same key hash d) (spare : Option Nat)
    (hspare : t.FirstFree hash d spare) :
    Gives (t.scan rules key (.fingerprint hash) window (along t.capacity hash d) d spare)
      (t.Probed rules same key hash) rules.Refuses := by
  induction window generalizing d spare with
  | zero =>
      -- Lookups come no further, so the key is lacking. What follows only looks for a free slot.
      have hlacks := h.lacks hr hh hmiss (Or.inr (by omega))
      rw [scan.eq_def]
      cases spare with
      | some i => exact probed_spare hc hh hlacks (by omega) hspare
      | none =>
          refine stretch_spec hc hh hlacks _ d ?_ (by omega) hspare
          rw [searchWidth]
          omega
  | succ window ih =>
      have hnext : t.after (along t.capacity hash d) = along t.capacity hash (d + 1) :=
        hc.next_along hash d
      have hrest (hd : ¬t.Stores same key (along t.capacity hash d)) (spare : Option Nat) :=
        ih (d + 1) (by omega) (hmiss.succ hd) spare
      rw [scan, hnext]
      by_cases hempty : t.tagAt (along t.capacity hash d) = .empty
      · have hlacks := h.lacks hr hh hmiss (Or.inl hempty)
        have hfirst := hspare.or (by rw [hempty]; rfl)
        rw [if_pos hempty]
        have hget : spare.or (some (along t.capacity hash d)) =
            some (spare.getD (along t.capacity hash d)) := by cases spare <;> rfl
        rw [hget] at hfirst
        exact probed_spare hc hh hlacks (by omega) hfirst
      rw [if_neg hempty]
      by_cases htomb : t.tagAt (along t.capacity hash d) = .tombstone
      · rw [if_pos htomb]
        refine hrest (h.not_stores hr hh ?_) _ (hspare.or (by rw [htomb]; rfl))
        rw [htomb]
        exact (fingerprint_ne_tombstone hash).symm
      have hf : (t.tagAt (along t.capacity hash d)).isFilled = true :=
        ((h.tags _).resolve_left hempty).resolve_left htomb
      rw [if_neg htomb]
      by_cases htag : t.tagAt (along t.capacity hash d) = .fingerprint hash
      · obtain ⟨k, v, hk⟩ := h.exists_holds hf
        rw [if_pos htag, key_eq hk.key, gives_bind, gives_ok, gives_bind]
        rcases hr.isKey_cases key k with ⟨r, heq, hiff⟩ | ⟨fault, heq, href⟩
        · rw [heq, gives_ok]
          cases r with
          | true => exact ⟨k, v, hk, hiff.mp rfl⟩
          | false =>
              exact hrest (hk.not_stores fun hs => by cases hiff.mpr hs) _ (hspare.succ hf)
        · rw [heq]
          exact href
      · rw [if_neg htag]
        exact hrest (h.not_stores hr hh htag) _ (hspare.succ hf)

theorem WellFormed.probe_spec (h : t.WellFormed rules same) (hr : rules.Respects same)
    (hmax : 0 ≤ t.maxProbe) (hpos : 0 < t.capacity) (hh : rules.hash key = .ok hash) :
    Gives (t.probe rules key hash) (t.Probed rules same key hash) rules.Refuses := by
  have hc := h.isCapacity hpos
  have hwindow : max 1 (t.maxProbe + 1).toNat = (t.maxProbe + 1).toNat := by omega
  rw [probe, if_pos hc.isPowerOfTwo, hwindow, ← along_zero]
  exact scan_spec h.toArranged hr hc hh _ 0 (by omega) hmax misses_zero none
    (fun d hd => by omega)

theorem Crowded.probeLimit_le_count (h : t.Crowded hash t.searchWidth)
    (ht : t.WellFormed rules same) (hpos : 0 < t.capacity) :
    (probeLimit t.capacity : Int) ≤ t.count := by
  have hc := ht.isCapacity hpos
  have hsixteen := hc.sixteen_le
  have hlimit : probeLimit t.capacity ≤ t.capacity := by
    rw [probeLimit, Nat.shiftRight_eq_div_pow]
    omega
  have hle := le_tally_of_along (p := Tag.isFilled) hc hlimit
    (h.mono (by rw [searchWidth]; omega))
  have := ht.count_eq
  omega

theorem Lacks.of_has (h : t.Lacks same key) (hhas : ∀ k v, u.Has k v → t.Has k v) :
    u.Lacks same key := by
  intro i k v hk
  obtain ⟨j, hj⟩ := hhas k v ⟨i, hk⟩
  exact h hj

variable [Inhabited κ] [Inhabited ν]

/-- The growth of a table while there is no place for a key that it lacks: a table without
slots gets some, and one with nothing but entries in the search for a place doubles. -/
inductive Grown (rules : Rules κ ε) (same : Setoid κ) (key : κ) (hash : Int) :
    Table κ ν → Table κ ν → Prop where
  | refl (t : Table κ ν) : Grown rules same key hash t t
  | alloc {t u : Table κ ν} (hzero : t.capacity = 0)
      (hu : t.Rehashed rules same minCapacity u) : Grown rules same key hash t u
  | double {t u w : Table κ ν} (hpos : 0 < t.capacity) (hlacks : t.Lacks same key)
      (hcrowd : t.Crowded hash t.searchWidth)
      (hu : t.Rehashed rules same (t.capacity * 2) u) (hw : Grown rules same key hash u w) :
      Grown rules same key hash t w

inductive Wants (hash : Int) (t : Table κ ν) : Int → Prop where
  | alloc (hzero : t.capacity = 0) : Wants hash t minCapacity
  | double (hpos : 0 < t.capacity) (hcrowd : t.Crowded hash t.searchWidth) :
      Wants hash t (t.capacity * 2)

inductive Planned (rules : Rules κ ε) (same : Setoid κ) (key : κ) (hash : Int)
    (t : Table κ ν) : Plan → Table κ ν → Prop where
  | found {i : Nat} (hi : t.Stores same key i) : Planned rules same key hash t (.found i) t
  | vacant {u : Table κ ν} {i d : Nat} (hgrown : Grown rules same key hash t u)
      (hv : u.Vacant rules same key hash i d) (hcrowd : u.Crowded hash d) :
      Planned rules same key hash t (.vacant i (Tag.fingerprint hash).code)
        { u with maxProbe := max u.maxProbe d }

/-- What a plan that was not finished leaves, and the fault at which it stopped. The key may be
refused in a table that has grown, and the memory for growing more may be wanting. -/
inductive PlanLost (rules : Rules κ ε) (same : Setoid κ) (key : κ) (fault : Fault κ ε)
    (t : Table κ ν) : Table κ ν → Prop where
  | refused (href : rules.Refuses fault) : PlanLost rules same key fault t t
  | doubled {hash : Int} {u w : Table κ ν} (href : rules.Refuses fault)
      (hh : rules.hash key = .ok hash) (hpos : 0 < t.capacity) (hlacks : t.Lacks same key)
      (hcrowd : t.Crowded hash t.searchWidth) (hu : t.Rehashed rules same (t.capacity * 2) u)
      (hw : Grown rules same key hash u w) : PlanLost rules same key fault t w
  | cramped {hash size : Int} {u : Table κ ν} (hwant : u.Wants hash size)
      (hroom : rules.demandRoom (u.rehashCapacity size) = .error fault)
      (hh : rules.hash key = .ok hash) (hgrown : Grown rules same key hash t u) :
      PlanLost rules same key fault t u.renewed

theorem Grown.sound (h : Grown rules same key hash t u) (ht : t.Sound rules same) :
    u.Sound rules same := by
  induction h with
  | refl => exact ht
  | alloc _ hu => exact hu.toSound
  | double _ _ _ hu _ ih => exact ih hu.toSound

theorem Grown.count_eq (h : Grown rules same key hash t u) : u.count = t.count := by
  induction h with
  | refl => rfl
  | alloc _ hu => exact hu.count_same
  | double _ _ _ hu _ ih => rw [ih, hu.count_same]

theorem Grown.has_iff (h : Grown rules same key hash t u) (k : κ) (v : ν) :
    u.Has k v ↔ t.Has k v := by
  induction h with
  | refl => exact Iff.rfl
  | alloc _ hu => exact hu.has_iff k v
  | double _ _ _ hu _ ih => rw [ih, hu.has_iff]

namespace PlanLost

variable {fault : Fault κ ε}

theorem excuses (h : PlanLost rules same key fault t t') : rules.Excuses fault := by
  cases h with
  | refused href => exact .refused href
  | doubled href => exact .refused href
  | cramped _ hroom => exact .room ⟨_, hroom⟩

theorem exists_grown (h : PlanLost rules same key fault t t') :
    ∃ hash u, Grown rules same key hash t u ∧ (t' = u ∨ t' = u.renewed) := by
  cases h with
  | refused => exact ⟨0, t, .refl t, Or.inl rfl⟩
  | doubled _ _ hpos hlacks hcrowd hu hw =>
      exact ⟨_, _, .double hpos hlacks hcrowd hu hw, Or.inl rfl⟩
  | cramped _ _ _ hgrown => exact ⟨_, _, hgrown, Or.inr rfl⟩

theorem double (h : PlanLost rules same key fault u t') (hh : rules.hash key = .ok hash)
    (hpos : 0 < t.capacity) (hlacks : t.Lacks same key) (hcrowd : t.Crowded hash t.searchWidth)
    (hu : t.Rehashed rules same (t.capacity * 2) u) : PlanLost rules same key fault t t' := by
  cases h with
  | refused href => exact .doubled href hh hpos hlacks hcrowd hu (.refl _)
  | doubled href hh' hpos' hlacks' hcrowd' hw hw' =>
      obtain rfl := Except.ok.inj (hh'.symm.trans hh)
      exact .doubled href hh hpos hlacks hcrowd hu (.double hpos' hlacks' hcrowd' hw hw')
  | cramped hwant hroom hh' hgrown =>
      obtain rfl := Except.ok.inj (hh'.symm.trans hh)
      exact .cramped hwant hroom hh (.double hpos hlacks hcrowd hu hgrown)

end PlanLost

end Table

namespace Op

open Table

variable [Inhabited κ] [Inhabited ν] {s : Journal κ ν} {key : κ} {hash : Int}

theorem plan_run (hh : rules.hash key = .ok hash) (s : Journal κ ν) :
    plan rules key s = planWithin rules key hash (64 * s.table.count.toNat + 64) s := by
  rw [plan, bind_run, query_run, Rules.hashOf_ok hh]
  rfl

theorem planWithin_run (hpos : 0 < s.table.capacity) (retries : Nat) :
    planWithin rules key hash (retries + 1) s =
      match s.table.probe rules key hash with
      | .error fault => .error fault s
      | .ok (.found i) => .ok (.found i) s
      | .ok (.vacant i reach) => .ok (.vacant i (Tag.fingerprint hash).code)
          { s with table := { s.table with maxProbe := reach } }
      | .ok .exhausted =>
          match rules.announceKey key s.table.capacity with
          | .error fault => .error fault s
          | .ok () =>
            (do rehash rules (s.table.capacity * 2); planWithin rules key hash retries :
              Op κ ν ε Plan)
            { s with events := s.events.push (.probeLimit key s.table.capacity) } := by
  rw [planWithin, bind_run, query_run]
  dsimp only
  rw [if_neg (by omega), bind_run, query_run]
  cases s.table.probe rules key hash with
  | error fault => rfl
  | ok probed =>
      cases probed with
      | found i => rfl
      | vacant i reach => rfl
      | exhausted =>
          change (query (fun _ => rules.announceKey key s.table.capacity) >>= _) s = _
          rw [bind_run, query_run]
          cases rules.announceKey key s.table.capacity <;> rfl

private theorem planned_alloc (hzero : s.table.capacity = 0) {u : Table κ ν}
    (hu : s.table.Rehashed rules same minCapacity u) (hcount : s.table.count = 0)
    (hh : rules.hash key = .ok hash) :
    Planned rules same key hash s.table
      (.vacant (mask u.capacity hash) (Tag.fingerprint hash).code) u := by
  have hlacks : u.Lacks same key := by
    intro i k v hk
    have h₁ := tally_pos (p := Tag.isFilled) hk.lt hk.filled
    have h₂ := hu.count_eq
    have h₃ := hu.count_same
    omega
  have hc : IsCapacity u.capacity := by
    rw [hu.capacity_eq]
    exact isCapacity_rehashCapacity _ _
  have hfree : (u.tagAt (along u.capacity hash 0)).isFilled = false := by
    refine tally_eq_zero (p := Tag.isFilled) ?_ (hc.along_lt _ _)
    have h₂ := hu.count_eq
    have h₃ := hu.count_same
    omega
  have hcrowd : u.Crowded hash 0 := fun d hd => by omega
  have hplan := Planned.vacant (.alloc hzero hu) (hcrowd.vacant hc hh hfree hlacks) hcrowd
  have hmax : max u.maxProbe ((0 : Nat) : Int) = u.maxProbe := by
    have := hu.maxProbe_nonneg
    omega
  rw [hmax, along_zero] at hplan
  exact hplan

/-- A turn that is given up doubles the capacity, and the rest is for the next turn. -/
private theorem exhausted_outcome (hh : rules.hash key = .ok hash) {retries : Nat}
    (h : s.table.WellFormed rules same) (hpos : 0 < s.table.capacity)
    (hlacks : s.table.Lacks same key) (hcrowd : s.table.Crowded hash s.table.searchWidth)
    (hnext : ∀ s' : Journal κ ν, s.table.Rehashed rules same (s.table.capacity * 2) s'.table →
      (planWithin rules key hash retries).Outcome s'
        (fun plan s'' => Planned rules same key hash s'.table plan s''.table)
        (fun fault s'' => PlanLost rules same key fault s'.table s''.table)) :
    (do
      query fun _ => rules.announceKey key s.table.capacity
      report (.probeLimit key s.table.capacity)
      rehash rules (s.table.capacity * 2)
      planWithin rules key hash retries : Op κ ν ε Plan).Outcome s
        (fun plan s' => Planned rules same key hash s.table plan s'.table)
        (fun fault s' => PlanLost rules same key fault s.table s'.table) := by
  rw [outcome_bind, outcome_query]
  rcases (rules.announceKey_cases key s.table.capacity).symm with ⟨_, heq, href⟩ | heq
  · rw [heq]
    exact .refused href
  rw [heq, gives_ok, outcome_bind, outcome_report]
  let reported : Journal κ ν := ⟨s.table, s.events.push (.probeLimit key s.table.capacity)⟩
  apply (rehash_outcome (s := reported) h _).bind
  · intro _ s' hs'
    refine (hnext s' hs').imp ?_ fun fault s'' hlost => hlost.double hh hpos hlacks hcrowd hs'
    intro plan s'' hplan
    generalize s''.table = t'' at hplan
    cases hplan with
    | @found i hi =>
        obtain ⟨k, v, hk, hs⟩ := hi
        exact absurd hs (hlacks.of_has (fun k v => (hs'.has_iff k v).mp) hk)
    | vacant hgrown hv hcrowd' =>
        exact .vacant (.double hpos hlacks hcrowd hs' hgrown) hv hcrowd'
  · intro fault s' hlost
    obtain ⟨hroom, hs'⟩ := hlost
    rw [hs']
    exact .cramped (.double hpos hcrowd) hroom hh (.refl _)

theorem planWithin_outcome (hr : rules.Respects same) (hh : rules.hash key = .ok hash)
    (retries : Nat) (h : s.table.WellFormed rules same) (hmax : 0 ≤ s.table.maxProbe)
    (hretries : 0 < retries)
    (hfuel : 0 < s.table.capacity →
      64 * (s.table.count + 1) < s.table.capacity + retries) :
    (planWithin rules key hash retries).Outcome s
      (fun plan s' => Planned rules same key hash s.table plan s'.table)
      (fun fault s' => PlanLost rules same key fault s.table s'.table) := by
  induction retries generalizing s with
  | zero => omega
  | succ retries ih =>
      rw [planWithin, outcome_bind, outcome_query_total]
      by_cases hzero : s.table.capacity = 0
      · rw [if_pos hzero]
        have hcount : s.table.count = 0 := by
          have := tally_le_capacity s.table Tag.isFilled
          have := h.count_eq
          omega
        apply (rehash_outcome h minCapacity).bind
        · intro _ s' hs'
          rw [outcome_query_total]
          exact planned_alloc hzero hs' hcount hh
        · intro fault s' hlost
          obtain ⟨hroom, hs'⟩ := hlost
          rw [hs']
          exact .cramped (.alloc hzero) hroom hh (.refl _)
      have hpos : 0 < s.table.capacity := by omega
      rw [if_neg hzero, outcome_bind, outcome_query]
      refine (h.probe_spec hr hmax hpos hh).imp ?_ (fun fault href => .refused href)
      intro probed hprobed
      cases probed with
      | found i => exact .found hprobed
      | vacant i reach =>
          obtain ⟨d, hv, hcrowd, rfl⟩ := hprobed
          exact .vacant (.refl _) hv hcrowd
      | exhausted =>
          obtain ⟨hlacks, hcrowd⟩ := hprobed
          -- Entries up to the probe limit make the capacity small beside the count, and doubling it
          -- keeps pace with the retries that are left.
          have hlimit := hcrowd.probeLimit_le_count h hpos
          have hsmall : (s.table.capacity : Int) < 64 * (s.table.count + 1) := by
            rw [probeLimit, Nat.shiftRight_eq_div_pow] at hlimit
            omega
          have hlarge := hfuel hpos
          refine exhausted_outcome hh h hpos hlacks hcrowd fun s' hs' => ?_
          have hcap := le_rehashCapacity s.table (s.table.capacity * 2)
          rw [← hs'.capacity_eq] at hcap
          refine ih hs'.toWellFormed hs'.maxProbe_nonneg (by omega) fun _ => ?_
          rw [hs'.count_same]
          omega

/-- A plan for a key gives its slot, or a place for it after as much growth as it takes. The
floor does not matter. -/
theorem plan_outcome_of_wellFormed (hr : rules.Respects same) (h : s.table.WellFormed rules same)
    (hmax : 0 ≤ s.table.maxProbe) (key : κ) :
    (plan rules key).Outcome s
      (fun plan s' => ∃ hash, rules.hash key = .ok hash ∧
        Planned rules same key hash s.table plan s'.table)
      (fun fault s' => PlanLost rules same key fault s.table s'.table) := by
  rw [plan, outcome_bind, outcome_query]
  rcases rules.hashOf_cases key with ⟨hash, hh, heq⟩ | ⟨fault, heq, href⟩
  · rw [heq, gives_ok, outcome_bind, outcome_query_total]
    refine (planWithin_outcome hr hh _ h hmax (by omega) ?_).imp
      (fun plan s' hplan => ⟨hash, hh, hplan⟩) (fun fault s' hlost => hlost)
    intro hpos
    have := h.count_eq
    omega
  · rw [heq]
    exact .refused href

theorem plan_outcome (hr : rules.Respects same) (h : s.table.Sound rules same) (key : κ) :
    (plan rules key).Outcome s
      (fun plan s' => ∃ hash, rules.hash key = .ok hash ∧
        Planned rules same key hash s.table plan s'.table)
      (fun fault s' => PlanLost rules same key fault s.table s'.table) :=
  plan_outcome_of_wellFormed hr h.toWellFormed h.maxProbe_nonneg key

end Op

end OpenAddressing
