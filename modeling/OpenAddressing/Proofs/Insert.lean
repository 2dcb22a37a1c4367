import OpenAddressing.Proofs.Plan

/-!
# Insertions

What setting a key makes of a table is said once, as a relation between the table before and
after; soundness and the entries are read off from it.
-/

namespace OpenAddressing

variable {κ ν ε : Type} {rules : Rules κ ε} {same : Setoid κ}

namespace Table

variable {t t' u : Table κ ν} {key : κ} {value : ν} {hash : Int} {i d : Nat}

/-- The table with a new entry, before its load is looked at. -/
def added (u : Table κ ν) (i d : Nat) (hash : Int) (key : κ) (value : ν) : Table κ ν :=
  { u.write i (.fingerprint hash) key value with
    count := u.count + 1
    dead := u.dead - if u.tagAt i = .tombstone then 1 else 0
    age := u.age + 1
    floor := min i u.floor
    maxProbe := max u.maxProbe d }

def entered (t : Table κ ν) (i : Nat) (tag : Tag) (key : κ) (value : ν) : Table κ ν :=
  { t.write i tag key value with
    count := t.count + 1
    dead := t.dead - if t.tagAt i = .tombstone then 1 else 0
    age := t.age + 1
    floor := min i t.floor }

def revalued (t : Table κ ν) (i : Nat) (value : ν) : Table κ ν :=
  { t with vals := t.vals.setIfInBounds i value, age := t.age + 1 }

theorem sameSlots_added (u : Table κ ν) (i d : Nat) (hash : Int) (key : κ) (value : ν) :
    (u.write i (.fingerprint hash) key value).SameSlots (u.added i d hash key value) :=
  ⟨rfl, rfl, rfl⟩

@[simp]
theorem capacity_added (u : Table κ ν) (i d : Nat) (hash : Int) (key : κ) (value : ν) :
    (u.added i d hash key value).capacity = u.capacity := capacity_write u i _ key value

theorem Vacant.sound_added (hv : u.Vacant rules same key hash i d) (h : u.Sound rules same)
    (value : ν) : (u.added i d hash key value).Sound rules same where
  toWellFormed := h.toWellFormed.place hv (sameSlots_added u i d hash key value) rfl rfl
    (Int.min_le_right _ _) (Int.min_le_left _ _) (Int.le_max_left _ _) (Int.le_max_right _ _)
  maxProbe_nonneg := by
    have := h.maxProbe_nonneg
    simp only [added]
    omega
  floor_nonneg := by
    have := h.floor_nonneg
    simp only [added]
    omega

theorem holds_revalued (hi : i < t.vals.size) {j : Nat} {k : κ} {v : ν} :
    (t.revalued i value).Holds j k v ↔
      if j = i then (∃ w, t.Holds i k w) ∧ v = value else t.Holds j k v := by
  by_cases hj : j = i
  · subst hj
    rw [if_pos rfl]
    constructor
    · intro h
      obtain ⟨hf, hk, hv⟩ := h
      simp only [revalued, Array.getElem?_setIfInBounds_self_of_lt hi] at hv
      exact ⟨⟨t.vals[j], hf, hk, by simp [hi]⟩, (Option.some.inj hv).symm⟩
    · intro h
      obtain ⟨⟨w, hf, hk, -⟩, rfl⟩ := h
      exact ⟨hf, hk, by simp [revalued, hi]⟩
  · rw [if_neg hj]
    constructor
    · intro h
      obtain ⟨hf, hk, hv⟩ := h
      simp only [revalued, Array.getElem?_setIfInBounds, if_neg (Ne.symm hj)] at hv
      exact ⟨hf, hk, hv⟩
    · intro h
      obtain ⟨hf, hk, hv⟩ := h
      refine ⟨hf, hk, ?_⟩
      simpa only [revalued, Array.getElem?_setIfInBounds, if_neg (Ne.symm hj)] using hv

theorem holds_of_revalued (hi : i < t.vals.size) {j : Nat} {k : κ} {v : ν}
    (h : (t.revalued i value).Holds j k v) : ∃ w, t.Holds j k w := by
  rw [holds_revalued hi] at h
  split at h
  · next hj =>
    subst hj
    exact h.1
  · exact ⟨v, h⟩

theorem Sound.revalued (h : t.Sound rules same) (hi : i < t.capacity) (value : ν) :
    (t.revalued i value).Sound rules same := by
  have hi' : i < t.vals.size := by rwa [h.vals_size]
  refine ⟨⟨⟨h.keys_size, ?_, h.capacity, h.tags, ?_, ?_⟩, h.count_eq, h.dead_eq⟩,
    h.maxProbe_nonneg, h.floor_nonneg⟩
  · rw [← show t.vals.size = (t.revalued i value).capacity from h.vals_size]
    exact Array.size_setIfInBounds
  · intro j k v hk
    obtain ⟨w, hw⟩ := holds_of_revalued hi' hk
    obtain ⟨hash, d, hp⟩ := h.placed hw
    exact ⟨hash, d, hp.hash_eq, hp.tag_eq, hp.floor_le, hp.lt, hp.le_maxProbe, hp.along_eq,
      hp.path⟩
  · intro j₁ j₂ k l v w hk hl hs
    obtain ⟨_, hk'⟩ := holds_of_revalued hi' hk
    obtain ⟨_, hl'⟩ := holds_of_revalued hi' hl
    exact h.distinct hk' hl' hs

theorem settled_revalued (h : t.Sound rules same) (hi : i < t.capacity) (value : ν) :
    Settled t (t.revalued i value) where
  capacity_eq := rfl
  holds hk := holds_of_revalued (by rw [h.vals_size]; exact hi) hk

/-- The plan can be carried out as long as nothing but the floor changes. -/
inductive Ready (rules : Rules κ ε) (same : Setoid κ) (key : κ) (t : Table κ ν) : Plan → Prop where
  | found {i : Nat} (hi : t.Stores same key i) : Ready rules same key t (.found i)
  | vacant {i : Nat} {hash : Int} {d : Nat} (hv : t.Vacant rules same key hash i d)
      (hd : d ≤ t.maxProbe) : Ready rules same key t (.vacant i (Tag.fingerprint hash).code)

theorem Ready.congr {plan : Plan} (h : t.Ready rules same key plan) (hs : t.SameSlots t')
    (hreach : t'.maxProbe = t.maxProbe) : t'.Ready rules same key plan := by
  cases h with
  | found hi =>
      obtain ⟨k, v, hk, hsame⟩ := hi
      exact .found ⟨k, v, hs.holds_iff.mpr hk, hsame⟩
  | vacant hv hd => exact .vacant (hv.congr hs) (by rwa [hreach])

variable [Inhabited κ] [Inhabited ν]

theorem Planned.ready {plan : Plan} (h : Planned rules same key hash t plan t') :
    t'.Ready rules same key plan := by
  cases h with
  | found hi => exact .found hi
  | vacant _ hv _ => exact .vacant (hv.congr ⟨rfl, rfl, rfl⟩) (Int.le_max_right _ _)

/-- What setting a key to a value makes of a table. -/
inductive Assigned (rules : Rules κ ε) (same : Setoid κ) (key : κ) (value : ν) (t : Table κ ν) :
    Table κ ν → Prop where
  | replaced {i : Nat} {k : κ} {v : ν} (hk : t.Holds i k v) (hs : same.r key k) :
      Assigned rules same key value t (t.revalued i value)
  | added {hash : Int} {u : Table κ ν} {i d : Nat} (hgrown : Grown rules same key hash t u)
      (hv : u.Vacant rules same key hash i d) (hcrowd : u.Crowded hash d)
      (hload : (u.added i d hash key value).overloaded = false) :
      Assigned rules same key value t (u.added i d hash key value)
  | rehashed {hash : Int} {u t' : Table κ ν} {i d : Nat} (hgrown : Grown rules same key hash t u)
      (hv : u.Vacant rules same key hash i d) (hcrowd : u.Crowded hash d)
      (hload : (u.added i d hash key value).overloaded = true)
      (ht' : (u.added i d hash key value).Rehashed rules same
        ((u.added i d hash key value).growthTarget rules) t') :
      Assigned rules same key value t t'

def Burdened (rules : Rules κ ε) (w : Table κ ν) (fault : Fault κ ε) : Prop :=
  w.overloaded = true ∧
    rules.demandRoom (w.rehashCapacity (w.growthTarget rules)) = .error fault

/-- What is left when setting a key stops: the key has no place yet, or it has one and the
table could not be rehashed. -/
inductive AssignLost (rules : Rules κ ε) (same : Setoid κ) (key : κ) (fault : Fault κ ε)
    (t : Table κ ν) : Table κ ν → Prop where
  | plan {t' : Table κ ν} (ht' : PlanLost rules same key fault t t') :
      AssignLost rules same key fault t t'
  | load {hash : Int} {u : Table κ ν} {i d : Nat} {value : ν}
      (hload : (u.added i d hash key value).Burdened rules fault)
      (hgrown : Grown rules same key hash t u) (hv : u.Vacant rules same key hash i d) :
      AssignLost rules same key fault t (u.added i d hash key value).renewed

theorem Assigned.sound (h : Assigned rules same key value t t') (ht : t.Sound rules same) :
    t'.Sound rules same := by
  cases h with
  | replaced hk hs => exact ht.revalued hk.lt value
  | added hgrown hv _ _ => exact hv.sound_added (hgrown.sound ht) value
  | rehashed _ _ _ _ ht' => exact ht'.toSound

theorem Vacant.found_none (hv : u.Vacant rules same key hash i d)
    (hgrown : Grown rules same key hash t u) : t.Found same key none :=
  hv.lacks.of_has fun k v => (hgrown.has_iff k v).mpr

private theorem Vacant.has_added (hv : u.Vacant rules same key hash i d)
    (hgrown : Grown rules same key hash t u) (ht : t.Sound rules same) (value : ν) (l : κ)
    (w : ν) : (u.added i d hash key value).Has l w ↔
      t.Has l w ∧ ¬same.r key l ∨ l = key ∧ w = value := by
  rw [hv.has_iff (hgrown.sound ht).toArranged (sameSlots_added u i d hash key value),
    hgrown.has_iff]
  refine or_congr_left ⟨?_, fun h => h.1⟩
  intro h'
  obtain ⟨j, hj⟩ := h'
  exact ⟨⟨j, hj⟩, hv.found_none hgrown hj⟩

/-- Setting a key changes the entry of that key and no other. The entry keeps its stored key,
if it has one. -/
theorem Assigned.has_iff (h : Assigned rules same key value t t') (ht : t.Sound rules same) :
    ∃ e, t.Found same key e ∧ ∀ l w, t'.Has l w ↔
      t.Has l w ∧ ¬same.r key l ∨ l = (e.map (·.1)).getD key ∧ w = value := by
  cases h with
  | @replaced i k v hk hs =>
      have hi : i < t.vals.size := by
        rw [ht.vals_size]
        exact hk.lt
      refine ⟨some (k, v), ⟨⟨i, hk⟩, hs⟩, fun l w => ?_⟩
      constructor
      · intro h'
        obtain ⟨j, hj⟩ := h'
        rw [holds_revalued hi] at hj
        split at hj
        · obtain ⟨⟨v', hl⟩, rfl⟩ := hj
          exact Or.inr ⟨(hk.unique hl).1.symm, rfl⟩
        · next hji =>
          exact Or.inl ⟨⟨j, hj⟩, fun hs' =>
            hji (ht.distinct hj hk (same.trans (same.symm hs') hs))⟩
      · intro h'
        rcases h' with ⟨⟨j, hj⟩, hs'⟩ | ⟨rfl, rfl⟩
        · have hji : j ≠ i := by
            intro heq
            subst heq
            exact hs' ((hk.unique hj).1 ▸ hs)
          exact ⟨j, by rw [holds_revalued hi, if_neg hji]; exact hj⟩
        · exact ⟨i, by rw [holds_revalued hi, if_pos rfl]; exact ⟨⟨v, hk⟩, rfl⟩⟩
  | added hgrown hv =>
      exact ⟨none, hv.found_none hgrown, hv.has_added hgrown ht value⟩
  | rehashed hgrown hv _ _ ht' =>
      refine ⟨none, hv.found_none hgrown, fun l w => ?_⟩
      rw [ht'.has_iff]
      exact hv.has_added hgrown ht value l w

theorem PlanLost.sound {fault : Fault κ ε} (h : PlanLost rules same key fault t t')
    (ht : t.Sound rules same) : t'.Sound rules same := by
  obtain ⟨hash, u, hgrown, rfl | rfl⟩ := h.exists_grown
  · exact hgrown.sound ht
  · exact (hgrown.sound ht).renewed

theorem AssignLost.sound {fault : Fault κ ε} (h : AssignLost rules same key fault t t')
    (ht : t.Sound rules same) : t'.Sound rules same := by
  cases h with
  | plan hlost => exact hlost.sound ht
  | load _ hgrown hv => exact (hv.sound_added (hgrown.sound ht) _).renewed

theorem AssignLost.excuses {fault : Fault κ ε} (h : AssignLost rules same key fault t t') :
    rules.Excuses fault := by
  cases h with
  | plan hlost => exact hlost.excuses
  | load hload => exact .room ⟨_, hload.2⟩

/-! ## Keys that are there -/

theorem Grown.eq_of_stores (h : Grown rules same key hash t u) (hi : t.Stores same key i) :
    u = t := by
  obtain ⟨k, v, hk, hs⟩ := hi
  cases h with
  | refl => rfl
  | alloc hzero =>
      have := hk.lt
      omega
  | double _ hlacks => exact absurd hs (hlacks hk)

theorem Vacant.not_stores (hv : u.Vacant rules same key hash i d)
    (hgrown : Grown rules same key hash t u) : ¬t.Stores same key j := by
  intro h
  obtain ⟨k, v, hk, hs⟩ := h
  exact hv.found_none hgrown hk hs

theorem Assigned.settled (h : Assigned rules same key value t t') (ht : t.Sound rules same)
    (hi : t.Stores same key i) : Settled t t' := by
  cases h with
  | replaced hk => exact settled_revalued ht hk.lt value
  | added hgrown hv => exact absurd hi (hv.not_stores hgrown)
  | rehashed hgrown hv => exact absurd hi (hv.not_stores hgrown)

theorem AssignLost.settled {fault : Fault κ ε} (h : AssignLost rules same key fault t t')
    (hi : t.Stores same key i) : Settled t t' := by
  cases h with
  | plan hlost =>
      obtain ⟨hash, u, hgrown, hu⟩ := hlost.exists_grown
      obtain rfl := hgrown.eq_of_stores hi
      rcases hu with rfl | rfl
      · exact settled_of_eq rfl
      · exact (sameSlots_renewed u).settled
  | load _ hgrown hv => exact absurd hi (hv.not_stores hgrown)

end Table

namespace Op

open Table

variable [Inhabited κ] [Inhabited ν] {s : Journal κ ν} {key : κ} {hash : Int}

theorem insertAt_found_outcome (h : s.table.Sound rules same) {i : Nat}
    (hi : s.table.Stores same key i) (value : ν) :
    (insertAt rules key value (.found i)).Outcome s
      (fun _ s' => Assigned rules same key value s.table s'.table) (fun _ _ => False) := by
  obtain ⟨k, v, hk, hs⟩ := hi
  have hi' : i < s.table.vals.size := by
    rw [h.vals_size]
    exact hk.lt
  rw [insertAt, outcome_bind, outcome_putVal hi', outcome_edit]
  exact .replaced hk hs

/-! ## The steps of an insertion -/

section Steps

omit [Inhabited κ] [Inhabited ν]

def enter (key : κ) (value : ν) (index code : Int) : Op κ ν ε Unit := do
  let tag ← query fun t => t.tag index
  if tag = .tombstone then edit fun t => { t with dead := t.dead - 1 }
  else if tag = .empty then pure ()
  else throw (.occupied index tag.code)
  putTag index code
  putKey index key
  putVal index value
  edit fun t => { t with count := t.count + 1, age := t.age + 1, floor := min index t.floor }

theorem outcome_write {i : Nat} {tag : Tag} {value : ν} {rest : Op κ ν ε Unit}
    {post : Unit → Journal κ ν → Prop} {lost : Fault κ ε → Journal κ ν → Prop}
    (hk : s.table.keys.size = s.table.capacity) (hv : s.table.vals.size = s.table.capacity)
    (hi : i < s.table.capacity) :
    (do
      putTag i tag.code
      putKey i key
      putVal i value
      rest : Op κ ν ε Unit).Outcome s post lost ↔
      rest.Outcome ⟨s.table.write i tag key value, s.events⟩ post lost := by
  rw [outcome_bind, outcome_putTag hi, outcome_bind, outcome_putKey (by rwa [hk]),
    outcome_bind, outcome_putVal (by rwa [hv])]
  rfl

theorem outcome_enter (h : s.table.Fitted) {i : Nat} {tag : Tag} {value : ν}
    {post : Unit → Journal κ ν → Prop} {lost : Fault κ ε → Journal κ ν → Prop}
    (hi : i < s.table.capacity)
    (hfree : s.table.tagAt i = .empty ∨ s.table.tagAt i = .tombstone) :
    (enter key value i tag.code).Outcome s post lost ↔
      post () ⟨s.table.entered i tag key value, s.events⟩ := by
  rw [enter, outcome_bind, outcome_query_ok (tag_natCast hi), entered]
  rcases hfree with hempty | htomb
  · have hne : s.table.tagAt i ≠ .tombstone := by
      rw [hempty]
      decide
    rw [if_neg hne, if_pos hempty, if_neg hne, Int.sub_zero,
      outcome_write h.keys_size h.vals_size hi]
    rfl
  · rw [if_pos htomb, if_pos htomb, outcome_bind, outcome_edit,
      outcome_write (s := ⟨{ s.table with dead := s.table.dead - 1 }, s.events⟩) h.keys_size
        h.vals_size hi]
    rfl

theorem enter_cases (h : s.table.Fitted) {i : Nat} (tag : Tag) (value : ν)
    (hi : i < s.table.capacity) :
    (enter key value i tag.code : Op κ ν ε Unit).Outcome s
      (fun _ s' => (s.table.tagAt i).isFilled = false ∧
        s' = ⟨s.table.entered i tag key value, s.events⟩) (fun _ s' => s' = s) := by
  by_cases hfree : s.table.tagAt i = .empty ∨ s.table.tagAt i = .tombstone
  · refine (outcome_enter h hi hfree).mpr ⟨?_, rfl⟩
    rcases hfree with hempty | htomb
    · rw [hempty, Tag.isFilled_empty]
    · rw [htomb, Tag.isFilled_tombstone]
  · rw [not_or] at hfree
    rw [enter, outcome_bind, outcome_query_ok (tag_natCast hi), if_neg hfree.2, if_neg hfree.1]
    rfl

end Steps

def relieve (rules : Rules κ ε) : Op κ ν ε Unit := do
  if ← query fun t => .ok t.overloaded then
    rehash rules (← query fun t => .ok (t.growthTarget rules))

theorem insertAt_vacant (rules : Rules κ ε) (key : κ) (value : ν) (index code : Int) :
    insertAt rules key value (.vacant index code) = (do
      enter key value index code
      relieve rules) := by
  rw [insertAt, enter, bind_assoc]
  congr 1
  funext tag
  dsimp only
  split
  · simp only [bind_assoc]
    rfl
  split
  · simp only [bind_assoc]
    rfl
  · simp only [bind_assoc]
    rfl

private def Filled (rules : Rules κ ε) (same : Setoid κ) (w t' : Table κ ν) : Prop :=
  w.overloaded = false ∧ t' = w ∨
    w.overloaded = true ∧ w.Rehashed rules same (w.growthTarget rules) t'

private theorem relieve_outcome {w : Table κ ν} (hw : w.Sound rules same)
    (events : Array (Event κ)) :
    (relieve rules).Outcome ⟨w, events⟩ (fun _ s' => Filled rules same w s'.table)
      (fun fault s' => w.Burdened rules fault ∧ s'.table = w.renewed) := by
  rw [relieve, outcome_bind, outcome_query_total]
  cases hload : w.overloaded with
  | false => exact Or.inl ⟨hload, rfl⟩
  | true =>
      rw [if_pos rfl, outcome_bind, outcome_query_total]
      exact (rehash_outcome hw.toWellFormed _).imp
        (fun _ s' hs' => Or.inr ⟨hload, hs'⟩) fun _ s' hs' => ⟨⟨hload, hs'.1⟩, hs'.2⟩

private theorem insertAt_vacant_outcome {u : Table κ ν} {i d : Nat} (hu : u.Sound rules same)
    (hv : u.Vacant rules same key hash i d)
    (hs : s.table = { u with maxProbe := max u.maxProbe d }) (value : ν) :
    (insertAt rules key value (.vacant i (Tag.fingerprint hash).code)).Outcome s
      (fun _ s' => Filled rules same (u.added i d hash key value) s'.table)
      (fun fault s' => (u.added i d hash key value).Burdened rules fault ∧
        s'.table = (u.added i d hash key value).renewed) := by
  have hi := hv.index_lt hu.toArranged
  obtain ⟨t, events⟩ := s
  obtain rfl : t = _ := hs
  have hfitted : ({ u with maxProbe := max u.maxProbe d }).Fitted :=
    hu.fitted.of_sameSlots ⟨rfl, rfl, rfl⟩
  rw [insertAt_vacant, outcome_bind, outcome_enter hfitted hi (hu.not_isFilled.mp hv.free)]
  exact relieve_outcome (hv.sound_added hu value) events

/-- Setting a key, from the search for its place to the rehash that may follow. -/
theorem set_outcome (hr : rules.Respects same) (h : s.table.Sound rules same) (key : κ)
    (value : ν) :
    (set rules key value).Outcome s
      (fun _ s' => Assigned rules same key value s.table s'.table)
      (fun fault s' => AssignLost rules same key fault s.table s'.table) := by
  apply (plan_outcome hr h key).bind
  · intro plan s' hpost
    obtain ⟨hash, hh, hplan⟩ := hpost
    generalize ht' : s'.table = t' at hplan
    cases hplan with
    | found hi =>
        rw [← ht'] at h hi ⊢
        exact (insertAt_found_outcome h hi value).imp (fun _ _ hs => hs) (fun _ _ hs => hs.elim)
    | @vacant u i d hgrown hv hcrowd =>
        apply (insertAt_vacant_outcome (hgrown.sound h) hv ht' value).imp
        · intro _ s'' hpost
          rcases hpost with ⟨hload, hs''⟩ | ⟨hload, hs''⟩
          · rw [hs'']
            exact .added hgrown hv hcrowd hload
          · exact .rehashed hgrown hv hcrowd hload hs''
        · intro fault s'' hlost
          obtain ⟨hload, hs''⟩ := hlost
          rw [hs'']
          exact .load hload hgrown hv
  · intro fault s' hlost
    exact .plan hlost

theorem insertAt_ready_outcome (h : s.table.Sound rules same) {plan : Plan}
    (hplan : s.table.Ready rules same key plan) (value : ν) :
    (insertAt rules key value plan).Outcome s (fun _ s' => s'.table.Sound rules same)
      (fun fault s' => AssignLost rules same key fault s.table s'.table) := by
  cases hplan with
  | found hi =>
      exact (insertAt_found_outcome h hi value).imp (fun _ _ hs => hs.sound h) fun _ _ hs => hs.elim
  | @vacant i hash d hv hd =>
      have hadded := hv.sound_added h value
      have hmax : s.table = { s.table with maxProbe := max s.table.maxProbe d } := by
        rw [max_eq_left hd]
      refine (insertAt_vacant_outcome h hv hmax value).imp ?_ ?_
      · intro _ s' hs'
        rcases hs' with ⟨-, hs'⟩ | ⟨-, hs'⟩
        · rwa [hs']
        · exact hs'.toSound
      · intro fault s' hlost
        rw [hlost.2]
        exact .load hlost.1 (.refl _) hv

end Op

end OpenAddressing
