import OpenAddressing.Proofs.Observation

/-!
# Operations that do not see floors

Operations that change a table read its floor at no place where it matters. Begun on tables
that are alike, they give the same answer or stop at the same fault, and leave tables that are
alike, whatever the rules and the tables.
-/

namespace OpenAddressing

variable {κ ν ε α β : Type}

/-- Two runs end in the same way: with related answers, or at one fault, in related states. -/
inductive Same {φ σ : Type} (S : σ → σ → Prop) (R : α → α → Prop) :
    EStateM.Result φ σ α → EStateM.Result φ σ α → Prop where
  | ok {a a' : α} {s s' : σ} (ha : R a a') (hs : S s s') : Same S R (.ok a s) (.ok a' s')
  | error {fault : φ} {s s' : σ} (hs : S s s') : Same S R (.error fault s) (.error fault s')

section Same

variable {φ σ : Type} {S : σ → σ → Prop} {R : α → α → Prop}

theorem Same.imp {R' : α → α → Prop} {r r' : EStateM.Result φ σ α} (h : Same S R r r')
    (hR : ∀ a a', R a a' → R' a a') : Same S R' r r' := by
  cases h with
  | ok ha hs => exact .ok (hR _ _ ha) hs
  | error hs => exact .error hs

theorem Same.bind {R' : β → β → Prop} {x y : EStateM φ σ α} {f g : α → EStateM φ σ β} {s s' : σ}
    (h : Same S R (x s) (y s'))
    (hf : ∀ a a' u u', x s = .ok a u → y s' = .ok a' u' → R a a' → S u u' →
      Same S R' (f a u) (g a' u')) : Same S R' ((x >>= f) s) ((y >>= g) s') := by
  change Same S R' (EStateM.bind x f s) (EStateM.bind y g s')
  rw [EStateM.bind.eq_def, EStateM.bind.eq_def]
  generalize hx : x s = r at h
  generalize hy : y s' = r' at h
  cases h with
  | ok ha hs => exact hf _ _ _ _ hx hy ha hs
  | error hs => exact .error hs

end Same

/-! ## Floors that are not looked at -/

namespace Table

variable (t : Table κ ν) (low : Int)

theorem seek_floor (rules : Rules κ ε) (key : κ) (tag : Tag) (window i : Nat) :
    { t with floor := low }.seek rules key tag window i = t.seek rules key tag window i := by
  induction window generalizing i with
  | zero => rfl
  | succ window ih =>
      rw [seek, seek]
      simp only [ih]
      rfl

theorem find?_floor (rules : Rules κ ε) (key : κ) :
    { t with floor := low }.find? rules key = t.find? rules key := by
  rw [find?, find?]
  simp only [seek_floor]

theorem get?_floor (rules : Rules κ ε) (key : κ) :
    { t with floor := low }.get? rules key = t.get? rules key := by
  rw [get?, get?, find?_floor]
  rfl

theorem getKey?_floor (rules : Rules κ ε) (key : κ) :
    { t with floor := low }.getKey? rules key = t.getKey? rules key := by
  rw [getKey?, getKey?, find?_floor]
  rfl

theorem agrees_floor (rules : Rules κ ε) (differ : ν → ν → Bool) (entries : List (κ × ν)) :
    { t with floor := low }.agrees rules differ entries = t.agrees rules differ entries := by
  induction entries with
  | nil => rfl
  | cons entry rest ih => rw [agrees, agrees, get?_floor, ih]

theorem stretch_floor (n i distance : Nat) :
    { t with floor := low }.stretch n i distance = t.stretch n i distance := by
  induction n generalizing i distance with
  | zero => rfl
  | succ n ih =>
      rw [stretch, stretch, ← ih]
      rfl

theorem scan_floor (rules : Rules κ ε) (key : κ) (tag : Tag) (window i walked : Nat)
    (spare : Option Nat) :
    { t with floor := low }.scan rules key tag window i walked spare =
      t.scan rules key tag window i walked spare := by
  induction window generalizing i walked spare with
  | zero =>
      cases spare with
      | none => exact congrArg Except.ok (t.stretch_floor low _ i walked)
      | some j => rfl
  | succ window ih =>
      rw [scan, scan]
      simp only [ih]
      rfl

theorem probe_floor (rules : Rules κ ε) (key : κ) (hash : Int) :
    { t with floor := low }.probe rules key hash = t.probe rules key hash := by
  rw [probe, probe]
  simp only [scan_floor]

theorem refill_floor (rules : Rules κ ε) (n i : Nat) (fresh : Table κ ν) :
    { t with floor := low }.refill rules n i fresh = t.refill rules n i fresh := by
  induction n generalizing i fresh with
  | zero => rfl
  | succ n ih =>
      rw [refill, refill]
      simp only [ih]
      rfl

theorem firstFilled?_floor (n : Nat) (i : Int) :
    { t with floor := low }.firstFilled? n i = t.firstFilled? n i := by
  induction n generalizing i with
  | zero => rfl
  | succ n ih =>
      rw [firstFilled?, firstFilled?, ih]
      rfl

theorem filledFrom?_floor (i : Int) :
    ({ t with floor := low }.filledFrom? i : Except (Fault κ ε) (Option Int)) =
      t.filledFrom? i := by
  rw [filledFrom?, filledFrom?, firstFilled?_floor]

theorem stepFrom_floor (i : Int) :
    ({ t with floor := low }.stepFrom i : Except (Fault κ ε) (Option (Step κ ν))) =
      t.stepFrom i := by
  rw [stepFrom, stepFrom, filledFrom?_floor]
  rfl

theorem collect_floor (n : Nat) (step : Option (Step κ ν)) (entries : Array (κ × ν)) :
    ({ t with floor := low }.collect n step entries : Except (Fault κ ε) _) =
      t.collect n step entries := by
  induction n generalizing step entries with
  | zero => rfl
  | succ n ih =>
      cases step with
      | none => rfl
      | some step =>
          rw [collect, collect, stepFrom_floor]
          simp only [ih]

theorem dumpSlots_floor (key : κ → Except ε String) (value : ν → Except ε String) (n i : Nat)
    (text : String) :
    { t with floor := low }.dumpSlots key value n i text = t.dumpSlots key value n i text := by
  induction n generalizing i text with
  | zero => rfl
  | succ n ih =>
      rw [dumpSlots, dumpSlots]
      simp only [ih]
      rfl

end Table

namespace Op

/-- Begun on tables that are alike, the operations end in the same way. -/
def Parallel (R : α → α → Prop) (x y : Op κ ν ε α) : Prop :=
  ∀ ⦃s s' : Journal κ ν⦄, s.Alike s' → Same Journal.Alike R (x s) (y s')

/-- The operation does not see floors. -/
def Blind (op : Op κ ν ε α) : Prop := Parallel Eq op op

theorem Parallel.bind {R : α → α → Prop} {R' : β → β → Prop} {x y : Op κ ν ε α}
    {f g : α → Op κ ν ε β} (h : Parallel R x y) (hf : ∀ a a', R a a' → Parallel R' (f a) (g a')) :
    Parallel R' (x >>= f) (y >>= g) :=
  fun _ _ hs => (h hs).bind fun _ _ _ _ _ _ ha hu => hf _ _ ha hu

theorem blind_pure (a : α) : (pure a : Op κ ν ε α).Blind := fun _ _ hs => .ok rfl hs

theorem blind_throw (fault : Fault κ ε) : (throw fault : Op κ ν ε α).Blind :=
  fun _ _ hs => .error hs

theorem Blind.bind {x : Op κ ν ε α} {f : α → Op κ ν ε β} (h : x.Blind)
    (hf : ∀ a, (f a).Blind) : (x >>= f).Blind := by
  refine Parallel.bind h fun a a' ha => ?_
  subst ha
  exact hf a

theorem same_query {f : Table κ ν → Except (Fault κ ε) α} {s s' : Journal κ ν} (hs : s.Alike s')
    (hf : f s'.table = f s.table) : Same Journal.Alike Eq (query f s) (query f s') := by
  rw [query_run, query_run, hf]
  cases f s.table with
  | ok a => exact .ok rfl hs
  | error fault => exact .error hs

theorem blind_query {f : Table κ ν → Except (Fault κ ε) α}
    (hf : ∀ t low, f { t with floor := low } = f t) : (query f).Blind := by
  intro s s' hs
  obtain ⟨low, hlow⟩ := hs.table
  refine same_query hs ?_
  rw [hlow]
  exact hf s.table low

theorem blind_edit {f : Table κ ν → Table κ ν}
    (hf : ∀ t low, (f t).Alike (f { t with floor := low })) : (edit f : Op κ ν ε Unit).Blind := by
  intro s s' hs
  obtain ⟨low, hlow⟩ := hs.table
  refine .ok rfl ⟨?_, hs.events⟩
  rw [hlow]
  exact hf s.table low

theorem blind_report (event : Event κ) : (report event : Op κ ν ε Unit).Blind :=
  fun _ _ hs => .ok rfl ⟨hs.table, congrArg (·.push event) hs.events⟩

theorem putTag_blind (index code : Int) : (putTag index code : Op κ ν ε Unit).Blind := by
  refine (blind_query fun _ _ => rfl).bind fun tag => (blind_query fun _ _ => rfl).bind fun i => ?_
  exact blind_edit fun _ low => ⟨low, rfl⟩

theorem putKey_blind (index : Int) (key : κ) : (putKey index key : Op κ ν ε Unit).Blind :=
  (blind_query fun _ _ => rfl).bind fun _ => blind_edit fun _ low => ⟨low, rfl⟩

theorem putVal_blind (index : Int) (value : ν) : (putVal index value : Op κ ν ε Unit).Blind :=
  (blind_query fun _ _ => rfl).bind fun _ => blind_edit fun _ low => ⟨low, rfl⟩

variable [Inhabited κ] [Inhabited ν]

theorem rehash_blind (rules : Rules κ ε) (size : Int) :
    (rehash rules size : Op κ ν ε Unit).Blind := by
  have hold : Parallel Table.Alike (query .ok : Op κ ν ε (Table κ ν)) (query .ok) :=
    fun _ _ hs => .ok hs.table hs
  refine hold.bind fun old old' halike => ?_
  -- Only the size and the count of the old table are used.
  obtain ⟨low, rfl⟩ := halike
  refine Blind.bind (blind_edit fun _ _ => ⟨0, rfl⟩) fun _ => ?_
  refine (blind_query fun _ _ => rfl).bind fun _ => ?_
  by_cases hzero : old.count = 0
  · rw [if_pos hzero]
    exact (blind_edit fun _ _ => ⟨0, rfl⟩).bind fun _ => blind_report _
  · rw [if_neg hzero]
    refine (blind_query fun t low => t.refill_floor low rules _ 0 _).bind fun fresh => ?_
    split
    · exact (blind_edit fun _ _ => ⟨fresh.floor, rfl⟩).bind fun _ => blind_report _
    · exact blind_throw _

theorem planWithin_blind (rules : Rules κ ε) (key : κ) (hash : Int) (retries : Nat) :
    (planWithin rules key hash retries : Op κ ν ε Plan).Blind := by
  induction retries with
  | zero => exact blind_throw _
  | succ retries ih =>
      refine (blind_query fun _ _ => rfl).bind fun capacity => ?_
      dsimp only
      split
      · exact (rehash_blind rules _).bind fun _ => blind_query fun _ _ => rfl
      · refine (blind_query fun t low => t.probe_floor low rules key hash).bind fun probe => ?_
        cases probe with
        | found i => exact blind_pure _
        | vacant i reach =>
            exact (blind_edit fun _ low => ⟨low, rfl⟩).bind fun _ => blind_pure _
        | exhausted =>
            refine (blind_query fun _ _ => rfl).bind fun _ => ?_
            exact (blind_report _).bind fun _ => (rehash_blind rules _).bind fun _ => ih

theorem plan_blind (rules : Rules κ ε) (key : κ) : (plan rules key : Op κ ν ε Plan).Blind := by
  refine (blind_query fun _ _ => rfl).bind fun hash => (blind_query fun _ _ => rfl).bind fun n => ?_
  exact planWithin_blind rules key hash _

theorem insertAt_blind (rules : Rules κ ε) (key : κ) (value : ν) (plan : Plan) :
    (insertAt rules key value plan).Blind := by
  cases plan with
  | found index => exact (putVal_blind index value).bind fun _ => blind_edit fun _ low => ⟨low, rfl⟩
  | vacant index code =>
      have hrest : (do
          putTag index code
          putKey index key
          putVal index value
          edit fun t =>
            { t with count := t.count + 1, age := t.age + 1, floor := min index t.floor }
          if ← query fun t => .ok t.overloaded then
            rehash rules (← query fun t => .ok (t.growthTarget rules)) : Op κ ν ε Unit).Blind := by
        refine (putTag_blind index code).bind fun _ => (putKey_blind index key).bind fun _ => ?_
        refine (putVal_blind index value).bind fun _ => ?_
        refine (blind_edit fun _ low => ⟨min index low, rfl⟩).bind fun _ => ?_
        refine (blind_query fun _ _ => rfl).bind fun overloaded => ?_
        split
        · exact (blind_query fun _ _ => rfl).bind fun size => rehash_blind rules size
        · exact blind_pure _
      refine (blind_query fun _ _ => rfl).bind fun tag => ?_
      split
      · exact (blind_edit fun _ low => ⟨low, rfl⟩).bind fun _ => hrest
      split
      · exact hrest
      · exact (blind_throw _).bind fun _ => hrest

theorem set_blind (rules : Rules κ ε) (key : κ) (value : ν) : (set rules key value).Blind :=
  (plan_blind rules key).bind fun _ => insertAt_blind rules key value _

theorem wipe_blind (index : Int) (tag : Tag) : (wipe index tag : Op κ ν ε Unit).Blind :=
  (putTag_blind index _).bind fun _ => (putKey_blind index _).bind fun _ => putVal_blind index _

theorem collapse_blind (steps : Nat) (index : Int) (emptied : Nat) :
    (collapse steps index emptied : Op κ ν ε Nat).Blind := by
  induction steps generalizing index emptied with
  | zero => exact blind_pure _
  | succ steps ih =>
      refine (wipe_blind index .empty).bind fun _ => (blind_query fun _ _ => rfl).bind fun i => ?_
      refine (blind_query fun _ _ => rfl).bind fun tag => ?_
      split
      · exact ih _ _
      · exact blind_pure _

theorem deleteAt_blind (index : Int) : (deleteAt index : Op κ ν ε Unit).Blind := by
  have hend : (edit fun t => { t with count := t.count - 1, age := t.age + 1 } :
      Op κ ν ε Unit).Blind := blind_edit fun _ low => ⟨low, rfl⟩
  refine (blind_query fun _ _ => rfl).bind fun tag => ?_
  split
  · refine (blind_query fun _ _ => rfl).bind fun following => ?_
    split
    · refine (blind_query fun _ _ => rfl).bind fun capacity => ?_
      refine (collapse_blind capacity index 0).bind fun emptied => ?_
      dsimp only
      split
      · refine (blind_report _).bind fun _ => ?_
        exact (blind_edit fun _ low => ⟨low, rfl⟩).bind fun _ => hend
      · exact (blind_edit fun _ low => ⟨low, rfl⟩).bind fun _ => hend
    · refine (wipe_blind index .tombstone).bind fun _ => ?_
      exact (blind_edit fun _ low => ⟨low, rfl⟩).bind fun _ => hend
  · exact blind_throw _

omit [Inhabited κ] [Inhabited ν] in
theorem find?_blind (rules : Rules κ ε) (key : κ) :
    (query fun t => t.find? rules key : Op κ ν ε (Option Nat)).Blind :=
  blind_query fun t low => t.find?_floor low rules key

theorem delete_blind (rules : Rules κ ε) (key : κ) : (delete rules key : Op κ ν ε Bool).Blind := by
  refine (find?_blind rules key).bind fun found => ?_
  cases found with
  | none => exact blind_pure _
  | some i => exact (deleteAt_blind i).bind fun _ => blind_pure _

theorem pop?_blind (rules : Rules κ ε) (key : κ) :
    (pop? rules key : Op κ ν ε (Option ν)).Blind := by
  refine (find?_blind rules key).bind fun found => ?_
  cases found with
  | none => exact blind_pure _
  | some i =>
      refine (blind_query fun _ _ => rfl).bind fun value => ?_
      exact (deleteAt_blind i).bind fun _ => blind_pure _

theorem pop_blind (rules : Rules κ ε) (key : κ) : (pop rules key : Op κ ν ε ν).Blind := by
  refine (pop?_blind rules key).bind fun found => ?_
  cases found with
  | none => exact blind_throw _
  | some value => exact blind_pure _

theorem remove_blind (rules : Rules κ ε) (key : κ) : (remove rules key : Op κ ν ε Unit).Blind := by
  refine (delete_blind rules key).bind fun deleted => ?_
  split
  · exact blind_pure _
  · exact blind_throw _

theorem update_blind (rules : Rules κ ε) (entries : List (Except ε (κ × ν))) :
    (update rules entries).Blind := by
  induction entries with
  | nil => exact blind_pure _
  | cons entry rest ih =>
      cases entry with
      | error cause => exact blind_throw _
      | ok entry => exact (set_blind rules entry.1 entry.2).bind fun _ => ih

theorem mergeWith_blind (rules : Rules κ ε) (combine : Nat → ν → ν → Except ε ν) (serial : Nat)
    (entries : List (κ × ν)) : (mergeWith rules combine serial entries).Blind := by
  induction entries generalizing serial with
  | nil => exact blind_pure _
  | cons entry rest ih =>
      refine (find?_blind rules entry.1).bind fun found => ?_
      cases found with
      | none => exact (set_blind rules entry.1 entry.2).bind fun _ => ih _
      | some i =>
          refine (blind_query fun _ _ => rfl).bind fun old => ?_
          refine (blind_query fun _ _ => rfl).bind fun combined => ?_
          refine (putVal_blind i combined).bind fun _ => ?_
          exact (blind_edit fun _ low => ⟨low, rfl⟩).bind fun _ => ih _

end Op

theorem Shelf.Change.op_blind [Inhabited κ] [Inhabited ν] (rules : Rules κ ε)
    (c : Shelf.Change κ ν ε) : (c.op rules).Blind := by
  open Op in
  cases c with
  | set key value => exact (set_blind rules key value).bind fun _ => blind_pure _
  | delete key => exact (delete_blind rules key).bind fun _ => blind_pure _
  | remove key => exact (remove_blind rules key).bind fun _ => blind_pure _
  | pop key default =>
      cases default with
      | none => exact (pop_blind rules key).bind fun _ => blind_pure _
      | some default => exact (pop?_blind rules key).bind fun _ => blind_pure _
  | clear => exact (blind_edit fun _ _ => ⟨0, rfl⟩).bind fun _ => blind_pure _
  | free => exact (blind_edit fun _ _ => ⟨0, rfl⟩).bind fun _ => blind_pure _
  | rehash size => exact (rehash_blind rules size).bind fun _ => blind_pure _
  | update entries => exact (update_blind rules entries).bind fun _ => blind_pure _
  | deleteAt i => exact (deleteAt_blind i).bind fun _ => blind_pure _

end OpenAddressing
