import OpenAddressing.Proofs.Residue

/-!
# Hashes that can stand in for each other

Two operations run side by side, one with each of two congruent hashes. They cannot part while
the table has no more slots than `widestCapacity`. Where an operation only ever adds slots it is
enough to know how many it leaves, so the bound is asked for between requests and not within.
-/

namespace OpenAddressing

variable {κ ν ε α β : Type}

namespace Op

open Table

variable [Inhabited κ] [Inhabited ν] {rules : Rules κ ε} {s : Journal κ ν} {g h : κ → Int}

theorem rehash_capacity (rules : Rules κ ε) (s : Journal κ ν) (size : Int) :
    (rehash rules size).Outcome s (fun _ s' => s'.table.capacity = s.table.rehashCapacity size)
      (fun _ s' => s'.table.capacity = s.table.capacity) := by
  have hblank : (blank (s.table.rehashCapacity size) : Table κ ν).Fitted :=
    fitted_blank (Or.inr (isCapacity_rehashCapacity _ _))
  refine (rehash_cases rules s size).imp ?_ fun _ s' hs' => by rw [hs']; rfl
  intro _ s' hs'
  cases hs' with
  | renewed => exact capacity_blank (κ := κ) (ν := ν) _
  | rehashed _ hrefill =>
      have hfresh := refill_fitted rules s.table.renewed s.table.capacity 0 hblank
      rw [hrefill, gives_ok, capacity_blank] at hfresh
      exact hfresh.2

section Agreement

omit [Inhabited κ] [Inhabited ν]

/-- Two operations end alike, unless the first one leaves more slots than `widestCapacity`. -/
def Agrees (x y : Op κ ν ε α) (s : Journal κ ν) : Prop :=
  x.Outcome s (fun a s' => s'.table.capacity ≤ widestCapacity → y s = .ok a s')
    (fun fault s' => s'.table.capacity ≤ widestCapacity → y s = .error fault s')

theorem agrees_refl (x : Op κ ν ε α) (s : Journal κ ν) : x.Agrees x s := by
  unfold Agrees Outcome
  cases x s with
  | ok a s' => exact fun _ => rfl
  | error fault s' => exact fun _ => rfl

theorem Agrees.carry_eq {x y : Op κ ν ε α} (h : x.Agrees y s)
    (hle : (x.carry s).2.table.capacity ≤ widestCapacity) : x.carry s = y.carry s := by
  unfold Agrees Outcome at h
  unfold carry at hle ⊢
  cases hx : x s with
  | ok a s' =>
      rw [hx] at h hle
      rw [h hle]
  | error fault s' =>
      rw [hx] at h hle
      rw [h hle]

structure Shadows (x y : Op κ ν ε α) (s : Journal κ ν) : Prop where
  agrees : x.Agrees y s
  widens : x.Outcome s (fun _ s' => s.table.capacity ≤ s'.table.capacity)
    (fun _ s' => s.table.capacity ≤ s'.table.capacity)

theorem agrees_of_eq {x y : Op κ ν ε α} (h : s.table.capacity ≤ widestCapacity → x s = y s)
    (hs : x.Outcome s (fun _ s' => s'.table.capacity = s.table.capacity)
      (fun _ s' => s'.table.capacity = s.table.capacity)) : x.Agrees y s := by
  unfold Agrees Outcome at *
  cases hx : x s with
  | ok a s' =>
      rw [hx] at h hs
      exact fun hle => (h (hs ▸ hle)).symm
  | error fault s' =>
      rw [hx] at h hs
      exact fun hle => (h (hs ▸ hle)).symm

theorem shadows_of_eq {x y : Op κ ν ε α} (h : s.table.capacity ≤ widestCapacity → x s = y s)
    (hs : x.Outcome s (fun _ s' => s'.table.capacity = s.table.capacity)
      (fun _ s' => s'.table.capacity = s.table.capacity)) : x.Shadows y s :=
  ⟨agrees_of_eq h hs, hs.imp (fun _ _ heq => heq.ge) fun _ _ heq => heq.ge⟩

theorem shadows_query {f f' : Table κ ν → Except (Fault κ ε) α}
    (h : s.table.capacity ≤ widestCapacity → f s.table = f' s.table) :
    (query f).Shadows (query f') s := by
  refine shadows_of_eq (fun hle => by rw [query_run, query_run, h hle]) ?_
  rw [outcome_query]
  cases f s.table <;> rfl

theorem shadows_refl {x : Op κ ν ε α} (hs : x.Outcome s
    (fun _ s' => s'.table.capacity = s.table.capacity)
    (fun _ s' => s'.table.capacity = s.table.capacity)) : x.Shadows x s :=
  shadows_of_eq (fun _ => rfl) hs

theorem Shadows.of_run_eq {x x' y y' : Op κ ν ε α} (h : x'.Shadows y' s) (hx : x s = x' s)
    (hy : y s = y' s) : x.Shadows y s := by
  obtain ⟨hagrees, hwidens⟩ := h
  unfold Agrees Outcome at hagrees
  unfold Outcome at hwidens
  constructor
  · unfold Agrees Outcome
    rwa [hx, hy]
  · unfold Outcome
    rwa [hx]

theorem shadows_pure (a : α) : (pure a : Op κ ν ε α).Shadows (pure a) s :=
  shadows_refl rfl

/-- Once the first operation has left too many slots, the rest cannot take them away. -/
theorem Agrees.bind {x y : Op κ ν ε β} {f f' : β → Op κ ν ε α} {P : β → Journal κ ν → Prop}
    (hx : x.Agrees y s) (hpost : x.Outcome s P fun _ _ => True)
    (hf : ∀ b s', P b s' → (f b).Shadows (f' b) s') : (x >>= f).Agrees (y >>= f') s := by
  unfold Agrees Outcome at hx
  unfold Outcome at hpost
  unfold Agrees Outcome
  rw [bind_run, bind_run]
  cases hxs : x s with
  | error fault s' =>
      rw [hxs] at hx
      exact fun hle => by rw [hx hle]
  | ok b u =>
      rw [hxs] at hx hpost
      obtain ⟨hagrees, hwidens⟩ := hf b u hpost
      unfold Agrees Outcome at hagrees
      unfold Outcome at hwidens
      dsimp only at hx ⊢
      cases hfu : f b u with
      | ok a s' =>
          rw [hfu] at hagrees hwidens
          exact fun hle => by rw [hx (hwidens.trans hle)]; exact hagrees hle
      | error fault s' =>
          rw [hfu] at hagrees hwidens
          exact fun hle => by rw [hx (hwidens.trans hle)]; exact hagrees hle

theorem Agrees.map {x y : Op κ ν ε α} (h : x.Agrees y s) (f : α → β) :
    (do return f (← x) : Op κ ν ε β).Agrees (do return f (← y)) s := by
  have hpost : x.Outcome s (fun _ _ => True) fun _ _ => True := by
    unfold Outcome
    cases x s <;> trivial
  exact h.bind hpost fun a _ _ => shadows_pure (f a)

theorem Shadows.bind {x y : Op κ ν ε β} {f f' : β → Op κ ν ε α} {P : β → Journal κ ν → Prop}
    (hx : x.Shadows y s) (hpost : x.Outcome s P fun _ _ => True)
    (hf : ∀ b s', P b s' → (f b).Shadows (f' b) s') : (x >>= f).Shadows (y >>= f') s := by
  refine ⟨hx.agrees.bind hpost hf, (hx.widens.and hpost).bind ?_ fun _ _ hs' => hs'.1⟩
  intro b s' hs'
  have hle := hs'.1
  exact (hf b s' hs'.2).widens.imp (fun _ _ h => hle.trans h) fun _ _ h => hle.trans h

theorem shadows_query_bind {q q' : Table κ ν → Except (Fault κ ε) β} {f f' : β → Op κ ν ε α}
    (hq : s.table.capacity ≤ widestCapacity → q s.table = q' s.table)
    (hf : ∀ b, q s.table = .ok b → (f b).Shadows (f' b) s) :
    (query q >>= f).Shadows (query q' >>= f') s := by
  refine (shadows_query hq).bind (P := fun b s' => q s.table = .ok b ∧ s = s') ?_ ?_
  · rw [outcome_query]
    cases hb : q s.table with
    | ok b => exact ⟨rfl, rfl⟩
    | error fault => trivial
  · rintro b _ ⟨hb, rfl⟩
    exact hf b hb

theorem Leaves.post {I : Table κ ν → Prop} {x : Op κ ν ε α} (h : x.Leaves I s) :
    x.Outcome s (fun _ s' => I s'.table) fun _ _ => True :=
  h.imp (fun _ _ hs' => hs') fun _ _ _ => trivial

end Agreement

variable (rules) (hmod : ∀ key, g key ≡ h key [ZMOD 2 ^ 64])

include hmod

theorem rehash_agrees (size : Int) (hs : s.table.Accurate) :
    (rehash (rules.hashedBy g) size).Agrees (rehash (rules.hashedBy h) size) s := by
  have htotal (hash : κ → Int) (key : κ) : ∃ n, (rules.hashedBy hash).hash key = .ok n :=
    ⟨hash key, rfl⟩
  cases hroom : rules.demandRoom (s.table.rehashCapacity size) with
  | error fault =>
      have hlost (hash : κ → Int) : rehash (rules.hashedBy hash) size s =
          .error fault ⟨s.table.renewed, s.events⟩ := rehash_of_no_room hroom
      rw [Agrees, Outcome, hlost g]
      exact fun _ => hlost h
  | ok =>
      obtain ⟨a, s', hok, hcap⟩ := (rehash_total (htotal g) hs hroom).exists_ok fun _ _ hl => hl
      rw [Agrees, Outcome, hok]
      intro hle
      rw [← rehash_congr_of_le rules hmod (hcap ▸ hle), hok]

theorem rehash_shadows {size : Int} (hsize : (s.table.capacity : Int) ≤ size)
    (hs : s.table.Accurate) :
    (rehash (rules.hashedBy g) size).Shadows (rehash (rules.hashedBy h) size) s := by
  refine ⟨rehash_agrees rules hmod size hs, (rehash_capacity _ s size).imp ?_ ?_⟩
  · intro _ s' hcap
    have := le_rehashCapacity s.table size
    omega
  · exact fun _ _ hcap => hcap.ge

private theorem planWithin_shadows (key : κ) (retries : Nat) (hs : s.table.Accurate) :
    (planWithin (rules.hashedBy g) key (g key) retries).Shadows
      (planWithin (rules.hashedBy h) key (h key) retries) s := by
  induction retries generalizing s with
  | zero => exact shadows_refl rfl
  | succ retries ih =>
      rw [planWithin, planWithin, Tag.fingerprint_congr (hmod key)]
      refine shadows_query_bind (fun _ => rfl) fun capacity hcapacity => ?_
      cases hcapacity
      dsimp only
      split
      · next hzero =>
        have hcap := isCapacity_rehashCapacity s.table minCapacity
        refine (rehash_shadows rules hmod (by omega) hs).bind ((rehash_capacity _ s _).imp
          (fun _ _ hs' => hs') fun _ _ _ => trivial) fun _ s' hs' => shadows_query fun hle => ?_
        rw [← hs'] at hcap
        rw [hcap.mask_congr hle (hmod key)]
      · next hne =>
        refine shadows_query_bind
          (fun hle => hs.probe_congr (by omega) hle rules key (hmod key)) fun probed _ => ?_
        -- Both searches have met the same, so that both tables grow or neither does.
        cases probed with
        | found i => exact shadows_pure _
        | vacant i reach => exact shadows_refl rfl
        | exhausted =>
            have hreport : (report (.probeLimit key s.table.capacity) : Op κ ν ε Unit).Shadows
                (report (.probeLimit key s.table.capacity)) s := shadows_refl rfl
            refine shadows_query_bind (fun _ => rfl) fun _ _ => ?_
            refine hreport.bind (P := fun _ s' => s'.table = s.table) rfl fun _ s₁ hs₁ => ?_
            have hacc : s₁.table.Accurate := hs₁ ▸ hs
            refine (rehash_shadows rules hmod ?_ hacc).bind
              (rehash_leaves upheld_accurate _ _ hacc).post fun _ s₂ hs₂ => ih hs₂
            rw [hs₁]
            omega

theorem plan_shadows (key : κ) (hs : s.table.Accurate) :
    (plan (rules.hashedBy g) key).Shadows (plan (rules.hashedBy h) key) s :=
  (planWithin_shadows rules hmod key _ hs).of_run_eq (plan_run rfl s) (plan_run rfl s)

private theorem relieve_shadows (hs : s.table.Accurate) :
    (relieve (rules.hashedBy g)).Shadows (relieve (rules.hashedBy h)) s := by
  refine shadows_query_bind (fun _ => rfl) fun overloaded _ => ?_
  cases overloaded with
  | false => exact shadows_pure ()
  | true =>
      refine shadows_query_bind (fun _ => rfl) fun size hsize => ?_
      cases hsize
      exact rehash_shadows rules hmod (Int.le_max_right _ _) hs

theorem insertAt_shadows (key : κ) (value : ν) {plan : Plan} (hs : s.table.Accurate)
    (hplan : plan.Fits s.table) :
    (insertAt (rules.hashedBy g) key value plan).Shadows
      (insertAt (rules.hashedBy h) key value plan) s := by
  cases hplan with
  | @found i hi =>
      refine shadows_of_eq (fun _ => rfl) ?_
      rw [insertAt, outcome_bind, outcome_putVal (by rwa [hs.vals_size]), outcome_edit]
  | @vacant i hash hi =>
      have henter : (enter key value i (Tag.fingerprint hash).code : Op κ ν ε Unit).Outcome s
          (fun _ s' => s'.table.capacity = s.table.capacity)
          (fun _ s' => s'.table.capacity = s.table.capacity) := by
        refine (enter_cases hs.toFitted _ value hi).imp ?_ fun _ _ hs' => by rw [hs']
        rintro _ _ ⟨-, rfl⟩
        exact capacity_write s.table i (Tag.fingerprint hash) key value
      rw [insertAt_vacant, insertAt_vacant]
      exact (shadows_refl henter).bind (enter_leaves upheld_accurate hs key value hash hi).post
        fun _ _ hs' => relieve_shadows rules hmod hs'

theorem set_shadows (key : κ) (value : ν) (hs : s.table.Accurate) :
    (set (rules.hashedBy g) key value).Shadows (set (rules.hashedBy h) key value) s := by
  have hpost := (plan_ages (rules.hashedBy g) key hs.toFitted).and
    (plan_leaves upheld_accurate (rules.hashedBy g) key hs)
  refine (plan_shadows rules hmod key hs).bind
    (P := fun plan s' => plan.Fits s'.table ∧ s'.table.Accurate)
    (hpost.imp (fun _ _ hs' => ⟨hs'.1.2.1, hs'.2⟩) fun _ _ _ => trivial) fun plan _ hs' => ?_
  exact insertAt_shadows rules hmod key value hs'.2 hs'.1

theorem update_shadows (entries : List (Except ε (κ × ν))) (hs : s.table.Accurate) :
    (update (rules.hashedBy g) entries).Shadows (update (rules.hashedBy h) entries) s := by
  induction entries generalizing s with
  | nil => exact shadows_pure ()
  | cons entry rest ih =>
      cases entry with
      | error cause => exact shadows_refl rfl
      | ok entry =>
          exact (set_shadows rules hmod entry.1 entry.2 hs).bind
            (set_leaves upheld_accurate _ _ _ hs).post fun _ _ hs' => ih hs'

/-! ## Deletions -/

omit hmod in
private theorem deleteAt_capacity (hs : s.table.Fitted) (i : Nat) :
    (deleteAt i : Op κ ν ε Unit).Outcome s (fun _ s' => s'.table.capacity = s.table.capacity)
      (fun _ s' => s'.table.capacity = s.table.capacity) := by
  cases hf : (s.table.tagAt i).isFilled with
  | true =>
      exact (deleteAt_outcome hs hf).imp (fun _ _ hs' => hs'.capacity_eq) fun _ _ hl => hl.elim
  | false =>
      apply (deleteAt_outcome_of_not_filled hf).imp (fun _ _ hl => hl.elim)
      intro _ _ hs'
      rw [hs']

omit hmod in
theorem deleteAt_bind_shadows (hs : s.table.Fitted) (i : Nat) (a : α) :
    (do deleteAt i; pure a : Op κ ν ε α).Shadows (do deleteAt i; pure a) s :=
  shadows_refl ((deleteAt_capacity hs i).bind (fun _ _ hs' => hs') fun _ _ hs' => hs')

theorem delete_shadows (key : κ) (hs : s.table.Accurate) :
    (delete (rules.hashedBy g) key : Op κ ν ε Bool).Shadows (delete (rules.hashedBy h) key) s := by
  refine shadows_query_bind (fun hle => hs.find?_congr hle rules (hmod key)) fun found _ => ?_
  cases found with
  | none => exact shadows_pure false
  | some i => exact deleteAt_bind_shadows hs.toFitted i true

theorem pop?_shadows (key : κ) (hs : s.table.Accurate) :
    (pop? (rules.hashedBy g) key : Op κ ν ε (Option ν)).Shadows
      (pop? (rules.hashedBy h) key) s := by
  refine shadows_query_bind (fun hle => hs.find?_congr hle rules (hmod key)) fun found _ => ?_
  cases found with
  | none => exact shadows_pure none
  | some i =>
      refine shadows_query_bind (fun _ => rfl) fun value _ => ?_
      exact deleteAt_bind_shadows hs.toFitted i (some value)

end Op

/-! ## Questions -/

namespace Table

variable {t : Table κ ν} {g h : κ → Int} (rules : Rules κ ε)
  (hmod : ∀ key, g key ≡ h key [ZMOD 2 ^ 64])

include hmod

private theorem Accurate.auditSlots_congr (ht : t.Accurate) (hpos : 0 < t.capacity)
    (hle : t.capacity ≤ widestCapacity) (n i live dead : Nat) :
    t.auditSlots (rules.hashedBy g) n i live dead =
      t.auditSlots (rules.hashedBy h) n i live dead := by
  have hentry (i : Nat) (tag : Tag) :
      t.auditEntry (rules.hashedBy g) i tag = t.auditEntry (rules.hashedBy h) i tag := by
    have hmask (key : κ) : mask t.capacity (i - g key) = mask t.capacity (i - h key) :=
      (ht.isCapacity hpos).mask_congr hle ((Int.ModEq.refl i).sub (hmod key))
    have hfind (key : κ) : t.find? (rules.hashedBy g) key = t.find? (rules.hashedBy h) key :=
      ht.find?_congr hle rules (hmod key)
    simp only [auditEntry, hashOf_hashedBy, Tag.fingerprint_congr (hmod _), hmask, hfind, bind,
      Except.bind]
  induction n generalizing i live dead with
  | zero => rfl
  | succ n ih => simp only [auditSlots, hentry, ih]

theorem Accurate.audit_congr (ht : t.Accurate) (hle : t.capacity ≤ widestCapacity) :
    t.audit (rules.hashedBy g) = t.audit (rules.hashedBy h) := by
  by_cases hzero : t.capacity = 0
  · simp only [audit, hzero, auditSlots]
  · simp only [audit, ht.auditSlots_congr rules hmod (by omega) hle]

end Table

namespace Shelf

open Op

inductive Demand (κ ν ε : Type) where
  | ask (question : Question κ ν)
  | survey (survey : Survey)
  | change (change : Change κ ν ε)
  | plan (key : κ)

variable {rules : Rules κ ε} {s : Journal κ ν} {g h : κ → Int}

theorem Question.answer_congr (manner : Manner κ ν ε) (rules : Rules κ ε) {t : Table κ ν}
    (hmod : ∀ key, g key ≡ h key [ZMOD 2 ^ 64]) (ht : t.Accurate)
    (hle : t.capacity ≤ widestCapacity) (question : Question κ ν) :
    question.answer manner (rules.hashedBy g) t = question.answer manner (rules.hashedBy h) t := by
  have hfind (key : κ) : t.find? (rules.hashedBy g) key = t.find? (rules.hashedBy h) key :=
    ht.find?_congr hle rules (hmod key)
  have haudit := ht.audit_congr rules hmod hle
  cases question <;>
    simp only [answer, Table.get?, Table.getKey?, Table.get, Table.contains, hfind, haudit]

variable [Inhabited κ] [Inhabited ν]

def Demand.op (manner : Manner κ ν ε) (rules : Rules κ ε) :
    Demand κ ν ε → Op κ ν ε (Answer κ ν ε)
  | .ask question => query fun t => question.answer manner rules t
  | .survey s => s.op manner
  | .change c => c.op rules
  | .plan key => return .plan (← Op.plan rules key)

def Demand.onTable (manner : Manner κ ν ε) (rules : Rules κ ε) (demand : Demand κ ν ε)
    (s : Journal κ ν) : Except (Fault κ ε) (Answer κ ν ε) × Journal κ ν :=
  (demand.op manner rules).carry s

theorem Demand.op_accurate (manner : Manner κ ν ε) (rules : Rules κ ε) (demand : Demand κ ν ε)
    (hs : s.table.Accurate) : (demand.op manner rules).Leaves Table.Accurate s := by
  cases demand with
  | ask question => exact query_leaves hs fun t => question.answer manner rules t
  | survey survey => exact survey.op_leaves Table.upheld_accurate manner hs
  | change change => exact change.op_leaves Table.upheld_accurate rules hs
  | plan key => exact (plan_leaves Table.upheld_accurate rules key hs).bind fun _ _ hs' => hs'

theorem Demand.onTable_accurate (manner : Manner κ ν ε) (rules : Rules κ ε)
    (demand : Demand κ ν ε) (hs : s.table.Accurate) :
    (demand.onTable manner rules s).2.table.Accurate := by
  rcases (demand.op_accurate manner rules hs).carry with ⟨_, _, h⟩ | ⟨_, _, h⟩
  · exact h
  · exact h

section Congruent

variable (manner : Manner κ ν ε) (rules) (hmod : ∀ key, g key ≡ h key [ZMOD 2 ^ 64])

include hmod

omit manner in
theorem Change.op_agrees (change : Change κ ν ε) (hs : s.table.Accurate) :
    (change.op (rules.hashedBy g)).Agrees (change.op (rules.hashedBy h)) s := by
  cases change with
  | set key value => exact (set_shadows rules hmod key value hs).agrees.map fun _ => Answer.nothing
  | delete key => exact (delete_shadows rules hmod key hs).agrees.map Answer.bool
  | remove key =>
      have hremove : (Op.remove (rules.hashedBy g) key : Op κ ν ε Unit).Shadows
          (Op.remove (rules.hashedBy h) key) s :=
        (delete_shadows rules hmod key hs).bind (delete_leaves Table.upheld_accurate _ key hs).post
          fun deleted _ _ => by cases deleted <;> exact shadows_refl rfl
      exact hremove.agrees.map fun _ => Answer.nothing
  | pop key default =>
      have hpop? := pop?_shadows rules hmod key hs
      cases default with
      | none =>
          have hpop : (Op.pop (rules.hashedBy g) key : Op κ ν ε ν).Shadows
              (Op.pop (rules.hashedBy h) key) s :=
            hpop?.bind (pop?_leaves Table.upheld_accurate _ key hs).post fun value _ _ =>
              by cases value <;> exact shadows_refl rfl
          exact hpop.agrees.map Answer.value
      | some default => exact hpop?.agrees.map fun value => Answer.value (value.getD default)
  | clear => exact agrees_refl _ s
  | free => exact agrees_refl _ s
  | rehash size => exact (rehash_agrees rules hmod size hs).map fun _ => Answer.nothing
  | update entries =>
      exact (update_shadows rules hmod entries hs).agrees.map fun _ => Answer.nothing
  | deleteAt i => exact agrees_refl _ s

theorem Demand.op_agrees (demand : Demand κ ν ε) (hs : s.table.Accurate) :
    (demand.op manner (rules.hashedBy g)).Agrees (demand.op manner (rules.hashedBy h)) s := by
  cases demand with
  | ask question =>
      have hquery : (query fun t => question.answer manner (rules.hashedBy g) t :
          Op κ ν ε (Answer κ ν ε)).Shadows (query fun t => question.answer manner _ t) s :=
        shadows_query fun hle => question.answer_congr manner rules hmod hs hle
      exact hquery.agrees
  | survey survey => exact agrees_refl _ s
  | change change => exact change.op_agrees rules hmod hs
  | plan key => exact (plan_shadows rules hmod key hs).agrees.map Answer.plan

/-- As long as demands leave no more than `widestCapacity` slots, one hash does what the other
does. -/
theorem run_congr (demands : List (Demand κ ν ε)) (hs : s.table.Accurate)
    (hnarrow : ∀ n ≤ demands.length,
      (runAll (Demand.onTable manner (rules.hashedBy g)) (demands.take n) s).2.table.capacity ≤
        widestCapacity) :
    runAll (Demand.onTable manner (rules.hashedBy g)) demands s =
      runAll (Demand.onTable manner (rules.hashedBy h)) demands s := by
  induction demands generalizing s with
  | nil => simp only [runAll]
  | cons demand rest ih =>
      have hfirst := hnarrow 1 (by simp)
      rw [List.take_succ_cons, List.take_zero, runAll_cons] at hfirst
      have hstep : demand.onTable manner (rules.hashedBy g) s =
          demand.onTable manner (rules.hashedBy h) s :=
        (demand.op_agrees rules manner hmod hs).carry_eq hfirst
      have hlater (n : Nat) (hn : n ≤ rest.length) := hnarrow (n + 1) (by simpa using hn)
      simp only [List.take_succ_cons, runAll_cons] at hlater
      have hrest := ih (demand.onTable_accurate manner (rules.hashedBy g) hs) hlater
      rw [runAll_cons, runAll_cons, hrest, hstep]

end Congruent

/-- Two hashes that are congruent modulo `2 ^ 64` for every key cannot be told apart by any run on
a table that keeps to `widestCapacity` slots, whatever counts as equal keys: after each demand all
answers and faults so far, the storage, the counters and the events are the same. So a hash can be
replaced by its lowest 64 bits. -/
theorem runs_depend_on_hash_residues (manner : Manner κ ν ε) (rules : Rules κ ε)
    (hmod : ∀ key, g key ≡ h key [ZMOD 2 ^ 64]) (hint : Int) (demands : List (Demand κ ν ε))
    (hnarrow : ∀ n ≤ demands.length, (runAll (Demand.onTable manner (rules.hashedBy g))
      (demands.take n) ⟨Table.new hint, #[]⟩).2.table.capacity ≤ widestCapacity) :
    ∀ n ≤ demands.length,
      let run (hash : κ → Int) :=
        runAll (Demand.onTable manner (rules.hashedBy hash)) (demands.take n) ⟨Table.new hint, #[]⟩
      run g = run h ∧ run g = run (masked g) := by
  intro n hn run
  have hnew : (Table.new hint : Table κ ν).Accurate :=
    Table.accurate_blank (Or.inr (isCapacity_capacityFor hint)) 0
  have hbefore : ∀ m ≤ (demands.take n).length,
      (runAll (Demand.onTable manner (rules.hashedBy g)) ((demands.take n).take m)
        ⟨Table.new hint, #[]⟩).2.table.capacity ≤ widestCapacity := by
    intro m hm
    rw [List.take_take]
    exact hnarrow (min m n) (by omega)
  have hmasked (key : κ) : g key ≡ masked g key [ZMOD 2 ^ 64] := (masked_modEq g key).symm
  exact ⟨run_congr rules manner hmod (demands.take n) hnew hbefore,
    run_congr rules manner hmasked (demands.take n) hnew hbefore⟩

/-- Hashes below zero and hashes of 66 bits lead to the same slots, through two rehashes. Keys that
end in the same two digits are equal here although their hashes are not congruent. -/
theorem runs_depend_on_hash_residues_wide :
    let rules : Rules Nat Empty := .through (· % 100) Int.ofNat 64000 none
    let low (n : Nat) : Int := n - 0x10000000000000000
    let high (n : Nat) : Int := n + 0x30000000000000000
    let demands : List (Demand Nat Nat Empty) :=
      (List.range 11).map (fun n => .change (.set (17 * n) n)) ++
        [.change (.delete 34), .plan 2, .ask .audit, .change (.rehash 16), .survey .items]
    let run (hash : Nat → Int) := runAll (Demand.onTable Manner.decimal (rules.hashedBy hash))
      demands ⟨Table.new 0, #[]⟩
    (run low).2.table.capacity = 16 ∧ run low = run high ∧ run low = run (masked low) := by
  intro rules low high demands run
  have hmod (n : Nat) : low n ≡ high n [ZMOD 2 ^ 64] :=
    Int.modEq_iff_dvd.mpr ⟨4, by simp only [low, high]; omega⟩
  have hcap : (run low).2.table.capacity = 16 := by decide +kernel
  have hnarrow : ∀ n ≤ demands.length,
      (runAll (Demand.onTable Manner.decimal (rules.hashedBy low)) (demands.take n)
        ⟨Table.new 0, #[]⟩).2.table.capacity ≤ widestCapacity := by decide +kernel
  exact ⟨hcap,
    runs_depend_on_hash_residues Manner.decimal rules hmod 0 demands hnarrow _ (Nat.le_refl _)⟩

end Shelf

end OpenAddressing
