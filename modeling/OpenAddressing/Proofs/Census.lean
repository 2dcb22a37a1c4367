import OpenAddressing.Proofs.Detection

/-!
# Counts and floors under any rules

Whatever the rules, however inconsistent, and wherever an operation stops: the count of a table is
the number of its entries, and its floor is below them all. Tombstones are counted too, and there
are no other slots but empty ones. An operation has to write a slot and to put the counts and the
floor right as well, and no fault may come in between. A property that the single changes keep is
therefore kept by all operations, and by all requests.
-/

namespace OpenAddressing

variable {κ ν ε α β : Type}

namespace Table

variable {t t' : Table κ ν} {i : Nat}

structure Accurate (t : Table κ ν) : Prop extends t.Fitted where
  count_eq : t.count = t.tally Tag.isFilled
  floor_nonneg : 0 ≤ t.floor
  floor_le : ∀ i, (t.tagAt i).isFilled = true → t.floor ≤ i

namespace Accurate

theorem visitable (h : t.Accurate) : t.Visitable :=
  ⟨h.keys_size, h.vals_size, h.floor_nonneg, h.floor_le⟩

theorem of_sameSlots (h : t.Accurate) (hs : t.SameSlots t') (hcount : t'.count = t.count)
    (hnonneg : 0 ≤ t'.floor) (hfloor : ∀ i, (t.tagAt i).isFilled = true → t'.floor ≤ i) :
    t'.Accurate where
  toFitted := h.toFitted.of_sameSlots hs
  count_eq := by rw [hs.tally_eq, hcount, h.count_eq]
  floor_nonneg := hnonneg
  floor_le i hf := by
    rw [hs.tagAt_eq] at hf
    exact hfloor i hf

theorem setVal (h : t.Accurate) (i : Nat) (value : ν) :
    ({ t with vals := t.vals.setIfInBounds i value }).Accurate where
  keys_size := h.keys_size
  vals_size := Array.size_setIfInBounds.trans h.vals_size
  capacity := h.capacity
  count_eq := h.count_eq
  floor_nonneg := h.floor_nonneg
  floor_le := h.floor_le

theorem fill (h : t.Accurate) (hi : i < t.capacity) (hfree : (t.tagAt i).isFilled = false)
    {tag : Tag} (htag : tag.isFilled = true) {key : κ} {value : ν}
    (hs : (t.write i tag key value).SameSlots t') (hcount : t'.count = t.count + 1)
    (hfloor : t'.floor = min (i : Int) t.floor) : t'.Accurate where
  toFitted := (h.toFitted.write i tag key value).of_sameSlots hs
  count_eq := by
    have htally := tally_write hi tag key value Tag.isFilled
    have hold := h.count_eq
    simp only [hfree, htag, Bool.false_eq_true, if_true, if_false] at htally
    rw [hs.tally_eq, hcount]
    omega
  floor_nonneg := by
    have := h.floor_nonneg
    omega
  floor_le j hf := by
    rw [hs.tagAt_eq, tagAt_write hi] at hf
    split at hf
    · omega
    · have := h.floor_le j hf
      omega

end Accurate

theorem accurate_blank [Inhabited κ] [Inhabited ν] {size : Nat} (h : size = 0 ∨ IsCapacity size)
    (age : Int) : ({ (blank size : Table κ ν) with age := age }).Accurate where
  toFitted := (fitted_blank h).of_sameSlots ⟨rfl, rfl, rfl⟩
  count_eq := by
    have hs : (blank size : Table κ ν).SameSlots { (blank size : Table κ ν) with age := age } :=
      ⟨rfl, rfl, rfl⟩
    rw [hs.tally_eq, tally_blank size Tag.isFilled_empty]
    rfl
  floor_nonneg := Int.le_refl 0
  floor_le _ _ := Int.natCast_nonneg _

theorem Deleted.accurate [Inhabited κ] [Inhabited ν] (h : Deleted t i t') (ht : t.Accurate)
    (hf : (t.tagAt i).isFilled = true) : t'.Accurate := by
  have hi := lt_of_isFilled hf
  have hc := ht.isCapacity (Nat.zero_lt_of_lt hi)
  have hfit := h.fitted ht.toFitted
  obtain ⟨-, -, hfloor, -⟩ := h.counters
  refine ⟨hfit, h.count_eq hi hc hf ht.count_eq, by rw [hfloor]; exact ht.floor_nonneg,
    fun j hj => ?_⟩
  -- The floor is kept, and entries that are left were there before.
  obtain ⟨k, v, hk⟩ := exists_holds hfit.keys_size hfit.vals_size hj
  rw [hfloor]
  exact ht.floor_le j ((h.holds_iff hi hc).mp hk).2.filled

/-- A property of accurate tables that blank ones have, and that is kept by each change which an
operation makes to storage and counters. -/
structure Upheld [Inhabited κ] [Inhabited ν] (I : Table κ ν → Prop) : Prop where
  accurate {t : Table κ ν} (h : I t) : t.Accurate
  blank {size : Nat} (h : size = 0 ∨ IsCapacity size) (age : Int) :
    I { (Table.blank size : Table κ ν) with age := age }
  congr {t t' : Table κ ν} (h : I t) (hs : t.SameSlots t') (hcount : t'.count = t.count)
    (hdead : t'.dead = t.dead) (hnonneg : 0 ≤ t'.floor)
    (hfloor : ∀ i, (t.tagAt i).isFilled = true → t'.floor ≤ i) : I t'
  setVal {t : Table κ ν} (h : I t) (i : Nat) (value : ν) :
    I { t with vals := t.vals.setIfInBounds i value }
  fill {t t' : Table κ ν} {i : Nat} {tag : Tag} {key : κ} {value : ν} (h : I t)
    (hi : i < t.capacity) (hfree : (t.tagAt i).isFilled = false) (htag : tag.isFilled = true)
    (hs : (t.write i tag key value).SameSlots t') (hcount : t'.count = t.count + 1)
    (hdead : t'.dead = t.dead - if t.tagAt i = .tombstone then 1 else 0)
    (hfloor : t'.floor = min (i : Int) t.floor) : I t'
  deleted {t t' : Table κ ν} {i : Nat} (h : I t) (hf : (t.tagAt i).isFilled = true)
    (hdel : Deleted t i t') : I t'

theorem upheld_accurate [Inhabited κ] [Inhabited ν] : Upheld (Accurate : Table κ ν → Prop) where
  accurate h := h
  blank := accurate_blank
  congr h hs hcount _ := h.of_sameSlots hs hcount
  setVal h := h.setVal
  fill h hi hfree htag hs hcount _ := h.fill hi hfree htag hs hcount
  deleted h hf hdel := hdel.accurate h hf

/-! ## Tombstones -/

def Tagged (t : Table κ ν) : Prop :=
  ∀ i, t.tagAt i = .empty ∨ t.tagAt i = .tombstone ∨ (t.tagAt i).isFilled = true

/-- Accurate, with a tag in each slot that slots have, and the tombstones are counted. -/
structure Legible (t : Table κ ν) : Prop extends t.Accurate where
  tagged : t.Tagged
  dead_eq : t.dead = t.tally isTombstone

namespace Legible

theorem of_sameSlots (h : t.Legible) (hs : t.SameSlots t') (hcount : t'.count = t.count)
    (hdead : t'.dead = t.dead) (hnonneg : 0 ≤ t'.floor)
    (hfloor : ∀ i, (t.tagAt i).isFilled = true → t'.floor ≤ i) : t'.Legible where
  toAccurate := h.toAccurate.of_sameSlots hs hcount hnonneg hfloor
  tagged i := by
    rw [hs.tagAt_eq]
    exact h.tagged i
  dead_eq := by rw [hs.tally_eq, hdead, h.dead_eq]

theorem setVal (h : t.Legible) (i : Nat) (value : ν) :
    ({ t with vals := t.vals.setIfInBounds i value }).Legible where
  toAccurate := h.toAccurate.setVal i value
  tagged := h.tagged
  dead_eq := h.dead_eq

theorem fill (h : t.Legible) (hi : i < t.capacity) (hfree : (t.tagAt i).isFilled = false)
    {tag : Tag} (htag : tag.isFilled = true) {key : κ} {value : ν}
    (hs : (t.write i tag key value).SameSlots t') (hcount : t'.count = t.count + 1)
    (hdead : t'.dead = t.dead - if t.tagAt i = .tombstone then 1 else 0)
    (hfloor : t'.floor = min (i : Int) t.floor) : t'.Legible where
  toAccurate := h.toAccurate.fill hi hfree htag hs hcount hfloor
  tagged j := by
    rw [hs.tagAt_eq, tagAt_write hi]
    split
    · exact Or.inr (Or.inr htag)
    · exact h.tagged j
  dead_eq := by
    have htally := tally_write hi tag key value isTombstone
    have hnew : isTombstone tag = false := by
      cases hkind : isTombstone tag with
      | false => rfl
      | true =>
          rw [isTombstone_iff.mp hkind] at htag
          cases htag
    have hold := h.dead_eq
    simp only [hnew, isTombstone_iff, Bool.false_eq_true, if_false, Nat.add_zero] at htally
    rw [hs.tally_eq, hdead]
    split at htally
    · next htomb =>
      rw [if_pos htomb]
      omega
    · next htomb =>
      rw [if_neg htomb]
      omega

variable [Inhabited κ] [Inhabited ν]

theorem blank {size : Nat} (h : size = 0 ∨ IsCapacity size) (age : Int) :
    ({ (Table.blank size : Table κ ν) with age := age }).Legible where
  toAccurate := accurate_blank h age
  tagged i := Or.inl (tagAt_blank (κ := κ) (ν := ν) size i)
  dead_eq := by
    have hs : (Table.blank size : Table κ ν).SameSlots
        { (Table.blank size : Table κ ν) with age := age } := ⟨rfl, rfl, rfl⟩
    rw [hs.tally_eq, tally_blank size rfl]
    rfl

end Legible

theorem Tagged.wiped [Inhabited κ] [Inhabited ν] (h : t.Tagged) (hi : i < t.capacity) {tag : Tag}
    (htag : tag = .empty ∨ tag = .tombstone) : (t.wiped i tag).Tagged := by
  intro j
  rw [Table.wiped, tagAt_write hi]
  split
  · exact htag.imp_right Or.inl
  · exact h j

theorem Deleted.legible [Inhabited κ] [Inhabited ν] (h : Deleted t i t') (ht : t.Legible)
    (hf : (t.tagAt i).isFilled = true) : t'.Legible := by
  have hi := lt_of_isFilled hf
  have hc := ht.isCapacity (Nat.zero_lt_of_lt hi)
  refine ⟨h.accurate ht.toAccurate hf, ?_, h.dead_eq hi hc hf ht.dead_eq⟩
  cases h with
  | buried => exact ht.tagged.wiped hi (Or.inr rfl)
  | vacated hnext hu =>
      exact hu.induct (P := Tagged) ht.tagged hi hc hnext fun u j hu' _ hj _ =>
        hu'.wiped hj (Or.inl rfl)

theorem upheld_legible [Inhabited κ] [Inhabited ν] : Upheld (Legible : Table κ ν → Prop) where
  accurate h := h.toAccurate
  blank := Legible.blank
  congr h := h.of_sameSlots
  setVal h := h.setVal
  fill h hi hfree htag hs hcount hdead hfloor := h.fill hi hfree htag hs hcount hdead hfloor
  deleted h hf hdel := hdel.legible h hf

/-! ## What is upheld -/

namespace Upheld

variable [Inhabited κ] [Inhabited ν] {I : Table κ ν → Prop}

theorem frame (h : Upheld I) (ht : I t) (hs : t.SameSlots t') (hcount : t'.count = t.count)
    (hdead : t'.dead = t.dead) (hfloor : t'.floor = t.floor) : I t' := by
  refine h.congr ht hs hcount hdead ?_ ?_
  · rw [hfloor]
    exact (h.accurate ht).floor_nonneg
  · rw [hfloor]
    exact (h.accurate ht).floor_le

theorem refloored (h : Upheld I) (ht : I t) (hs : t.Refloored t') : I t' := by
  obtain ⟨floor, rfl, hnonneg, hbelow⟩ := hs
  exact h.congr ht ⟨rfl, rfl, rfl⟩ rfl rfl hnonneg hbelow

theorem refill (h : Upheld I) (rules : Rules κ ε) (old : Table κ ν) (n i : Nat)
    {fresh : Table κ ν} (ht : I fresh) (hfloor : fresh.floor = 0) (hc : IsCapacity fresh.capacity) :
    Gives (refill rules old n i fresh) I fun _ => True := by
  induction n generalizing i fresh with
  | zero => exact ht
  | succ n ih =>
      rw [Table.refill]
      split
      · next hf =>
        refine gives_bind_of_forall fun key => gives_bind_of_forall fun hash => ?_
        have hvacancy := vacancy?_spec hc hash fresh.capacity 0 fun e he => by omega
        rw [along_zero] at hvacancy
        dsimp only
        split
        · trivial
        · next j hj =>
          rw [hj] at hvacancy
          obtain ⟨e, -, halong, hempty, -⟩ := hvacancy
          have hlt : j < fresh.capacity := halong ▸ hc.along_lt hash e
          refine gives_bind_of_forall fun value => ih _ ?_ hfloor ?_
          -- No slot lies below the floor of new storage, so it need not be lowered.
          · refine h.fill ht hlt (by rw [hempty]; rfl) hf ⟨rfl, rfl, rfl⟩ rfl ?_ ?_
            · rw [hempty, if_neg (by decide), Int.sub_zero]
              rfl
            · simp only [occupy]
              omega
          · exact (capacity_write fresh j (old.tagAt i) key value).symm ▸ hc
      · exact ih _ ht hfloor hc

end Upheld

end Table

namespace Op

open Table

variable {s : Journal κ ν} {I : Table κ ν → Prop}

/-- Begun in `s`, the operation leaves a table with the property, however it ends. -/
def Leaves (I : Table κ ν → Prop) (op : Op κ ν ε α) (s : Journal κ ν) : Prop :=
  op.Outcome s (fun _ s' => I s'.table) (fun _ s' => I s'.table)

theorem Leaves.bind {x : Op κ ν ε β} {f : β → Op κ ν ε α} (hx : x.Leaves I s)
    (hf : ∀ b s', I s'.table → (f b).Leaves I s') : (x >>= f).Leaves I s :=
  Outcome.bind hx hf fun _ _ hs' => hs'

theorem query_leaves (hs : I s.table) (f : Table κ ν → Except (Fault κ ε) α) :
    (query f).Leaves I s := by
  refine outcome_query.mpr ?_
  cases f s.table with
  | ok a => exact hs
  | error fault => exact hs

variable [Inhabited κ] [Inhabited ν] (h : Upheld I) (rules : Rules κ ε)

include h

omit rules in
theorem putVal_leaves (hs : I s.table) (i : Nat) (value : ν) :
    (putVal i value : Op κ ν ε Unit).Leaves I s :=
  (query_leaves hs _).bind fun i _ hs₁ => h.setVal hs₁ i value

omit rules in
/-- An entry that goes into a slot below the floor takes the floor along. -/
theorem enter_leaves (hs : I s.table) (key : κ) (value : ν) (hash : Int) {i : Nat}
    (hi : i < s.table.capacity) :
    (enter key value i (Tag.fingerprint hash).code : Op κ ν ε Unit).Leaves I s := by
  refine (enter_cases (h.accurate hs).toFitted _ value hi).imp ?_ fun _ s' hs' => hs' ▸ hs
  intro _ s' hs'
  obtain ⟨hfree, rfl⟩ := hs'
  exact h.fill hs hi hfree (Tag.isFilled_fingerprint hash) ⟨rfl, rfl, rfl⟩ rfl rfl rfl

omit rules in
theorem filledFromFloor?_leaves (hs : I s.table) :
    (filledFromFloor? : Op κ ν ε (Option Int)).Leaves I s :=
  (filledFromFloor?_visits (h.accurate hs).visitable).imp
    (fun _ _ hs' => h.refloored hs hs'.2) fun _ _ hl => hl.elim

omit rules in
theorem iterate_none_leaves (hs : I s.table) :
    (iterate none : Op κ ν ε (Option (Step κ ν))).Leaves I s :=
  (iterate_none_visits (h.accurate hs).visitable).imp
    (fun _ _ hs' => h.refloored hs hs'.2) fun _ _ hl => hl.elim

omit rules in
theorem items_leaves (hs : I s.table) : (items : Op κ ν ε (Array (κ × ν))).Leaves I s :=
  (items_visits (h.accurate hs).visitable).imp
    (fun _ _ hs' => h.refloored hs hs'.2) fun _ _ hl => hl.elim

theorem rehash_leaves (size : Int) (hs : I s.table) : (rehash rules size).Leaves I s := by
  have hc : IsCapacity (s.table.rehashCapacity size) := isCapacity_rehashCapacity _ _
  have hblank : I (blank (s.table.rehashCapacity size)) := h.blank (Or.inr hc) 0
  have hrenewed : I s.table.renewed :=
    h.congr hs (sameSlots_renewed _) rfl rfl (Int.le_refl 0) fun i _ => Int.natCast_nonneg i
  refine (rehash_cases rules s size).imp ?_ fun _ s' hs' => hs' ▸ hrenewed
  intro _ s' hs'
  cases hs' with
  | renewed => exact h.blank (Or.inr hc) _
  | rehashed _ hrefill =>
      have hfresh := h.refill rules s.table.renewed s.table.capacity 0 hblank rfl
        (by rwa [capacity_blank])
      rw [hrefill] at hfresh
      exact h.frame hfresh ⟨rfl, rfl, rfl⟩ rfl rfl rfl

private theorem planWithin_leaves (key : κ) (hash : Int) (retries : Nat) (hs : I s.table) :
    (planWithin rules key hash retries).Leaves I s := by
  induction retries generalizing s with
  | zero => exact hs
  | succ retries ih =>
      refine (query_leaves hs _).bind fun capacity s₁ hs₁ => ?_
      dsimp only
      split
      · exact (rehash_leaves h rules _ hs₁).bind fun _ s₂ hs₂ => query_leaves hs₂ _
      · refine (query_leaves hs₁ _).bind fun probed s₂ hs₂ => ?_
        cases probed with
        | found i => exact hs₂
        | vacant i reach => exact h.frame hs₂ ⟨rfl, rfl, rfl⟩ rfl rfl rfl
        | exhausted =>
            refine (query_leaves hs₂ _).bind fun _ s₃ hs₃ => ?_
            have hreport : (report (.probeLimit key capacity) : Op κ ν ε Unit).Leaves I s₃ := hs₃
            refine hreport.bind fun _ s₄ hs₄ => ?_
            exact (rehash_leaves h rules _ hs₄).bind fun _ s₅ hs₅ => ih hs₅

theorem plan_leaves (key : κ) (hs : I s.table) : (plan rules key).Leaves I s :=
  (query_leaves hs _).bind fun hash _ hs₁ => (query_leaves hs₁ _).bind fun _ _ hs₂ =>
    planWithin_leaves h rules key hash _ hs₂

private theorem relieve_leaves (hs : I s.table) : (relieve rules).Leaves I s := by
  refine (query_leaves hs _).bind fun overloaded s₁ hs₁ => ?_
  cases overloaded with
  | false => exact hs₁
  | true => exact (query_leaves hs₁ _).bind fun size s₂ hs₂ => rehash_leaves h rules size hs₂

theorem insertAt_leaves (key : κ) (value : ν) {plan : Plan} (hs : I s.table)
    (hplan : plan.Fits s.table) : (insertAt rules key value plan).Leaves I s := by
  cases hplan with
  | @found i hi =>
      exact (putVal_leaves h hs i value).bind fun _ s₁ hs₁ =>
        h.frame hs₁ ⟨rfl, rfl, rfl⟩ rfl rfl rfl
  | @vacant i hash hi =>
      rw [insertAt_vacant]
      exact (enter_leaves h hs key value hash hi).bind fun _ s' hs' => relieve_leaves h rules hs'

theorem set_leaves (key : κ) (value : ν) (hs : I s.table) : (set rules key value).Leaves I s := by
  -- A plan may come with a rehash, and it fits the table that is left by that.
  refine ((plan_ages rules key (h.accurate hs).toFitted).and (plan_leaves h rules key hs)).bind ?_
    fun _ _ hs' => hs'.2
  exact fun p s' hs' => insertAt_leaves h rules key value hs'.2 hs'.1.2.1

omit rules in
theorem deleteAt_leaves (hs : I s.table) (i : Nat) : (deleteAt i : Op κ ν ε Unit).Leaves I s := by
  cases hf : (s.table.tagAt i).isFilled with
  | true =>
      exact (deleteAt_outcome (h.accurate hs).toFitted hf).imp
        (fun _ _ hs' => h.deleted hs hf hs') fun _ _ hl => hl.elim
  | false =>
      refine (deleteAt_outcome_of_not_filled hf).imp (fun _ _ hl => hl.elim) fun _ _ hs' => ?_
      rwa [hs']

theorem delete_leaves (key : κ) (hs : I s.table) :
    (delete rules key : Op κ ν ε Bool).Leaves I s := by
  refine (query_leaves hs _).bind fun found s₁ hs₁ => ?_
  cases found with
  | none => exact hs₁
  | some i => exact (deleteAt_leaves h hs₁ i).bind fun _ _ hs₂ => hs₂

theorem pop?_leaves (key : κ) (hs : I s.table) :
    (pop? rules key : Op κ ν ε (Option ν)).Leaves I s := by
  refine (query_leaves hs _).bind fun found s₁ hs₁ => ?_
  cases found with
  | none => exact hs₁
  | some i =>
      refine (query_leaves hs₁ _).bind fun value s₂ hs₂ => ?_
      exact (deleteAt_leaves h hs₂ i).bind fun _ _ hs₃ => hs₃

theorem update_leaves (entries : List (Except ε (κ × ν))) (hs : I s.table) :
    (update rules entries).Leaves I s := by
  induction entries generalizing s with
  | nil => exact hs
  | cons entry rest ih =>
      cases entry with
      | error cause => exact hs
      | ok entry => exact (set_leaves h rules entry.1 entry.2 hs).bind fun _ _ hs₁ => ih hs₁

theorem mergeWith_leaves (combine : Nat → ν → ν → Except ε ν) (serial : Nat)
    (entries : List (κ × ν)) (hs : I s.table) :
    (mergeWith rules combine serial entries).Leaves I s := by
  induction entries generalizing s serial with
  | nil => exact hs
  | cons entry rest ih =>
      rw [mergeWith]
      refine (query_leaves hs _).bind fun found s₁ hs₁ => ?_
      cases found with
      | none => exact (set_leaves h rules entry.1 entry.2 hs₁).bind fun _ _ hs₂ => ih _ hs₂
      | some i =>
          refine (query_leaves hs₁ _).bind fun old s₂ hs₂ => ?_
          refine (query_leaves hs₂ _).bind fun combined s₃ hs₃ => ?_
          refine (putVal_leaves h hs₃ i combined).bind fun _ s₄ hs₄ => ?_
          rw [Leaves, outcome_bind, outcome_edit]
          exact ih _ (h.frame hs₄ ⟨rfl, rfl, rfl⟩ rfl rfl rfl)

end Op

/-! ## Requests -/

structure Volume.Accurate (v : Volume κ ν ε) : Prop extends v.Fitted where
  accurate : v.table.Accurate

namespace Shelf

open Errand

variable [Inhabited κ] [Inhabited ν] {I : Table κ ν → Prop} (h : Table.Upheld I)

include h

theorem Survey.op_leaves (manner : Manner κ ν ε) (survey : Survey) {s : Journal κ ν}
    (hs : I s.table) : (survey.op manner).Leaves I s := by
  have hitems (answer : Array (κ × ν) → Answer κ ν ε) {s : Journal κ ν} (hs : I s.table) :
      (do return answer (← Op.items) : Op κ ν ε (Answer κ ν ε)).Leaves I s :=
    (Op.items_leaves h hs).bind fun _ _ hs₁ => hs₁
  cases survey with
  | filledFromFloor => exact (Op.filledFromFloor?_leaves h hs).bind fun _ _ hs₁ => hs₁
  | firstStep => exact (Op.iterate_none_leaves h hs).bind fun _ _ hs₁ => hs₁
  | items => exact hitems _ hs
  | keys => exact hitems _ hs
  | values => exact hitems _ hs
  | list =>
      refine (Op.query_leaves hs _).bind fun _ s₁ hs₁ => ?_
      exact (Op.query_leaves hs₁ _).bind fun _ s₂ hs₂ => hitems _ hs₂
  | render =>
      refine (Op.items_leaves h hs).bind fun _ s₁ hs₁ => ?_
      exact (Op.query_leaves hs₁ _).bind fun _ _ hs₂ => hs₂

theorem Change.op_leaves (change : Change κ ν ε) (rules : Rules κ ε) {s : Journal κ ν}
    (hs : I s.table) : (change.op rules).Leaves I s := by
  cases change with
  | set key value => exact (Op.set_leaves h rules key value hs).bind fun _ _ hs₁ => hs₁
  | delete key => exact (Op.delete_leaves h rules key hs).bind fun _ _ hs₁ => hs₁
  | remove key =>
      have hremove : (Op.remove rules key : Op κ ν ε Unit).Leaves I s :=
        (Op.delete_leaves h rules key hs).bind fun deleted _ hs₁ => by
          cases deleted <;> exact hs₁
      exact hremove.bind fun _ _ hs₁ => hs₁
  | pop key default =>
      cases default with
      | none =>
          have hpop : (Op.pop rules key : Op κ ν ε ν).Leaves I s :=
            (Op.pop?_leaves h rules key hs).bind fun value _ hs₁ => by
              cases value <;> exact hs₁
          exact hpop.bind fun _ _ hs₁ => hs₁
      | some default => exact (Op.pop?_leaves h rules key hs).bind fun _ _ hs₁ => hs₁
  | clear => exact h.blank (h.accurate hs).capacity _
  | free => exact h.blank (Or.inl rfl) _
  | rehash size => exact (Op.rehash_leaves h rules size hs).bind fun _ _ hs₁ => hs₁
  | update entries => exact (Op.update_leaves h rules entries hs).bind fun _ _ hs₁ => hs₁
  | deleteAt i => exact (Op.deleteAt_leaves h hs i).bind fun _ _ hs₁ => hs₁

omit [Inhabited κ] [Inhabited ν] h in
private theorem moves_upheld {op : Rules κ ε → Op κ ν ε α}
    (hfitted : Moves Volume.Fitted Volume.Ages (fun _ => True) op)
    (hop : ∀ rules s, I s.table → (op rules).Leaves I s) :
    Moves (fun v => v.Fitted ∧ I v.table) Volume.Ages (fun _ => True) op := by
  intro v hv events
  refine ((hfitted v hv.1 events).and (hop v.rules ⟨v.table, events⟩ hv.2)).imp ?_ ?_
  · exact fun _ _ hj => ⟨⟨hj.1.1, hj.2⟩, hj.1.2⟩
  · exact fun _ _ hj => ⟨trivial, ⟨hj.1.2.1, hj.2⟩, hj.1.2.2⟩

/-- Every request keeps the property of all tables, and leaves each of them later than it found
it. -/
theorem governs_upheld (manner : Manner κ ν ε) :
    Governs manner (fun v => v.Fitted ∧ I v.table) Volume.Ages where
  toComposes := Volume.ages_composes
  new rules hint :=
    ⟨(governs_fitted manner).new rules hint, h.blank (Or.inr (isCapacity_capacityFor hint)) 0⟩
  copy {v} hv := ⟨(governs_fitted manner).copy hv.1, h.frame hv.2 ⟨rfl, rfl, rfl⟩ rfl rfl rfl⟩
  survey {v} hv survey events := by
    have hfitted := (governs_fitted manner).survey hv.1 survey events
    have hleaves := survey.op_leaves h manner (s := ⟨v.table, events⟩) hv.2
    refine (hfitted.and hleaves).imp ?_ ?_
    · exact fun _ _ hj => ⟨⟨hj.1.1, hj.2⟩, hj.1.2⟩
    · exact fun _ _ hj => ⟨⟨hj.1.1, hj.2⟩, hj.1.2⟩
  change c := moves_upheld ((governs_fitted manner).change c) fun rules _ => c.op_leaves h rules
  mergeWith combine serial entries :=
    moves_upheld ((governs_fitted manner).mergeWith combine serial entries) fun rules _ =>
      Op.mergeWith_leaves h rules combine serial entries
  plan {v} hv key events := by
    have hfitted := (governs_fitted manner).plan hv.1 key events
    have hleaves := Op.plan_leaves h v.rules key (s := ⟨v.table, events⟩) hv.2
    refine (hfitted.and hleaves).imp ?_ ?_
    · exact fun _ _ hj => ⟨⟨hj.1.1, hj.2⟩, hj.1.2⟩
    · exact fun _ _ hj => ⟨⟨hj.1.1, hj.2⟩, hj.1.2⟩
  insert {v} hv key p hp value events := by
    have hfitted := (governs_fitted manner).insert hv.1 hp value events
    have hinsert := Op.insertAt_leaves h v.rules key value (s := ⟨v.table, events⟩) hv.2
      (hv.1.plan key p hp)
    refine (hfitted.and hinsert).imp ?_ ?_
    · exact fun _ _ hj => ⟨⟨hj.1.1, hj.2⟩, hj.1.2⟩
    · exact fun _ _ hj => ⟨⟨hj.1.1, hj.2⟩, hj.1.2⟩

/-- A property that is upheld is one of all tables that requests lead to. -/
theorem upheld_reached {manner : Manner κ ν ε} {requests : List (Request κ ν ε)} {id : Nat}
    {t : Table κ ν} (ht : (reached manner requests).table? id = some t) : I t := by
  obtain ⟨v, hv, rfl⟩ := Option.map_eq_some_iff.mp ht
  exact ((governs_upheld h manner).all_reached requests v (List.mem_of_getElem? hv)).2

omit h in
theorem governs_accurate (manner : Manner κ ν ε) : Governs manner Volume.Accurate Volume.Ages := by
  have haccurate : (Volume.Accurate : Volume κ ν ε → Prop) =
      fun v => v.Fitted ∧ v.table.Accurate := by
    funext v
    exact propext ⟨fun hv => ⟨hv.toFitted, hv.accurate⟩, fun hv => ⟨hv.1, hv.2⟩⟩
  rw [haccurate]
  exact governs_upheld Table.upheld_accurate manner

end Shelf

end OpenAddressing
