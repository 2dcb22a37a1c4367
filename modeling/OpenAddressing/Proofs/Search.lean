import OpenAddressing.Proofs.Failure
import OpenAddressing.Proofs.Verdict

/-!
# Searches against a plain scan

A lookup stops at the first empty slot and at the end of its reach, and compares keys only
where the tags agree. In a table that an audit accepts it finds all the same what a look at
every slot finds. The search for the place of a new entry agrees with the lookup: it comes to
the entry with the key, or to a slot on the path of the key that is free for it.
-/

namespace OpenAddressing

variable {κ ν ε : Type} {rules : Rules κ ε} {same : Setoid κ}

namespace Table

variable {t t' u : Table κ ν} {key : κ} {hash : Int} {i : Nat}

def isMatch (rules : Rules κ ε) (t : Table κ ν) (key : κ) (i : Nat) : Bool :=
  (t.tagAt i).isFilled && t.keys[i]?.any fun k => (rules.equal key k).toOption.getD false

def plainSearch (rules : Rules κ ε) (t : Table κ ν) (key : κ) : Option Nat :=
  (List.range t.capacity).find? (t.isMatch rules key)

private theorem eq_ok_of_toOption {φ α : Type} {x : Except φ α} {a : α}
    (h : x.toOption = some a) : x = .ok a := by
  cases x with
  | ok b => rw [Option.some.inj h]
  | error cause => cases h

private theorem toOption_getD_eq_true {x : Except ε Bool} :
    x.toOption.getD false = true ↔ x = .ok true := by
  cases x with
  | ok r => cases r <;> simp [Except.toOption]
  | error cause => simp [Except.toOption]

theorem isMatch_iff : t.isMatch rules key i = true ↔
    (t.tagAt i).isFilled = true ∧ ∃ k, t.keys[i]? = some k ∧ rules.equal key k = .ok true := by
  simp [isMatch, Option.any_eq_true, toOption_getD_eq_true]

theorem equal_eq_true_iff (hr : rules.Lawful same) {k : κ} :
    rules.equal key k = .ok true ↔ same.r key k := by
  constructor
  · intro h
    exact (hr.equal_iff h).mp rfl
  · intro h
    obtain ⟨r, hr'⟩ := hr.equal_total key k
    rw [hr', (hr.equal_iff hr').mpr h]

theorem WellFormed.isMatch_iff_stores (h : t.WellFormed rules same) (hr : rules.Lawful same) :
    t.isMatch rules key i = true ↔ t.Stores same key i := by
  rw [isMatch_iff]
  constructor
  · intro hmatch
    obtain ⟨hf, k, hk, heq⟩ := hmatch
    obtain ⟨l, v, hl⟩ := h.exists_holds hf
    obtain rfl : l = k := Option.some.inj (hl.key.symm.trans hk)
    exact ⟨l, v, hl, (equal_eq_true_iff hr).mp heq⟩
  · intro hs
    obtain ⟨k, v, hk, hsame⟩ := hs
    exact ⟨hk.filled, k, hk.key, (equal_eq_true_iff hr).mpr hsame⟩

theorem WellFormed.exists_find? (h : t.WellFormed rules same) (hr : rules.Lawful same) (key : κ) :
    ∃ found, t.find? rules key = .ok found ∧ ∀ i, found = some i ↔ t.Stores same key i :=
  (h.find?_spec hr.toRespects key).exists_ok fun _ => hr.not_refuses

theorem WellFormed.find?_eq_some_iff (h : t.WellFormed rules same) (hr : rules.Lawful same) :
    t.find? rules key = .ok (some i) ↔ t.Stores same key i := by
  obtain ⟨found, hfound, hspec⟩ := h.exists_find? hr key
  rw [hfound, ← hspec i]
  exact ⟨Except.ok.inj, congrArg Except.ok⟩

theorem WellFormed.find?_eq_none_iff (h : t.WellFormed rules same) (hr : rules.Lawful same) :
    t.find? rules key = .ok none ↔ t.Lacks same key := by
  obtain ⟨found, hfound, hspec⟩ := h.exists_find? hr key
  rw [hfound]
  constructor
  · intro hnone
    cases hnone
    exact lacks_of_find? hspec
  · intro hlacks
    cases found with
    | none => rfl
    | some i =>
        obtain ⟨k, v, hk, hsame⟩ := (hspec i).mp rfl
        exact absurd hsame (hlacks hk)

theorem WellFormed.stores_unique (h : t.WellFormed rules same) {j : Nat}
    (hi : t.Stores same key i) (hj : t.Stores same key j) : i = j := by
  obtain ⟨k, v, hk, hki⟩ := hi
  obtain ⟨l, w, hl, hlj⟩ := hj
  exact h.distinct hk hl (same.trans (same.symm hki) hlj)

/-- In a table that an audit accepts, the early ends of a lookup lose nothing: it gives the slot
that a look at every slot gives. A slot is given exactly if its entry has an equal key, there is
no other such slot in the whole table, and nothing is given exactly if no entry has an equal
key. -/
theorem lookup_eq_plainSearch (hr : rules.Lawful same) (h : t.audit rules = .ok ()) (key : κ) :
    t.find? rules key = .ok (t.plainSearch rules key) ∧
    (∀ i, t.find? rules key = .ok (some i) ↔
      (t.tagAt i).isFilled = true ∧ ∃ k, t.keys[i]? = some k ∧ rules.equal key k = .ok true) ∧
    (∀ i j, t.isMatch rules key i = true → t.isMatch rules key j = true → i = j) ∧
    (t.find? rules key = .ok none ↔ ∀ i k, (t.tagAt i).isFilled = true → t.keys[i]? = some k →
      rules.equal key k = .ok false) := by
  have ht := (audit_eq_ok_iff hr).mp h
  have hmatch (i : Nat) : t.find? rules key = .ok (some i) ↔ t.isMatch rules key i = true :=
    (ht.find?_eq_some_iff hr).trans (ht.isMatch_iff_stores hr).symm
  have hunique (i j : Nat) (hi : t.isMatch rules key i = true)
      (hj : t.isMatch rules key j = true) : i = j :=
    ht.stores_unique ((ht.isMatch_iff_stores hr).mp hi) ((ht.isMatch_iff_stores hr).mp hj)
  refine ⟨?_, fun i => (hmatch i).trans isMatch_iff, hunique, ?_⟩
  · cases hplain : t.plainSearch rules key with
    | some i => exact (hmatch i).mpr (List.find?_some hplain)
    | none =>
        refine (ht.find?_eq_none_iff hr).mpr fun i k v hk hsame => ?_
        have hnot := List.find?_eq_none.mp hplain i (List.mem_range.mpr hk.lt)
        exact hnot ((ht.isMatch_iff_stores hr).mpr ⟨k, v, hk, hsame⟩)
  · rw [ht.find?_eq_none_iff hr]
    constructor
    · intro hlacks i k hf hk
      obtain ⟨l, v, hl⟩ := ht.exists_holds hf
      obtain rfl : l = k := Option.some.inj (hl.key.symm.trans hk)
      obtain ⟨r, heq⟩ := hr.equal_total key l
      cases r with
      | false => exact heq
      | true => exact absurd ((equal_eq_true_iff hr).mp heq) (hlacks hl)
    · intro hall i k v hk hsame
      have heq := hall i k hk.filled hk.key
      rw [(equal_eq_true_iff hr).mpr hsame] at heq
      cases heq

/-- Three keys begin at the last slot, and the entry between the other two is gone. The last key
lies across the end of the array, past a tombstone; a key with the same tag is in no slot. -/
theorem lookup_eq_plainSearch_digits :
    let rules : Rules Nat Empty := .through (· % 100) (fun _ => -1) 64000 none
    let t := (reached (ν := Nat) rules 0 [.map (.set 3 30), .map (.set 5 50), .map (.set 7 70),
      .map (.delete 105)]).table
    rules.Lawful (Setoid.ker (· % 100)) ∧ t.audit rules = .ok () ∧ t.tagAt 0 = .tombstone ∧
      t.find? rules 207 = .ok (t.plainSearch rules 207) ∧ t.plainSearch rules 207 = some 1 ∧
      t.find? rules 9 = .ok (t.plainSearch rules 9) ∧ t.plainSearch rules 9 = none := by
  have hr : (Rules.through (· % 100) (fun _ => -1) 64000 none : Rules Nat Empty).Lawful
    (Setoid.ker (· % 100)) := Rules.lawful_through _ _ _ _
  refine ⟨hr, rfl, by decide +kernel, ?_, by decide +kernel, ?_, by decide +kernel⟩
  · exact (lookup_eq_plainSearch hr rfl 207).1
  · exact (lookup_eq_plainSearch hr rfl 9).1

/-! ## The search for a place -/

/-- Slot `i` of the table that a plan leaves can take a new entry: it has none, a lookup by this
hash comes to it, and all entries of the table from before are there. -/
structure Offers (t t' : Table κ ν) (hash : Int) (i : Nat) : Prop where
  lt : i < t'.capacity
  free : t'.tagAt i = .empty ∨ t'.tagAt i = .tombstone
  path : ∀ j < t'.capacity, t'.distance hash j < t'.distance hash i → t'.tagAt j ≠ .empty
  near : t'.distance hash i ≤ t'.maxProbe
  entries_eq : (t'.entries : Multiset (κ × ν)) = t.entries

theorem Vacant.offers (h : u.WellFormed rules same) (ht : t.Arranged rules same) {d : Nat}
    (hv : u.Vacant rules same key hash i d) (hhas : ∀ k v, u.Has k v ↔ t.Has k v) :
    t.Offers { u with maxProbe := max u.maxProbe d } hash i := by
  have hlt := hv.index_lt h.toArranged
  have hc := h.isCapacity hlt
  have hd : u.distance hash i = d := by rw [← hv.along_eq, distance_along hc hash hv.lt]
  refine ⟨hlt, h.not_isFilled.mp hv.free, fun j hj hji => ?_, ?_, ?_⟩
  · change j < u.capacity at hj
    change u.distance hash j < u.distance hash i at hji
    change u.tagAt j ≠ .empty
    have hnonneg := distance_nonneg hash hj
    rw [← along_distance hc hash hj]
    exact hv.path _ (by omega)
  · change u.distance hash i ≤ max u.maxProbe d
    omega
  · change (u.entries : Multiset (κ × ν)) = t.entries
    exact entries_eq_of_has ht h.toArranged hhas

private theorem exists_probe (hr : rules.Lawful same) (h : t.Sound rules same)
    (hpos : 0 < t.capacity) (hh : rules.hash key = .ok hash) :
    ∃ probed, t.probe rules key hash = .ok probed ∧
      t.Probed rules same key hash probed :=
  (h.toWellFormed.probe_spec hr.toRespects h.maxProbe_nonneg hpos hh).exists_ok
    fun _ => hr.not_refuses

private theorem exists_first_tombstone (h : t.Arranged rules same) {d : Nat}
    (htomb : t.tagAt (along t.capacity hash d) = .tombstone)
    (hpath : ∀ e < d, t.tagAt (along t.capacity hash e) ≠ .empty) :
    ∃ e ≤ d, t.tagAt (along t.capacity hash e) = .tombstone ∧ t.Crowded hash e := by
  induction d using Nat.strong_induction_on with
  | _ d ih =>
      by_cases hfirst : ∃ e < d, t.tagAt (along t.capacity hash e) = .tombstone
      · obtain ⟨e, he, htomb'⟩ := hfirst
        obtain ⟨x, hx, hcrowd⟩ := ih e he htomb' fun y hy => hpath y (by omega)
        exact ⟨x, by omega, hcrowd⟩
      · refine ⟨d, Nat.le_refl d, htomb, fun e he => ?_⟩
        have hnot : t.tagAt (along t.capacity hash e) ≠ .tombstone :=
          fun heq => hfirst ⟨e, he, heq⟩
        exact ((h.tags _).resolve_left (hpath e he)).resolve_left hnot

end Table

namespace Op

open Table

variable [Inhabited κ] [Inhabited ν] {s : Journal κ ν} {key : κ} {hash : Int}

theorem plan_of_stores (hr : rules.Lawful same) (h : s.table.Sound rules same) {i : Nat}
    (hi : s.table.Stores same key i) : plan rules key s = .ok (.found i) s := by
  obtain ⟨hash, hh⟩ := hr.hash_total key
  obtain ⟨k, v, hk, hsame⟩ := hi
  have hpos : 0 < s.table.capacity := Nat.zero_lt_of_lt hk.lt
  obtain ⟨probed, hprobe, hprobed⟩ := exists_probe hr h hpos hh
  rw [plan_run hh, planWithin_run hpos, hprobe]
  cases probed with
  | found j =>
      obtain rfl := h.stores_unique hprobed ⟨k, v, hk, hsame⟩
      rfl
  | vacant j reach =>
      obtain ⟨d, hv, -⟩ := hprobed
      exact absurd hsame (hv.lacks hk)
  | exhausted => exact absurd hsame (hprobed.1 hk)

theorem plan_of_tombstone (hr : rules.Lawful same) (h : s.table.Sound rules same)
    (hh : rules.hash key = .ok hash) (hlacks : s.table.Lacks same key) {d : Nat}
    (hd : d ≤ s.table.maxProbe) (htomb : s.table.tagAt (along s.table.capacity hash d) = .tombstone)
    (hcrowd : s.table.Crowded hash d) :
    plan rules key s =
      .ok (.vacant (along s.table.capacity hash d) (Tag.fingerprint hash).code) s := by
  have hfree : (s.table.tagAt (along s.table.capacity hash d)).isFilled = false := by
    rw [htomb]
    rfl
  have hpos : 0 < s.table.capacity :=
    Nat.zero_lt_of_lt (lt_of_tagAt_ne (by rw [htomb]; decide))
  obtain ⟨probed, hprobe, hprobed⟩ := exists_probe hr h hpos hh
  rw [plan_run hh, planWithin_run hpos, hprobe]
  cases probed with
  | found j =>
      obtain ⟨k, v, hk, hsame⟩ := hprobed
      exact absurd hsame (hlacks hk)
  | vacant j reach =>
      obtain ⟨e, hv, hcrowd', rfl⟩ := hprobed
      have hed : e = d := by
        rcases Nat.lt_trichotomy e d with hlt | heq | hlt
        · have hf := hcrowd e hlt
          rw [hv.along_eq, hv.free] at hf
          cases hf
        · exact heq
        · have hf := hcrowd' d hlt
          rw [hfree] at hf
          cases hf
      subst hed
      have hmax : max s.table.maxProbe (e : Int) = s.table.maxProbe := by omega
      dsimp only
      rw [hmax, hv.along_eq]
  | exhausted =>
      have hf := hprobed.2 d (by rw [searchWidth]; omega)
      rw [hfree] at hf
      cases hf

theorem plan_of_lacks (hr : rules.Lawful same) (h : s.table.Sound rules same)
    (hlacks : s.table.Lacks same key) :
    (∃ hash s', ∃ i : Nat, rules.hash key = .ok hash ∧
        plan rules key s = .ok (.vacant i (Tag.fingerprint hash).code) s' ∧
        s.table.Offers s'.table hash i) ∨
      rules.slotLimit ≠ none ∧ ∃ fault s', plan rules key s = .error fault s' ∧
        rules.LacksRoom fault := by
  have houtcome := plan_outcome hr.toRespects h key
  unfold Outcome at houtcome
  cases hplan : plan rules key s with
  | ok plan s' =>
      rw [hplan] at houtcome
      obtain ⟨hash, hh, hplanned⟩ := houtcome
      generalize ht' : s'.table = t' at hplanned
      cases hplanned with
      | found hi =>
          obtain ⟨k, v, hk, hsame⟩ := hi
          exact absurd hsame (hlacks hk)
      | @vacant u i d hgrown hv hcrowd =>
          refine Or.inl ⟨hash, s', i, hh, rfl, ?_⟩
          rw [ht']
          exact hv.offers (hgrown.sound h).toWellFormed h.toArranged hgrown.has_iff
  | error fault s' =>
      rw [hplan] at houtcome
      have hroom := hr.excuses houtcome.excuses
      exact Or.inr ⟨fun hnone => Rules.not_lacksRoom hnone hroom, fault, s', rfl, hroom⟩

/-- In a table that an audit accepts, the plan for a key is to change the entry that a lookup
finds, and then nothing has changed; otherwise it offers a free slot where lookups will find the
key, and keeps all entries. Where a tombstone comes before the first empty slot within the reach
of lookups, the first such tombstone is offered and nothing has changed. Only where memory is
limited can there be no plan. -/
theorem plan_agrees_with_lookup (hr : rules.Lawful same) (h : s.table.Accepted rules) (key : κ) :
    (∀ (i : Int) (s' : Journal κ ν), plan rules key s = .ok (.found i) s' ↔
      (∃ n : Nat, i = n ∧ s.table.find? rules key = .ok (some n)) ∧ s' = s) ∧
    ((∃ n, s.table.find? rules key = .ok (some n)) ∨
      s.table.find? rules key = .ok none ∧
        ((∃ hash s', ∃ i : Nat, rules.hash key = .ok hash ∧
            plan rules key s = .ok (.vacant i (Tag.fingerprint hash).code) s' ∧
            s.table.Offers s'.table hash i) ∨
          rules.slotLimit ≠ none ∧ ∃ fault s', plan rules key s = .error fault s' ∧
            rules.LacksRoom fault)) ∧
    ∀ (hash : Int) (d : Nat), s.table.find? rules key = .ok none →
      rules.hash key = .ok hash → d ≤ s.table.maxProbe →
      s.table.tagAt (along s.table.capacity hash d) = .tombstone →
      (∀ e < d, s.table.tagAt (along s.table.capacity hash e) ≠ .empty) →
      ∃ e ≤ d, s.table.tagAt (along s.table.capacity hash e) = .tombstone ∧
        (∀ x < e, s.table.tagAt (along s.table.capacity hash x) ≠ .tombstone) ∧
        plan rules key s =
          .ok (.vacant (along s.table.capacity hash e) (Tag.fingerprint hash).code) s := by
  have hs := (accepted_iff hr).mp h
  have hsome {n : Nat} : s.table.find? rules key = .ok (some n) ↔ s.table.Stores same key n :=
    hs.find?_eq_some_iff hr
  have hnone : s.table.find? rules key = .ok none ↔ s.table.Lacks same key :=
    hs.find?_eq_none_iff hr
  obtain ⟨found, hfound, -⟩ := hs.exists_find? hr key
  refine ⟨fun i s' => ⟨fun hplan => ?_, fun hfind => ?_⟩, ?_,
    fun hash d habsent hh hd htomb hpath => ?_⟩
  · cases found with
    | some n =>
        rw [plan_of_stores hr hs (hsome.mp hfound)] at hplan
        cases hplan
        exact ⟨⟨n, rfl, hfound⟩, rfl⟩
    | none =>
        rcases plan_of_lacks hr hs (hnone.mp hfound) with
          ⟨hash, s'', j, -, hvacant, -⟩ | ⟨-, fault, s'', herror, -⟩
        · rw [hvacant] at hplan
          cases hplan
        · rw [herror] at hplan
          cases hplan
  · obtain ⟨⟨n, rfl, hn⟩, rfl⟩ := hfind
    exact plan_of_stores hr hs (hsome.mp hn)
  · cases found with
    | some n => exact Or.inl ⟨n, hfound⟩
    | none => exact Or.inr ⟨hfound, plan_of_lacks hr hs (hnone.mp hfound)⟩
  · obtain ⟨e, he, htomb', hcrowd⟩ := exists_first_tombstone hs.toArranged htomb hpath
    refine ⟨e, he, htomb', fun x hx heq => ?_, ?_⟩
    · have hf := hcrowd x hx
      rw [heq] at hf
      cases hf
    · exact plan_of_tombstone hr hs hh (hnone.mp habsent) (by omega) htomb' hcrowd

/-- Of three keys that begin at the last slot the middle one is gone. The plan for the third one
is to change its entry, and a fourth one is to take the place of the second. -/
theorem plan_agrees_with_lookup_digits :
    let rules : Rules Nat Empty := .through (· % 100) (fun _ => -1) 64000 none
    let s := reached (ν := Nat) rules 0 [.map (.set 3 30), .map (.set 5 50), .map (.set 7 70),
      .map (.delete 105)]
    rules.Lawful (Setoid.ker (· % 100)) ∧ s.table.Accepted rules ∧
      plan rules 207 s = .ok (.found 1) s ∧
      ∃ e ≤ 1, s.table.tagAt (along s.table.capacity (-1) e) = .tombstone ∧
        (∀ x < e, s.table.tagAt (along s.table.capacity (-1) x) ≠ .tombstone) ∧
        plan rules 9 s =
          .ok (.vacant (along s.table.capacity (-1) e) (Tag.fingerprint (-1)).code) s := by
  intro rules s
  have hr : rules.Lawful (Setoid.ker (· % 100)) := Rules.lawful_through _ _ _ _
  have hs : s.table.Sound rules (Setoid.ker (· % 100)) := sound_reached hr 0 _
  have h : s.table.Accepted rules := (accepted_iff hr).mpr hs
  have hstores : s.table.Stores (Setoid.ker (· % 100)) 207 1 :=
    ⟨7, 70, ⟨by decide +kernel, by decide +kernel, by decide +kernel⟩, rfl⟩
  have habsent : s.table.find? rules 9 = .ok none := eq_ok_of_toOption (by decide +kernel)
  refine ⟨hr, h, ?_, ?_⟩
  · refine ((plan_agrees_with_lookup hr h 207).1 1 s).mpr ⟨⟨1, rfl, ?_⟩, rfl⟩
    exact (hs.find?_eq_some_iff hr).mpr hstores
  · refine (plan_agrees_with_lookup hr h 9).2.2 (-1) 1 habsent rfl (by decide +kernel)
      (by decide +kernel) ?_
    intro e he
    obtain rfl : e = 0 := by omega
    decide +kernel

end Op

end OpenAddressing
