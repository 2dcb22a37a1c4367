import OpenAddressing.Proofs.Blind
import OpenAddressing.Proofs.Soundness

/-!
# Observations are invisible

Observations raise floors, and floors go into later visits and insertions. In tables with
lawful rules no later request can tell: two runs, of which one makes more observations than the
other, give the same answers and stop at the same faults all the way.
-/

namespace OpenAddressing

variable {κ ν ε α β : Type} {rules : Rules κ ε} {same same' : Setoid κ}

theorem Journal.Alike.symm {s s' : Journal κ ν} (h : s.Alike s') : s'.Alike s :=
  ⟨h.table.symm, h.events.symm⟩

theorem Journal.Alike.trans {s s' u : Journal κ ν} (h : s.Alike s') (h' : s'.Alike u) : s.Alike u :=
  ⟨h.table.trans h'.table, h'.events.trans h.events⟩

theorem Table.Alike.copy {t t' : Table κ ν} (h : t.Alike t') : t.copy.Alike t'.copy := by
  obtain ⟨low, rfl⟩ := h
  exact ⟨low, rfl⟩

/-! ## Visits of sound tables -/

namespace Op

variable {s s' : Journal κ ν}

theorem filledFromFloor?_same (hs : s.Alike s') (h : s.table.Sound rules same)
    (h' : s'.table.Sound rules same') :
    Same Journal.Alike Eq ((filledFromFloor? : Op κ ν ε _) s) (filledFromFloor? s') := by
  have hu := filledFromFloor?_alike (ε := ε) (s := s)
  have hu' := filledFromFloor?_alike (ε := ε) (s := s')
  obtain ⟨found, u, heq, hnext, -⟩ :=
    (filledFromFloor?_outcome (ε := ε) h).exists_ok fun _ _ hl => hl
  obtain ⟨found', u', heq', hnext', -⟩ :=
    (filledFromFloor?_outcome (ε := ε) h').exists_ok fun _ _ hl => hl
  unfold Outcome at hu hu'
  rw [heq] at hu ⊢
  rw [heq'] at hu' ⊢
  refine .ok ?_ (hu.symm.trans (hs.trans hu'))
  -- Whatever the floors, both visits come to the first entry from slot zero on.
  have hzero := h'.nextFilled_zero hnext'
  obtain ⟨low, hlow⟩ := hs.table
  rw [hlow] at hzero
  exact (h.nextFilled_zero hnext).unique hzero

theorem iterate_none_same (hs : s.Alike s') (h : s.table.Sound rules same)
    (h' : s'.table.Sound rules same') :
    Same Journal.Alike Eq ((iterate none : Op κ ν ε _) s) (iterate none s') := by
  refine (filledFromFloor?_same hs h h').bind fun i i' u u' _ _ hi hu => ?_
  subst hi
  exact blind_query (fun t low => by cases i <;> rfl) hu

theorem items_same (hs : s.Alike s') (h : s.table.Sound rules same)
    (h' : s'.table.Sound rules same') :
    Same Journal.Alike Eq ((items : Op κ ν ε _) s) (items s') := by
  refine (iterate_none_same hs h h').bind fun first first' u u' _ _ hfirst hu => ?_
  subst hfirst
  exact blind_query (fun t low => t.collect_floor low _ first #[]) hu

end Op

/-! ## Answers -/

/-- Listings that differ in the number written for the floor and in nothing else. -/
structure Listing.Alike (l l' : Listing κ ε) : Prop where
  fault : l'.fault = l.fault
  text : ∃ (before after : String) (low other : Int),
    l.text = before ++ s!"idxfloor {low}\n" ++ after ∧
      l'.text = before ++ s!"idxfloor {other}\n" ++ after

private theorem dumpSlots_eq (key : κ → Except ε String) (value : ν → Except ε String)
    (t : Table κ ν) (n i : Nat) (text : String) :
    t.dumpSlots key value n i text =
      ⟨text ++ (t.dumpSlots key value n i "").text, (t.dumpSlots key value n i "").fault⟩ := by
  induction n generalizing i text with
  | zero => simp [Table.dumpSlots]
  | succ n ih =>
      rw [Table.dumpSlots, Table.dumpSlots]
      split
      · rw [ih, ih (i + 1) ("" ++ _)]
        simp [String.append_assoc]
      · simp

theorem Table.dump_alike (key : κ → Except ε String) (value : ν → Except ε String)
    (t : Table κ ν) (low : Int) (name : String) :
    (t.dump key value name).Alike ({ t with floor := low }.dump key value name) := by
  have hdump (t : Table κ ν) : t.dump key value name =
      ⟨"== " ++ name ++ " ==\n" ++
        s!"capacity {t.capacity}, count {t.count}, ndel {t.dead}, maxprobe {t.maxProbe}, " ++
        s!"idxfloor {t.floor}\n" ++ (t.dumpSlots key value t.capacity 0 "").text,
        (t.dumpSlots key value t.capacity 0 "").fault⟩ := by
    have hsummary : t.summary =
        s!"capacity {t.capacity}, count {t.count}, ndel {t.dead}, maxprobe {t.maxProbe}, " ++
          s!"idxfloor {t.floor}\n" := rfl
    rw [dump, dumpSlots_eq, hsummary]
    simp only [String.append_assoc]
  rw [hdump t, hdump { t with floor := low }, t.dumpSlots_floor low]
  exact ⟨rfl, _, _, t.floor, low, rfl, rfl⟩

namespace Shelf

inductive Answer.Alike : Answer κ ν ε → Answer κ ν ε → Prop where
  | same (a : Answer κ ν ε) : Alike a a
  | listing {l l' : Listing κ ε} (h : l.Alike l') : Alike (.listing l) (.listing l')

theorem Answer.Alike.of_eq {a a' : Answer κ ν ε} (h : a = a') : a.Alike a' := h ▸ .same a

inductive Reply.Alike : Reply κ ν ε → Reply κ ν ε → Prop where
  | ok {a a' : Answer κ ν ε} (h : a.Alike a') : Alike (.ok a) (.ok a')
  | error (fault : Option (Fault κ ε)) : Alike (.error fault) (.error fault)

variable {j j' : Journal κ ν}

theorem Question.answer_same (manner : Manner κ ν ε) (hj : j.Alike j') (hr : rules.Lawful same)
    (hr' : rules.Lawful same') (h : j.table.Sound rules same) (h' : j'.table.Sound rules same')
    (question : Question κ ν) :
    Same Journal.Alike Answer.Alike ((Op.query fun t => question.answer manner rules t) j)
      ((Op.query fun t => question.answer manner rules t) j') := by
  have hquery (heq : question.answer manner rules j'.table =
      question.answer manner rules j.table) :
      Same Journal.Alike Answer.Alike ((Op.query fun t => question.answer manner rules t) j)
        ((Op.query fun t => question.answer manner rules t) j') :=
    (Op.same_query hj heq).imp fun _ _ => Answer.Alike.of_eq
  obtain ⟨low, hlow⟩ := hj.table
  cases question with
  | get key default =>
      refine hquery ?_
      rw [hlow, answer, answer, j.table.get?_floor low]
  | getKey key default =>
      refine hquery ?_
      rw [hlow, answer, answer, j.table.getKey?_floor low]
  | lookup key =>
      refine hquery ?_
      rw [hlow, answer, answer, Table.get, Table.get, j.table.get?_floor low]
  | contains key =>
      refine hquery ?_
      rw [hlow, answer, answer, Table.contains, Table.contains, j.table.find?_floor low]
  | findIndex key =>
      refine hquery ?_
      rw [hlow, answer, answer, j.table.find?_floor low]
  | length =>
      refine hquery ?_
      rw [hlow]
      rfl
  | isEmpty =>
      refine hquery ?_
      rw [hlow]
      rfl
  | filledFrom index =>
      refine hquery ?_
      rw [hlow, answer, answer, j.table.filledFrom?_floor low]
  | stepFrom index =>
      refine hquery ?_
      rw [hlow, answer, answer, j.table.stepFrom_floor low]
  | audit =>
      refine hquery ?_
      -- An audit reads the floor, and in sound tables it has nothing to say of it.
      rw [answer, answer, (Table.audit_eq_ok_iff hr).mpr h.toWellFormed,
        (Table.audit_eq_ok_iff hr').mpr h'.toWellFormed]
  | dump name =>
      refine .ok (.listing ?_) hj
      rw [hlow]
      exact j.table.dump_alike manner.key manner.value low name

private theorem query_state {f : Table κ ν → Except (Fault κ ε) α} {a : α} {s u : Journal κ ν}
    (h : Op.query f s = .ok a u) : u = s := by
  rw [Op.query_run] at h
  split at h
  · cases h
    rfl
  · cases h

theorem Survey.op_same (manner : Manner κ ν ε) (hj : j.Alike j')
    (h : j.table.Sound rules same) (h' : j'.table.Sound rules same') (survey : Survey) :
    Same Journal.Alike Eq (survey.op manner j) (survey.op manner j') := by
  have hitems (answer : Array (κ × ν) → Answer κ ν ε) :
      Same Journal.Alike Eq ((do return answer (← Op.items) : Op κ ν ε (Answer κ ν ε)) j)
        ((do return answer (← Op.items) : Op κ ν ε (Answer κ ν ε)) j') :=
    (Op.items_same hj h h').bind fun _ _ _ _ _ _ ha hu => .ok (congrArg answer ha) hu
  cases survey with
  | filledFromFloor =>
      exact (Op.filledFromFloor?_same hj h h').bind fun _ _ _ _ _ _ ha hu =>
        .ok (congrArg Answer.index ha) hu
  | firstStep =>
      exact (Op.iterate_none_same hj h h').bind fun _ _ _ _ _ _ ha hu =>
        .ok (congrArg Answer.step ha) hu
  | items => exact hitems _
  | keys => exact hitems _
  | values => exact hitems _
  | list =>
      have hlength : (j'.table.length : Except (Fault κ ε) Int) = j.table.length := by
        obtain ⟨low, hlow⟩ := hj.table
        rw [hlow]
        rfl
      refine (Op.same_query hj hlength).bind fun length length' u u' hu hu' heq _ => ?_
      subst heq
      obtain rfl := query_state hu
      obtain rfl := query_state hu'
      refine (Op.same_query hj rfl).bind fun _ _ u u' hu hu' _ _ => ?_
      obtain rfl := query_state hu
      obtain rfl := query_state hu'
      exact hitems _
  | render =>
      refine (Op.items_same hj h h').bind fun entries entries' u u' _ _ ha hu => ?_
      subst ha
      exact ((Op.blind_query fun _ _ => rfl).bind fun text => Op.blind_pure _) hu

end Shelf

/-! ## Errands -/

namespace Shelf.Alike

variable {s s' : Shelf κ ν ε} {v v' : Volume κ ν ε}

private theorem volumes_set {l l' : List (Volume κ ν ε)} (h : List.Forall₂ Volume.Alike l l')
    (id : Nat) (hv : v.Alike v') : List.Forall₂ Volume.Alike (l.set id v) (l'.set id v') := by
  induction h generalizing id with
  | nil => exact .nil
  | cons hhead htail ih =>
      cases id with
      | zero => exact .cons hv htail
      | succ id => exact .cons hhead (ih id)

theorem set (h : s.Alike s') (id : Nat) (hv : v.Alike v') {j j' : Journal κ ν}
    (hj : j'.events = j.events) :
    Alike ⟨s.volumes.set id v, j.events⟩ ⟨s'.volumes.set id v', j'.events⟩ :=
  ⟨volumes_set h.volumes id hv, hj⟩

theorem push (h : s.Alike s') (hv : v.Alike v') :
    Alike { s with volumes := s.volumes ++ [v] } { s' with volumes := s'.volumes ++ [v'] } :=
  ⟨List.rel_append h.volumes (.cons hv .nil), h.events⟩

end Shelf.Alike

namespace Volume.Alike

variable {v v' : Volume κ ν ε} {t t' : Table κ ν}

theorem withTable (h : v.Alike v') (ht : t.Alike t') : (v.withTable t).Alike (v'.withTable t') :=
  ⟨h.rules, ht, h.plan⟩

theorem renew (h : v.Alike v') (ht : t.Alike t') : (v.renew t).Alike (v'.renew t') :=
  ⟨h.rules, ht, rfl⟩

end Volume.Alike

namespace Errand

variable {R : α → α → Prop} {R' : β → β → Prop} {id : Nat} {v v' : Volume κ ν ε}

/-- Begun on sound shelves that are alike, the errands end in the same way. -/
def Parallel (R : α → α → Prop) (x y : Errand κ ν ε α) : Prop :=
  ∀ ⦃s s' : Shelf κ ν ε⦄, s.Alike s' → (∀ v ∈ s.volumes, v.Sound) → (∀ v ∈ s'.volumes, v.Sound) →
    Same Shelf.Alike R (x s) (y s')

def Retains (x : Errand κ ν ε α) (post : α → Prop) : Prop :=
  Keeps Volume.Sound (fun _ _ => True) (fun _ => True) x post

theorem Retains.of_ok {x : Errand κ ν ε α} {post : α → Prop} (h : x.Retains post)
    {s u : Shelf κ ν ε} (hs : ∀ v ∈ s.volumes, v.Sound) {a : α} (hx : x s = .ok a u) :
    post a ∧ ∀ v ∈ u.volumes, v.Sound := by
  have hends := h s hs
  unfold Ends at hends
  rw [hx] at hends
  exact ⟨hends.1, hends.2.all⟩

theorem parallel_pure {a a' : α} (ha : R a a') :
    Parallel R (pure a : Errand κ ν ε α) (pure a') := fun _ _ hs _ _ => .ok ha hs

theorem parallel_throw (fault : Option (Fault κ ε)) :
    Parallel R (throw fault : Errand κ ν ε α) (throw fault) := fun _ _ hs _ _ => .error hs

theorem Parallel.bind {x y : Errand κ ν ε α} {f g : α → Errand κ ν ε β} {post : α → Prop}
    (h : Parallel R x y) (hx : x.Retains post) (hy : y.Retains post)
    (hf : ∀ a a', R a a' → post a → post a' → Parallel R' (f a) (g a')) :
    Parallel R' (x >>= f) (y >>= g) := by
  intro s s' hs hsound hsound'
  refine (h hs hsound hsound').bind fun a a' u u' hu hu' ha halike => ?_
  obtain ⟨hpost, husound⟩ := hx.of_ok hsound hu
  obtain ⟨hpost', husound'⟩ := hy.of_ok hsound' hu'
  exact hf a a' ha hpost hpost' halike husound husound'

/-- Nothing has to be known of the tables any more where only the answer is changed. -/
theorem Parallel.map {x y : Errand κ ν ε α} {f g : α → β} (h : Parallel R x y)
    (hf : ∀ a a', R a a' → R' (f a) (g a')) :
    Parallel R' (do return f (← x)) (do return g (← y)) :=
  fun _ _ hs hsound hsound' =>
    (h hs hsound hsound').bind fun _ _ _ _ _ _ ha hu => .ok (hf _ _ ha) hu

theorem Parallel.imp {R' : α → α → Prop} {x y : Errand κ ν ε α} (h : Parallel R x y)
    (hR : ∀ a a', R a a' → R' a a') : Parallel R' x y :=
  fun _ _ hs hsound hsound' => (h hs hsound hsound').imp hR

theorem parallel_volume : Parallel Volume.Alike (volume id : Errand κ ν ε _) (volume id) := by
  intro s s' hs _ _
  rcases hs.volume? id with ⟨hnone, hnone'⟩ | ⟨v, v', hv, hv', halike⟩
  · rw [volume, volume, hnone, hnone']
    exact .error hs
  · rw [volume, volume, hv, hv']
    exact .ok halike hs

theorem parallel_tend {store : Volume κ ν ε → Table κ ν → Option α → Volume κ ν ε}
    {op : Rules κ ε → Op κ ν ε α}
    (hop : ∀ {v v' : Volume κ ν ε} {j j' : Journal κ ν}, v.Alike v' → v.Sound → v'.Sound →
      j.Alike j' → j.table = v.table → j'.table = v'.table →
      Same Journal.Alike R (op v.rules j) (op v.rules j'))
    (hok : ∀ {v v' : Volume κ ν ε} {t t' a a'}, v.Alike v' → t.Alike t' → R a a' →
      (store v t (some a)).Alike (store v' t' (some a')))
    (herror : ∀ {v v' : Volume κ ν ε} {t t'}, v.Alike v' → t.Alike t' →
      (store v t none).Alike (store v' t' none)) :
    Parallel R (tend store id op) (tend store id op) := by
  intro s s' hs hsound hsound'
  rcases hs.volume? id with ⟨hnone, hnone'⟩ | ⟨v, v', hv, hv', halike⟩
  · rw [tend, tend, hnone, hnone']
    exact .error hs
  · have hj : Journal.Alike ⟨v.table, s.events⟩ ⟨v'.table, s'.events⟩ := ⟨halike.table, hs.events⟩
    have hsame := hop halike (hsound v (List.mem_of_getElem? hv))
      (hsound' v' (List.mem_of_getElem? hv')) hj rfl rfl
    rw [tend, tend, hv, hv']
    dsimp only
    rw [halike.rules]
    generalize op v.rules ⟨v.table, s.events⟩ = r at hsame
    generalize op v.rules ⟨v'.table, s'.events⟩ = r' at hsame
    cases hsame with
    | ok ha hj => exact .ok ha (hs.set id (hok halike hj.table ha) hj.events)
    | error hj => exact .error (hs.set id (herror halike hj.table) hj.events)

theorem parallel_onTable {op : Rules κ ε → Op κ ν ε α}
    (hop : ∀ {v v' : Volume κ ν ε} {j j' : Journal κ ν}, v.Alike v' → v.Sound → v'.Sound →
      j.Alike j' → j.table = v.table → j'.table = v'.table →
      Same Journal.Alike R (op v.rules j) (op v.rules j')) :
    Parallel R (onTable id op) (onTable id op) :=
  parallel_tend hop (fun hv ht _ => hv.withTable ht) fun hv ht => hv.withTable ht

theorem parallel_change {op : Rules κ ε → Op κ ν ε α} (hop : ∀ rules, (op rules).Blind) :
    Parallel Eq (change id op) (change id op) :=
  parallel_tend (fun _ _ _ hj _ _ => hop _ hj) (fun hv ht _ => hv.renew ht) fun hv ht => hv.renew ht

theorem parallel_loose {op : Rules κ ε → Op κ ν ε α} (hv : v.Alike v')
    (hop : ∀ rules, (op rules).Blind) : Parallel Volume.Alike (loose v op) (loose v' op) := by
  intro s s' hs _ _
  have hj : Journal.Alike ⟨v.table, s.events⟩ ⟨v'.table, s'.events⟩ := ⟨hv.table, hs.events⟩
  have hsame := hop v.rules hj
  rw [loose, loose, hv.rules]
  generalize op v.rules ⟨v.table, s.events⟩ = r at hsame
  generalize op v.rules ⟨v'.table, s'.events⟩ = r' at hsame
  cases hsame with
  | ok _ hj => exact .ok (hv.renew hj.table) ⟨hs.volumes, hj.events⟩
  | error hj => exact .error ⟨hs.volumes, hj.events⟩

theorem parallel_push (hv : v.Alike v') : Parallel Eq (push v) (push v') :=
  fun _ _ hs _ _ => .ok rfl (hs.push hv)

theorem Parallel.shelve {x y : Errand κ ν ε (Volume κ ν ε)} (h : Parallel Volume.Alike x y) {a : α}
    (ha : R a a) : Parallel R (do push (← x); pure a) (do push (← y); pure a) :=
  fun _ _ hs hsound hsound' =>
    (h hs hsound hsound').bind fun _ _ _ _ _ _ hv hu => .ok ha (hu.push hv)

theorem parallel_query (f : Rules κ ε → Table κ ν → Except (Fault κ ε) α)
    (hf : ∀ rules t low, f rules { t with floor := low } = f rules t) :
    Parallel Eq (onTable id fun rules => Op.query (f rules))
      (onTable id fun rules => Op.query (f rules)) :=
  parallel_onTable fun _ _ _ hj _ _ => Op.blind_query (hf _) hj

theorem parallel_entriesOf :
    Parallel Eq (entriesOf id : Errand κ ν ε (List (κ × ν))) (entriesOf id) := by
  have hitems : Parallel Eq (onTable id fun _ => Op.items : Errand κ ν ε _)
      (onTable id fun _ => Op.items) := by
    refine parallel_onTable ?_
    intro v v' j j' halike hsound hsound' hj heq heq'
    obtain ⟨same, -, ht, -⟩ := hsound
    obtain ⟨same', -, ht', -⟩ := hsound'
    rw [← heq] at ht
    rw [← heq', halike.rules] at ht'
    exact Op.items_same hj ht ht'
  exact hitems.map fun _ _ ha => congrArg Array.toList ha

section Entries

variable (manner : Manner κ ν ε) {other : Nat}

theorem reads_retained :
    Reads manner Volume.Sound (fun _ _ => True) fun _ => True :=
  Shelf.reads_sound manner _

theorem sustains_retained [Inhabited κ] [Inhabited ν] :
    Sustains manner Volume.Sound (fun _ _ => True) fun _ => True :=
  Shelf.sustains_sound manner

theorem parallel_equals : Parallel Eq (equals manner id other) (equals manner id other) := by
  have h := reads_retained manner
  have hcount (i : Nat) : Retains (onTable i fun _ => Op.query fun t => .ok t.count :
      Errand κ ν ε Int) fun _ => True := h.keeps_query i fun _ _ => trivial
  refine (parallel_query _ fun _ _ _ => rfl).bind (hcount id) (hcount id) fun n n' hn _ _ => ?_
  refine (parallel_query _ fun _ _ _ => rfl).bind (hcount other) (hcount other) ?_
  intro m m' hm _ _
  subst hn hm
  split
  · refine parallel_entriesOf.bind (h.keeps_entriesOf id) (h.keeps_entriesOf id) ?_
    intro entries entries' heq _ _
    subst heq
    exact parallel_query _ fun rules t low => t.agrees_floor low rules manner.differ entries
  · exact parallel_pure rfl

include manner

theorem parallel_passOn {op : List (κ × ν) → Rules κ ε → Op κ ν ε Unit}
    (hop : ∀ entries rules, (op entries rules).Blind) {a : α} :
    Parallel Eq (do
      let entries ← entriesOf other
      change id (op entries)
      pure a) (do
      let entries ← entriesOf other
      change id (op entries)
      pure a) := by
  have h := (reads_retained manner).keeps_entriesOf other
  refine parallel_entriesOf.bind h h fun entries entries' heq _ _ => ?_
  subst heq
  exact (parallel_change (hop entries)).map fun _ _ _ => rfl

variable [Inhabited κ] [Inhabited ν]

theorem parallel_merged :
    Parallel Volume.Alike (merged id other : Errand κ ν ε _) (merged id other) := by
  have h := sustains_retained manner
  have hvolume : Retains (volume id : Errand κ ν ε _) Volume.Sound :=
    keeps_volume h.toComposes id
  refine parallel_volume.bind hvolume hvolume fun v v' hv hsound hsound' => ?_
  refine parallel_entriesOf.bind (h.keeps_entriesOf id) (h.keeps_entriesOf id) ?_
  intro entries entries' heq _ _
  subst heq
  refine (parallel_loose (hv.renew (.refl _)) fun rules => Op.update_blind rules _).bind
    ((h.update entries).keeps_loose h.toComposes (h.fresh hsound))
    ((h.update entries).keeps_loose h.toComposes (h.fresh hsound')) ?_
  intro half half' hhalf _ _
  refine parallel_entriesOf.bind (h.keeps_entriesOf other) (h.keeps_entriesOf other) ?_
  intro entries entries' heq _ _
  subst heq
  exact parallel_loose hhalf fun rules => Op.update_blind rules _

theorem parallel_mergedWith (combine : Nat → ν → ν → Except ε ν) (serial : Nat) :
    Parallel Volume.Alike (mergedWith combine serial id other : Errand κ ν ε _)
      (mergedWith combine serial id other) := by
  have h := sustains_retained manner
  have hvolume : Retains (volume id : Errand κ ν ε _) Volume.Sound :=
    keeps_volume h.toComposes id
  refine parallel_volume.bind hvolume hvolume fun v v' hv _ _ => ?_
  refine parallel_entriesOf.bind (h.keeps_entriesOf other) (h.keeps_entriesOf other) ?_
  intro entries entries' heq _ _
  subst heq
  exact parallel_loose (hv.renew hv.table.copy) fun rules =>
    Op.mergeWith_blind rules combine serial entries

end Entries

end Errand

/-! ## Runs -/

namespace Shelf

open Errand

theorem Observation.perform_parallel (manner : Manner κ ν ε) (observation : Observation κ ν) :
    Parallel Answer.Alike (observation.perform manner) (observation.perform manner) := by
  cases observation with
  | ask id question =>
      refine parallel_onTable ?_
      intro v v' j j' halike hsound hsound' hj heq heq'
      obtain ⟨same, hr, ht, -⟩ := hsound
      obtain ⟨same', hr', ht', -⟩ := hsound'
      rw [← heq] at ht
      rw [halike.rules] at hr'
      rw [← heq', halike.rules] at ht'
      exact question.answer_same manner hj hr hr' ht ht'
  | survey id survey =>
      refine parallel_onTable ?_
      intro v v' j j' halike hsound hsound' hj heq heq'
      obtain ⟨same, -, ht, -⟩ := hsound
      obtain ⟨same', -, ht', -⟩ := hsound'
      rw [← heq] at ht
      rw [← heq', halike.rules] at ht'
      exact (survey.op_same manner hj ht ht').imp fun _ _ => Answer.Alike.of_eq
  | equals id other =>
      exact (parallel_equals manner).map fun _ _ ha => Answer.Alike.of_eq (congrArg Answer.bool ha)

variable [Inhabited κ] [Inhabited ν]

theorem Request.perform_parallel (manner : Manner κ ν ε) (request : Request κ ν ε) :
    Parallel Answer.Alike (request.perform manner) (request.perform manner) := by
  have hvolume (id : Nat) : Retains (volume id : Errand κ ν ε _) Volume.Sound :=
    keeps_volume always_composes id
  cases request with
  | observe observation => exact observation.perform_parallel manner
  | change id c => exact (parallel_change fun rules => c.op_blind rules).imp fun _ _ => .of_eq
  | plan id key =>
      have hplan : Parallel Eq (makePlan id key : Errand κ ν ε Plan) (makePlan id key) := by
        refine parallel_tend (fun _ _ _ hj _ _ => Op.plan_blind _ key hj) ?_
          fun hv ht => hv.renew ht
        intro v v' t t' p p' hv ht hp
        exact ⟨hv.rules, ht, by rw [hp]⟩
      exact hplan.map fun _ _ hp => .of_eq (congrArg Answer.plan hp)
  | insert id value =>
      refine parallel_volume.bind (hvolume id) (hvolume id) fun v v' hv _ _ => ?_
      rw [hv.plan]
      cases v.plan? with
      | none => exact parallel_throw _
      | some planned =>
          exact (parallel_change fun rules => Op.insertAt_blind rules planned.1 value planned.2).map
            fun _ _ _ => .same _
  | create rules hint =>
      rw [perform]
      cases (Table.create rules hint : Except (Fault κ ε) (Table κ ν)) with
      | error fault => exact parallel_throw _
      | ok table => exact (parallel_push (.refl _)).map fun _ _ _ => .same _
  | build rules entries =>
      exact (parallel_loose (.refl _) fun rules => Op.update_blind rules entries).shelve (.same _)
  | copy id =>
      refine parallel_volume.bind (hvolume id) (hvolume id) fun v v' hv _ _ => ?_
      exact (parallel_push (hv.renew hv.table.copy)).map fun _ _ _ => .same _
  | updateFrom id other =>
      exact (parallel_passOn manner fun entries rules => Op.update_blind rules _).imp
        fun _ _ => .of_eq
  | merge id other => exact (parallel_merged manner).shelve (.same _)
  | mergeWith combine serial id other =>
      exact (parallel_mergedWith manner combine serial).shelve (.same _)
  | mergeInto combine serial id other =>
      exact (parallel_passOn manner fun entries rules =>
        Op.mergeWith_blind rules combine serial entries).imp fun _ _ => .of_eq

theorem Request.onShelf_alike (manner : Manner κ ν ε) (request : Request κ ν ε) {s s' : Shelf κ ν ε}
    (hs : s.Alike s') (hsound : ∀ v ∈ s.volumes, v.Sound) (hsound' : ∀ v ∈ s'.volumes, v.Sound) :
    Reply.Alike (request.onShelf manner s).1 (request.onShelf manner s').1 ∧
      (request.onShelf manner s).2.Alike (request.onShelf manner s').2 := by
  have hsame := request.perform_parallel manner hs hsound hsound'
  unfold onShelf
  generalize request.perform manner s = r at hsame
  generalize request.perform manner s' = r' at hsame
  cases hsame with
  | ok ha hs => exact ⟨.ok ha, hs⟩
  | error hs => exact ⟨.error _, hs⟩

/-- A request of a run, or an observation that someone makes in between. -/
inductive Attended (κ ν ε : Type) where
  | own (request : Request κ ν ε)
  | between (observation : Observation κ ν)

omit [Inhabited κ] [Inhabited ν] in
def Attended.request? : Attended κ ν ε → Option (Request κ ν ε)
  | .own request => some request
  | .between _ => none

def Attended.onShelf (manner : Manner κ ν ε) :
    Attended κ ν ε → Shelf κ ν ε → Option (Reply κ ν ε) × Shelf κ ν ε
  | .own request, s =>
    let (reply, s') := request.onShelf manner s
    (some reply, s')
  | .between observation, s => (none, ((Request.observe observation).onShelf manner s).2)

theorem run_alike (manner : Manner κ ν ε) {turns : List (Attended κ ν ε)}
    (hl : ∀ request, .own request ∈ turns → request.Lawful) {s s' : Shelf κ ν ε}
    (hs : s.Alike s') (hsound : ∀ v ∈ s.volumes, v.Sound) (hsound' : ∀ v ∈ s'.volumes, v.Sound) :
    let bare := runAll (Request.onShelf manner) (turns.filterMap Attended.request?) s
    let full := runAll (Attended.onShelf manner) turns s'
    List.Forall₂ Reply.Alike bare.1 full.1.reduceOption ∧ bare.2.Alike full.2 := by
  induction turns generalizing s s' with
  | nil => exact ⟨.nil, hs⟩
  | cons turn rest ih =>
      have hrest : ∀ request, .own request ∈ rest → request.Lawful :=
        fun request hmem => hl request (List.mem_cons_of_mem _ hmem)
      cases turn with
      | own request =>
          have hlawful := hl request List.mem_cons_self
          obtain ⟨hreply, hnext⟩ := request.onShelf_alike manner hs hsound hsound'
          obtain ⟨hreplies, hlast⟩ := ih hrest hnext (request.onShelf_sound manner hlawful hsound)
            (request.onShelf_sound manner hlawful hsound')
          exact ⟨.cons hreply hreplies, hlast⟩
      | between observation =>
          exact ih hrest (hs.trans (observation.onShelf_alike manner s')) hsound
            ((Request.observe observation).onShelf_sound manner trivial hsound')

/-- In runs on tables with lawful rules, observations that are made in between change no reply
to a request, but for the number that a listing writes for a floor. All tables end as they end
without them, but for their floors. -/
theorem observations_invisible (manner : Manner κ ν ε) (turns : List (Attended κ ν ε))
    (hlawful : ∀ request, .own request ∈ turns → request.Lawful) :
    let bare := runAll (Request.onShelf manner) (turns.filterMap Attended.request?) {}
    let full := runAll (Attended.onShelf manner) turns {}
    List.Forall₂ Reply.Alike bare.1 full.1.reduceOption ∧ bare.2.Alike full.2 :=
  run_alike manner hlawful (.refl _) (fun _ hv => absurd hv List.not_mem_nil)
    fun _ hv => absurd hv List.not_mem_nil

/-- Someone lists the entries, and looks a key up that is not there, before a second key is
set. The floors of the two runs are not the same from then on. -/
theorem observations_invisible_digits :
    let rules : Rules Nat Unit := .through id Int.ofNat 64000 none
    let manner : Manner Nat Nat Unit :=
      ⟨fun n => .ok (toString n), fun n => .ok (toString n), fun a b => a != b, none⟩
    let turns : List (Attended Nat Nat Unit) :=
      [.own (.create rules 0), .own (.change 0 (.set 3 30)), .between (.survey 0 .items),
        .between (.ask 0 (.lookup 7)), .own (.change 0 (.set 5 50)),
        .own (.observe (.ask 0 (.dump "digits")))]
    let bare := runAll (Request.onShelf manner) (turns.filterMap Attended.request?) {}
    let full := runAll (Attended.onShelf manner) turns {}
    bare.2.volumes.map (·.table.floor) = [0] ∧ full.2.volumes.map (·.table.floor) = [3] ∧
      List.Forall₂ Reply.Alike bare.1 full.1.reduceOption ∧ bare.2.Alike full.2 := by
  intro rules manner turns bare full
  have hrules : ∃ same, rules.Lawful same := ⟨_, Rules.lawful_through _ _ _ _⟩
  have hlawful : ∀ request, .own request ∈ turns → request.Lawful := by
    intro request hmem
    simp only [turns, List.mem_cons, Attended.own.injEq, reduceCtorEq, List.not_mem_nil, or_false,
      false_or] at hmem
    rcases hmem with rfl | rfl | rfl | rfl
    · exact hrules
    · trivial
    · trivial
    · trivial
  refine ⟨by decide +kernel, by decide +kernel, ?_⟩
  exact observations_invisible manner turns hlawful

end Shelf

end OpenAddressing
