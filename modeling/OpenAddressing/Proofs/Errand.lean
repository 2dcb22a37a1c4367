import OpenAddressing.Proofs.Shelf

/-!
# What errands keep

An errand is a sequence of operations on single tables. What one operation makes of a table,
whether it answers or stops, is therefore what an errand makes of each table on the shelf.
-/

namespace OpenAddressing

variable {κ ν ε α β : Type}

theorem absurd_of_none {o : Option α} {a : α} {P : Prop} (hnone : o = none) (hsome : o = some a) :
    P := by
  rw [hnone] at hsome
  cases hsome

namespace Errand

variable {s : Shelf κ ν ε} {post : α → Shelf κ ν ε → Prop}
  {lost : Option (Fault κ ε) → Shelf κ ν ε → Prop} {id : Nat} {v : Volume κ ν ε}

/-- Begun on `s`, the errand answers on a shelf with `post`, or it stops on one with `lost`. -/
def Ends (x : Errand κ ν ε α) (s : Shelf κ ν ε) (post : α → Shelf κ ν ε → Prop)
    (lost : Option (Fault κ ε) → Shelf κ ν ε → Prop) : Prop :=
  match x s with
  | .ok a s' => post a s'
  | .error fault s' => lost fault s'

theorem Ends.imp {x : Errand κ ν ε α} {post' : α → Shelf κ ν ε → Prop}
    {lost' : Option (Fault κ ε) → Shelf κ ν ε → Prop} (h : x.Ends s post lost)
    (hpost : ∀ a s', post a s' → post' a s') (hlost : ∀ fault s', lost fault s' → lost' fault s') :
    x.Ends s post' lost' := by
  unfold Ends at h ⊢
  cases hx : x s with
  | ok a s' =>
      rw [hx] at h
      exact hpost a s' h
  | error fault s' =>
      rw [hx] at h
      exact hlost fault s' h

@[simp]
theorem ends_pure (a : α) : (pure a : Errand κ ν ε α).Ends s post lost ↔ post a s := Iff.rfl

theorem bind_run (x : Errand κ ν ε α) (f : α → Errand κ ν ε β) (s : Shelf κ ν ε) :
    (x >>= f) s = match x s with
      | .ok a s' => f a s'
      | .error fault s' => .error fault s' := by
  change EStateM.bind x f s = _
  rw [EStateM.bind.eq_def]
  cases x s <;> rfl

@[simp]
theorem ends_bind (x : Errand κ ν ε β) (f : β → Errand κ ν ε α) :
    (x >>= f).Ends s post lost ↔ x.Ends s (fun b s' => (f b).Ends s' post lost) lost := by
  unfold Ends
  rw [bind_run]
  cases x s <;> rfl

theorem ends_volume {post : Volume κ ν ε → Shelf κ ν ε → Prop} :
    (volume id).Ends s post lost ↔ match s.volumes[id]? with
      | none => lost none s
      | some v => post v s := by
  simp only [Ends, volume]
  cases s.volumes[id]? <;> rfl

theorem ends_tend_none {store : Volume κ ν ε → Table κ ν → Option α → Volume κ ν ε}
    {op : Rules κ ε → Op κ ν ε α} (h : s.volumes[id]? = none) :
    (tend store id op).Ends s post lost ↔ lost none s := by
  simp only [Ends, tend, h]

theorem ends_tend {store : Volume κ ν ε → Table κ ν → Option α → Volume κ ν ε}
    {op : Rules κ ε → Op κ ν ε α} (h : s.volumes[id]? = some v) :
    (tend store id op).Ends s post lost ↔ (op v.rules).Outcome ⟨v.table, s.events⟩
      (fun a j => post a ⟨s.volumes.set id (store v j.table (some a)), j.events⟩)
      (fun fault j => lost (some fault) ⟨s.volumes.set id (store v j.table none), j.events⟩) := by
  simp only [Ends, Op.Outcome, tend, h]
  cases op v.rules ⟨v.table, s.events⟩ <;> rfl

theorem set_self {volumes : List (Volume κ ν ε)} (hv : volumes[id]? = some v) :
    volumes.set id v = volumes := by
  apply List.ext_getElem?
  intro i
  by_cases hi : id = i
  · subst hi
    rw [List.getElem?_set_self (List.getElem?_eq_some_iff.mp hv).1, hv]
  · rw [List.getElem?_set_ne hi]

theorem ends_query {f : Rules κ ε → Table κ ν → Except (Fault κ ε) α}
    (hv : s.volumes[id]? = some v) :
    (onTable id fun rules => Op.query (f rules)).Ends s post lost ↔
      Gives (f v.rules v.table) (fun a => post a s) fun fault => lost (some fault) s := by
  have hset : s.volumes.set id (v.withTable v.table) = s.volumes := set_self hv
  rw [onTable, ends_tend hv, Op.outcome_query]
  simp only [hset]

theorem ends_loose {post : Volume κ ν ε → Shelf κ ν ε → Prop} {op : Rules κ ε → Op κ ν ε α} :
    (loose v op).Ends s post lost ↔ (op v.rules).Outcome ⟨v.table, s.events⟩
      (fun _ j => post (v.renew j.table) { s with events := j.events })
      (fun fault j => lost (some fault) { s with events := j.events }) := by
  simp only [Ends, Op.Outcome, loose]
  cases op v.rules ⟨v.table, s.events⟩ <;> rfl

theorem Ends.onShelf [Inhabited κ] [Inhabited ν] {manner : Manner κ ν ε}
    {request : Shelf.Request κ ν ε} {post : Shelf.Answer κ ν ε → Shelf κ ν ε → Prop}
    (h : (request.perform manner).Ends s post lost) :
    (∃ a, (request.onShelf manner s).1 = .ok a ∧ post a (request.onShelf manner s).2) ∨
      ∃ fault, (request.onShelf manner s).1 = .error fault ∧
        lost fault (request.onShelf manner s).2 := by
  unfold Ends at h
  unfold Shelf.Request.onShelf
  cases hx : request.perform manner s with
  | ok a s' =>
      rw [hx] at h
      exact Or.inl ⟨a, rfl, h⟩
  | error fault s' =>
      rw [hx] at h
      exact Or.inr ⟨fault, rfl, h⟩

theorem Ends.onShelf_state [Inhabited κ] [Inhabited ν] {manner : Manner κ ν ε}
    {request : Shelf.Request κ ν ε} {P : Shelf κ ν ε → Prop}
    (h : (request.perform manner).Ends s (fun _ s' => P s') (fun _ s' => P s')) :
    P (request.onShelf manner s).2 := by
  rcases h.onShelf with ⟨_, -, hP⟩ | ⟨_, -, hP⟩
  · exact hP
  · exact hP

theorem Ends.onShelf_ok [Inhabited κ] [Inhabited ν] {manner : Manner κ ν ε}
    {request : Shelf.Request κ ν ε} {post : Shelf.Answer κ ν ε → Shelf κ ν ε → Prop}
    (h : (request.perform manner).Ends s post lost) {a : Shelf.Answer κ ν ε}
    (ha : (request.onShelf manner s).1 = .ok a) : post a (request.onShelf manner s).2 := by
  rcases h.onShelf with ⟨b, hb, hpost⟩ | ⟨fault, hfault, -⟩
  · rw [hb] at ha
    cases ha
    exact hpost
  · rw [hfault] at ha
    cases ha

/-! ## Invariants -/

variable {I : Volume κ ν ε → Prop} {R : Volume κ ν ε → Volume κ ν ε → Prop}

/-- Each table of the first shelf is on the second one with what `R` allows, and all tables
there satisfy `I`. -/
structure Over (I : Volume κ ν ε → Prop) (R : Volume κ ν ε → Volume κ ν ε → Prop)
    (s s' : Shelf κ ν ε) : Prop where
  all : ∀ v ∈ s'.volumes, I v
  step : ∀ (id : Nat) (v : Volume κ ν ε), s.volumes[id]? = some v →
    ∃ v', s'.volumes[id]? = some v' ∧ R v v'

/-- Changes allowed one after the other are allowed together, and so is no change. -/
structure Composes (R : Volume κ ν ε → Volume κ ν ε → Prop) : Prop where
  refl (v : Volume κ ν ε) : R v v
  trans {u v w : Volume κ ν ε} : R u v → R v w → R u w

theorem Over.trans (hR : Composes R) {s u s' : Shelf κ ν ε} (h : Over I R s u)
    (hu : Over I R u s') : Over I R s s' where
  all := hu.all
  step id v hv := by
    obtain ⟨v', hv', hvv'⟩ := h.step id v hv
    obtain ⟨w, hw, hv'w⟩ := hu.step id v' hv'
    exact ⟨w, hw, hR.trans hvv' hv'w⟩

theorem over_of_eq (hR : Composes R) {s' : Shelf κ ν ε} (hs : ∀ v ∈ s.volumes, I v)
    (heq : s'.volumes = s.volumes) : Over I R s s' where
  all := by rwa [heq]
  step id v hv := ⟨v, by rwa [heq], hR.refl v⟩

theorem over_set (hR : Composes R) (hs : ∀ v ∈ s.volumes, I v) (hv : s.volumes[id]? = some v)
    {v' : Volume κ ν ε} (hI : I v') (hvv' : R v v') (events : Array (Event κ)) :
    Over I R s ⟨s.volumes.set id v', events⟩ where
  all w hw := by
    rcases List.mem_or_eq_of_mem_set hw with hw | rfl
    · exact hs w hw
    · exact hI
  step i w hw := by
    by_cases hi : id = i
    · subst hi
      rw [hv] at hw
      cases hw
      exact ⟨v', List.getElem?_set_self (List.getElem?_eq_some_iff.mp hv).1, hvv'⟩
    · exact ⟨w, (List.getElem?_set_ne hi).trans hw, hR.refl w⟩

theorem over_push (hR : Composes R) (hs : ∀ v ∈ s.volumes, I v) (hI : I v) :
    Over I R s { s with volumes := s.volumes ++ [v] } where
  all w hw := by
    rcases List.mem_append.mp hw with hw | hw
    · exact hs w hw
    · exact List.mem_singleton.mp hw ▸ hI
  step i w hw :=
    ⟨w, (List.getElem?_append_left (List.getElem?_eq_some_iff.mp hw).1).trans hw, hR.refl w⟩

/-- The errand gives answers with `post`, stops at no fault of a table without `lost`, and
leaves shelves over those it was begun on. -/
def Keeps (I : Volume κ ν ε → Prop) (R : Volume κ ν ε → Volume κ ν ε → Prop)
    (lost : Fault κ ε → Prop) (x : Errand κ ν ε α) (post : α → Prop) : Prop :=
  ∀ s, (∀ v ∈ s.volumes, I v) → x.Ends s (fun a s' => post a ∧ Over I R s s')
    (fun fault s' => (∀ f, fault = some f → lost f) ∧ Over I R s s')

section Keeps

variable {lost : Fault κ ε → Prop} {post : α → Prop}

theorem keeps_pure (hR : Composes R) {a : α} (ha : post a) :
    Keeps I R lost (pure a) post := fun _ hs => ⟨ha, over_of_eq hR hs rfl⟩

theorem Keeps.bind (hR : Composes R) {x : Errand κ ν ε β} {f : β → Errand κ ν ε α}
    {post' : β → Prop} (hx : Keeps I R lost x post')
    (hf : ∀ b, post' b → Keeps I R lost (f b) post) : Keeps I R lost (x >>= f) post := by
  intro s hs
  refine (ends_bind x f).mpr ((hx s hs).imp ?_ fun _ _ hlost => hlost)
  intro b s' hb
  refine (hf b hb.1 s' hb.2.all).imp ?_ ?_
  · exact fun _ _ ha => ⟨ha.1, hb.2.trans hR ha.2⟩
  · exact fun _ _ hlost => ⟨hlost.1, hb.2.trans hR hlost.2⟩

theorem keeps_volume (hR : Composes R) (id : Nat) : Keeps I R lost (volume id) I := by
  intro s hs
  rw [ends_volume]
  cases hv : s.volumes[id]? with
  | none => exact ⟨fun _ => absurd_of_none rfl, over_of_eq hR hs rfl⟩
  | some v => exact ⟨hs v (List.mem_of_getElem? hv), over_of_eq hR hs rfl⟩

theorem keeps_tend (hR : Composes R) {op : Rules κ ε → Op κ ν ε α}
    {store : Volume κ ν ε → Table κ ν → Option α → Volume κ ν ε} (id : Nat)
    (h : ∀ v, I v → ∀ events, (op v.rules).Outcome ⟨v.table, events⟩
      (fun a j => post a ∧ I (store v j.table (some a)) ∧ R v (store v j.table (some a)))
      (fun fault j => lost fault ∧ I (store v j.table none) ∧ R v (store v j.table none))) :
    Keeps I R lost (tend store id op) post := by
  intro s hs
  cases hv : s.volumes[id]? with
  | none =>
      exact (ends_tend_none hv).mpr ⟨fun _ => absurd_of_none rfl, over_of_eq hR hs rfl⟩
  | some v =>
      refine (ends_tend hv).mpr ((h v (hs v (List.mem_of_getElem? hv)) s.events).imp ?_ ?_)
      · exact fun a j ha => ⟨ha.1, over_set hR hs hv ha.2.1 ha.2.2 _⟩
      · intro fault j hlost
        exact ⟨fun _ hf => Option.some.inj hf ▸ hlost.1, over_set hR hs hv hlost.2.1 hlost.2.2 _⟩

theorem keeps_loose (hR : Composes R) {op : Rules κ ε → Op κ ν ε α}
    (h : ∀ events, (op v.rules).Outcome ⟨v.table, events⟩ (fun _ j => I (v.renew j.table))
      (fun fault _ => lost fault)) : Keeps I R lost (loose v op) I := by
  intro s hs
  refine ends_loose.mpr ((h s.events).imp ?_ ?_)
  · exact fun _ j hj => ⟨hj, over_of_eq hR hs rfl⟩
  · exact fun fault j hlost => ⟨fun _ hf => Option.some.inj hf ▸ hlost, over_of_eq hR hs rfl⟩

theorem keeps_push (hR : Composes R) (hI : I v) : Keeps I R lost (push v) (fun _ => True) :=
  fun _ hs => ⟨trivial, over_push hR hs hI⟩

end Keeps

/-! ## Entries that go from table to table -/

section Entries

variable {lost : Fault κ ε → Prop} {manner : Manner κ ν ε}

def Moves (I : Volume κ ν ε → Prop) (R : Volume κ ν ε → Volume κ ν ε → Prop)
    (lost : Fault κ ε → Prop) (op : Rules κ ε → Op κ ν ε α) : Prop :=
  ∀ v, I v → ∀ events, (op v.rules).Outcome ⟨v.table, events⟩
    (fun _ j => I (v.renew j.table) ∧ R v (v.renew j.table))
    (fun fault j => lost fault ∧ I (v.renew j.table) ∧ R v (v.renew j.table))

theorem keeps_change (hR : Composes R) (id : Nat) {op : Rules κ ε → Op κ ν ε α}
    (h : Moves I R lost op) : Keeps I R lost (change id op) fun _ => True := by
  refine keeps_tend hR id fun v hv events => (h v hv events).imp ?_ ?_
  · exact fun _ _ hj => ⟨trivial, hj⟩
  · exact fun _ _ hj => hj

theorem Moves.keeps_loose (hR : Composes R) {op : Rules κ ε → Op κ ν ε α}
    (h : Moves I R lost op) (hv : I v) : Keeps I R lost (loose v op) I := by
  refine Errand.keeps_loose hR fun events => (h v hv events).imp ?_ ?_
  · exact fun _ _ hj => hj.1
  · exact fun _ _ hj => hj.1

structure Reads (manner : Manner κ ν ε) (I : Volume κ ν ε → Prop)
    (R : Volume κ ν ε → Volume κ ν ε → Prop) (lost : Fault κ ε → Prop) : Prop
    extends Composes R where
  items {v : Volume κ ν ε} (hv : I v) (events : Array (Event κ)) :
    (Op.items : Op κ ν ε (Array (κ × ν))).Outcome ⟨v.table, events⟩
      (fun _ j => I (v.withTable j.table) ∧ R v (v.withTable j.table))
      (fun fault j => lost fault ∧ I (v.withTable j.table) ∧ R v (v.withTable j.table))
  agrees {v : Volume κ ν ε} (hv : I v) (entries : List (κ × ν)) :
    Gives (v.table.agrees v.rules manner.differ entries) (fun _ => True) lost

namespace Reads

variable (h : Reads manner I R lost)

include h

theorem keeps_query (id : Nat) {f : Rules κ ε → Table κ ν → Except (Fault κ ε) α} {post : α → Prop}
    (hf : ∀ v, I v → Gives (f v.rules v.table) post lost) :
    Keeps I R lost (onTable id fun rules => Op.query (f rules)) post := by
  refine keeps_tend h.toComposes id fun v hv events => Op.outcome_query.mpr ((hf v hv).imp ?_ ?_)
  · exact fun _ ha => ⟨ha, hv, h.refl v⟩
  · exact fun _ hlost => ⟨hlost, hv, h.refl v⟩

theorem keeps_entriesOf (id : Nat) :
    Keeps I R lost (entriesOf id) fun _ => True := by
  have hitems : Keeps I R lost (onTable id fun _ => Op.items) fun _ => True :=
    keeps_tend h.toComposes id fun v hv events =>
      (h.items hv events).imp (fun _ _ hj => ⟨trivial, hj⟩) fun _ _ hj => hj
  exact hitems.bind h.toComposes fun _ _ => keeps_pure h.toComposes trivial

theorem keeps_equals (id other : Nat) :
    Keeps I R lost (equals manner id other) fun _ => True := by
  have hcount (i : Nat) : Keeps I R lost
      (onTable i fun _ => Op.query fun t => .ok t.count) fun _ => True :=
    h.keeps_query i fun v _ => trivial
  refine (hcount id).bind h.toComposes fun n _ => (hcount other).bind h.toComposes fun m _ => ?_
  split
  · refine (h.keeps_entriesOf id).bind h.toComposes fun entries _ => ?_
    exact h.keeps_query other fun v hv => h.agrees hv entries
  · exact keeps_pure h.toComposes trivial

end Reads

variable [Inhabited κ] [Inhabited ν]

structure Sustains (manner : Manner κ ν ε) (I : Volume κ ν ε → Prop)
    (R : Volume κ ν ε → Volume κ ν ε → Prop) (lost : Fault κ ε → Prop) : Prop
    extends Reads manner I R lost where
  fresh {v : Volume κ ν ε} : I v → I (v.renew (.new 0))
  copy {v : Volume κ ν ε} : I v → I (v.renew v.table.copy)
  update (entries : List (κ × ν)) : Moves I R lost fun rules => Op.update rules (entries.map .ok)

namespace Sustains

variable (h : Sustains manner I R lost)

include h

theorem keeps_passOn (id other : Nat) {op : List (κ × ν) → Rules κ ε → Op κ ν ε Unit}
    (hop : ∀ entries, Moves I R lost (op entries)) {a : α} {post : α → Prop} (ha : post a) :
    Keeps I R lost (do
      let entries ← entriesOf other
      change id (op entries)
      pure a) post := by
  refine (h.keeps_entriesOf other).bind h.toComposes fun entries _ => ?_
  exact (keeps_change h.toComposes id (hop entries)).bind h.toComposes fun _ _ =>
    keeps_pure h.toComposes ha

theorem keeps_merged (id other : Nat) : Keeps I R lost (merged id other) I := by
  refine (keeps_volume h.toComposes id).bind h.toComposes fun v hv => ?_
  refine (h.keeps_entriesOf id).bind h.toComposes fun entries _ => ?_
  refine ((h.update entries).keeps_loose h.toComposes (h.fresh hv)).bind h.toComposes ?_
  intro half hhalf
  refine (h.keeps_entriesOf other).bind h.toComposes fun entries _ => ?_
  exact (h.update entries).keeps_loose h.toComposes hhalf

theorem keeps_mergedWith {combine : Nat → ν → ν → Except ε ν} {serial : Nat} (id other : Nat)
    (hmerge : ∀ entries, Moves I R lost fun rules => Op.mergeWith rules combine serial entries) :
    Keeps I R lost (mergedWith combine serial id other) I := by
  refine (keeps_volume h.toComposes id).bind h.toComposes fun v hv => ?_
  refine (h.keeps_entriesOf other).bind h.toComposes fun entries _ => ?_
  exact (hmerge entries).keeps_loose h.toComposes (h.copy hv)

theorem keeps_shelve {x : Errand κ ν ε (Volume κ ν ε)} (hx : Keeps I R lost x I) {a : α}
    {post : α → Prop} (ha : post a) : Keeps I R lost (do push (← x); pure a) post :=
  hx.bind h.toComposes fun _ hv => (keeps_push h.toComposes hv).bind h.toComposes fun _ _ =>
    keeps_pure h.toComposes ha

end Sustains

end Entries

/-! ## All requests -/

variable [Inhabited κ] [Inhabited ν] {manner : Manner κ ν ε}

open OpenAddressing.Shelf

/-- What is known of the operations on one table, whatever its rules and wherever they stop, so
that all requests keep it of every table. -/
structure Governs (manner : Manner κ ν ε) (I : Volume κ ν ε → Prop)
    (R : Volume κ ν ε → Volume κ ν ε → Prop) : Prop extends Composes R where
  new (rules : Rules κ ε) (hint : Int) : I { rules, table := .new hint }
  copy {v : Volume κ ν ε} : I v → I (v.renew v.table.copy)
  survey {v : Volume κ ν ε} (hv : I v) (survey : Survey) (events : Array (Event κ)) :
    (survey.op manner).Outcome ⟨v.table, events⟩
      (fun _ j => I (v.withTable j.table) ∧ R v (v.withTable j.table))
      (fun _ j => I (v.withTable j.table) ∧ R v (v.withTable j.table))
  change (c : Change κ ν ε) : Moves I R (fun _ => True) fun rules => c.op rules
  mergeWith (combine : Nat → ν → ν → Except ε ν) (serial : Nat) (entries : List (κ × ν)) :
    Moves I R (fun _ => True) fun rules => Op.mergeWith rules combine serial entries
  plan {v : Volume κ ν ε} (hv : I v) (key : κ) (events : Array (Event κ)) :
    (Op.plan v.rules key).Outcome ⟨v.table, events⟩
      (fun p j => I { v.renew j.table with plan? := some (key, p) } ∧
        R v { v.renew j.table with plan? := some (key, p) })
      (fun _ j => I (v.renew j.table) ∧ R v (v.renew j.table))
  insert {v : Volume κ ν ε} (hv : I v) {key : κ} {p : Plan} (hp : v.plan? = some (key, p))
    (value : ν) (events : Array (Event κ)) :
    (Op.insertAt v.rules key value p).Outcome ⟨v.table, events⟩
      (fun _ j => I (v.renew j.table) ∧ R v (v.renew j.table))
      (fun _ j => I (v.renew j.table) ∧ R v (v.renew j.table))

namespace Governs

variable (h : Governs manner I R)

include h

theorem moves_update (entries : List (Except ε (κ × ν))) :
    Moves I R (fun _ => True) fun rules => Op.update rules entries := fun v hv events =>
  (Op.outcome_bind _ _).mp (h.change (.update entries) v hv events)

theorem sustains : Sustains manner I R fun _ => True where
  toComposes := h.toComposes
  items {v} hv events := by
    refine ((Op.outcome_bind _ _).mp (h.survey hv .items events)).imp (fun _ _ hj => hj) ?_
    exact fun _ _ hj => ⟨trivial, hj⟩
  agrees {v} _ entries := by
    cases v.table.agrees v.rules manner.differ entries <;> trivial
  fresh {v} _ := h.new v.rules 0
  copy := h.copy
  update entries := h.moves_update (entries.map .ok)

theorem keeps_observation (observation : Observation κ ν) :
    Keeps I R (fun _ => True) (observation.perform manner) fun _ => True := by
  have hR := h.toComposes
  cases observation with
  | ask id question =>
      rw [Observation.perform]
      refine h.sustains.keeps_query id fun v _ => ?_
      cases question.answer manner v.rules v.table <;> trivial
  | survey id survey =>
      rw [Observation.perform, onTable]
      refine keeps_tend hR id fun v hv events => (h.survey hv survey events).imp ?_ ?_
      · exact fun _ _ hj => ⟨trivial, hj⟩
      · exact fun _ _ hj => ⟨trivial, hj⟩
  | equals id other =>
      exact (h.sustains.keeps_equals id other).bind hR fun _ _ => keeps_pure hR trivial

theorem keeps_insert (id : Nat) (value : ν) :
    Keeps I R (fun _ => True) ((Request.insert id value).perform manner) fun _ => True := by
  have hR := h.toComposes
  intro s hs
  rw [Request.perform, ends_bind, ends_volume]
  cases hv : s.volumes[id]? with
  | none => exact ⟨fun _ _ => trivial, over_of_eq hR hs rfl⟩
  | some v =>
      dsimp only
      cases hp : v.plan? with
      | none => exact ⟨fun _ _ => trivial, over_of_eq hR hs rfl⟩
      | some planned =>
          have hinsert := h.insert (hs v (List.mem_of_getElem? hv)) hp value s.events
          rw [ends_bind, Errand.change, ends_tend hv]
          refine hinsert.imp ?_ ?_
          · exact fun _ j hj => ⟨trivial, over_set hR hs hv hj.1 hj.2 j.events⟩
          · exact fun _ j hj => ⟨fun _ _ => trivial, over_set hR hs hv hj.1 hj.2 j.events⟩

theorem keeps_request (request : Request κ ν ε) :
    Keeps I R (fun _ => True) (request.perform manner) fun _ => True := by
  have hs := h.sustains
  have hR := h.toComposes
  cases request with
  | observe observation => exact h.keeps_observation observation
  | change id c => exact keeps_change hR id (h.change c)
  | plan id key =>
      have hplan : Keeps I R (fun _ => True) (makePlan id key : Errand κ ν ε Plan)
          fun _ => True := by
        refine keeps_tend hR id fun v hv events => (h.plan hv key events).imp ?_ ?_
        · exact fun _ _ hj => ⟨trivial, hj⟩
        · exact fun _ _ hj => ⟨trivial, hj⟩
      exact hplan.bind hR fun _ _ => keeps_pure hR trivial
  | insert id value => exact h.keeps_insert id value
  | create rules hint =>
      rw [Request.perform, Table.create]
      cases rules.demandRoom (capacityFor hint) with
      | error fault => exact fun s hs => ⟨fun _ _ => trivial, over_of_eq hR hs rfl⟩
      | ok => exact (keeps_push hR (h.new rules hint)).bind hR fun _ _ => keeps_pure hR trivial
  | build rules entries =>
      exact hs.keeps_shelve ((h.moves_update entries).keeps_loose hR (h.new rules 0)) trivial
  | copy id =>
      refine (keeps_volume hR id).bind hR fun v hv => ?_
      exact (keeps_push hR (h.copy hv)).bind hR fun _ _ => keeps_pure hR trivial
  | updateFrom id other => exact hs.keeps_passOn id other hs.update trivial
  | merge id other => exact hs.keeps_shelve (hs.keeps_merged id other) trivial
  | mergeWith combine serial id other =>
      exact hs.keeps_shelve (hs.keeps_mergedWith id other (h.mergeWith combine serial)) trivial
  | mergeInto combine serial id other =>
      exact hs.keeps_passOn id other (h.mergeWith combine serial) trivial

theorem run_over (requests : List (Request κ ν ε)) {s : Shelf κ ν ε} (hs : ∀ v ∈ s.volumes, I v) :
    Over I R s (runAll (Request.onShelf manner) requests s).2 := by
  induction requests generalizing s with
  | nil => exact over_of_eq h.toComposes hs rfl
  | cons request rest ih =>
      have hstep : Over I R s (request.onShelf manner s).2 :=
        ((h.keeps_request request s hs).imp (fun _ _ ho => ho.2) fun _ _ ho => ho.2).onShelf_state
      exact hstep.trans h.toComposes (ih hstep.all)

theorem all_reached (requests : List (Request κ ν ε)) :
    ∀ v ∈ (Shelf.reached manner requests).volumes, I v :=
  (h.run_over requests fun _ hv => absurd hv List.not_mem_nil).all

end Governs

end Errand

end OpenAddressing
