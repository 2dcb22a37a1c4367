import OpenAddressing.Proofs.Census

/-!
# Enumerations are exact

The floor only saves steps. Whatever the rules of a table and whatever was asked of it before, all
ways to enumerate its entries, also the one step by step, give the contents of its filled slots from
the first slot to the last, and they do so again for as long as the table does not change.
-/

namespace OpenAddressing

variable {κ ν ε : Type}

namespace Table

variable {t t' : Table κ ν}

/-- One entry for each filled slot, with the key and the value that are stored there, in the order
of the slots. -/
structure Lists (t : Table κ ν) (entries : List (κ × ν)) : Prop where
  cells : List.Forall₂ (fun i e => t.keys[i]? = some e.1 ∧ t.vals[i]? = some e.2)
    ((List.range t.capacity).filter fun i => (t.tagAt i).isFilled) entries
  length_eq : entries.length = t.count

theorem forall₂_filterMap_entryAt? (h : t.Fitted) (l : List Nat) :
    List.Forall₂ (fun i e => t.keys[i]? = some e.1 ∧ t.vals[i]? = some e.2)
      (l.filter fun i => (t.tagAt i).isFilled) (l.filterMap t.entryAt?) := by
  induction l with
  | nil => exact .nil
  | cons i l ih =>
      cases hf : (t.tagAt i).isFilled with
      | false =>
          rw [List.filter_cons_of_neg (by simp [hf]),
            List.filterMap_cons_none (entryAt?_of_not_filled hf)]
          exact ih
      | true =>
          obtain ⟨k, v, hk⟩ := exists_holds h.keys_size h.vals_size hf
          rw [List.filter_cons_of_pos (by simp [hf]),
            List.filterMap_cons_some (entryAt?_eq_some.mpr hk)]
          exact .cons ⟨hk.key, hk.val⟩ ih

theorem Accurate.lists_entries (h : t.Accurate) : t.Lists t.entries where
  cells := by
    rw [entries, entriesFrom, Nat.sub_zero, ← List.range_eq_range']
    exact forall₂_filterMap_entryAt? h.toFitted _
  length_eq := by rw [length_entries h.keys_size h.vals_size, h.count_eq]

end Table

namespace Shelf

open Errand Table

variable {manner : Manner κ ν ε} {s : Shelf κ ν ε} {id : Nat} {v : Volume κ ν ε}

private theorem entries_answer (h : v.table.Visitable) (events : Array (Event κ))
    (answer : List (κ × ν) → Answer κ ν ε) :
    (do return answer (← Op.items).toList : Op κ ν ε (Answer κ ν ε)).Outcome ⟨v.table, events⟩
      (fun a _ => a = answer v.table.entries) fun _ _ => False :=
  (Op.items_visits h).bind (fun _ _ hentries => congrArg answer hentries.1) fun _ _ hl => hl

private theorem list_answer (h : v.table.Accurate) (events : Array (Event κ)) :
    (Survey.list.op manner).Outcome ⟨v.table, events⟩
      (fun a _ => a = .keys (v.table.entries.map (·.1)))
      fun _ _ => 0x8000000000000000 ≤ v.table.entries.length ∨
        ∃ limit, manner.listLimit = some limit ∧ limit < v.table.entries.length := by
  have hcount := h.lists_entries.length_eq
  have hnonneg : ¬v.table.count < 0 := by omega
  rw [Survey.op, Op.outcome_bind, Op.outcome_query, Table.length, if_neg hnonneg]
  by_cases hlong : v.table.count < 0x8000000000000000
  · rw [if_pos hlong, gives_ok, Op.outcome_bind, Op.outcome_query]
    cases hlist : demandList manner v.table.count with
    | ok =>
        have hkeys := entries_answer h.visitable events fun entries => .keys (entries.map (·.1))
        exact hkeys.imp (fun _ _ ha => ha) fun _ _ hl => hl.elim
    | error fault =>
        obtain ⟨-, limit, hlimit, hless⟩ := demandList_faults hlist
        exact Or.inr ⟨limit, hlimit, by omega⟩
  · rw [if_neg hlong]
    exact Or.inl (by omega)

variable [Inhabited κ] [Inhabited ν]

/-- A step is asked for, then each next one from where the step before says. They give these
entries, and then there are no more. -/
inductive Steps (manner : Manner κ ν ε) (id : Nat) :
    Observation κ ν → Shelf κ ν ε → List (κ × ν) → Prop where
  | stop {observation : Observation κ ν} {s : Shelf κ ν ε}
      (h : s.reply manner observation = .ok (.step none)) : Steps manner id observation s []
  | next {observation : Observation κ ν} {s : Shelf κ ν ε} {step : Step κ ν}
      {rest : List (κ × ν)} (h : s.reply manner observation = .ok (.step (some step)))
      (hrest : Steps manner id (.ask id (.stepFrom step.resume))
        ((Request.observe observation).onShelf manner s).2 rest) :
      Steps manner id observation s ((step.key, step.value) :: rest)

/-- All ways to enumerate the entries of a table give these. -/
structure Enumerates (manner : Manner κ ν ε) (s : Shelf κ ν ε) (id : Nat)
    (entries : List (κ × ν)) : Prop where
  items : s.reply manner (.survey id .items) = .ok (.entries entries)
  keys : s.reply manner (.survey id .keys) = .ok (.keys (entries.map (·.1)))
  values : s.reply manner (.survey id .values) = .ok (.values (entries.map (·.2)))
  list : s.reply manner (.survey id .list) = .ok (.keys (entries.map (·.1))) ∨
    (∃ fault, s.reply manner (.survey id .list) = .error fault) ∧
      (0x8000000000000000 ≤ entries.length ∨
        ∃ limit, manner.listLimit = some limit ∧ limit < entries.length)
  steps : Steps manner id (.survey id .firstStep) s entries

/-! ## Replies -/

private theorem onShelf_of_ok (manner : Manner κ ν ε) {op : Rules κ ε → Op κ ν ε (Answer κ ν ε)}
    (observation : Observation κ ν) (hop : observation.perform manner = onTable id op)
    (hv : s.volumes[id]? = some v) {answer : Answer κ ν ε} {j : Journal κ ν}
    (h : op v.rules ⟨v.table, s.events⟩ = .ok answer j) :
    s.reply manner observation = .ok answer ∧
      ((Request.observe observation).onShelf manner s).2.volumes[id]? =
        some (v.withTable j.table) := by
  have hrun : (Request.observe observation).onShelf manner s =
      (.ok answer, ⟨s.volumes.set id (v.withTable j.table), j.events⟩) := by
    simp only [Request.onShelf, Request.perform, hop, onTable, tend, hv, h]
  rw [reply, hrun]
  exact ⟨rfl, List.getElem?_set_self (List.getElem?_eq_some_iff.mp hv).1⟩

private theorem steps_of_nextStep {observation : Observation κ ν} {step : Option (Step κ ν)}
    {t : Table κ ν} {i : Nat} (hreply : s.reply manner observation = .ok (.step step))
    (hv : ((Request.observe observation).onShelf manner s).2.volumes[id]? = some (v.withTable t))
    (h : t.Visitable) (hnext : t.NextStep i step) :
    Steps manner id observation s (t.entriesFrom i) := by
  -- Each step leaves fewer slots to look at.
  induction hn : t.capacity - i using Nat.strong_induction_on
    generalizing i step observation s with
  | _ n ih =>
      cases step with
      | none =>
          rw [entriesFrom_eq_nil hnext]
          exact .stop hreply
      | some step =>
          obtain ⟨m, hresume, hm, hholds, hbelow⟩ := hnext
          have hlt := hholds.lt
          obtain ⟨step', heq, hnext'⟩ := stepFrom_spec (ε := ε) h.keys_size h.vals_size (m + 1)
          have hask {events : Array (Event κ)} :
              (Op.query fun t => (Question.stepFrom step.resume).answer manner v.rules t)
                ⟨t, events⟩ = .ok (.step step') ⟨t, events⟩ := by
            rw [hresume, Op.query_run, Question.answer, heq]
            rfl
          obtain ⟨hreply', hv'⟩ :=
            onShelf_of_ok manner (.ask id (.stepFrom step.resume)) rfl hv hask
          rw [entriesFrom_skip hm hbelow, entriesFrom_of_holds hholds]
          exact .next hreply (ih _ (by omega) hreply' hv' hnext' rfl)

private theorem survey_reply (hv : s.volumes[id]? = some v) (survey : Survey)
    {post : Answer κ ν ε → Prop} {lost : Fault κ ε → Prop}
    (h : (survey.op manner).Outcome ⟨v.table, s.events⟩ (fun a _ => post a)
      fun fault _ => lost fault) :
    (∃ a, s.reply manner (.survey id survey) = .ok a ∧ post a) ∨
      ∃ fault, s.reply manner (.survey id survey) = .error fault ∧
        ∃ f, fault = some f ∧ lost f := by
  have hends : ((Request.observe (.survey id survey)).perform manner).Ends s (fun a _ => post a)
      fun fault _ => ∃ f, fault = some f ∧ lost f := by
    rw [Request.perform, Observation.perform, onTable, ends_tend hv]
    exact h.imp (fun _ _ ha => ha) fun f _ hf => ⟨f, rfl, hf⟩
  exact hends.onShelf

private theorem reply_of_items (hv : s.volumes[id]? = some v) (h : v.table.Visitable)
    (survey : Survey) (answer : List (κ × ν) → Answer κ ν ε)
    (hop : survey.op manner = (do return answer (← Op.items).toList)) :
    s.reply manner (.survey id survey) = .ok (answer v.table.entries) := by
  rcases survey_reply hv survey (hop ▸ entries_answer h s.events answer) with
    ⟨a, hreply, rfl⟩ | ⟨_, -, _, -, hl⟩
  · exact hreply
  · exact hl.elim

private theorem enumerates_entries (hv : s.volumes[id]? = some v) (h : v.table.Accurate) :
    s.Enumerates manner id v.table.entries where
  items := reply_of_items hv h.visitable .items _ rfl
  keys := reply_of_items hv h.visitable .keys (fun entries => .keys (entries.map (·.1))) rfl
  values := reply_of_items hv h.visitable .values (fun entries => .values (entries.map (·.2))) rfl
  list := by
    rcases survey_reply hv .list (list_answer h s.events) with
      ⟨a, hreply, rfl⟩ | ⟨fault, hreply, _, -, hlong⟩
    · exact Or.inl hreply
    · exact Or.inr ⟨⟨fault, hreply⟩, hlong⟩
  steps := by
    obtain ⟨step, j, hrun, hnext, hfloor⟩ :=
      (Op.iterate_none_visits (ε := ε) (s := ⟨v.table, s.events⟩) h.visitable).exists_ok
        fun _ _ hl => hl
    have hfirst : Survey.firstStep.op manner ⟨v.table, s.events⟩ = .ok (.step step) j := by
      rw [Survey.op, Op.bind_run, hrun]
      rfl
    obtain ⟨hreply, hv'⟩ := onShelf_of_ok manner (.survey id .firstStep) rfl hv hfirst
    rw [← hfloor.sameSlots.entries_eq]
    exact steps_of_nextStep hreply hv' (hfloor.visitable h.visitable) hnext

private theorem enumerates_later (hs : ∀ w ∈ s.volumes, w.Accurate)
    (hv : s.volumes[id]? = some v) (later : List (Request κ ν ε)) {v' : Volume κ ν ε}
    (hv' : (runAll (Request.onShelf manner) later s).2.volumes[id]? = some v')
    (hage : v'.table.age = v.table.age) :
    (runAll (Request.onShelf manner) later s).2.Enumerates manner id v.table.entries := by
  have hover := (governs_accurate manner).run_over later hs
  obtain ⟨w, hw, hages⟩ := hover.step id v hv
  obtain rfl := Option.some.inj (hw.symm.trans hv')
  rw [← (hages.table.unaltered hage).toSameSlots.entries_eq]
  exact enumerates_entries hv' (hover.all w (List.mem_of_getElem? hv')).accurate

/-- In whatever state a run leaves a table, no entry lies below its floor, and all enumerations
give the contents of the filled slots by index. They give the same later on, as long as the table
has not changed since, and observations do not change it. -/
theorem enumerations_exact (manner : Manner κ ν ε) (requests : List (Request κ ν ε)) {id : Nat}
    {v : Volume κ ν ε} (hv : (reached manner requests).volumes[id]? = some v) :
    let s := reached manner requests
    (∀ i, (v.table.tagAt i).isFilled = true → v.table.floor ≤ i) ∧
    ∃ entries, v.table.Lists entries ∧ s.Enumerates manner id entries ∧
      (∀ (later : List (Request κ ν ε)) (v' : Volume κ ν ε),
        let s' := (runAll (Request.onShelf manner) later s).2
        s'.volumes[id]? = some v' → v'.table.age = v.table.age → s'.Enumerates manner id entries) ∧
      ∀ observations : List (Observation κ ν),
        (runAll (Request.onShelf manner) (observations.map .observe) s).2.Enumerates manner id
          entries := by
  intro s
  have hall : ∀ w ∈ s.volumes, w.Accurate := (governs_accurate manner).all_reached requests
  have h := (hall v (List.mem_of_getElem? hv)).accurate
  refine ⟨h.floor_le, v.table.entries, h.lists_entries, enumerates_entries hv h,
    fun later v' => enumerates_later hall hv later, fun observations => ?_⟩
  have hrun := observations_alike manner observations s
  obtain ⟨hnone, -⟩ | ⟨u, v', hu, hv', halike⟩ := hrun.volume? id
  · exact absurd_of_none hnone hv
  · obtain rfl := Option.some.inj (hu.symm.trans hv)
    obtain ⟨low, hlow⟩ := halike.table
    exact enumerates_later hall hv _ hv' (by rw [hlow])

private def plainRules : Rules Nat Empty := .through (fun n => n) Int.ofNat 64000 none

private def plainTable : List (Request Nat Nat Empty) := [.create plainRules 0]

private def reuse : List (Request Nat Nat Empty) :=
  [.change 0 (.set 3 30), .change 0 (.set 19 190), .change 0 (.set 5 50), .change 0 (.delete 3),
    .observe (.survey 0 .items), .change 0 (.set 35 350)]

private def listed : Reply Nat Nat Empty → List (Nat × Nat)
  | .ok (.entries entries) => entries
  | _ => []

/-- After a visit has raised the floor to the second of two keys with one home, a third one takes
the place of the first, which is below it. -/
theorem enumerations_exact_digits :
    ∃ v, (reached Manner.decimal (plainTable ++ reuse)).volumes[0]? = some v ∧
      (v.table.tagAt 3).isFilled = true ∧ v.table.floor ≤ 3 ∧
      v.table.Lists [(35, 350), (19, 190), (5, 50)] ∧
      (reached Manner.decimal (plainTable ++ reuse)).Enumerates Manner.decimal 0
        [(35, 350), (19, 190), (5, 50)] := by
  have hgoverns := governs_accurate (ε := Empty) Manner.decimal
  have hover := hgoverns.run_over reuse (hgoverns.all_reached plainTable)
  rw [← reached_append] at hover
  obtain ⟨v, hv, -⟩ := hover.step 0 { rules := plainRules, table := .new 0 } rfl
  obtain ⟨hfloor, entries, hlists, henum, -⟩ :=
    enumerations_exact Manner.decimal (plainTable ++ reuse) hv
  have hitems : listed ((reached Manner.decimal (plainTable ++ reuse)).reply Manner.decimal
      (.survey 0 .items)) = [(35, 350), (19, 190), (5, 50)] := by decide +kernel
  have hfilled : ((reached Manner.decimal (plainTable ++ reuse)).volumes[0]?.map fun w =>
      (w.table.tagAt 3).isFilled) = some true := by decide +kernel
  have hthree : (v.table.tagAt 3).isFilled = true :=
    Option.some.inj ((congrArg (Option.map _) hv).symm.trans hfilled)
  obtain rfl : entries = [(35, 350), (19, 190), (5, 50)] :=
    (congrArg listed henum.items).symm.trans hitems
  exact ⟨v, hv, hthree, hfloor 3 hthree, hlists, henum⟩

end Shelf

end OpenAddressing
