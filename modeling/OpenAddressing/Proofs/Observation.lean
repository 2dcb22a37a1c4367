import Mathlib.Data.List.Forall2
import OpenAddressing.Proofs.Errand

/-!
# Observations

Whatever the rules and the tables, an observation changes no more than floors, also when it
stops. Tables that differ in nothing but their floors are alike.
-/

namespace OpenAddressing

variable {κ ν ε α : Type}

def Table.Alike (t t' : Table κ ν) : Prop := ∃ low, t' = { t with floor := low }

namespace Table.Alike

variable {t t' u : Table κ ν}

theorem refl (t : Table κ ν) : t.Alike t := ⟨t.floor, rfl⟩

theorem symm (h : t.Alike t') : t'.Alike t := by
  obtain ⟨low, rfl⟩ := h
  exact ⟨t.floor, rfl⟩

theorem trans (h : t.Alike t') (h' : t'.Alike u) : t.Alike u := by
  obtain ⟨low, rfl⟩ := h
  obtain ⟨low', rfl⟩ := h'
  exact ⟨low', rfl⟩

end Table.Alike

structure Journal.Alike (s s' : Journal κ ν) : Prop where
  table : s.table.Alike s'.table
  events : s'.events = s.events

theorem Journal.Alike.refl (s : Journal κ ν) : s.Alike s := ⟨.refl _, rfl⟩

structure Volume.Alike (v v' : Volume κ ν ε) : Prop where
  rules : v'.rules = v.rules
  table : v.table.Alike v'.table
  plan : v'.plan? = v.plan?

namespace Volume.Alike

variable {v v' w : Volume κ ν ε}

theorem refl (v : Volume κ ν ε) : v.Alike v := ⟨rfl, .refl _, rfl⟩

theorem symm (h : v.Alike v') : v'.Alike v := ⟨h.rules.symm, h.table.symm, h.plan.symm⟩

theorem trans (h : v.Alike v') (h' : v'.Alike w) : v.Alike w :=
  ⟨h'.rules.trans h.rules, h.table.trans h'.table, h'.plan.trans h.plan⟩

end Volume.Alike

/-- Shelves with the same tables, but for their floors, and the same events. -/
structure Shelf.Alike (s s' : Shelf κ ν ε) : Prop where
  volumes : List.Forall₂ Volume.Alike s.volumes s'.volumes
  events : s'.events = s.events

namespace Shelf.Alike

variable {s s' u : Shelf κ ν ε}

theorem refl (s : Shelf κ ν ε) : s.Alike s :=
  ⟨List.forall₂_same.mpr fun v _ => .refl v, rfl⟩

theorem symm (h : s.Alike s') : s'.Alike s :=
  ⟨(h.volumes.imp fun _ _ hv => hv.symm).flip, h.events.symm⟩

theorem trans (h : s.Alike s') (h' : s'.Alike u) : s.Alike u := by
  refine ⟨List.forall₂_iff_get.mpr ?_, h'.events.trans h.events⟩
  obtain ⟨hlength, hget⟩ := List.forall₂_iff_get.mp h.volumes
  obtain ⟨hlength', hget'⟩ := List.forall₂_iff_get.mp h'.volumes
  refine ⟨hlength.trans hlength', fun i hi hi' => ?_⟩
  exact (hget i hi (by omega)).trans (hget' i (by omega) hi')

private theorem volumes_getElem? {l l' : List (Volume κ ν ε)} (h : List.Forall₂ Volume.Alike l l')
    (id : Nat) : l[id]? = none ∧ l'[id]? = none ∨
      ∃ v v', l[id]? = some v ∧ l'[id]? = some v' ∧ v.Alike v' := by
  induction h generalizing id with
  | nil => exact Or.inl ⟨rfl, rfl⟩
  | @cons v v' _ _ hv _ ih =>
      cases id with
      | zero => exact Or.inr ⟨v, v', rfl, rfl, hv⟩
      | succ id => exact ih id

theorem volume? (h : s.Alike s') (id : Nat) :
    s.volumes[id]? = none ∧ s'.volumes[id]? = none ∨
      ∃ v v', s.volumes[id]? = some v ∧ s'.volumes[id]? = some v' ∧ v.Alike v' :=
  volumes_getElem? h.volumes id

end Shelf.Alike

namespace Op

variable {s : Journal κ ν}

theorem filledFromFloor?_alike :
    (filledFromFloor? : Op κ ν ε (Option Int)).Outcome s (fun _ s' => s.Alike s')
      (fun _ s' => s.Alike s') := by
  rw [filledFromFloor?, outcome_bind, outcome_query]
  cases s.table.filledFrom? s.table.floor with
  | error fault => exact .refl s
  | ok found =>
      cases found with
      | none => exact .refl s
      | some i =>
          rw [gives_ok]
          dsimp only
          by_cases hi : 0 ≤ i
          · rw [if_pos hi]
            exact ⟨⟨i, rfl⟩, rfl⟩
          · rw [if_neg hi]
            exact .refl s

theorem query_alike {s₀ : Journal κ ν} (h : s₀.Alike s) (f : Table κ ν → Except (Fault κ ε) α) :
    (query f).Outcome s (fun _ s' => s₀.Alike s') (fun _ s' => s₀.Alike s') := by
  rw [outcome_query]
  cases f s.table with
  | ok a => exact h
  | error fault => exact h

theorem iterate_none_alike :
    (iterate none : Op κ ν ε (Option (Table.Step κ ν))).Outcome s (fun _ s' => s.Alike s')
      (fun _ s' => s.Alike s') :=
  filledFromFloor?_alike.bind (fun _ _ hs => query_alike hs _) fun _ _ hs => hs

theorem items_alike :
    (items : Op κ ν ε (Array (κ × ν))).Outcome s (fun _ s' => s.Alike s')
      (fun _ s' => s.Alike s') :=
  iterate_none_alike.bind (fun _ _ hs => query_alike hs _) fun _ _ hs => hs

end Op

namespace Shelf

open Errand

theorem Survey.op_alike (manner : Manner κ ν ε) (survey : Survey) {s : Journal κ ν} :
    (survey.op manner).Outcome s (fun _ s' => s.Alike s') (fun _ s' => s.Alike s') := by
  have hitems (answer : Array (κ × ν) → Answer κ ν ε) :
      (do return answer (← Op.items) : Op κ ν ε (Answer κ ν ε)).Outcome s
        (fun _ s' => s.Alike s') (fun _ s' => s.Alike s') :=
    Op.items_alike.bind (fun _ _ hs => hs) fun _ _ hs => hs
  cases survey with
  | filledFromFloor => exact Op.filledFromFloor?_alike.bind (fun _ _ hs => hs) fun _ _ hs => hs
  | firstStep => exact Op.iterate_none_alike.bind (fun _ _ hs => hs) fun _ _ hs => hs
  | items => exact hitems _
  | keys => exact hitems _
  | values => exact hitems _
  | list =>
      rw [op, Op.outcome_bind, Op.outcome_query]
      cases s.table.length with
      | error fault => exact .refl s
      | ok length =>
          rw [gives_ok, Op.outcome_bind, Op.outcome_query]
          cases demandList manner length with
          | error fault => exact .refl s
          | ok => exact hitems _
  | render =>
      refine Op.items_alike.bind (fun entries s' hs => ?_) fun _ _ hs => hs
      exact (Op.query_alike hs _).bind (fun _ _ hs => hs) fun _ _ hs => hs

theorem alike_set {s : Shelf κ ν ε} {id : Nat} {v v' : Volume κ ν ε}
    (hv : s.volumes[id]? = some v) (h : v.Alike v') :
    s.Alike ⟨s.volumes.set id v', s.events⟩ := by
  refine ⟨List.forall₂_iff_get.mpr ⟨(List.length_set).symm, fun i hi hi' => ?_⟩, rfl⟩
  by_cases heq : id = i
  · subst heq
    have hget : s.volumes.get ⟨id, hi⟩ = v := (List.getElem?_eq_some_iff.mp hv).2
    rw [hget]
    simpa using h
  · simpa [heq] using Volume.Alike.refl _

/-- Wherever it is begun and however it ends, the errand changes no more than floors. -/
def Harmless (x : Errand κ ν ε α) : Prop :=
  ∀ s, x.Ends s (fun _ s' => s.Alike s') (fun _ s' => s.Alike s')

theorem harmless_pure (a : α) : Harmless (pure a : Errand κ ν ε α) := fun s => .refl s

theorem Harmless.bind {β : Type} {x : Errand κ ν ε β} {f : β → Errand κ ν ε α} (hx : Harmless x)
    (hf : ∀ b, Harmless (f b)) : Harmless (x >>= f) := by
  intro s
  refine (ends_bind x f).mpr ((hx s).imp (fun b s' hs => ?_) fun _ _ hs => hs)
  exact (hf b s').imp (fun _ _ hs' => hs.trans hs') fun _ _ hs' => hs.trans hs'

theorem harmless_onTable {op : Rules κ ε → Op κ ν ε α} (id : Nat)
    (h : ∀ rules j, (op rules).Outcome j (fun _ j' => j.Alike j') (fun _ j' => j.Alike j')) :
    Harmless (onTable id op) := by
  intro s
  have hstore {v : Volume κ ν ε} (hv : s.volumes[id]? = some v) {j : Journal κ ν}
      (hj : Journal.Alike ⟨v.table, s.events⟩ j) :
      s.Alike ⟨s.volumes.set id (v.withTable j.table), j.events⟩ := by
    rw [hj.events]
    exact alike_set hv ⟨rfl, hj.table, rfl⟩
  cases hv : s.volumes[id]? with
  | none => exact (ends_tend_none hv).mpr (.refl s)
  | some v =>
      exact (ends_tend hv).mpr ((h v.rules _).imp (fun _ _ => hstore hv) fun _ _ => hstore hv)

theorem harmless_query (id : Nat) (f : Rules κ ε → Table κ ν → Except (Fault κ ε) α) :
    Harmless (onTable id fun rules => Op.query (f rules)) :=
  harmless_onTable id fun _ j => Op.query_alike (.refl j) _

theorem Observation.harmless (manner : Manner κ ν ε) (observation : Observation κ ν) :
    Harmless (observation.perform manner) := by
  cases observation with
  | ask id question => exact harmless_query id _
  | survey id survey => exact harmless_onTable id fun _ _ => survey.op_alike manner
  | equals id other =>
      refine Harmless.bind ?_ fun _ => harmless_pure _
      refine (harmless_query id _).bind fun count => (harmless_query other _).bind fun count' => ?_
      split
      · refine Harmless.bind ?_ fun entries => harmless_query other _
        exact (harmless_onTable id fun _ _ => Op.items_alike).bind fun _ => harmless_pure _
      · exact harmless_pure _

section Runs

variable [Inhabited κ] [Inhabited ν]

def reply (manner : Manner κ ν ε) (s : Shelf κ ν ε) (observation : Observation κ ν) :
    Reply κ ν ε :=
  ((Request.observe observation).onShelf manner s).1

theorem Observation.onShelf_alike (manner : Manner κ ν ε) (observation : Observation κ ν)
    (s : Shelf κ ν ε) : s.Alike ((Request.observe observation).onShelf manner s).2 := by
  have hends : ((Request.observe observation).perform manner).Ends s (fun _ s' => s.Alike s')
      (fun _ s' => s.Alike s') := observation.harmless manner s
  exact hends.onShelf_state

theorem observations_alike (manner : Manner κ ν ε) (observations : List (Observation κ ν))
    (s : Shelf κ ν ε) :
    s.Alike (runAll (Request.onShelf manner) (observations.map .observe) s).2 := by
  induction observations generalizing s with
  | nil => exact .refl s
  | cons observation rest ih => exact (observation.onShelf_alike manner s).trans (ih _)

end Runs

end Shelf

end OpenAddressing
