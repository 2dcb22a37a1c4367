import OpenAddressing.Proofs.Audit
import OpenAddressing.Proofs.Effect

/-!
# Audits accept every reachable table

To be accepted by an audit, with bounds that are no negative numbers, is kept by every request
to any table, reachable or not.
-/

namespace OpenAddressing

variable {κ ν ε : Type} {rules : Rules κ ε} {same : Setoid κ}

namespace Table

/-- An audit accepts the table, and its bounds are no negative numbers. -/
structure Accepted (rules : Rules κ ε) (t : Table κ ν) : Prop where
  audit_ok : t.audit rules = .ok ()
  maxProbe_nonneg : 0 ≤ t.maxProbe
  floor_nonneg : 0 ≤ t.floor

variable {t : Table κ ν}

theorem accepted_iff (hr : rules.Lawful same) : t.Accepted rules ↔ t.Sound rules same := by
  constructor
  · intro h'
    obtain ⟨haudit, hreach, hfloor⟩ := h'
    exact ⟨(audit_eq_ok_iff hr).mp haudit, hreach, hfloor⟩
  · intro h
    exact ⟨(audit_eq_ok_iff hr).mpr h.toWellFormed, h.maxProbe_nonneg, h.floor_nonneg⟩

theorem sound_new [Inhabited κ] [Inhabited ν] (hint : Int) :
    (new hint : Table κ ν).Sound rules same :=
  sound_blank (Or.inr (isCapacity_capacityFor hint))

theorem Sound.listed_eq (h : t.Sound rules same) :
    (t.listed : Except (Fault κ ε) (List (κ × ν))) = .ok t.entries := by
  have hitems := Op.items_outcome (ε := ε) (s := ⟨t, #[]⟩) h
  obtain ⟨entries, s', heq, hentries, -⟩ := hitems.exists_ok fun _ _ hl => hl
  rw [listed, heq, ← hentries]

end Table

variable [Inhabited κ] [Inhabited ν]

theorem sound_reached_of_respects (hr : rules.Respects same) (hint : Int)
    (requests : List (TableRequest κ ν ε)) : (reached rules hint requests).table.Sound rules same :=
  runAll_invariant (s := ⟨Table.new hint, #[]⟩)
    (P := fun s : Journal κ ν => s.table.Sound rules same)
    (fun request _ hs => (request.onTable_halts hr hs).1.sound hs) requests (Table.sound_new hint)

theorem sound_reached (hr : rules.Lawful same) (hint : Int)
    (requests : List (TableRequest κ ν ε)) : (reached rules hint requests).table.Sound rules same :=
  sound_reached_of_respects hr.toRespects hint requests

/-- New tables are accepted; a request to a table that is accepted leaves one that is, and
stops only where it must; so every table that a run leads to is accepted. A table that is
accepted can also be visited by others. -/
theorem accepted_inductive (hr : rules.Lawful same) :
    (∀ hint : Int, (Table.new hint : Table κ ν).Accepted rules) ∧
    (∀ (s : Journal κ ν) (request : TableRequest κ ν ε), s.table.Accepted rules →
      (request.onTable rules s).2.table.Accepted rules ∧
      ∀ fault, (request.onTable rules s).1 = .error fault →
        s.table.Stops rules same request fault) ∧
    (∀ t : Table κ ν, t.Accepted rules →
      (t.listed : Except (Fault κ ε) (List (κ × ν))) = .ok t.entries) ∧
    ∀ (hint : Int) (requests : List (TableRequest κ ν ε)),
      (reached rules hint requests).table.Accepted rules := by
  have hnew (hint : Int) : (Table.new hint : Table κ ν).Accepted rules :=
    (Table.accepted_iff hr).mpr (Table.sound_new hint)
  have hstep (s : Journal κ ν) (request : TableRequest κ ν ε) (h : s.table.Accepted rules) :
      (request.onTable rules s).2.table.Accepted rules ∧
      ∀ fault, (request.onTable rules s).1 = .error fault →
        s.table.Stops rules same request fault := by
    have hs := (Table.accepted_iff hr).mp h
    obtain ⟨heffect, hstop⟩ := request.onTable_effect hr hs
    exact ⟨(Table.accepted_iff hr).mpr (heffect.sound hs), hstop⟩
  refine ⟨hnew, hstep, fun t h => ((Table.accepted_iff hr).mp h).listed_eq, ?_⟩
  exact fun hint requests => (Table.accepted_iff hr).mpr (sound_reached hr hint requests)

theorem accepted_inductive_digits :
    let rules : Rules Nat Empty := .through (· % 10) (fun n => (n % 4 : Nat)) 64000 (some 64)
    rules.Lawful (Setoid.ker (· % 10)) ∧
      (reached (ν := Nat) rules (-5) [.map (.set 3 30), .map (.set 13 31), .map (.set 7 70),
        .map (.delete 23), .plan 11]).table.Accepted rules :=
  ⟨Rules.lawful_through _ _ _ _,
    (accepted_inductive (Rules.lawful_through _ _ _ _)).2.2.2 (-5) _⟩

end OpenAddressing
