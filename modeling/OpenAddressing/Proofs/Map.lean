import OpenAddressing.Proofs.Delete
import OpenAddressing.Proofs.Insert
import OpenAddressing.Table.Map

/-!
# Lookups and removals by key

Every operation that begins with a lookup answers by the entry whose key is the same, or by
the fact that there is none.
-/

namespace OpenAddressing

variable {κ ν ε : Type} {rules : Rules κ ε} {same : Setoid κ}

namespace Table

variable {t t' : Table κ ν} {key : κ}

theorem WellFormed.get?_spec (h : t.WellFormed rules same) (hr : rules.Respects same) (key : κ) :
    Gives (t.get? rules key) (fun value => ∃ e, t.Found same key e ∧ value = e.map (·.2))
      rules.Refuses := by
  rw [get?, gives_bind]
  refine (h.find?_found hr key).imp ?_ (fun _ href => href)
  intro found hfound
  cases found with
  | none => exact ⟨none, hfound, rfl⟩
  | some i =>
      obtain ⟨k, v, hk, hs⟩ := hfound
      simp only [val_eq hk.val]
      exact ⟨some (k, v), ⟨⟨i, hk⟩, hs⟩, rfl⟩

theorem WellFormed.getKey?_spec (h : t.WellFormed rules same) (hr : rules.Respects same)
    (key : κ) :
    Gives (t.getKey? rules key) (fun stored => ∃ e, t.Found same key e ∧ stored = e.map (·.1))
      rules.Refuses := by
  rw [getKey?, gives_bind]
  refine (h.find?_found hr key).imp ?_ (fun _ href => href)
  intro found hfound
  cases found with
  | none => exact ⟨none, hfound, rfl⟩
  | some i =>
      obtain ⟨k, v, hk, hs⟩ := hfound
      simp only [key_eq hk.key]
      exact ⟨some (k, v), ⟨⟨i, hk⟩, hs⟩, rfl⟩

theorem WellFormed.get_spec (h : t.WellFormed rules same) (hr : rules.Respects same) (key : κ) :
    Gives (t.get rules key) (fun value => ∃ k, t.Found same key (some (k, value)))
      (fun fault => rules.Refuses fault ∨ t.Found same key none ∧ fault = .missing key) := by
  rw [get, gives_bind]
  refine (h.get?_spec hr key).imp ?_ (fun _ href => Or.inl href)
  intro _ hgives
  rcases hgives with ⟨_ | ⟨k, v⟩, he, rfl⟩
  · exact Or.inr ⟨he, rfl⟩
  · exact ⟨k, he⟩

theorem WellFormed.contains_spec (h : t.WellFormed rules same) (hr : rules.Respects same)
    (key : κ) :
    Gives (t.contains rules key)
      (fun present => ∃ e : Option (κ × ν), t.Found same key e ∧ present = e.isSome)
      rules.Refuses := by
  rw [contains, gives_bind]
  refine (h.find?_found hr key).imp ?_ (fun _ href => href)
  intro found hfound
  cases found with
  | none => exact ⟨none, hfound, rfl⟩
  | some i =>
      obtain ⟨k, v, hk, hs⟩ := hfound
      exact ⟨some (k, v), ⟨⟨i, hk⟩, hs⟩, rfl⟩

end Table

namespace Op

open Table

variable [Inhabited κ] [Inhabited ν] {s : Journal κ ν}

theorem pop_outcome (hr : rules.Respects same) (h : s.table.Sound rules same) (key : κ) :
    (pop rules key).Outcome s
      (fun value s' => ∃ k, s.table.Removed same key s'.table (some (k, value)))
      (fun fault s' => (rules.Refuses fault ∨ s.table.Found same key none ∧
        fault = .missing key) ∧ s'.table = s.table) := by
  refine (pop?_outcome hr h key).bind ?_ (fun _ _ hl => ⟨Or.inl hl.1, hl.2⟩)
  intro _ s' hpost
  rcases hpost with ⟨_ | ⟨k, v⟩, he, rfl⟩
  · exact ⟨Or.inr ⟨he.1, rfl⟩, he.2⟩
  · exact ⟨k, he⟩

theorem remove_outcome (hr : rules.Respects same) (h : s.table.Sound rules same) (key : κ) :
    (remove rules key).Outcome s
      (fun _ s' => ∃ e, s.table.Removed same key s'.table (some e))
      (fun fault s' => (rules.Refuses fault ∨ s.table.Found same key none ∧
        fault = .missing key) ∧ s'.table = s.table) := by
  refine (delete_outcome hr h key).bind ?_ (fun _ _ hl => ⟨Or.inl hl.1, hl.2⟩)
  intro _ s' hpost
  rcases hpost with ⟨_ | e, he, rfl⟩
  · exact ⟨Or.inr ⟨he.1, rfl⟩, he.2⟩
  · exact ⟨e, he⟩

end Op

end OpenAddressing
