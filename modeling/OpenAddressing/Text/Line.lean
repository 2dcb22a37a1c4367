/-!
# Texts of one line

Numbers are written without line breaks.
-/

namespace OpenAddressing

def OneLine (s : String) : Prop := '\n' ∉ s.toList

instance (s : String) : Decidable (OneLine s) := inferInstanceAs (Decidable ('\n' ∉ s.toList))

@[simp]
theorem oneLine_append {s t : String} : OneLine (s ++ t) ↔ OneLine s ∧ OneLine t := by
  simp [OneLine, String.toList_append]

@[simp]
theorem oneLine_ofList {cs : List Char} : OneLine (String.ofList cs) ↔ '\n' ∉ cs := by
  rw [OneLine, String.toList_ofList]

theorem notMem_nat {c : Char} (hc : c.isDigit = false) (n : Nat) : c ∉ (toString n).toList := by
  intro h
  have h : c ∈ n.repr.toList := h
  rw [Nat.toList_repr] at h
  have hdigit := Nat.isDigit_of_mem_toDigits (by omega) (by omega) h
  rw [hc] at hdigit
  cases hdigit

theorem toString_negSucc (n : Nat) : toString (Int.negSucc n) = "-" ++ toString (n + 1) := rfl

theorem notMem_int {c : Char} (hc : c.isDigit = false) (hminus : c ≠ '-') (n : Int) :
    c ∉ (toString n).toList := by
  cases n with
  | ofNat n => exact notMem_nat hc n
  | negSucc n =>
      rw [toString_negSucc, String.toList_append, List.mem_append, not_or]
      exact ⟨List.not_mem_cons_of_ne_of_not_mem hminus List.not_mem_nil, notMem_nat hc (n + 1)⟩

theorem newline_notMem_toDigits (n : Nat) : '\n' ∉ Nat.toDigits 10 n := by
  intro h
  have hdigit := Nat.isDigit_of_mem_toDigits (by omega) (by omega) h
  cases hdigit

@[simp]
theorem oneLine_nat (n : Nat) : OneLine (toString n) := notMem_nat rfl n

@[simp]
theorem oneLine_int (n : Int) : OneLine (toString n) := notMem_int rfl (by decide) n

abbrev Line : Type := {s : String // OneLine s}

end OpenAddressing
