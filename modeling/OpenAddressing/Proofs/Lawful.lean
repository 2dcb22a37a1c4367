import Mathlib.Data.Finset.Card
import Mathlib.Data.Setoid.Basic
import OpenAddressing.Table.Basic

/-!
# Laws of hashing and comparing

A table relies on its rules in one way only: keys that count as equal have one hash, and
counting as equal is an equivalence. Rules may refuse to answer; then operations stop, and
they stop for no other reason that lies outside the table.
-/

namespace OpenAddressing

variable {κ ε : Type}

/-- Where the rules answer, keys are equal exactly if they are the same by `same`, and then
they have one hash. -/
structure Rules.Respects (rules : Rules κ ε) (same : Setoid κ) : Prop where
  equal_iff {a b : κ} {r : Bool} : rules.equal a b = .ok r → (r = true ↔ same.r a b)
  hash_eq {a b : κ} {g h : Int} :
    same.r a b → rules.hash a = .ok g → rules.hash b = .ok h → g = h

structure Rules.Lawful (rules : Rules κ ε) (same : Setoid κ) : Prop
    extends rules.Respects same where
  hash_total (key : κ) : ∃ h, rules.hash key = .ok h
  equal_total (a b : κ) : ∃ r, rules.equal a b = .ok r
  announce_total (key : κ) (capacity : Nat) : rules.announce key capacity = .ok ()

inductive Rules.Refuses (rules : Rules κ ε) : Fault κ ε → Prop where
  | hash {key : κ} {cause : ε} (h : rules.hash key = .error cause) : Refuses rules (.refused cause)
  | equal {a b : κ} {cause : ε} (h : rules.equal a b = .error cause) :
      Refuses rules (.refused cause)
  | announce {key : κ} {capacity : Nat} {cause : ε}
      (h : rules.announce key capacity = .error cause) : Refuses rules (.refused cause)

def Rules.LacksRoom (rules : Rules κ ε) (fault : Fault κ ε) : Prop :=
  ∃ size, rules.demandRoom size = .error fault

def Rules.LacksSlots (rules : Rules κ ε) (most : Nat) (fault : Fault κ ε) : Prop :=
  ∃ size ≤ most, rules.demandRoom size = .error fault

def Rules.Starves {α : Type} (rules : Rules κ ε) (most : Nat) (answer : Except (Fault κ ε) α) :
    Prop := ∃ fault, answer = .error fault ∧ rules.LacksSlots most fault

/-- The faults of a refusal, or of storage of at most so many slots. -/
def Rules.Denies (rules : Rules κ ε) (most : Nat) (fault : Fault κ ε) : Prop :=
  rules.Refuses fault ∨ rules.LacksSlots most fault

/-- The faults that are due to the rules alone: refusals, and want of memory. -/
inductive Rules.Excuses (rules : Rules κ ε) : Fault κ ε → Prop where
  | refused {fault : Fault κ ε} (h : rules.Refuses fault) : Excuses rules fault
  | room {fault : Fault κ ε} (h : rules.LacksRoom fault) : Excuses rules fault

/-- Keys count as equal if a function takes them to one value, of which the hash is taken. -/
def Rules.through {γ : Type} [DecidableEq γ] (f : κ → γ) (hash : γ → Int) (largeCount : Int)
    (slotLimit : Option Nat) : Rules κ ε where
  hash key := .ok (hash (f key))
  equal a b := .ok (f a == f b)
  largeCount := largeCount
  slotLimit := slotLimit

namespace Rules

theorem lawful_through {γ : Type} [DecidableEq γ] (f : κ → γ) (hash : γ → Int) (largeCount : Int)
    (slotLimit : Option Nat) :
    (through f hash largeCount slotLimit : Rules κ ε).Lawful (Setoid.ker f) where
  equal_iff {a b r} h := by
    cases h
    exact beq_iff_eq
  hash_eq {a b g h} hs hg hh := by
    cases hg
    cases hh
    exact congrArg hash hs
  hash_total key := ⟨hash (f key), rfl⟩
  equal_total a b := ⟨f a == f b, rfl⟩
  announce_total _ _ := rfl

instance {γ : Type} [DecidableEq γ] (f : κ → γ) : DecidableEq (Quotient (Setoid.ker f)) :=
  @Quotient.decidableEq κ (Setoid.ker f) fun a b => inferInstanceAs (Decidable (f a = f b))

variable {rules : Rules κ ε} {same : Setoid κ} {fault : Fault κ ε}

theorem hashOf_ok {key : κ} {h : Int} (heq : rules.hash key = .ok h) :
    rules.hashOf key = .ok h := by
  rw [hashOf, heq]
  rfl

theorem hashOf_cases (rules : Rules κ ε) (key : κ) :
    (∃ h, rules.hash key = .ok h ∧ rules.hashOf key = .ok h) ∨
      ∃ fault, rules.hashOf key = .error fault ∧ rules.Refuses fault := by
  cases heq : rules.hash key with
  | ok h => exact Or.inl ⟨h, rfl, hashOf_ok heq⟩
  | error cause => exact Or.inr ⟨.refused cause, by rw [hashOf, heq]; rfl, .hash heq⟩

theorem Respects.isKey_cases (hr : rules.Respects same) (a b : κ) :
    (∃ r : Bool, rules.isKey a b = .ok r ∧ (r = true ↔ same.r a b)) ∨
      ∃ fault, rules.isKey a b = .error fault ∧ rules.Refuses fault := by
  cases heq : rules.equal a b with
  | ok r => exact Or.inl ⟨r, by rw [isKey, heq]; rfl, hr.equal_iff heq⟩
  | error cause => exact Or.inr ⟨.refused cause, by rw [isKey, heq]; rfl, .equal heq⟩

theorem announceKey_cases (rules : Rules κ ε) (key : κ) (capacity : Nat) :
    rules.announceKey key capacity = .ok () ∨
      ∃ fault, rules.announceKey key capacity = .error fault ∧ rules.Refuses fault := by
  rw [announceKey]
  cases heq : rules.announce key capacity with
  | ok => exact Or.inl rfl
  | error cause => exact Or.inr ⟨.refused cause, rfl, .announce heq⟩

theorem demandRoom_none (h : rules.slotLimit = none) (size : Nat) :
    rules.demandRoom size = .ok () := by
  rw [demandRoom, h]

theorem Lawful.not_refuses (hr : rules.Lawful same) : ¬rules.Refuses fault := by
  intro h
  cases h with
  | @hash key cause heq =>
      obtain ⟨h, hok⟩ := hr.hash_total key
      rw [hok] at heq
      cases heq
  | @equal a b cause heq =>
      obtain ⟨r, hok⟩ := hr.equal_total a b
      rw [hok] at heq
      cases heq
  | announce heq =>
      rw [hr.announce_total] at heq
      cases heq

theorem Lawful.excuses (hr : rules.Lawful same) (h : rules.Excuses fault) :
    rules.LacksRoom fault := by
  cases h with
  | refused h => exact absurd h hr.not_refuses
  | room h => exact h

theorem demandRoom_error {size : Nat} (h : rules.demandRoom size = .error fault) :
    fault = .noMemory ∨ fault = .wideLength := by
  rw [demandRoom] at h
  split at h
  · cases h
  · split at h
    · cases h
    · split at h
      · exact Or.inl (Except.error.inj h).symm
      · exact Or.inr (Except.error.inj h).symm

theorem LacksRoom.ne_refused (h : rules.LacksRoom fault) (cause : ε) : fault ≠ .refused cause := by
  obtain ⟨size, h⟩ := h
  rcases demandRoom_error h with rfl | rfl
  · simp
  · simp

theorem not_lacksRoom (hroom : rules.slotLimit = none) : ¬rules.LacksRoom fault := by
  intro h
  obtain ⟨size, heq⟩ := h
  rw [demandRoom_none hroom] at heq
  cases heq

theorem LacksSlots.lacksRoom {most : Nat} (h : rules.LacksSlots most fault) :
    rules.LacksRoom fault := by
  obtain ⟨size, -, h⟩ := h
  exact ⟨size, h⟩

theorem LacksSlots.mono {most more : Nat} (h : rules.LacksSlots most fault) (hle : most ≤ more) :
    rules.LacksSlots more fault := by
  obtain ⟨size, hsize, h⟩ := h
  exact ⟨size, hsize.trans hle, h⟩

theorem LacksSlots.limited {most : Nat} (h : rules.LacksSlots most fault) :
    rules.slotLimit ≠ none := fun hroom => not_lacksRoom hroom h.lacksRoom

theorem Denies.mono {most more : Nat} (h : rules.Denies most fault) (hle : most ≤ more) :
    rules.Denies more fault := h.imp_right fun hlacks => hlacks.mono hle

theorem Lawful.denies (hr : rules.Lawful same) {most : Nat} (h : rules.Denies most fault) :
    rules.LacksSlots most fault := h.resolve_left hr.not_refuses

theorem Starves.limited {α : Type} {answer : Except (Fault κ ε) α} {most : Nat}
    (h : rules.Starves most answer) : rules.slotLimit ≠ none := by
  obtain ⟨fault, -, hlacks⟩ := h
  exact hlacks.limited

end Rules

end OpenAddressing
