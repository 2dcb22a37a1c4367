import Mathlib.Data.Nat.ModEq
import Mathlib.Data.List.Forall2
import Mathlib.Tactic.Positivity
import OpenAddressing.Value.Rule
import OpenAddressing.Proofs.Lawful

/-!
# Equality and hashes of values

The standard rules hash a key by its number and compare keys by what they stand for. Values
of different kinds can stand for one number, so the hash must not depend on how a number is
written: moving a power of two between the mantissa and the exponent leaves its residue
alone, and from there equal hashes are lifted through tuples. Dictionaries are left out, as
they cannot be keys.
-/

namespace OpenAddressing

section Numbers

private theorem two_pow_modEq (k : Nat) : 2 ^ k ≡ 2 ^ (k % 61) [MOD hashModulus] := by
  have hturn : 2 ^ 61 ≡ 1 [MOD hashModulus] := by decide
  calc 2 ^ k = (2 ^ 61) ^ (k / 61) * 2 ^ (k % 61) := by
        rw [← pow_mul, ← pow_add, Nat.div_add_mod]
    _ ≡ 1 ^ (k / 61) * 2 ^ (k % 61) [MOD hashModulus] := (hturn.pow _).mul_right _
    _ = 2 ^ (k % 61) := by rw [one_pow, one_mul]

theorem residue_mul_two_pow (m k : Nat) (e : Int) :
    residue (m * 2 ^ k) e = residue m (e + k) := by
  -- A power of two comes back after 61 doublings, so negative exponents count from there.
  have hturns : (e % 61).toNat + k ≡ ((e + k) % 61).toNat [MOD 61] := by
    simp only [Nat.ModEq]
    omega
  have hpow : 2 ^ ((e % 61).toNat + k) ≡ 2 ^ ((e + k) % 61).toNat [MOD hashModulus] := by
    refine (two_pow_modEq _).trans ?_
    rw [hturns]
    exact (two_pow_modEq _).symm
  simp only [residue, Nat.shiftLeft_eq, mul_assoc, ← pow_add]
  rw [add_comm k]
  exact hpow.mul_left m

/-- The hash of a number does not depend on how it is split into a whole number and a power
of two. -/
theorem hash_ofIntWithPrec (m p : Int) :
    (Extended.finite (.ofIntWithPrec m p)).hash = signedHash (m < 0) (residue m.natAbs (-p)) := by
  by_cases hm : m = 0
  · subst hm
    have hzero : residue 0 (-p) = 0 := by rw [residue, Nat.zero_shiftLeft, Nat.zero_mod]
    rw [Int.natAbs_zero, hzero]
    rfl
  · have hdvd := Int.two_pow_trailingZeros_dvd hm
    simp only [Dyadic.ofIntWithPrec, dif_neg hm, Extended.hash]
    generalize m.trailingZeros = z at hdvd ⊢
    obtain ⟨odd, rfl⟩ := hdvd
    have hshift : (2 ^ z * odd) >>> z = odd := by
      rw [Int.shiftRight_eq_div_pow]
      exact Int.mul_ediv_cancel_left _ (by positivity)
    have hsign : 2 ^ z * odd < 0 ↔ odd < 0 :=
      ⟨fun h => Int.neg_of_mul_neg_right h (by positivity),
        Int.mul_neg_of_pos_of_neg (by positivity)⟩
    have hsize : (2 ^ z * odd).natAbs = odd.natAbs * 2 ^ z := by
      rw [Int.natAbs_mul, Nat.mul_comm, Int.natAbs_pow]
      rfl
    have hpower : -p + z = -(p - z) := by omega
    simp only [hshift, hsign, hsize, residue_mul_two_pow, hpower]

theorem hash_ofInt (n : Int) : (Extended.finite (.ofInt n)).hash = hashInt n :=
  hash_ofIntWithPrec n 0

theorem ofInt_inj {m n : Int} : Dyadic.ofInt m = Dyadic.ofInt n ↔ m = n := by
  rw [← Dyadic.toRat_inj, show Dyadic.ofInt m = (m : Dyadic) from rfl,
    show Dyadic.ofInt n = (n : Dyadic) from rfl, Dyadic.toRat_intCast, Dyadic.toRat_intCast,
    Rat.intCast_inj]

end Numbers

namespace Value

/-- A value without a dictionary anywhere in it. -/
inductive Plain : Value → Prop where
  | null : Plain .null
  | number {v : Value} {x : Extended} (h : v.number? = some x) : Plain v
  | nan (id : Identity) : Plain (.nan id)
  | str (s : String) : Plain (.str s)
  | list {items : List Value} (h : ∀ x ∈ items, Plain x) : Plain (.list items)
  | tuple {items : List Value} (h : ∀ x ∈ items, Plain x) : Plain (.tuple items)

section Equality

attribute [local simp] same sameNan equal number? sameItems

theorem null_same_iff {v : Value} : null.same v = true ↔ v = .null := by
  cases v <;> simp

theorem nan_same_iff {id : Identity} {v : Value} : (nan id).same v = true ↔ v = .nan id := by
  cases v <;> simp [@eq_comm _ id]

theorem str_same_iff {s : String} {v : Value} : (str s).same v = true ↔ v = .str s := by
  cases v <;> simp [@eq_comm _ s]

theorem number_same_iff {a v : Value} {x : Extended} (h : a.number? = some x) :
    a.same v = true ↔ v.number? = some x := by
  cases a <;> cases h <;> cases v <;> simp [ofInt_inj] <;>
    exact eq_comm

theorem sameItems_iff {xs ys : List Value} :
    sameItems xs ys = true ↔ List.Forall₂ (fun x y => x.same y = true) xs ys := by
  induction xs generalizing ys with
  | nil => cases ys <;> simp
  | cons x xs ih => cases ys <;> simp [ih]

theorem list_same_iff {xs : List Value} {v : Value} :
    (list xs).same v = true ↔
      ∃ ys, v = .list ys ∧ List.Forall₂ (fun x y => x.same y = true) xs ys := by
  cases v <;> simp [sameItems_iff]

theorem tuple_same_iff {xs : List Value} {v : Value} :
    (tuple xs).same v = true ↔
      ∃ ys, v = .tuple ys ∧ List.Forall₂ (fun x y => x.same y = true) xs ys := by
  cases v <;> simp [sameItems_iff]

theorem Plain.same_refl {a : Value} (ha : a.Plain) : a.same a = true := by
  induction ha with
  | null => exact null_same_iff.mpr rfl
  | number h => exact (number_same_iff h).mpr h
  | nan id => exact nan_same_iff.mpr rfl
  | str s => exact str_same_iff.mpr rfl
  | list _ ih => exact list_same_iff.mpr ⟨_, rfl, List.forall₂_same.mpr ih⟩
  | tuple _ ih => exact tuple_same_iff.mpr ⟨_, rfl, List.forall₂_same.mpr ih⟩

private theorem items_symm {xs ys : List Value}
    (ih : ∀ x ∈ xs, ∀ y, x.same y = true → y.same x = true)
    (h : List.Forall₂ (fun x y => x.same y = true) xs ys) :
    List.Forall₂ (fun x y => x.same y = true) ys xs := by
  obtain ⟨hlength, hsame⟩ := List.forall₂_iff_get.mp h
  refine List.forall₂_iff_get.mpr ⟨hlength.symm, fun i hy hx => ?_⟩
  exact ih _ (List.get_mem _ _) _ (hsame i hx hy)

theorem Plain.same_symm {a b : Value} (ha : a.Plain) (h : a.same b = true) :
    b.same a = true := by
  induction ha generalizing b with
  | null =>
      cases null_same_iff.mp h
      exact h
  | number hx => exact (number_same_iff ((number_same_iff hx).mp h)).mpr hx
  | nan id =>
      cases nan_same_iff.mp h
      exact h
  | str s =>
      cases str_same_iff.mp h
      exact h
  | list _ ih =>
      obtain ⟨ys, rfl, hys⟩ := list_same_iff.mp h
      exact list_same_iff.mpr ⟨_, rfl, items_symm (fun x hx y => ih x hx) hys⟩
  | tuple _ ih =>
      obtain ⟨ys, rfl, hys⟩ := tuple_same_iff.mp h
      exact tuple_same_iff.mpr ⟨_, rfl, items_symm (fun x hx y => ih x hx) hys⟩

private theorem items_trans {xs ys zs : List Value}
    (ih : ∀ x ∈ xs, ∀ y z, x.same y = true → y.same z = true → x.same z = true)
    (hxy : List.Forall₂ (fun x y => x.same y = true) xs ys)
    (hyz : List.Forall₂ (fun x y => x.same y = true) ys zs) :
    List.Forall₂ (fun x y => x.same y = true) xs zs := by
  obtain ⟨hxylen, hxysame⟩ := List.forall₂_iff_get.mp hxy
  obtain ⟨hyzlen, hyzsame⟩ := List.forall₂_iff_get.mp hyz
  refine List.forall₂_iff_get.mpr ⟨hxylen.trans hyzlen, fun i hx hz => ?_⟩
  have hy : i < ys.length := by omega
  exact ih _ (List.get_mem _ _) _ _ (hxysame i hx hy) (hyzsame i hy hz)

theorem Plain.same_trans {a b c : Value} (ha : a.Plain) (hab : a.same b = true)
    (hbc : b.same c = true) : a.same c = true := by
  -- Only the first value need be plain: those it is the same as are of its shape.
  induction ha generalizing b c with
  | null =>
      cases null_same_iff.mp hab
      exact hbc
  | number hx =>
      have hb := (number_same_iff hx).mp hab
      exact (number_same_iff hx).mpr ((number_same_iff hb).mp hbc)
  | nan id =>
      cases nan_same_iff.mp hab
      exact hbc
  | str s =>
      cases str_same_iff.mp hab
      exact hbc
  | list _ ih =>
      obtain ⟨ys, rfl, hys⟩ := list_same_iff.mp hab
      obtain ⟨zs, rfl, hzs⟩ := list_same_iff.mp hbc
      exact list_same_iff.mpr ⟨_, rfl, items_trans (fun x hx y z => ih x hx) hys hzs⟩
  | tuple _ ih =>
      obtain ⟨ys, rfl, hys⟩ := tuple_same_iff.mp hab
      obtain ⟨zs, rfl, hzs⟩ := tuple_same_iff.mp hbc
      exact tuple_same_iff.mpr ⟨_, rfl, items_trans (fun x hx y z => ih x hx) hys hzs⟩

end Equality

section Hashes

theorem hash_of_number? {v : Value} {x : Extended} (h : v.number? = some x) :
    v.hash = .ok (word x.hash) := by
  cases v <;> cases h <;> simp only [hash, hash_ofInt]

private theorem hashItems_congr {xs ys : List Value}
    (h : List.Forall₂ (fun x y => x.hash = y.hash) xs ys) (acc : UInt64) (n : Nat) :
    hashItems xs acc n = hashItems ys acc n := by
  induction h generalizing acc with
  | nil => rfl
  | @cons x y xs ys hxy _ ih =>
      simp only [hashItems, hxy]
      cases y.hash with
      | error cause => rfl
      | ok w => exact ih _

theorem Plain.hash_eq_of_same {a b : Value} (ha : a.Plain) (h : a.same b = true) :
    a.hash = b.hash := by
  induction ha generalizing b with
  | null => rw [null_same_iff.mp h]
  | number hx => rw [hash_of_number? hx, hash_of_number? ((number_same_iff hx).mp h)]
  | nan id => rw [nan_same_iff.mp h]
  | str s => rw [str_same_iff.mp h]
  | list _ _ =>
      obtain ⟨ys, rfl, -⟩ := list_same_iff.mp h
      simp only [hash, kind]
  | @tuple xs _ ih =>
      obtain ⟨ys, rfl, hys⟩ := tuple_same_iff.mp h
      obtain ⟨hlength, hsame⟩ := List.forall₂_iff_get.mp hys
      simp only [hash, hlength]
      refine hashItems_congr (List.forall₂_iff_get.mpr ⟨hlength, fun i hx hy => ?_⟩) _ _
      exact ih _ (List.get_mem _ _) (hsame i hx hy)

private theorem hashItems_cases {xs : List Value}
    (h : ∀ x ∈ xs, (∃ w, x.hash = .ok w) ∨ x.hash = .error (.unhashable "list"))
    (acc : UInt64) (n : Nat) :
    (∃ w, hashItems xs acc n = .ok w) ∨ hashItems xs acc n = .error (.unhashable "list") := by
  induction xs generalizing acc with
  | nil => exact Or.inl ⟨_, by rw [hashItems]⟩
  | cons x xs ih =>
      rw [hashItems]
      obtain ⟨w, hw⟩ | hw := h x List.mem_cons_self
      · rw [hw]
        exact ih (fun y hy => h y (List.mem_cons_of_mem x hy)) _
      · rw [hw]
        exact Or.inr rfl

/-- A plain value has a hash unless there is a list in it. -/
theorem Plain.hash_cases {a : Value} (ha : a.Plain) :
    (∃ w, a.hash = .ok w) ∨ a.hash = .error (.unhashable "list") := by
  induction ha with
  | null => exact Or.inl ⟨_, by rw [hash]⟩
  | number h => exact Or.inl ⟨_, hash_of_number? h⟩
  | nan id => exact Or.inl ⟨_, by rw [hash]⟩
  | str s => exact Or.inl ⟨_, by rw [hash]⟩
  | list _ _ => exact Or.inr (by simp only [hash, kind])
  | tuple _ ih =>
      rw [hash]
      exact hashItems_cases ih _ _

theorem Plain.defaultHash_cases {a : Value} (ha : a.Plain) :
    (∃ h : Int, 0 ≤ h ∧ h < 2 ^ 64 ∧ a.defaultHash = .ok h) ∨
      a.defaultHash = .error (.unhashable "list") := by
  obtain ⟨w, hw⟩ | hw := ha.hash_cases
  · refine Or.inl ⟨w.toNat, Int.natCast_nonneg _, ?_, by rw [defaultHash, hw]; rfl⟩
    exact_mod_cast w.toNat_lt
  · exact Or.inr (by rw [defaultHash, hw]; rfl)

theorem Plain.defaultHash_eq_of_same {a b : Value} (ha : a.Plain) (h : a.same b = true) :
    a.defaultHash = b.defaultHash := by
  rw [defaultHash, defaultHash, ha.hash_eq_of_same h]

end Hashes

end Value

def plainSame : Setoid {v : Value // v.Plain} where
  r a b := a.1.same b.1 = true
  iseqv :=
    ⟨fun a => a.2.same_refl, fun {a _} h => a.2.same_symm h,
      fun {a _ _} h h' => a.2.same_trans h h'⟩

def standardRules (largeCount : Int) (slotLimit : Option Nat) :
    Rules {v : Value // v.Plain} Refusal where
  hash key := HashRule.standard.hash key.1
  equal a b := EqualityRule.same.compare a.1 b.1
  largeCount := largeCount
  slotLimit := slotLimit

theorem standardRules_respects (largeCount : Int) (slotLimit : Option Nat) :
    (standardRules largeCount slotLimit).Respects plainSame where
  equal_iff {a b r} h := by
    cases h
    rfl
  hash_eq {a b g h} hs hg hh := by
    have heq : a.1.defaultHash = b.1.defaultHash := a.2.defaultHash_eq_of_same hs
    have hgh : (Except.ok g : Except Refusal Int) = .ok h := hg.symm.trans (heq.trans hh)
    cases hgh
    rfl

/-- Being the same as a key is an equivalence that goes by elements in lists and tuples and
that takes a value without a number for itself alone; numbers of all kinds are the same if
they are one number; values that are the same have one hash, a word, or are both refused for
a list; and so the standard rules are fit for a table. -/
theorem standard_rules_coherent :
    (Equivalence fun a b : {v : Value // v.Plain} => a.1.same b.1 = true) ∧
      (∀ id v, (Value.nan id).same v = true ↔ v = .nan id) ∧
      (∀ (a v : Value) (x : Extended), a.number? = some x →
        (a.same v = true ↔ v.number? = some x)) ∧
      (∀ xs ys, (Value.list xs).same (.list ys) = true ↔
        List.Forall₂ (fun x y => x.same y = true) xs ys) ∧
      (∀ xs ys, (Value.tuple xs).same (.tuple ys) = true ↔
        List.Forall₂ (fun x y => x.same y = true) xs ys) ∧
      (∀ a b : {v : Value // v.Plain}, a.1.same b.1 = true →
        (∃ h : Int, 0 ≤ h ∧ h < 2 ^ 64 ∧ a.1.defaultHash = .ok h ∧ b.1.defaultHash = .ok h) ∨
          a.1.defaultHash = .error (.unhashable "list") ∧
            b.1.defaultHash = .error (.unhashable "list")) ∧
      ∀ largeCount slotLimit, (standardRules largeCount slotLimit).Respects plainSame := by
  refine ⟨plainSame.iseqv, fun id v => Value.nan_same_iff,
    fun a v x => Value.number_same_iff, fun xs ys => ?_, fun xs ys => ?_, fun a b h => ?_,
    standardRules_respects⟩
  · simp [Value.list_same_iff]
  · simp [Value.tuple_same_iff]
  · rw [← a.2.defaultHash_eq_of_same h]
    obtain ⟨g, h0, hlt, hg⟩ | hrefused := a.2.defaultHash_cases
    · exact Or.inl ⟨g, h0, hlt, hg, hg⟩
    · exact Or.inr ⟨hrefused, hrefused⟩

/-- Truth, a whole number and zero in a tuple, and the same numbers with a point. -/
theorem standard_rules_coherent_kinds :
    let whole : Value := .tuple [.bool true, .int (2 ^ 53), .tuple [.int 0]]
    let pointed : Value := .tuple [.float ⟨"1.0", by decide⟩ (.finite (.ofInt 1)),
      .float ⟨"9007199254740992.0", by decide⟩ (.finite (.ofIntWithPrec 1 (-53))),
      .tuple [.float ⟨"-0.0", by decide⟩ (.finite .zero)]]
    whole.same pointed = true ∧ ∃ h : Int, 0 ≤ h ∧ h < 2 ^ 64 ∧
      whole.defaultHash = .ok h ∧ pointed.defaultHash = .ok h := by
  intro whole pointed
  have htuple {items : List Value} (h : List.Forall Value.Plain items) :
      (Value.tuple items).Plain := .tuple (List.forall_iff_forall_mem.mp h)
  have hw : whole.Plain := htuple ⟨.number rfl, .number rfl, htuple (.number rfl)⟩
  have hp : pointed.Plain := htuple ⟨.number rfl, .number rfl, htuple (.number rfl)⟩
  have hsame : whole.same pointed = true := by
    decide
  have hhash : whole.defaultHash ≠ .error (.unhashable "list") := by
    simp [whole, Value.defaultHash, Value.hash, Value.hashItems, bind, Except.bind, pure,
      Except.pure]
  refine ⟨hsame, ?_⟩
  obtain h | h := standard_rules_coherent.2.2.2.2.2.1 ⟨whole, hw⟩ ⟨pointed, hp⟩ hsame
  · exact h
  · exact absurd h.1 hhash

end OpenAddressing
