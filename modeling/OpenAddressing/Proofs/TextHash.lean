import Mathlib.Logic.Function.Basic
import OpenAddressing.Value.Hash

/-!
# Text hashes tell single characters apart

A text is absorbed into a 64-bit word code point by code point. Each step can be undone, since the
multiplier is odd, and so can all steps of a common suffix: two texts hash alike exactly if they
hashed alike before it.
-/

namespace OpenAddressing

namespace TextHash

def step (h : UInt64) (code : UInt32) : UInt64 := (h ^^^ code.toUInt64) * prime

def primeInverse : UInt64 := 0xce965057aff6957b

def unstep (h : UInt64) (code : UInt32) : UInt64 := (h * primeInverse) ^^^ code.toUInt64

theorem prime_mul_primeInverse : prime * primeInverse = 1 := by decide

theorem mul_prime_mul_primeInverse (h : UInt64) : h * prime * primeInverse = h := by
  rw [UInt64.mul_assoc, prime_mul_primeInverse, UInt64.mul_one]

theorem unstep_step (h : UInt64) (code : UInt32) : unstep (step h code) code = h := by
  rw [unstep, step, mul_prime_mul_primeInverse, UInt64.xor_assoc, UInt64.xor_self, UInt64.xor_zero]

theorem step_unstep (h : UInt64) (code : UInt32) : step (unstep h code) code = h := by
  rw [step, unstep, UInt64.xor_assoc, UInt64.xor_self, UInt64.xor_zero, UInt64.mul_assoc,
    UInt64.mul_comm primeInverse, prime_mul_primeInverse, UInt64.mul_one]

theorem step_bijective (code : UInt32) : Function.Bijective fun h => step h code :=
  Function.bijective_iff_has_inverse.mpr
    ⟨fun h => unstep h code, fun h => unstep_step h code, fun h => step_unstep h code⟩

theorem step_code_injective (h : UInt64) : Function.Injective (step h) := by
  intro c d hstep
  have hxor := congrArg (· * primeInverse) hstep
  simp only [step, mul_prime_mul_primeInverse] at hxor
  exact UInt32.toUInt64_inj.mp ((UInt64.xor_right_inj h).mp hxor)

/-- A suffix is absorbed by steps each of which can be undone. -/
theorem foldl_step_bijective (codes : List UInt32) :
    Function.Bijective fun h => codes.foldl step h := by
  induction codes with
  | nil => exact Function.bijective_id
  | cons code codes ih => exact ih.comp (step_bijective code)

end TextHash

open TextHash

/-- The hash of a row of code points, which need not be characters. -/
def codeHash (codes : List UInt32) : UInt64 := codes.foldl step offset

theorem textHash_eq_codeHash (cs : List Char) : textHash cs = codeHash (cs.map (·.val)) := by
  rw [textHash, codeHash, List.foldl_map]
  rfl

theorem codeHash_append (codes suffix : List UInt32) :
    codeHash (codes ++ suffix) = suffix.foldl step (codeHash codes) := List.foldl_append

theorem codeHash_ne_of_code_ne (before after : List UInt32) {c d : UInt32} (h : c ≠ d) :
    codeHash (before ++ c :: after) ≠ codeHash (before ++ d :: after) := by
  intro heq
  simp only [codeHash_append, List.foldl_cons] at heq
  have hstep : step (codeHash before) c = step (codeHash before) d :=
    (foldl_step_bijective after).injective heq
  exact h (step_code_injective _ hstep)

namespace Value

theorem mapM_character_ofChar (cs : List Char) :
    (cs.map ofChar).mapM character = .ok cs := by
  induction cs with
  | nil => rfl
  | cons c cs ih =>
      have hc : character (ofChar c) = .ok c := by simp [ofChar, character]
      simp only [List.map_cons, List.mapM_cons, hc, ih]
      rfl

theorem stringHash_str (s : String) :
    (str s).stringHash = .ok ((codeHash (s.toList.map (·.val))).toNat : Int) := by
  simp only [stringHash, characters, parts?, mapM_character_ofChar, ← textHash_eq_codeHash]
  rfl

/-- Each step of a text hash is a bijection on 64-bit words. So the hash of a text with a given
suffix is an injective function of the hash of the text before it, and two texts that differ in
one character never collide. Rows of code points that are no texts, because surrogates are among
them, do not collide either. -/
theorem stringHash_separates :
    (∀ code : UInt32, Function.Bijective fun h => step h code) ∧
    (∀ suffix : String, ∃ absorbed : UInt64 → UInt64, Function.Injective absorbed ∧
      ∀ s : String, ∃ h : UInt64, (str s).stringHash = .ok (h.toNat : Int) ∧
        (str (s ++ suffix)).stringHash = .ok ((absorbed h).toNat : Int)) ∧
    (∀ (s t : String) (c d : Char), c ≠ d → ∃ m n : Int,
      (str (s ++ String.singleton c ++ t)).stringHash = .ok m ∧
      (str (s ++ String.singleton d ++ t)).stringHash = .ok n ∧ m ≠ n) ∧
    ∀ (before after : List UInt32) (c d : UInt32), c ≠ d →
      codeHash (before ++ c :: after) ≠ codeHash (before ++ d :: after) := by
  refine ⟨step_bijective, ?_, ?_, fun before after c d h => codeHash_ne_of_code_ne before after h⟩
  · intro suffix
    refine ⟨fun h => (suffix.toList.map (·.val)).foldl step h,
      (foldl_step_bijective _).injective, fun s => ?_⟩
    refine ⟨codeHash (s.toList.map (·.val)), stringHash_str s, ?_⟩
    rw [stringHash_str, String.toList_append, List.map_append, codeHash_append]
  · intro s t c d h
    refine ⟨_, _, stringHash_str _, stringHash_str _, ?_⟩
    have hval : c.val ≠ d.val := fun heq => h (Char.ext heq)
    have hne := codeHash_ne_of_code_ne (s.toList.map (·.val)) (t.toList.map (·.val)) hval
    simp only [String.toList_append, String.toList_singleton, List.map_append, List.map_cons,
      List.append_assoc, List.singleton_append, ne_eq, Int.natCast_inj]
    intro heq
    exact hne (UInt64.toNat_inj.mp heq)

/-- One letter in the middle. -/
theorem stringHash_separates_accent :
    'i' ≠ 'ï' ∧ ∃ m n : Int, (str ("na" ++ String.singleton 'i' ++ "ve")).stringHash = .ok m ∧
      (str ("na" ++ String.singleton 'ï' ++ "ve")).stringHash = .ok n ∧ m ≠ n :=
  ⟨by decide, stringHash_separates.2.2.1 "na" "ve" 'i' 'ï' (by decide)⟩

end Value

end OpenAddressing
