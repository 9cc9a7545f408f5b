import Mathlib.Data.Nat.Digits.Defs
import Mathlib.Tactic.IntervalCases
import Mathlib.Data.List.Induction

/-!
# Texts of numbers

Canonical decimals, which have no leading zero, and the bytes that a text of ASCII
characters takes.
-/

namespace Graphlab.Lib

/-- A text of ASCII characters has one byte for each. -/
theorem utf8ByteSize_ofList_of_ascii {cs : List Char} (h : ∀ c ∈ cs, c.toNat < 128) :
    (String.ofList cs).utf8ByteSize = cs.length := by
  induction cs with
  | nil => simp
  | cons c cs ih =>
    have hc : c.utf8Size = 1 := by
      have hlt := h c List.mem_cons_self
      rw [Char.utf8Size_eq_one_iff, UInt32.le_iff_toNat_le]
      exact Nat.le_of_lt_succ hlt
    have hrest := ih fun c hc => h c (List.mem_cons_of_mem _ hc)
    rw [String.ofList_cons, String.utf8ByteSize_append, String.utf8ByteSize_singleton, hc, hrest,
      List.length_cons, Nat.add_comm]

/-- `0|[1-9][0-9]*`. -/
def canonical : List Char → Bool
  | [] => false
  | c :: cs => (c :: cs == ['0']) || (c != '0' && (c :: cs).all Char.isDigit)

/-- The number with this canonical text. -/
def decimal (s : String) : Option ℕ :=
  if canonical s.toList then some (Nat.ofDigitChars 10 s.toList 0) else none

/-- Only the text of zero begins with a zero. -/
theorem head_toDigits {n : ℕ} (h : 0 < n) : ∃ c cs, Nat.toDigits 10 n = c :: cs ∧ c ≠ '0' := by
  induction n using Nat.strong_induction_on with
  | _ n ih =>
    by_cases hlt : n < 10
    · rw [Nat.toDigits_of_lt_base hlt]
      refine ⟨n.digitChar, [], rfl, ?_⟩
      interval_cases n <;> decide
    · obtain ⟨c, cs, heq, hne⟩ := ih (n / 10) (by omega) (by omega)
      refine ⟨c, cs ++ [(n % 10).digitChar], ?_, hne⟩
      rw [Nat.toDigits_of_base_le (by decide) (by omega), heq, List.cons_append]

theorem canonical_toDigits (n : ℕ) : canonical (Nat.toDigits 10 n) = true := by
  rcases Nat.eq_zero_or_pos n with rfl | hpos
  · decide
  · obtain ⟨c, cs, heq, hne⟩ := head_toDigits hpos
    have hdigits : (c :: cs).all Char.isDigit = true := by
      rw [← heq, List.all_eq_true]
      exact fun d hd => Nat.isDigit_of_mem_toDigits (by decide) (by decide) hd
    rw [heq, canonical, hdigits]
    simp [hne]

@[simp] theorem toList_toString (n : ℕ) : (toString n).toList = Nat.toDigits 10 n :=
  String.toList_ofList

/-- A number is read back from its text. -/
@[simp] theorem decimal_toString (n : ℕ) : decimal (toString n) = some n := by
  rw [decimal, toList_toString, if_pos (canonical_toDigits n),
    Nat.ofDigitChars_toDigits (by decide) (by decide)]

theorem digitChar_toNat_sub {c : Char} (h : c.isDigit = true) :
    (c.toNat - '0'.toNat).digitChar = c ∧ c.toNat - '0'.toNat < 10 := by
  simp only [Char.isDigit, Bool.and_eq_true, decide_eq_true_eq, ge_iff_le,
    UInt32.le_iff_toNat_le] at h
  have hlow : 48 ≤ c.toNat := h.1
  have hhigh : c.toNat ≤ 57 := h.2
  have hc : c = Char.ofNat c.toNat := (Char.ofNat_toNat c).symm
  generalize c.toNat = n at hlow hhigh hc
  subst hc
  interval_cases n <;> decide

/-- Digits without a leading zero are those of their value. -/
theorem toDigits_ofDigitChars {cs : List Char} (h : canonical cs = true) :
    Nat.toDigits 10 (Nat.ofDigitChars 10 cs 0) = cs := by
  induction cs using List.reverseRecOn with
  | nil => cases h
  | append_singleton cs d ih =>
    have hdigits : ∀ c ∈ cs ++ [d], c.isDigit = true := by
      intro c hc
      cases cs with
      | nil =>
        simp only [List.nil_append, canonical, Bool.or_eq_true, beq_iff_eq, Bool.and_eq_true]
          at h
        rcases h with h | h
        · rw [h] at hc
          rw [List.mem_singleton.mp hc]
          decide
        · exact List.all_eq_true.mp h.2 c hc
      | cons =>
        simp only [List.cons_append, canonical, Bool.or_eq_true, beq_iff_eq, Bool.and_eq_true]
          at h
        rcases h with h | h
        · simp at h
        · exact List.all_eq_true.mp h.2 c hc
    obtain ⟨hd, hlt⟩ := digitChar_toNat_sub (hdigits d (by simp))
    rw [Nat.ofDigitChars_append, Nat.ofDigitChars_cons, Nat.ofDigitChars_nil]
    cases cs with
    | nil =>
      rw [Nat.ofDigitChars_nil, Nat.mul_zero, Nat.zero_add, Nat.toDigits_of_lt_base hlt, hd]
      rfl
    | cons e es =>
      -- the digits before the last are canonical, and not zero
      have hnonzero : e ≠ '0' := by
        simp only [List.cons_append, canonical, Bool.or_eq_true, beq_iff_eq, Bool.and_eq_true,
          bne_iff_ne] at h
        rcases h with h | h
        · simp at h
        · exact h.1
      have hcanonical : canonical (e :: es) = true := by
        simp only [canonical, Bool.or_eq_true, Bool.and_eq_true, bne_iff_ne]
        exact .inr ⟨hnonzero, List.all_eq_true.mpr fun c hc =>
          hdigits c (List.mem_append_left _ hc)⟩
      have hrest := ih hcanonical
      have hpos : 0 < Nat.ofDigitChars 10 (e :: es) 0 := by
        by_contra hzero
        rw [Nat.eq_zero_of_not_pos hzero] at hrest
        rw [show Nat.toDigits 10 0 = ['0'] from rfl] at hrest
        exact hnonzero (List.cons.inj hrest).1.symm
      rw [Nat.toDigits_of_base_le (by decide) (by omega), Nat.mul_add_div (by decide),
        Nat.div_eq_of_lt hlt, Nat.add_zero, hrest, Nat.mul_add_mod, Nat.mod_eq_of_lt hlt, hd]

/-- A canonical decimal is the text of its number. -/
theorem decimal_eq_some {s : String} {n : ℕ} : decimal s = some n ↔ s = toString n := by
  constructor
  · intro h
    rw [decimal] at h
    split at h
    · rename_i hcanonical
      cases h
      refine String.toList_injective ?_
      rw [toList_toString, toDigits_ofDigitChars hcanonical]
    · cases h
  · rintro rfl
    exact decimal_toString n

theorem toString_inj {m n : ℕ} (h : toString m = toString n) : m = n := by
  have hdecimal := congrArg decimal h
  rwa [decimal_toString, decimal_toString, Option.some_inj] at hdecimal

theorem utf8ByteSize_toString (n : ℕ) :
    (toString n).utf8ByteSize = (Nat.toDigits 10 n).length := by
  refine utf8ByteSize_ofList_of_ascii fun c hc => ?_
  have hdigit := Nat.isDigit_of_mem_toDigits (by decide) (by decide) hc
  simp only [Char.isDigit, Bool.and_eq_true, decide_eq_true_eq, UInt32.le_iff_toNat_le] at hdigit
  exact lt_of_le_of_lt hdigit.2 (by decide)

end Graphlab.Lib
