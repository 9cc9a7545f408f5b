import Graphlab.Lib.Json
import Graphlab.Lib.Text

/-!
# The size of quoted texts

Texts of plain ASCII characters take one byte for each character and two for the quotes.

## Main definitions

* `PlainChar` — a character that is written as it is.
* `quotedSize_of_plain`, `quotedSize_toString` — the size of such texts.
-/

namespace Graphlab.Lib

/-- A character of ASCII that a quoted string has as it is. -/
structure PlainChar (c : Char) : Prop where
  printable : 32 ≤ c.toNat
  ascii : c.toNat < 128
  quote : c ≠ '"'
  backslash : c ≠ '\\'

theorem PlainChar.charSize {c : Char} (h : PlainChar c) : Json.charSize c = 1 := by
  have hsize : c.utf8Size = 1 := by
    rw [Char.utf8Size_eq_one_iff, UInt32.le_iff_toNat_le]
    exact Nat.le_of_lt_succ h.ascii
  have := h.printable
  rw [Json.charSize, if_neg (by simp only [h.quote, h.backslash, false_or]; omega),
    if_neg (by omega), hsize]

theorem quotedSize_of_plain {s : String} (h : ∀ c ∈ s.toList, PlainChar c) :
    Json.quotedSize s = 2 + s.toList.length := by
  have hsum : ∀ cs : List Char, (∀ c ∈ cs, PlainChar c) → (cs.map Json.charSize).sum = cs.length := by
    intro cs hcs
    induction cs with
    | nil => rfl
    | cons c cs ih =>
      rw [List.forall_mem_cons] at hcs
      rw [List.map_cons, List.sum_cons, hcs.1.charSize, ih hcs.2, List.length_cons]
      omega
  rw [Json.quotedSize, hsum _ h]

theorem PlainChar.of_isDigit {c : Char} (h : c.isDigit = true) : PlainChar c := by
  simp only [Char.isDigit, Bool.and_eq_true, decide_eq_true_eq, UInt32.le_iff_toNat_le] at h
  have hlow : 48 ≤ c.toNat := h.1
  have hhigh : c.toNat ≤ 57 := h.2
  refine ⟨by omega, by omega, ?_, ?_⟩
  · rintro rfl
    exact absurd hlow (by decide)
  · rintro rfl
    exact absurd hhigh (by decide)

theorem quotedSize_toString (n : ℕ) :
    Json.quotedSize (toString n) = 2 + (Nat.toDigits 10 n).length := by
  rw [quotedSize_of_plain, toList_toString]
  intro c hc
  rw [toList_toString] at hc
  exact .of_isDigit (Nat.isDigit_of_mem_toDigits (by decide) (by decide) hc)

theorem quotedSize_toString_le {n k : ℕ} (hk : 0 < k) (h : n < 10 ^ k) :
    Json.quotedSize (toString n) ≤ k + 2 := by
  have hlength : (Nat.toDigits 10 n).length ≤ k :=
    (Nat.length_toDigits_le_iff (by decide) hk).mpr h
  rw [quotedSize_toString]
  omega

end Graphlab.Lib
