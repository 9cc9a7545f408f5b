import Graphlab.Lib.Bytes

/-!
# Base64

The encoding of three bytes by four digits of 64, with `=` where bytes are missing.
-/

namespace Graphlab.Lib.Base64

/-- The digit for a number below 64. -/
def digit (n : ℕ) : Char :=
  if n < 26 then Char.ofNat (65 + n)
  else if n < 52 then Char.ofNat (71 + n)
  else if n < 62 then Char.ofNat (n - 4)
  else if n = 62 then '+'
  else '/'

def encode : Bytes → List Char
  | [] => []
  | [a] => [digit (a.toNat / 4), digit (a.toNat % 4 * 16), '=', '=']
  | [a, b] =>
    [digit (a.toNat / 4), digit (a.toNat % 4 * 16 + b.toNat / 16), digit (b.toNat % 16 * 4), '=']
  | a :: b :: c :: rest =>
    digit (a.toNat / 4) :: digit (a.toNat % 4 * 16 + b.toNat / 16) ::
      digit (b.toNat % 16 * 4 + c.toNat / 64) :: digit (c.toNat % 64) :: encode rest

/-- The codes of the digits. -/
theorem toNat_digit {n : ℕ} (hn : n < 64) :
    (digit n).toNat = if n < 26 then 65 + n else if n < 52 then 71 + n else if n < 62 then n - 4
      else if n = 62 then 43 else 47 := by
  revert n
  decide

theorem digit_inj {m n : ℕ} (hm : m < 64) (hn : n < 64) (h : digit m = digit n) : m = n := by
  have hcode := congrArg Char.toNat h
  rw [toNat_digit hm, toNat_digit hn] at hcode
  split_ifs at hcode <;> omega

theorem digit_ne {n : ℕ} (hn : n < 64) : digit n ≠ '=' := by
  intro h
  have hcode := toNat_digit hn
  rw [h, show '='.toNat = 61 from rfl] at hcode
  split_ifs at hcode <;> omega

private theorem toNat_inj {a b : UInt8} (h : a.toNat = b.toNat) : a = b := UInt8.toNat_inj.mp h

/-- No two byte strings have one encoding. -/
theorem encode_injective : Function.Injective encode := by
  intro xs
  -- The encodings of lists with different remainders differ in where `=` stands.
  induction xs using encode.induct with
  | case1 =>
    intro ys h
    rcases ys with _ | ⟨a, _ | ⟨b, _ | ⟨c, rest⟩⟩⟩ <;> simp_all [encode]
  | case2 a =>
    intro ys h
    have ha := a.toNat_lt
    rcases ys with _ | ⟨a', _ | ⟨b', _ | ⟨c', rest⟩⟩⟩
    · simp [encode] at h
    · have ha' := a'.toNat_lt
      simp only [encode, List.cons.injEq, and_true] at h
      have h₁ := digit_inj (by omega) (by omega) h.1
      have h₂ := digit_inj (by omega) (by omega) h.2
      rw [toNat_inj (by omega : a.toNat = a'.toNat)]
    · simp only [encode, List.cons.injEq, and_true] at h
      exact absurd h.2.2.symm (digit_ne (by omega))
    · have hc' := c'.toNat_lt
      simp only [encode, List.cons.injEq] at h
      exact absurd h.2.2.2.1.symm (digit_ne (by omega))
  | case3 a b =>
    intro ys h
    have ha := a.toNat_lt
    have hb := b.toNat_lt
    rcases ys with _ | ⟨a', _ | ⟨b', _ | ⟨c', rest⟩⟩⟩
    · simp [encode] at h
    · simp only [encode, List.cons.injEq, and_true] at h
      exact absurd h.2.2 (digit_ne (by omega))
    · have ha' := a'.toNat_lt
      have hb' := b'.toNat_lt
      simp only [encode, List.cons.injEq, and_true] at h
      have h₁ := digit_inj (by omega) (by omega) h.1
      have h₂ := digit_inj (by omega) (by omega) h.2.1
      have h₃ := digit_inj (by omega) (by omega) h.2.2
      rw [toNat_inj (by omega : a.toNat = a'.toNat), toNat_inj (by omega : b.toNat = b'.toNat)]
    · have hc' := c'.toNat_lt
      simp only [encode, List.cons.injEq] at h
      exact absurd h.2.2.2.1.symm (digit_ne (by omega))
  | case4 a b c xs ih =>
    intro ys h
    have ha := a.toNat_lt
    have hb := b.toNat_lt
    have hc := c.toNat_lt
    rcases ys with _ | ⟨a', _ | ⟨b', _ | ⟨c', rest⟩⟩⟩
    · simp [encode] at h
    · simp only [encode, List.cons.injEq] at h
      exact absurd h.2.2.2.1 (digit_ne (by omega))
    · simp only [encode, List.cons.injEq] at h
      exact absurd h.2.2.2.1 (digit_ne (by omega))
    · have ha' := a'.toNat_lt
      have hb' := b'.toNat_lt
      have hc' := c'.toNat_lt
      simp only [encode, List.cons.injEq] at h
      have h₁ := digit_inj (by omega) (by omega) h.1
      have h₂ := digit_inj (by omega) (by omega) h.2.1
      have h₃ := digit_inj (by omega) (by omega) h.2.2.1
      have h₄ := digit_inj (by omega) (by omega) h.2.2.2.1
      rw [toNat_inj (by omega : a.toNat = a'.toNat), toNat_inj (by omega : b.toNat = b'.toNat),
        toNat_inj (by omega : c.toNat = c'.toNat), ih h.2.2.2.2]

end Graphlab.Lib.Base64
