import Graphlab.Lib.Bytes
import Mathlib.Data.List.Infix

/-!
# Writing a byte string

A write may take a part of what it is given, be interrupted or fail.  `writeAll` is the
loop that tries again; what it leaves in the file is all it was given or a shorter part.
-/

namespace Graphlab.Lib

/-- An answer of `write`. -/
inductive Wrote
  /-- `n + 1` bytes, or all that are left. -/
  | bytes (n : ℕ)
  | interrupted
  | failed
  deriving DecidableEq, Repr

/-- A loop that writes until nothing is left: what reaches the file, and whether it is all.
The writes that are not listed take all they are given. -/
def writeAll : List Wrote → Bytes → Bytes × Bool
  | _, [] => ([], true)
  | [], b => (b, true)
  | .interrupted :: ws, b => writeAll ws b
  | .failed :: _, _ => ([], false)
  | .bytes n :: ws, b =>
    (b.take (n + 1) ++ (writeAll ws (b.drop (n + 1))).1, (writeAll ws (b.drop (n + 1))).2)

/-- Either all is written, or only a part that is shorter. -/
theorem writeAll_cases (ws : List Wrote) (b : Bytes) :
    writeAll ws b = (b, true) ∨
    ∃ part, part <+: b ∧ part.length < b.length ∧ writeAll ws b = (part, false) := by
  induction ws generalizing b with
  | nil => cases b <;> exact .inl rfl
  | cons w ws ih =>
    cases b with
    | nil => cases w <;> exact .inl rfl
    | cons x xs =>
      cases w with
      | interrupted => exact ih (x :: xs)
      | failed => exact .inr ⟨[], List.nil_prefix, by simp, rfl⟩
      | bytes n =>
        have hsplit := List.take_append_drop (n + 1) (x :: xs)
        have hstep : writeAll (.bytes n :: ws) (x :: xs) =
            ((x :: xs).take (n + 1) ++ (writeAll ws ((x :: xs).drop (n + 1))).1,
              (writeAll ws ((x :: xs).drop (n + 1))).2) := rfl
        rw [hstep]
        rcases ih ((x :: xs).drop (n + 1)) with h | ⟨part, ⟨rest, hrest⟩, hlength, h⟩
        · rw [h]
          exact .inl (by rw [hsplit])
        · rw [h]
          refine .inr ⟨_, ⟨rest, ?_⟩, ?_, rfl⟩
          · rw [List.append_assoc, hrest, hsplit]
          · have hsum := congrArg List.length hsplit
            rw [List.length_append] at hsum
            show (List.take (n + 1) (x :: xs) ++ part).length < _
            rw [List.length_append]
            omega

/-- No write fails. -/
def Fine (ws : List Wrote) : Prop := Wrote.failed ∉ ws

instance decidableFine (ws : List Wrote) : Decidable (Fine ws) :=
  inferInstanceAs (Decidable (_ ∉ ws))

theorem writeAll_fine {ws : List Wrote} (h : Fine ws) (b : Bytes) : writeAll ws b = (b, true) := by
  induction ws generalizing b with
  | nil => cases b <;> rfl
  | cons w ws ih =>
    have hrest : Fine ws := fun hmem => h (List.mem_cons_of_mem w hmem)
    cases b with
    | nil => cases w <;> rfl
    | cons x xs =>
      cases w with
      | failed => exact absurd (List.mem_cons_self ..) h
      | interrupted => exact ih hrest (x :: xs)
      | bytes n =>
        show ((x :: xs).take (n + 1) ++ (writeAll ws ((x :: xs).drop (n + 1))).1,
          (writeAll ws ((x :: xs).drop (n + 1))).2) = _
        rw [ih hrest, List.take_append_drop]

end Graphlab.Lib
