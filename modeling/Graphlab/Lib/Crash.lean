import Graphlab.Lib.Prog
import Mathlib.Data.Nat.Notation

/-!
# Programs that are cut off

A process may die between any two operations of a program.  `Prog.cut n` is the state that
it leaves after `n` operations; `Prog.Holds I Q E` says that a program keeps `I` in every
such state and ends, if it ends, in `Q` or throws in `E`.

## Main results

* `Prog.Holds.bind` — the rule for sequencing.
* `Prog.Holds.cut`, `Prog.Holds.exec` — what it says of cut-off and whole executions.
-/

namespace Graphlab.Lib.Prog

variable {Op : Type} {Ans : Op → Type} {ε α β S : Type} {act : (o : Op) → S → Ans o × S}
  {I : S → Prop} {Q : α → S → Prop} {R : β → S → Prop} {E : ε → S → Prop}

/-- The state after at most `n` operations. -/
def cut (act : (o : Op) → S → Ans o × S) : ℕ → Prog Op Ans ε α → S → S
  | 0, _, s => s
  | _ + 1, .ret _, s => s
  | _ + 1, .raise _, s => s
  | n + 1, .op o k, s => cut act n (k (act o s).1) (act o s).2

/-- `I` holds before, between and after all operations; what the program returns or throws
satisfies `Q` or `E`. -/
def Holds (act : (o : Op) → S → Ans o × S) (I : S → Prop) (Q : α → S → Prop) (E : ε → S → Prop) :
    Prog Op Ans ε α → S → Prop
  | .ret a, s => I s ∧ Q a s
  | .raise e, s => I s ∧ E e s
  | .op o k, s => I s ∧ Holds act I Q E (k (act o s).1) (act o s).2

variable {p : Prog Op Ans ε α} {s : S}

theorem Holds.bind {f : α → Prog Op Ans ε β} (hp : p.Holds act I Q E s)
    (hf : ∀ a t, Q a t → (f a).Holds act I R E t) : (p.bind f).Holds act I R E s := by
  induction p generalizing s with
  | ret a => exact hf a s hp.2
  | raise => exact hp
  | op o k ih => exact ⟨hp.1, ih _ hp.2⟩

theorem Holds.mono {Q' : α → S → Prop} (hp : p.Holds act I Q E s)
    (hQ : ∀ a t, Q a t → Q' a t) : p.Holds act I Q' E s := by
  induction p generalizing s with
  | ret a => exact ⟨hp.1, hQ a s hp.2⟩
  | raise => exact hp
  | op o k ih => exact ⟨hp.1, ih _ hp.2⟩

/-- A process that dies leaves a state with `I`. -/
theorem Holds.cut (h : p.Holds act I Q E s) (n : ℕ) : I (p.cut act n s) := by
  induction p generalizing s n with
  | ret => cases n <;> exact h.1
  | raise => cases n <;> exact h.1
  | op o k ih =>
    cases n with
    | zero => exact h.1
    | succ n => exact ih _ h.2 n

/-- A program that has nothing to throw returns. -/
theorem Holds.returns (h : p.Holds act I Q (fun _ _ => False) s) :
    ∃ a t, p.exec act s = (.ok a, t) := by
  induction p generalizing s with
  | ret a => exact ⟨a, s, rfl⟩
  | raise => exact h.2.elim
  | op o k ih => exact ih _ h.2

/-- A program that never returns throws in `E`. -/
theorem Holds.throws (h : p.Holds act I (fun _ _ => False) E s) :
    ∃ e t, p.exec act s = (.error e, t) ∧ E e t := by
  induction p generalizing s with
  | ret => exact h.2.elim
  | raise e => exact ⟨e, s, rfl, h.2⟩
  | op o k ih => exact ih _ h.2

/-- A program that returns ends in `Q`. -/
theorem Holds.exec {t : S} {a : α} (h : p.Holds act I Q E s)
    (hexec : p.exec act s = (.ok a, t)) : Q a t := by
  induction p generalizing s with
  | ret =>
    cases hexec
    exact h.2
  | raise => cases hexec
  | op o k ih => exact ih _ h.2 hexec

end Graphlab.Lib.Prog
