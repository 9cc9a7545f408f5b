import Mathlib.Logic.Relation

/-!
# Program trees with exceptions

A `Prog` is a finitely branching-in-time program of one thread: it returns a value,
raises an exception, or performs one atomic operation and goes on with the answer.
What an operation does to the state it runs against is not said here; a tree is
pure control flow, so it can be interleaved with other parties one operation at a
time.

Trees are well-founded, so a loop over a list is a structural recursion and needs
no fuel.  A loop without end is not a tree: it is the repetition of a body, and
`Graphlab.Lib.Supervised` repeats it.

## Main definitions

* `Prog Op Ans ε α` — program trees over operations `Op` with answers `Ans`.
* `Prog.bind`, `Prog.handle` — sequencing, and `try`/`catch`.
* `Prog.perform` — one operation whose answer may be an exception.
* `Prog.Uses` — every operation of a tree belongs to a class of operations.
* `Prog.exec` — what a tree does when nobody interferes.
-/

namespace Graphlab.Lib

/-- A program of one thread over the operations `Op`. -/
inductive Prog (Op : Type) (Ans : Op → Type) (ε α : Type) : Type
  /-- Return a value. -/
  | ret (a : α)
  /-- Raise an exception. -/
  | raise (e : ε)
  /-- Perform one operation, and go on with its answer. -/
  | op (o : Op) (k : Ans o → Prog Op Ans ε α)

namespace Prog

variable {Op : Type} {Ans : Op → Type} {ε α β γ : Type}

/-- Run the first program, then the second on its result; an exception of the first
skips the second. -/
def bind : Prog Op Ans ε α → (α → Prog Op Ans ε β) → Prog Op Ans ε β
  | .ret a, f => f a
  | .raise e, _ => .raise e
  | .op o k, f => .op o fun b => (k b).bind f

/-- Run the program; an exception it raises is passed to the handler. -/
def handle : Prog Op Ans ε α → (ε → Prog Op Ans ε α) → Prog Op Ans ε α
  | .ret a, _ => .ret a
  | .raise e, h => h e
  | .op o k, h => .op o fun b => (k b).handle h

instance : Monad (Prog Op Ans ε) where
  pure := .ret
  bind := .bind

instance : MonadExceptOf ε (Prog Op Ans ε) where
  throw := .raise
  tryCatch := .handle

@[simp] theorem bind_eq (p : Prog Op Ans ε α) (f : α → Prog Op Ans ε β) :
    (p >>= f) = p.bind f := rfl

theorem bind_assoc (p : Prog Op Ans ε α) (f : α → Prog Op Ans ε β) (g : β → Prog Op Ans ε γ) :
    (p.bind f).bind g = p.bind fun a => (f a).bind g := by
  induction p with
  | ret => rfl
  | raise => rfl
  | op o k ih => exact congrArg (Prog.op o) (funext fun b => ih b)

theorem bind_ret (p : Prog Op Ans ε α) : p.bind .ret = p := by
  induction p with
  | ret => rfl
  | raise => rfl
  | op o k ih => exact congrArg (Prog.op o) (funext fun b => ih b)

/-- One operation whose answer is a value or an exception, in a language where a
failing call throws. -/
def perform (o : Op) (view : Ans o → Except ε α) : Prog Op Ans ε α :=
  .op o fun b => match view b with
    | .ok a => .ret a
    | .error e => .raise e

/-- Every operation that can occur in the tree is in the class `P`. -/
def Uses (P : Op → Prop) : Prog Op Ans ε α → Prop
  | .ret _ => True
  | .raise _ => True
  | .op o k => P o ∧ ∀ b, (k b).Uses P

variable {P : Op → Prop} {p : Prog Op Ans ε α}

theorem Uses.bind {f : α → Prog Op Ans ε β} (hp : p.Uses P)
    (hf : ∀ a, (f a).Uses P) : (p.bind f).Uses P := by
  induction p with
  | ret a => exact hf a
  | raise => trivial
  | op o k ih => exact ⟨hp.1, fun b => ih b (hp.2 b)⟩

theorem Uses.handle {h : ε → Prog Op Ans ε α} (hp : p.Uses P)
    (hh : ∀ e, (h e).Uses P) : (p.handle h).Uses P := by
  induction p with
  | ret => trivial
  | raise e => exact hh e
  | op o k ih => exact ⟨hp.1, fun b => ih b (hp.2 b)⟩

theorem Uses.perform {o : Op} {view : Ans o → Except ε α} (ho : P o) : (perform o view).Uses P := by
  refine ⟨ho, fun b => ?_⟩
  dsimp only
  split <;> trivial

/-! ## Undisturbed execution -/

section

variable {S : Type} (act : (o : Op) → S → Ans o × S)

/-- The result of a tree that runs alone. -/
def exec : Prog Op Ans ε α → S → Except ε α × S
  | .ret a, s => (.ok a, s)
  | .raise e, s => (.error e, s)
  | .op o k, s => (k (act o s).1).exec (act o s).2

theorem exec_bind {f : α → Prog Op Ans ε β} {s t : S} {a : α}
    (h : p.exec act s = (.ok a, t)) : (p.bind f).exec act s = (f a).exec act t := by
  induction p generalizing s with
  | ret => cases h; rfl
  | raise => cases h
  | op o k ih => exact ih _ h

theorem exec_handle {f : ε → Prog Op Ans ε α} {s t : S} {a : α}
    (h : p.exec act s = (.ok a, t)) : (p.handle f).exec act s = (.ok a, t) := by
  induction p generalizing s with
  | ret => exact h
  | raise => cases h
  | op o k ih => exact ih _ h

end

end Prog
end Graphlab.Lib
