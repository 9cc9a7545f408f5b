import Mathlib.Logic.Basic

/-!
# Computations that throw

Rules for `Except`: how a `do` block runs through its first step, and what follows from
its success.
-/

namespace Graphlab.Lib

variable {ε α β : Type}

@[simp] theorem ok_bind (a : α) (f : α → Except ε β) : (Except.ok a >>= f) = f a := rfl

@[simp] theorem error_bind (e : ε) (f : α → Except ε β) : (Except.error e >>= f) = .error e := rfl

variable {x : Except ε α} {f : α → Except ε β}

/-- A computation returns if its first step does and the rest does. -/
theorem bind_eq_ok {b : β} : (x >>= f) = .ok b ↔ ∃ a, x = .ok a ∧ f a = .ok b := by
  cases x with
  | error => simp
  | ok => simp

/-- What holds of every result of the rest holds of every result of the whole. -/
theorem bind_imp {P : β → Prop} (h : ∀ a b, f a = .ok b → P b) : ∀ b, (x >>= f) = .ok b → P b := by
  intro b hb
  obtain ⟨a, -, ha⟩ := bind_eq_ok.mp hb
  exact h a b ha

theorem exists_of_isOk (h : x.isOk = true) : ∃ a, x = .ok a := by
  cases x with
  | error => cases h
  | ok a => exact ⟨a, rfl⟩

/-- Throw unless a condition holds. -/
def check (e : ε) (condition : Bool) : Except ε Unit :=
  if condition then .ok () else .error e

@[simp] theorem check_eq_ok {e : ε} {condition : Bool} {u : Unit} :
    check e condition = .ok u ↔ condition = true := by
  cases condition <;> simp [check]

theorem check_bind {e : ε} {condition : Bool} (h : condition = true) (f : Unit → Except ε β) :
    (check e condition >>= f) = f () := by
  rw [h]
  rfl

/-! ## Failures that do not occur -/

/-- The computation does not throw `e`. -/
def Avoids (e : ε) (x : Except ε α) : Prop := x ≠ .error e

theorem Avoids.ok (e : ε) (a : α) : Avoids e (.ok a : Except ε α) := nofun

theorem Avoids.error {e e' : ε} (h : e' ≠ e) : Avoids e (.error e' : Except ε α) :=
  fun heq => h (Except.error.inj heq)

theorem Avoids.check {e e' : ε} (h : e' ≠ e) (condition : Bool) : Avoids e (check e' condition) := by
  cases condition with
  | false => exact .error h
  | true => exact .ok e ()

theorem Avoids.bind {e : ε} (hx : Avoids e x)
    (hf : ∀ a, x = .ok a → Avoids e (f a)) : Avoids e (x >>= f) := by
  cases x with
  | error => exact fun heq => hx (congrArg _ (Except.error.inj heq))
  | ok a => exact hf a rfl

end Graphlab.Lib
