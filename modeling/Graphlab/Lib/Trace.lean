import Graphlab.Lib.Prog
import Mathlib.Data.List.Infix

/-!
# What a program has performed

The operations of a tree up to some point, with their answers, and the part of them that is of
interest.  Programs are put together with `Emits.bind` and `Emits.then`.

## Main definitions

* `Prog.Trace`, `Prog.Returns` — the operations of an execution that goes on or has returned.
* `Prog.Emits` — the operations of interest, in every execution.
-/

namespace Graphlab.Lib.Prog

variable {Op : Type} {Ans : Op → Type} {ε α β γ : Type}

/-- The operations that the tree has performed at some point, with their answers. -/
inductive Trace : Prog Op Ans ε α → List ((o : Op) × Ans o) → Prop
  | here (p : Prog Op Ans ε α) : Trace p []
  | op {o : Op} {k : Ans o → Prog Op Ans ε α} {b : Ans o} {l : List ((o : Op) × Ans o)}
      (h : Trace (k b) l) : Trace (.op o k) (⟨o, b⟩ :: l)

/-- The operations with which the tree returns a value. -/
inductive Returns : Prog Op Ans ε α → List ((o : Op) × Ans o) → α → Prop
  | ret (a : α) : Returns (.ret a) [] a
  | op {o : Op} {k : Ans o → Prog Op Ans ε α} {b : Ans o} {l : List ((o : Op) × Ans o)} {a : α}
      (h : Returns (k b) l a) : Returns (.op o k) (⟨o, b⟩ :: l) a

variable {p : Prog Op Ans ε α} {f : α → Prog Op Ans ε β} {l : List ((o : Op) × Ans o)}

theorem Returns.trace {a : α} (h : p.Returns l a) : p.Trace l := by
  induction h with
  | ret => exact .here _
  | op _ ih => exact .op ih

/-- The second program begins when the first has returned. -/
theorem Trace.of_bind (h : (p.bind f).Trace l) :
    p.Trace l ∨ ∃ a l₁ l₂, l = l₁ ++ l₂ ∧ p.Returns l₁ a ∧ (f a).Trace l₂ := by
  induction p generalizing l with
  | ret a => exact .inr ⟨a, [], l, rfl, .ret a, h⟩
  | raise =>
    cases h
    exact .inl (.here _)
  | op o k ih =>
    cases h with
    | here => exact .inl (.here _)
    | op h =>
      rcases ih _ h with h | ⟨a, l₁, l₂, rfl, h₁, h₂⟩
      · exact .inl (.op h)
      · exact .inr ⟨a, _ :: l₁, l₂, rfl, .op h₁, h₂⟩

theorem Returns.of_bind {b : β} (h : (p.bind f).Returns l b) :
    ∃ a l₁ l₂, l = l₁ ++ l₂ ∧ p.Returns l₁ a ∧ (f a).Returns l₂ b := by
  induction p generalizing l with
  | ret a => exact ⟨a, [], l, rfl, .ret a, h⟩
  | raise => cases h
  | op o k ih =>
    cases h with
    | op h =>
      obtain ⟨a, l₁, l₂, rfl, h₁, h₂⟩ := ih _ h
      exact ⟨a, _ :: l₁, l₂, rfl, .op h₁, h₂⟩

theorem Uses.trace {P : Op → Prop} (hp : p.Uses P) (h : p.Trace l) : ∀ e ∈ l, P e.1 := by
  induction h with
  | here => simp
  | op _ ih =>
    intro e he
    rcases List.mem_cons.mp he with rfl | he
    · exact hp.1
    · exact ih (hp.2 _) e he

/-- One operation, and nothing after its answer. -/
theorem Trace.of_perform {o : Op} {view : Ans o → Except ε α} (h : (perform o view).Trace l) :
    l = [] ∨ ∃ b, l = [⟨o, b⟩] := by
  cases h with
  | here => exact .inl rfl
  | @op _ _ b _ h =>
    refine .inr ⟨b, ?_⟩
    dsimp only at h
    split at h <;> cases h <;> rfl

/-! ## Operations of interest -/

/-- What is picked of a list of operations. -/
def picks (pick : Op → Option γ) (l : List ((o : Op) × Ans o)) : List γ :=
  l.filterMap fun e => pick e.1

variable {pick : Op → Option γ} {L L' : List γ}

theorem picks_append (l l' : List ((o : Op) × Ans o)) :
    picks pick (l ++ l') = picks pick l ++ picks pick l' :=
  List.filterMap_append ..

theorem picks_eq_nil (hp : p.Uses fun o => pick o = none) (h : p.Trace l) : picks pick l = [] :=
  List.filterMap_eq_nil_iff.mpr (hp.trace h)

/-- What is picked is always a part from the beginning of a list, and all of it in the end. -/
structure Emits (pick : Op → Option γ) (L : List γ) (p : Prog Op Ans ε α) : Prop where
  trace : ∀ l, p.Trace l → picks pick l <+: L
  returns : ∀ l a, p.Returns l a → picks pick l = L

/-- A program without operations of interest. -/
theorem Emits.of_uses (h : p.Uses fun o => pick o = none) : Emits pick [] p where
  trace l hl := by rw [picks_eq_nil h hl]
  returns l a hl := picks_eq_nil h hl.trace

theorem Emits.perform {o : Op} {view : Ans o → Except ε α} {c : γ} (h : pick o = some c) :
    Emits pick [c] (perform o view) := by
  refine ⟨fun l hl => ?_, fun l a hl => ?_⟩
  · rcases hl.of_perform with rfl | ⟨b, rfl⟩
    · exact List.nil_prefix
    · simp [picks, h]
  · rcases hl.trace.of_perform with rfl | ⟨b, rfl⟩
    · cases hl
    · simp [picks, h]

/-- One program after the other, where the second may stop early. -/
theorem Emits.then (hp : Emits pick L p) (hf : ∀ a l, (f a).Trace l → picks pick l <+: L')
    (h : (p.bind f).Trace l) : picks pick l <+: L ++ L' := by
  rcases h.of_bind with h | ⟨a, l₁, l₂, rfl, h₁, h₂⟩
  · exact (hp.trace l h).trans (List.prefix_append ..)
  · rw [picks_append, hp.returns l₁ a h₁]
    exact (List.prefix_append_right_inj L).mpr (hf a l₂ h₂)

theorem Emits.bind (hp : Emits pick L p) (hf : ∀ a, Emits pick L' (f a)) :
    Emits pick (L ++ L') (p.bind f) where
  trace _ h := hp.then (fun a => (hf a).trace) h
  returns l b h := by
    obtain ⟨a, l₁, l₂, rfl, h₁, h₂⟩ := h.of_bind
    rw [picks_append, hp.returns l₁ a h₁, (hf a).returns l₂ b h₂]

end Graphlab.Lib.Prog
