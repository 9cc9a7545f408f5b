import Graphlab.Lib.Prog

/-!
# Verifying one thread against interference

A thread runs a `Prog` while other parties change the shared state between any two
of its operations.  `Discipline` fixes the four things a proof about the thread
needs: what an operation may do, what the others may do, an invariant of the shared
state, and a guard that every operation of the thread must meet when it is
performed.

`Discipline.wp` is the weakest precondition under that interference.  Its meaning
includes the interference: wherever the thread stands, any number of steps of the
others may come first.  So an assertion is carried from one operation to the next
only when it is `Stable`, and stability is one case analysis on a single step of
the others.

A proof with `wp` establishes the guard of every operation.  What follows from the
guards is then an ordinary invariant of a transition system, and no longer mentions
programs (`Graphlab.Lib.Supervised`).

## Main definitions

* `Discipline` — operations, interference, invariant, guard.
* `Discipline.Stable` — an assertion the others cannot falsify.
* `Discipline.wp` — weakest precondition, with `wp_bind`, `wp_handle`,
  `wp_perform` and `wp_mono` as its rules.
-/

namespace Graphlab.Lib

variable {Op : Type} {Ans : Op → Type} {ε α β S : Type}

/-- The setting a thread is verified in. -/
structure Discipline (Op : Type) (Ans : Op → Type) (S : Type) where
  /-- `step o s b t`: in `s` the operation `o` may answer `b` and leave `t`. -/
  step : (o : Op) → S → Ans o → S → Prop
  /-- One step of the other parties. -/
  env : S → S → Prop
  /-- The invariant every party keeps. -/
  inv : S → Prop
  /-- What must hold when the thread performs an operation. -/
  guar : S → Op → Prop

namespace Discipline

variable (D : Discipline Op Ans S)

/-- Any number of steps of the others, all inside the invariant. -/
def Rely : S → S → Prop :=
  Relation.ReflTransGen fun s t => D.inv s ∧ D.env s t ∧ D.inv t

/-- An assertion that no step of the others falsifies. -/
def Stable (P : S → Prop) : Prop :=
  ∀ ⦃s t⦄, D.inv s → D.env s t → D.inv t → P s → P t

variable {D}

variable {P : S → Prop} {s : S} {p : Prog Op Ans ε α} {Q : α → S → Prop} {E : ε → S → Prop}

theorem Stable.rely (hP : D.Stable P) {t : S} (h : D.Rely s t) (hs : P s) : P t := by
  induction h with
  | refl => exact hs
  | tail _ hst ih => exact hP hst.1 hst.2.1 hst.2.2 ih

theorem Stable.and {Q : S → Prop} (hP : D.Stable P) (hQ : D.Stable Q) :
    D.Stable fun s => P s ∧ Q s :=
  fun _ _ hs he ht h => ⟨hP hs he ht h.1, hQ hs he ht h.2⟩

theorem Stable.exists {ι : Sort*} {P : ι → S → Prop} (hP : ∀ i, D.Stable (P i)) :
    D.Stable fun s => ∃ i, P i s :=
  fun _ _ hs he ht ⟨i, h⟩ => ⟨i, hP i hs he ht h⟩

theorem Stable.const (p : Prop) : D.Stable fun _ => p := fun _ _ _ _ _ h => h

theorem Stable.imp {p : Prop} (hP : D.Stable P) :
    D.Stable fun s => p → P s :=
  fun _ _ hs he ht h hp => hP hs he ht (h hp)

variable (D)

/-- Weakest precondition: wherever the thread stands, the others may step first;
then the program returns into `Q`, raises into `E`, or performs an operation whose
guard holds and goes on likewise. -/
def wp : Prog Op Ans ε α → (α → S → Prop) → (ε → S → Prop) → S → Prop
  | .ret a, Q, _, s => ∀ t, D.Rely s t → D.inv t → Q a t
  | .raise e, _, E, s => ∀ t, D.Rely s t → D.inv t → E e t
  | .op o k, Q, E, s => ∀ t, D.Rely s t → D.inv t →
      D.guar t o ∧ ∀ b u, D.step o t b u → D.inv u → wp (k b) Q E u

variable {D}

/-- Interference before the program starts is already accounted for. -/
theorem wp_rely {t : S} (hst : D.Rely s t) (h : D.wp p Q E s) : D.wp p Q E t := by
  cases p with
  | ret => exact fun u htu => h u (hst.trans htu)
  | raise => exact fun u htu => h u (hst.trans htu)
  | op => exact fun u htu => h u (hst.trans htu)

theorem stable_wp :
    D.Stable (D.wp p Q E) :=
  fun _ _ hs he ht h => wp_rely (.single ⟨hs, he, ht⟩) h

/-- It is enough to establish `wp` after any interference. -/
theorem wp_of_rely (h : ∀ t, D.Rely s t → D.inv t → D.wp p Q E t) : D.wp p Q E s := by
  cases p with
  | ret => exact fun t hst ht => h t hst ht t .refl ht
  | raise => exact fun t hst ht => h t hst ht t .refl ht
  | op => exact fun t hst ht => h t hst ht t .refl ht

theorem wp_ret {a : α} (hQ : D.Stable (Q a)) (h : Q a s) : D.wp (.ret a : Prog Op Ans ε α) Q E s :=
  fun _ hst _ => hQ.rely hst h

theorem wp_raise {e : ε} (hE : D.Stable (E e))
    (h : E e s) : D.wp (.raise e : Prog Op Ans ε α) Q E s :=
  fun _ hst _ => hE.rely hst h

theorem wp_mono {Q' : α → S → Prop} {E' : ε → S → Prop} (hQ : ∀ a t, D.inv t → Q a t → Q' a t)
    (hE : ∀ e t, D.inv t → E e t → E' e t) (h : D.wp p Q E s) : D.wp p Q' E' s := by
  induction p generalizing s with
  | ret a => exact fun t hst ht => hQ a t ht (h t hst ht)
  | raise e => exact fun t hst ht => hE e t ht (h t hst ht)
  | op o k ih =>
    intro t hst ht
    refine ⟨(h t hst ht).1, fun b u hu hiu => ?_⟩
    exact ih b ((h t hst ht).2 b u hu hiu)

theorem wp_bind {f : α → Prog Op Ans ε β} {Q : β → S → Prop}
    (h : D.wp p (fun a => D.wp (f a) Q E) E s) : D.wp (p.bind f) Q E s := by
  induction p generalizing s with
  | ret => exact wp_of_rely h
  | raise => exact h
  | op o k ih =>
    intro t hst ht
    refine ⟨(h t hst ht).1, fun b u hu hiu => ?_⟩
    exact ih b ((h t hst ht).2 b u hu hiu)

theorem wp_handle {g : ε → Prog Op Ans ε α} (h : D.wp p Q (fun e => D.wp (g e) Q E) s) :
    D.wp (p.handle g) Q E s := by
  induction p generalizing s with
  | ret => exact h
  | raise => exact wp_of_rely h
  | op o k ih =>
    intro t hst ht
    refine ⟨(h t hst ht).1, fun b u hu hiu => ?_⟩
    exact ih b ((h t hst ht).2 b u hu hiu)

/-- One operation from a stable assertion: meet the guard, then account for each
answer. -/
theorem wp_perform {o : Op} {view : Ans o → Except ε α} (hP : D.Stable P) (hs : P s)
    (hguar : ∀ t, P t → D.inv t → D.guar t o)
    (hok : ∀ t b u a, P t → D.inv t → D.step o t b u → D.inv u → view b = .ok a →
      D.wp (.ret a : Prog Op Ans ε α) Q E u)
    (herr : ∀ t b u e, P t → D.inv t → D.step o t b u → D.inv u → view b = .error e →
      D.wp (.raise e : Prog Op Ans ε α) Q E u) : D.wp (.perform o view) Q E s := by
  intro t hst ht
  have hPt := hP.rely hst hs
  refine ⟨hguar t hPt ht, fun b u hu hiu => ?_⟩
  dsimp only
  split
  case h_1 a hv => exact hok t b u a hPt ht hu hiu hv
  case h_2 e hv => exact herr t b u e hPt ht hu hiu hv

/-- A program all of whose operations keep a stable assertion ends in it. -/
theorem wp_of_uses {C : Op → Prop} (hp : p.Uses C) (hP : D.Stable P) (hs : P s)
    (hguar : ∀ t o, C o → P t → D.inv t → D.guar t o)
    (hstep : ∀ t o b u, C o → P t → D.inv t → D.step o t b u → D.inv u → P u) :
    D.wp p (fun _ => P) (fun _ => P) s := by
  induction p generalizing s with
  | ret => exact fun t hst _ => hP.rely hst hs
  | raise => exact fun t hst _ => hP.rely hst hs
  | op o k ih =>
    intro t hst ht
    have hPt := hP.rely hst hs
    refine ⟨hguar t o hp.1 hPt ht, fun b u hu hiu => ?_⟩
    exact ih b (hp.2 b) (hstep t o b u hp.1 hPt ht hu hiu)

end Discipline
end Graphlab.Lib
