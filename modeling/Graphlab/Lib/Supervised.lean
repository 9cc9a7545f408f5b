import Graphlab.Lib.Interference

/-!
# A supervised process: constructor, worker loop, requests, restarts

A process starts with a constructor program that runs alone.  From then on one
worker repeats a body program, while requests of clients arrive between any two of
its operations; each request is atomic.  An exception that leaves the constructor
or the body ends the process.  At any point at all the process may be restarted:
its volatile state is rebuilt from what is durable, and the constructor runs again.

Every choice of the surroundings is an input, so a run is a list of inputs and a
configuration is a function of it.  An input that cannot happen where it stands (a
request while the constructor runs, say) changes nothing.

`Outline` is a proof outline for such a process: the constructor and the body meet
their guards (`Discipline.wp`), and the guards keep the invariant.  `Outline.sound`
is what it buys: in every reachable configuration the invariant holds and the next
operation meets its guard.  `Outline.invariant` then derives further invariants by
one case analysis over operations, without looking at programs again.

## Main definitions

* `Supervised` — the process; `Supervised.step`, `Supervised.run` its runs.
* `Supervised.Reach`, `Supervised.Path` — reachability under a condition on steps.
* `Outline`, `Outline.sound`, `Outline.guard`, `Outline.constructed`, `Outline.along`,
  `Outline.serving`, `Outline.invariant`.
-/

namespace Graphlab.Lib

/-- A process over states `S`, with client requests `In`, outcomes of operations
`Out` and restarts `Re` as the choices of its surroundings. -/
structure Supervised (Op : Type) (Ans : Op → Type) (ε S In Out Re : Type) where
  /-- What an operation answers and does, given the outcome chosen for it. -/
  perform : (o : Op) → Out → S → Ans o × S
  /-- The effect of a request. -/
  request : In → S → S
  /-- What a restart leaves of the state. -/
  restart : Re → S → S
  /-- The program that runs before anything is served. -/
  construct : Prog Op Ans ε Unit
  /-- One iteration of the worker; `false` ends the loop. -/
  body : Prog Op Ans ε Bool

/-- Where the worker stands. -/
inductive Thread (Op : Type) (Ans : Op → Type) (ε : Type) : Type
  /-- No process is running. -/
  | down
  /-- The constructor is running; nothing is served. -/
  | starting (p : Prog Op Ans ε Unit)
  /-- The worker is between two iterations. -/
  | idle
  /-- The worker is inside an iteration. -/
  | working (p : Prog Op Ans ε Bool)
  /-- The worker has left its loop; requests are still answered. -/
  | parked

/-- The two programs of a process. -/
inductive Phase
  | construct
  | body
  deriving DecidableEq

/-- One choice of the surroundings. -/
inductive Input (In Out Re : Type) : Type
  | request (i : In)
  | work (o : Out)
  | restart (r : Re)

/-- A state together with the position of the worker. -/
structure Config (Op : Type) (Ans : Op → Type) (ε S : Type) where
  state : S
  thread : Thread Op Ans ε

namespace Thread

variable {Op : Type} {Ans : Op → Type} {ε : Type}

/-- The position after the constructor has come to `p`. -/
def ofConstruct : Prog Op Ans ε Unit → Thread Op Ans ε
  | .ret _ => .idle
  | .raise _ => .down
  | .op o k => .starting (.op o k)

/-- The position after the body has come to `p`. -/
def ofBody : Prog Op Ans ε Bool → Thread Op Ans ε
  | .ret true => .idle
  | .ret false => .parked
  | .raise _ => .down
  | .op o k => .working (.op o k)

/-- The operation the worker performs next. -/
def nextOp : Thread Op Ans ε → Option Op
  | .starting (.op o _) => some o
  | .working (.op o _) => some o
  | _ => none

/-- The program the worker is in. -/
def phase : Thread Op Ans ε → Phase
  | .starting _ => .construct
  | _ => .body

/-- Requests are answered from the end of the constructor on. -/
def Serves : Thread Op Ans ε → Prop
  | .down => False
  | .starting _ => False
  | _ => True

instance : (th : Thread Op Ans ε) → Decidable th.Serves
  | .down => isFalse id
  | .starting _ => isFalse id
  | .idle => isTrue trivial
  | .working _ => isTrue trivial
  | .parked => isTrue trivial

/-- The worker is between two iterations. -/
def isIdle : Thread Op Ans ε → Bool
  | .idle => true
  | _ => false

theorem eq_idle {th : Thread Op Ans ε} (h : th.isIdle = true) : th = .idle := by
  cases th with
  | idle => rfl
  | _ => cases h

theorem serves_of_nextOp {th : Thread Op Ans ε} {o : Op} (ho : th.nextOp = some o)
    (hbody : th.phase = .body) : th.Serves := by
  cases th with
  | starting => cases hbody
  | working => trivial
  | _ => cases ho

@[simp] theorem phase_ofBody (p : Prog Op Ans ε Bool) : (ofBody p).phase = .body := by
  cases p with
  | ret a => cases a <;> rfl
  | raise => rfl
  | op => rfl

end Thread

namespace Supervised

variable {Op : Type} {Ans : Op → Type} {ε S In Out Re : Type}
variable (M : Supervised Op Ans ε S In Out Re)

/-- One step of the process. -/
def step (c : Config Op Ans ε S) : Input In Out Re → Config Op Ans ε S
  | .request i =>
    match c.thread with
    | .down => c
    | .starting _ => c
    | _ => { c with state := M.request i c.state }
  | .work out =>
    match c.thread with
    | .starting (.op o k) =>
      ⟨(M.perform o out c.state).2, .ofConstruct (k (M.perform o out c.state).1)⟩
    | .idle => ⟨c.state, .ofBody M.body⟩
    | .working (.op o k) =>
      ⟨(M.perform o out c.state).2, .ofBody (k (M.perform o out c.state).1)⟩
    | _ => c
  | .restart r => ⟨M.restart r c.state, .ofConstruct M.construct⟩

theorem step_request {c : Config Op Ans ε S} (h : c.thread.Serves) (i : In) :
    M.step c (.request i) = { c with state := M.request i c.state } := by
  obtain ⟨_, th⟩ := c
  cases th with
  | down => exact h.elim
  | starting => exact h.elim
  | idle => rfl
  | working => rfl
  | parked => rfl

/-- A run. -/
def run (c : Config Op Ans ε S) : List (Input In Out Re) → Config Op Ans ε S
  | [] => c
  | i :: is => run (M.step c i) is

@[simp] theorem run_cons (c : Config Op Ans ε S) (i : Input In Out Re)
    (is : List (Input In Out Re)) : M.run c (i :: is) = M.run (M.step c i) is := rfl

theorem run_append (c : Config Op Ans ε S) (is js : List (Input In Out Re)) :
    M.run c (is ++ js) = M.run (M.run c is) js := by
  induction is generalizing c with
  | nil => rfl
  | cons i is ih => exact ih (M.step c i)

/-- A condition on steps: the configuration before the step, and the input. -/
abbrev Condition (Op : Type) (Ans : Op → Type) (ε S In Out Re : Type) :=
  Config Op Ans ε S → Input In Out Re → Prop

/-- The configurations that runs from `c₀` lead to, all of whose steps meet `ok`. -/
inductive Path (ok : Condition Op Ans ε S In Out Re) (c₀ : Config Op Ans ε S) :
    Config Op Ans ε S → Prop
  | refl : Path ok c₀ c₀
  | step {c : Config Op Ans ε S} (i : Input In Out Re) :
      Path ok c₀ c → ok c i → Path ok c₀ (M.step c i)

/-- Reachability from a state with no process running. -/
abbrev Reach (ok : Condition Op Ans ε S In Out Re) (init : S) : Config Op Ans ε S → Prop :=
  M.Path ok ⟨init, .down⟩

/-- No condition at all. -/
def always : Condition Op Ans ε S In Out Re := fun _ _ => True

variable {M} {ok ok' : Condition Op Ans ε S In Out Re} {c₀ c₁ c₂ c : Config Op Ans ε S}

theorem Path.mono (hok : ∀ c i, ok c i → ok' c i) (h : M.Path ok c₀ c) : M.Path ok' c₀ c := by
  induction h with
  | refl => exact .refl
  | step i _ hi ih => exact .step i ih (hok _ i hi)

theorem Path.trans (h₁ : M.Path ok c₀ c₁) (h₂ : M.Path ok c₁ c₂) : M.Path ok c₀ c₂ := by
  induction h₂ with
  | refl => exact h₁
  | step i _ hi ih => exact .step i ih hi

/-- Every step of a path starts on the path. -/
theorem Path.self (h : M.Path ok c₀ c) :
    M.Path (fun c i => ok c i ∧ M.Path ok c₀ c) c₀ c := by
  induction h with
  | refl => exact .refl
  | step i hc hi ih => exact .step i ih ⟨hi, hc⟩

/-- Without restarts the worker stays where requests are answered. -/
theorem Path.body (h : M.Path ok c₀ c) (hre : ∀ c r, ¬ ok c (.restart r))
    (h₀ : c₀.thread.phase = .body) :
    M.Path (fun c i => ok c i ∧ c.thread.phase = .body) c₀ c ∧ c.thread.phase = .body := by
  induction h with
  | refl => exact ⟨.refl, h₀⟩
  | @step c i _ hi ih =>
    refine ⟨.step i ih.1 ⟨hi, ih.2⟩, ?_⟩
    obtain ⟨_, th⟩ := c
    cases i with
    | restart r => exact absurd hi (hre _ r)
    | request => cases th <;> simp_all [Supervised.step, Thread.phase]
    | work =>
      cases th with
      | starting => simp [Thread.phase] at ih
      | working p =>
        cases p with
        | ret => rfl
        | raise => rfl
        | op => exact Thread.phase_ofBody _
      | idle => exact Thread.phase_ofBody _
      | down => rfl
      | parked => rfl

/-- A run of inputs that meet `ok` wherever they come. -/
theorem Path.run (h : M.Path ok c₀ c) (is : List (Input In Out Re))
    (hok : ∀ i ∈ is, ∀ c, ok c i) :
    M.Path ok c₀ (M.run c is) := by
  induction is generalizing c with
  | nil => exact h
  | cons i is ih =>
    exact ih (.step i h (hok i (List.mem_cons_self ..) c)) fun j hj =>
      hok j (List.mem_cons_of_mem i hj)

variable (M) in
/-- Every step of a run passes a check. -/
def checks (check : Config Op Ans ε S → Input In Out Re → Bool) :
    Config Op Ans ε S → List (Input In Out Re) → Bool
  | _, [] => true
  | c, i :: is => check c i && checks check (M.step c i) is

/-- A run whose steps can be seen to meet `ok`. -/
theorem Path.of_checks {check : Config Op Ans ε S → Input In Out Re → Bool}
    (hcheck : ∀ c i, check c i = true → ok c i)
    (h : M.Path ok c₀ c) (is : List (Input In Out Re)) (his : M.checks check c is = true) :
    M.Path ok c₀ (M.run c is) := by
  induction is generalizing c with
  | nil => exact h
  | cons i is ih =>
    rw [checks, Bool.and_eq_true] at his
    exact ih (.step i h (hcheck c i his.1)) his.2

theorem path_run (c : Config Op Ans ε S) (is : List (Input In Out Re)) :
    M.Path Supervised.always c (M.run c is) :=
  Path.run .refl is fun _ _ _ => trivial

/-- An iteration that runs alone, all operations with the same outcome. -/
theorem run_exec {out : Out} {p : Prog Op Ans ε Bool} {s t : S}
    (h : p.exec (fun o => M.perform o out) s = (.ok true, t)) :
    ∃ n, M.run ⟨s, .ofBody p⟩ (List.replicate n (.work out)) = ⟨t, .idle⟩ := by
  induction p generalizing s with
  | ret => cases h; exact ⟨0, rfl⟩
  | raise => cases h
  | op o k ih =>
    obtain ⟨n, hn⟩ := ih _ h
    exact ⟨n + 1, hn⟩

end Supervised

open Supervised in
/-- A proof outline of a process: assertions for everyone, for the end of the
constructor and for the worker between iterations, guards of the operations, and the
verification conditions. -/
structure Outline {Op : Type} {Ans : Op → Type} {ε S In Out Re : Type}
    (M : Supervised Op Ans ε S In Out Re) (init : S) where
  /-- Holds of every reachable state. -/
  inv : S → Prop
  /-- Holds when the constructor has just ended. -/
  ready : S → Prop
  /-- Holds when the worker is between two iterations. -/
  loop : S → Prop
  /-- Holds when an operation is performed. -/
  guar : Phase → S → Op → Prop
  inv_init : inv init
  inv_request : ∀ i s, inv s → inv (M.request i s)
  inv_restart : ∀ r s, inv s → inv (M.restart r s)
  inv_perform : ∀ ph o out s, inv s → guar ph s o → inv (M.perform o out s).2
  ready_loop : ∀ s, ready s → loop s
  loop_request : ∀ i s, inv s → loop s → loop (M.request i s)
  /-- The constructor runs without interference. -/
  construct_wp : ∀ r s, inv s →
    Discipline.wp ⟨fun o s b t => ∃ out, M.perform o out s = (b, t), fun _ _ => False, inv,
        guar .construct⟩
      M.construct (fun _ => ready) (fun _ _ => True) (M.restart r s)
  body_wp : ∀ s, inv s → loop s →
    Discipline.wp ⟨fun o s b t => ∃ out, M.perform o out s = (b, t),
        fun s t => ∃ i, t = M.request i s, inv, guar .body⟩
      M.body (fun b s => b = true → loop s) (fun _ _ => True) s

namespace Outline

open Supervised

variable {Op : Type} {Ans : Op → Type} {ε S In Out Re : Type}
variable {M : Supervised Op Ans ε S In Out Re} {init : S} (O : Outline M init)
variable {ok : Condition Op Ans ε S In Out Re} {c₀ c : Config Op Ans ε S} {J : S → Prop}

/-- The setting of the constructor: nobody interferes. -/
abbrev alone : Discipline Op Ans S :=
  ⟨fun o s b t => ∃ out, M.perform o out s = (b, t), fun _ _ => False, O.inv,
    O.guar .construct⟩

/-- The setting of the worker: requests interfere. -/
abbrev served : Discipline Op Ans S :=
  ⟨fun o s b t => ∃ out, M.perform o out s = (b, t), fun s t => ∃ i, t = M.request i s,
    O.inv, O.guar .body⟩

/-- What the outline says of a configuration: the invariant, and that the rest of
the worker's program is verified from here. -/
def Covers (c : Config Op Ans ε S) : Prop :=
  O.inv c.state ∧
    match c.thread with
    | .down => True
    | .starting p => O.alone.wp p (fun _ => O.ready) (fun _ _ => True) c.state
    | .idle => O.loop c.state
    | .working p => O.served.wp p (fun b s => b = true → O.loop s) (fun _ _ => True) c.state
    | .parked => True

theorem covers_ofConstruct {p : Prog Op Ans ε Unit} {s : S} (hs : O.inv s)
    (h : O.alone.wp p (fun _ => O.ready) (fun _ _ => True) s) :
    O.Covers ⟨s, .ofConstruct p⟩ := by
  cases p with
  | ret => exact ⟨hs, O.ready_loop s (h s .refl hs)⟩
  | raise => exact ⟨hs, trivial⟩
  | op => exact ⟨hs, h⟩

theorem covers_ofBody {p : Prog Op Ans ε Bool} {s : S} (hs : O.inv s)
    (h : O.served.wp p (fun b s => b = true → O.loop s) (fun _ _ => True) s) :
    O.Covers ⟨s, .ofBody p⟩ := by
  cases p with
  | ret a =>
    cases a with
    | true => exact ⟨hs, h s .refl hs rfl⟩
    | false => exact ⟨hs, trivial⟩
  | raise => exact ⟨hs, trivial⟩
  | op => exact ⟨hs, h⟩

/-- A request keeps the outline: the worker's assertions are closed under it. -/
theorem covers_request (h : O.Covers c) (i : In) :
    O.Covers (M.step c (.request i)) := by
  obtain ⟨s, th⟩ := c
  obtain ⟨hinv, hth⟩ := h
  have hinv' := O.inv_request i s hinv
  cases th with
  | down => exact ⟨hinv, trivial⟩
  | starting => exact ⟨hinv, hth⟩
  | idle => exact ⟨hinv', O.loop_request i s hinv hth⟩
  | working =>
    exact ⟨hinv', Discipline.wp_rely (.single ⟨hinv, ⟨i, rfl⟩, hinv'⟩) hth⟩
  | parked => exact ⟨hinv', trivial⟩

theorem covers_work (h : O.Covers c) (out : Out) :
    O.Covers (M.step c (.work out)) := by
  obtain ⟨s, th⟩ := c
  obtain ⟨hinv, hth⟩ := h
  cases th with
  | down => exact ⟨hinv, trivial⟩
  | starting p =>
    cases p with
    | ret => exact ⟨hinv, hth⟩
    | raise => exact ⟨hinv, hth⟩
    | op o k =>
      have hop := hth s .refl hinv
      have hinv' := O.inv_perform _ o out s hinv hop.1
      exact O.covers_ofConstruct hinv' (hop.2 _ _ ⟨out, rfl⟩ hinv')
  | idle => exact O.covers_ofBody hinv (O.body_wp s hinv hth)
  | working p =>
    cases p with
    | ret => exact ⟨hinv, hth⟩
    | raise => exact ⟨hinv, hth⟩
    | op o k =>
      have hop := hth s .refl hinv
      have hinv' := O.inv_perform _ o out s hinv hop.1
      exact O.covers_ofBody hinv' (hop.2 _ _ ⟨out, rfl⟩ hinv')
  | parked => exact ⟨hinv, trivial⟩

theorem covers_step (h : O.Covers c) (i : Input In Out Re) :
    O.Covers (M.step c i) := by
  cases i with
  | request i => exact O.covers_request h i
  | work out => exact O.covers_work h out
  | restart r =>
    exact O.covers_ofConstruct (O.inv_restart r _ h.1) (O.construct_wp r _ h.1)

/-- **Soundness of an outline.** -/
theorem sound (h : M.Reach ok init c) : O.Covers c := by
  induction h with
  | refl => exact ⟨O.inv_init, trivial⟩
  | step i _ _ ih => exact O.covers_step ih i

/-- The next operation of a reachable configuration meets its guard. -/
theorem guard (h : O.Covers c) {o : Op} (ho : c.thread.nextOp = some o) :
    O.guar c.thread.phase c.state o := by
  obtain ⟨s, th⟩ := c
  obtain ⟨hinv, hth⟩ := h
  cases th with
  | down => simp [Thread.nextOp] at ho
  | idle => simp [Thread.nextOp] at ho
  | parked => simp [Thread.nextOp] at ho
  | starting p =>
    cases p with
    | ret => simp [Thread.nextOp] at ho
    | raise => simp [Thread.nextOp] at ho
    | op q k =>
      obtain rfl : q = o := by simpa [Thread.nextOp] using ho
      exact (hth s .refl hinv).1
  | working p =>
    cases p with
    | ret => simp [Thread.nextOp] at ho
    | raise => simp [Thread.nextOp] at ho
    | op q k =>
      obtain rfl : q = o := by simpa [Thread.nextOp] using ho
      exact (hth s .refl hinv).1

theorem ready_ofConstruct {p : Prog Op Ans ε Unit} {s : S} (hs : O.inv s)
    (h : O.alone.wp p (fun _ => O.ready) (fun _ _ => True) s)
    (hidle : (Thread.ofConstruct p).Serves) : O.ready s := by
  cases p with
  | ret => exact h s .refl hs
  | raise => exact hidle.elim
  | op => exact hidle.elim

/-- A step that ends the constructor ends in `ready`. -/
theorem constructed (h : O.Covers c) {i : Input In Out Re}
    (hi : ¬ c.thread.Serves ∨ ∃ r, i = .restart r) (hserves : (M.step c i).thread.Serves) :
    O.ready (M.step c i).state := by
  cases i with
  | restart r =>
    exact O.ready_ofConstruct (O.inv_restart r _ h.1) (O.construct_wp r _ h.1) hserves
  | request =>
    obtain ⟨s, th⟩ := c
    cases th <;> simp_all [Supervised.step, Thread.Serves]
  | work out =>
    obtain ⟨s, th⟩ := c
    obtain ⟨hinv, hth⟩ := h
    cases th with
    | starting p =>
      cases p with
      | ret => exact hserves.elim
      | raise => exact hserves.elim
      | op o k =>
        have hop := hth s .refl hinv
        have hinv' := O.inv_perform _ o out s hinv hop.1
        exact O.ready_ofConstruct hinv' (hop.2 _ _ ⟨out, rfl⟩ hinv') hserves
    | down => exact hserves.elim
    | _ => simp [Thread.Serves] at hi

/-- A step either leaves the state alone, serves a request, performs the guarded
next operation, or restarts. -/
theorem step_cases (h : O.Covers c) (i : Input In Out Re) :
    (M.step c i).state = c.state ∨
    (∃ r, i = .request r ∧ c.thread.Serves ∧ (M.step c i).state = M.request r c.state) ∨
    (∃ out o, i = .work out ∧ c.thread.nextOp = some o ∧ O.guar c.thread.phase c.state o ∧
      (M.step c i).state = (M.perform o out c.state).2) ∨
    (∃ r, i = .restart r ∧ (M.step c i).state = M.restart r c.state) := by
  obtain ⟨_, th⟩ := c
  cases i with
  | request r =>
    cases th with
    | down => exact .inl rfl
    | starting => exact .inl rfl
    | idle => exact .inr (.inl ⟨r, rfl, trivial, rfl⟩)
    | working => exact .inr (.inl ⟨r, rfl, trivial, rfl⟩)
    | parked => exact .inr (.inl ⟨r, rfl, trivial, rfl⟩)
  | restart r => exact .inr (.inr (.inr ⟨r, rfl, rfl⟩))
  | work out =>
    cases th with
    | down => exact .inl rfl
    | idle => exact .inl rfl
    | parked => exact .inl rfl
    | starting p =>
      cases p with
      | ret => exact .inl rfl
      | raise => exact .inl rfl
      | op o k => exact .inr (.inr (.inl ⟨out, o, rfl, rfl, O.guard h rfl, rfl⟩))
    | working p =>
      cases p with
      | ret => exact .inl rfl
      | raise => exact .inl rfl
      | op o k => exact .inr (.inr (.inl ⟨out, o, rfl, rfl, O.guard h rfl, rfl⟩))

/-- **Invariants from guards.**  A property of the state that requests, guarded
operations and restarts keep, on steps that meet `ok`, holds along such steps. -/
theorem along
    (hreq : ∀ c r, ok c (.request r) → O.inv c.state → J c.state → J (M.request r c.state))
    (hop : ∀ c out o, ok c (.work out) → c.thread.nextOp = some o → O.inv c.state →
      O.guar c.thread.phase c.state o → J c.state → J (M.perform o out c.state).2)
    (hre : ∀ c r, ok c (.restart r) → O.inv c.state → J c.state → J (M.restart r c.state))
    (h₀ : O.Covers c₀) (hJ : J c₀.state) (h : M.Path ok c₀ c) :
    J c.state := by
  suffices O.Covers c ∧ J c.state from this.2
  induction h with
  | refl => exact ⟨h₀, hJ⟩
  | step i hc hi ih =>
    obtain ⟨hcov, hJ⟩ := ih
    refine ⟨O.covers_step hcov i, ?_⟩
    rcases O.step_cases hcov i with hs | ⟨r, rfl, _, hs⟩ | ⟨out, o, rfl, ho, hg, hs⟩ |
      ⟨r, rfl, hs⟩
    · rw [hs]; exact hJ
    · rw [hs]; exact hreq _ r hi hcov.1 hJ
    · rw [hs]; exact hop _ out o hi ho hcov.1 hg hJ
    · rw [hs]; exact hre _ r hi hcov.1 hJ

/-- What holds when the constructor ends, and is kept by requests and by the worker,
holds wherever requests are answered. -/
theorem serving (hready : ∀ s, O.inv s → O.ready s → J s)
    (hreq : ∀ c r, ok c (.request r) → O.inv c.state → J c.state → J (M.request r c.state))
    (hop : ∀ c out o, ok c (.work out) → c.thread.nextOp = some o → O.inv c.state →
      O.guar .body c.state o → J c.state → J (M.perform o out c.state).2)
    (h : M.Reach ok init c) (hserves : c.thread.Serves) : J c.state := by
  induction h with
  | refl => exact hserves.elim
  | @step c i hc hi ih =>
    have hcov := O.sound hc
    by_cases hnew : ¬ c.thread.Serves ∨ ∃ r, i = .restart r
    · exact hready _ (O.covers_step hcov i).1 (O.constructed hcov hnew hserves)
    · rw [not_or, Classical.not_not, not_exists] at hnew
      have hJ := ih hnew.1
      rcases O.step_cases hcov i with hs | ⟨r, rfl, _, hs⟩ | ⟨out, o, rfl, ho, hg, hs⟩ |
        ⟨r, rfl, hs⟩
      · rw [hs]; exact hJ
      · rw [hs]; exact hreq _ r hi hcov.1 hJ
      · rw [hs]
        have hphase : c.thread.phase = .body := by
          cases hth : c.thread with
          | starting => rw [hth] at hnew; exact hnew.1.elim
          | _ => rfl
        exact hop _ out o hi ho hcov.1 (hphase ▸ hg) hJ
      · exact absurd rfl (hnew.2 r)

/-- What holds of the initial state and is kept holds of every reachable state. -/
theorem invariant (h0 : J init)
    (hreq : ∀ c r, ok c (.request r) → O.inv c.state → J c.state → J (M.request r c.state))
    (hop : ∀ c out o, ok c (.work out) → c.thread.nextOp = some o → O.inv c.state →
      O.guar c.thread.phase c.state o → J c.state → J (M.perform o out c.state).2)
    (hre : ∀ c r, ok c (.restart r) → O.inv c.state → J c.state → J (M.restart r c.state))
    (h : M.Reach ok init c) : J c.state :=
  O.along hreq hop hre (O.sound (.refl : M.Reach ok init _)) h0 h

end Outline
end Graphlab.Lib
