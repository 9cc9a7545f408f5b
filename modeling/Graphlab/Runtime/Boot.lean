import Graphlab.Runtime.Monitor

/-!
# Verifying the constructor

The constructor runs alone, so nothing has to be stable.  Its first region ends every
pending job; from then on `Booting` holds.  It then adopts what the runs left outside the
agent, and recovers their faults: at the end every live fault is active in this boot and
unexpired when it was looked at, or recorded as needing recovery (`Settled`).

## Main results

* `takeOver_wp`, `adoptRuns_wp` — adoption.
* `recoverFaults_wp`, `m5Recover_wp` — recovery of faults.
* `construct_wp` — the constructor.
-/

namespace Graphlab.Runtime

open Std (TreeMap)
open Lib Lib.Discipline

/-- The setting of the constructor. -/
abbrev alone : Discipline Op Ans Shared :=
  ⟨fun o s b t => ∃ out, perform o out s = (b, t), fun _ _ => False, Inv, Guard .construct⟩

theorem alone_stable {P : Shared → Prop} : alone.Stable P := fun _ _ _ h => h.elim

variable {s t : Shared} {α : Type} {Q : α → Shared → Prop} {E : Failure → Shared → Prop}

/-! ## Rules -/

/-- What holds once the constructor has ended all jobs. -/
structure Booting (s : Shared) : Prop where
  quiet : s.mem.hasPending = false
  calm : Calm s.log
  coverage : ∀ id, SameCoverage s id
  since : s.restartedAt ≤ s.clock.now

namespace Booting

theorem loop (h : Booting s) : Loop s where
  unowned j x hx hrun := by
    have := (State.hasPending_eq_false_iff _).1 h.quiet j x hx
    simp [Job.pending, hrun] at this
  calm := h.calm
  coverage := h.coverage

theorem tick (h : Booting s) (n : ℕ) : Booting (s.tick n) :=
  ⟨h.quiet, h.calm, h.coverage, Nat.le_add_right_of_le h.since⟩

theorem called (h : Booting s) {c : Call} (hc : c.free = true) (out : Outcome) :
    Booting (perform (.call c) out s).2 := by
  refine ⟨h.quiet, fun id => ?_, h.coverage, (h.tick out.elapsed).since⟩
  exact (arming_called (c.free_ne_arm hc) id out.error _).trans (h.calm id)

/-- A region brings no job back. -/
theorem quiet_apply (h : Booting s) (w : Write) (clock : Clock) :
    (w.apply clock s.mem).hasPending = false := by
  refine (State.hasPending_eq_false_iff _).2 fun j x hx => ?_
  obtain ⟨y, hy, hye⟩ := Write.job_of_apply hx
  by_contra hp
  have := (State.hasPending_eq_false_iff _).1 h.quiet j y hy
  simp [← (hye.eq_of_pending (by simpa using hp)).1, hp] at this

theorem committed (h : Booting s) (w : Write) (n : ℕ) :
    Booting ((s.tick n).commit w none).2 :=
  ⟨h.quiet_apply w _, fun _ => rfl, fun _ old hold => ⟨old, hold, rfl⟩, (h.tick n).since⟩

/-- A region without `save` that leaves the coverage of its run. -/
theorem updated (h : Booting s) {id : RunId} {w : RunWrite}
    (hw : ∀ clock r, (w.apply clock r).captureCoverage = r.captureCoverage) (n : ℕ) :
    Booting { s.tick n with mem := (Write.run id w).apply (s.tick n).clock s.mem } := by
  refine ⟨h.quiet_apply _ _, h.calm, fun i old hold => ?_, (h.tick n).since⟩
  obtain ⟨_, hr, hcov⟩ := h.coverage i hold
  refine ⟨_, Write.apply_run_some hr w _, ?_⟩
  split
  · rw [hw, hcov]
  · exact hcov

/-- The rule for commits: an exception ends the process. -/
theorem commit (h : Booting s) {w : Write} (hw : ∀ n, w.aborted n = none)
    (hg : WriteGuard .construct s w) {k : State → Act α}
    (hok : ∀ n, Booting ((s.tick n).commit w none).2 → Inv ((s.tick n).commit w none).2 →
      alone.wp (k (w.apply (s.tick n).clock s.mem)) Q (fun _ _ => True)
        ((s.tick n).commit w none).2) :
    alone.wp ((Act.commit w).bind k) Q (fun _ _ => True) s := by
  refine wp_commit (P := (· = s)) hw alone_stable rfl ?_ (fun _ => alone_stable) ?_
    fun _ _ _ _ _ _ => trivial
  · rintro _ rfl -
    refine ⟨hg, fun id hid => ?_, .inl h.coverage⟩
    simp [h.calm id] at hid
  · rintro _ n rfl - hu
    exact hok n (h.committed w n) hu

theorem commit' (h : Booting s) {w : Write} (hw : ∀ n, w.aborted n = none)
    (hg : WriteGuard .construct s w) {k : Unit → Act α}
    (hok : ∀ n, Booting ((s.tick n).commit w none).2 → Inv ((s.tick n).commit w none).2 →
      alone.wp (k ()) Q (fun _ _ => True) ((s.tick n).commit w none).2) :
    alone.wp ((Act.commit' w).bind k) Q (fun _ _ => True) s :=
  wp_bind (h.commit hw hg fun n hb hu => wp_ret stable_wp (hok n hb hu))

/-- The rule for calls. -/
theorem call (h : Booting s) {c : Call} (hc : c.free = true) {k : Reply → Act α}
    (hok : ∀ out, out.error = none → Booting (perform (.call c) out s).2 →
      Inv (perform (.call c) out s).2 →
      alone.wp (k out.reply) Q E (perform (.call c) out s).2)
    (herr : ∀ out e, Booting (perform (.call c) out s).2 → Inv (perform (.call c) out s).2 →
      E e (perform (.call c) out s).2) :
    alone.wp ((Act.call c).bind k) Q E s := by
  refine wp_call (P := (· = s)) alone_stable rfl (fun t _ _ => c.free_guard hc t)
    (fun _ => alone_stable) ?_ ?_
  · rintro _ out rfl - herror hu
    exact hok out herror (h.called hc out) hu
  · rintro _ out code rfl - - hu
    exact herr out _ (h.called hc out) hu

end Booting

/-- Reading memory. -/
theorem alone_read {k : State → Act α}
    (hok : ∀ n, Inv (s.tick n) → alone.wp (k s.mem) Q E (s.tick n)) :
    alone.wp (Act.read.bind k) Q E s := by
  refine wp_read (P := (· = s)) alone_stable rfl ?_
  rintro _ n rfl - hu
  exact hok n hu

theorem alone_readRun {id : RunId} {k : Run → Act α}
    (hok : ∀ n r, s.mem.runs[id]? = some r → Inv (s.tick n) → alone.wp (k r) Q E (s.tick n))
    (herr : ∀ n, E typeError (s.tick n)) : alone.wp ((readRun id).bind k) Q E s := by
  refine wp_bind (alone_read fun n hn => ?_)
  split
  · next r hr => exact wp_ret stable_wp (hok n r hr hn)
  · exact wp_raise alone_stable (herr n)

/-- Reading the clock. -/
theorem alone_clock {k : Clock → Act α}
    (hok : ∀ n, Inv (s.tick n) → alone.wp (k (s.tick n).clock) Q E (s.tick n)) :
    alone.wp (Act.clock.bind k) Q E s := by
  refine wp_clock (P := (· = s)) alone_stable rfl ?_
  rintro _ n rfl hu
  exact hok n hu

/-- A region without `save`. -/
theorem alone_update {Q : Unit → Shared → Prop} {w : Write} (hg : WriteGuard .construct s w) (hw : w.unsaved = true)
    (hQ : ∀ n, Q () { s.tick n with mem := w.apply (s.tick n).clock s.mem }) :
    alone.wp (Act.update w) Q E s := by
  refine wp_perform (P := (· = s)) alone_stable rfl ?_ ?_ ?_
  · rintro _ rfl -
    exact ⟨hg, hw⟩
  · rintro _ b u a rfl - ⟨out, hout⟩ - hb
    cases hb
    cases hout
    exact wp_ret alone_stable (hQ out.elapsed)
  · rintro _ b u e rfl - - - hb
    cases hb

/-! ## Adoption -/

/-- The operations of `takeOver` on the run `id`. -/
def Op.takesOver (id : RunId) (o : Op) : Prop :=
  o = .read ∨ o.harmless ∨ (∃ observed, o = .update (.run id (.adoptionObserved observed))) ∨
    o = .update (.run id .sessionLost)

theorem adoptSessions_uses (id : RunId) (generation : ℕ) (sessions : List Session) :
    (adoptSessions id generation sessions).Uses (Op.takesOver id) := by
  induction sessions with
  | nil => trivial
  | cons d rest ih =>
    refine .bind (.handle (.bind (.bind (.perform ?_) fun _ => trivial) fun _ => trivial)
      fun _ => trivial) fun adopted => .bind (uses_when (.perform ?_)) fun _ => ih
    · exact .inr (.inl ⟨_, rfl, rfl⟩)
    · exact .inr (.inr (.inr rfl))

theorem takeOver_uses (id : RunId) (wasClosed : Bool) :
    (takeOver id wasClosed).Uses (Op.takesOver id) := by
  have hread : (readRun id).Uses (Op.takesOver id) := by
    refine .bind (.perform (.inl rfl)) fun d => ?_
    split <;> trivial
  refine .bind hread fun run => .bind (uses_when (.bind (.perform ?_) fun _ => .perform ?_))
    fun _ => .bind hread fun run => .bind (.bind (.perform ?_) fun _ => trivial)
    fun _ => adoptSessions_uses id _ _
  · exact .inr (.inl ⟨_, rfl, rfl⟩)
  · exact .inr (.inr (.inl ⟨_, rfl⟩))
  · exact .inr (.inl ⟨_, rfl, rfl⟩)

/-- Adopting a run changes nothing that matters, whether it throws or not. -/
theorem takeOver_wp {id : RunId} (wasClosed : Bool) (h : Booting s) (hr : Reconciling s.mem id) :
    alone.wp (takeOver id wasClosed) (fun _ t => Booting t ∧ Reconciling t.mem id)
      (fun _ t => Booting t ∧ Reconciling t.mem id) s := by
  have hupdate : ∀ (t : Shared) (n : ℕ) (w : RunWrite),
      (∀ clock r, (w.apply clock r).captureCoverage = r.captureCoverage) →
      (∀ clock r, (w.apply clock r).state = r.state) → Booting t → Reconciling t.mem id →
      Booting { t.tick n with mem := (Write.run id w).apply (t.tick n).clock t.mem } ∧
        Reconciling ((Write.run id w).apply (t.tick n).clock t.mem) id := by
    rintro t n w hcov hstate ht ⟨r, hr, hrec⟩
    refine ⟨ht.updated hcov n, _, Write.apply_run_some hr w _, ?_⟩
    rw [if_pos rfl, hstate]
    exact hrec
  refine wp_of_uses (P := fun t => Booting t ∧ Reconciling t.mem id) (takeOver_uses id wasClosed)
    alone_stable ⟨h, hr⟩ ?_ ?_
  · rintro t o (rfl | ⟨c, rfl, hc⟩ | ⟨observed, rfl⟩ | rfl) - -
    · trivial
    · exact c.free_guard hc t
    · exact ⟨fun _ _ => trivial, rfl⟩
    · exact ⟨fun _ _ => trivial, rfl⟩
  · rintro t o b u (rfl | ⟨c, rfl, hc⟩ | ⟨observed, rfl⟩ | rfl) ⟨ht, hrec⟩ - ⟨out, hout⟩ - <;>
      cases hout
    · exact ⟨ht.tick _, hrec⟩
    · exact ⟨ht.called hc out, hrec⟩
    · exact hupdate t _ _ (fun _ _ => rfl) (fun _ _ => rfl) ht hrec
    · exact hupdate t _ _ (fun _ _ => rfl) (fun _ _ => rfl) ht hrec

theorem adoptRun_wp {id : RunId} (h : Booting s) :
    alone.wp (adoptRun id) (fun _ => Booting) (fun _ _ => True) s := by
  refine alone_readRun (fun n run hrun _ => ?_) fun _ => trivial
  split
  · exact wp_ret alone_stable (h.tick n)
  next hcond =>
  have hne : run.state ≠ .destroyed := by
    intro hd
    simp [hd] at hcond
  refine (h.tick n).commit' (fun _ => rfl) ?_ fun m hb hu => ?_
  · intro r hr
    cases hrun.symm.trans hr
    exact ⟨hne, h.quiet⟩
  have hrec : Reconciling (((s.tick n).tick m).commit (.run id .adopting) none).2.mem id :=
    ⟨_, Write.apply_run_some hrun .adopting _, by rw [if_pos rfl]; rfl⟩
  refine wp_bind (wp_mono (Q := fun _ t => Booting t ∧ Reconciling t.mem id) ?_
    (fun _ _ _ h => h) ?_)
  · rintro error t - ⟨ht, r, hr, hstate⟩
    cases error with
    | none =>
      dsimp only
      rw [← Prog.bind_ret (Act.commit' _)]
      refine ht.commit' (fun _ => rfl) ?_ fun m hb hu => wp_ret alone_stable hb
      intro r' hr'
      cases hr.symm.trans hr'
      exact ⟨rfl, by simp [hstate], ht.quiet⟩
    | some =>
      dsimp only
      rw [← Prog.bind_ret (Act.commit' _)]
      refine ht.commit' (fun _ => rfl) ?_ fun m hb hu => wp_ret alone_stable hb
      exact fun _ _ => trivial
  · refine wp_handle (wp_bind (wp_mono (fun _ _ _ h => ?_) (fun _ _ _ h => ?_)
      (takeOver_wp _ hb hrec)))
    · exact wp_ret alone_stable h
    · exact wp_ret alone_stable h

theorem adoptRuns_wp (ids : List RunId) (h : Booting s) :
    alone.wp (adoptRuns ids) (fun _ => Booting) (fun _ _ => True) s := by
  induction ids generalizing s with
  | nil => exact wp_ret alone_stable h
  | cons id rest ih =>
    exact wp_bind (wp_mono (fun _ t _ h => ih h) (fun _ _ _ h => h) (adoptRun_wp h))

/-! ## Recovery of faults -/

/-- What recovery leaves of a live fault: active in this boot and not expired when it
was looked at, or recorded as needing recovery. -/
def Settled (s : Shared) (r : Run) (f : Fault) : Prop :=
  f.state.live = true →
    (f.state = .active ∧ f.bootId = s.clock.boot ∧
      ∃ t, s.restartedAt ≤ t ∧ t ≤ s.clock.now ∧ t < f.expiresMonotonicNs.getD 0) ∨
    (f.state = .recoveryRequired ∧ r.state = .reconciling)

/-- Time may pass, and the run may be sent to reconciliation. -/
theorem Settled.mono {r r' : Run} {f : Fault} (h : Settled s r f)
    (hboot : t.clock.boot = s.clock.boot) (hsince : t.restartedAt = s.restartedAt)
    (hnow : s.clock.now ≤ t.clock.now) (hr : r.state = .reconciling → r'.state = .reconciling) :
    Settled t r' f := by
  intro hlive
  rcases h hlive with ⟨hactive, hb, n, h₁, h₂, h₃⟩ | ⟨hrec, hstate⟩
  · exact .inl ⟨hactive, hboot ▸ hb, n, hsince ▸ h₁, h₂.trans hnow, h₃⟩
  · exact .inr ⟨hrec, hr hstate⟩

/-- Recovery is at the faults `list` of the run `id`, with the runs `rest` to come. -/
structure Recovering (rest : List RunId) (id : RunId) (list : List (FaultId × Fault))
    (s : Shared) : Prop where
  others : ∀ (i : RunId) (r : Run), i ∉ rest → i ≠ id → s.mem.runs[i]? = some r →
    r.state ≠ .destroyed → ∀ (fid : FaultId) (f : Fault), r.faults[fid]? = some f → Settled s r f
  listed : ∀ e ∈ list, Tracked s.mem id e.1 e.2
  looked : ∀ (r : Run) (fid : FaultId) (f : Fault), s.mem.runs[id]? = some r →
    r.faults[fid]? = some f → Settled s r f ∨ (fid, f) ∈ list

namespace Recovering

variable {rest : List RunId} {id : RunId} {list : List (FaultId × Fault)} {fid : FaultId}
  {f : Fault}

/-- Nothing happens to memory. -/
theorem same (h : Recovering rest id list s) (hmem : t.mem = s.mem)
    (hboot : t.clock.boot = s.clock.boot) (hsince : t.restartedAt = s.restartedAt)
    (hnow : s.clock.now ≤ t.clock.now) : Recovering rest id list t where
  others i r hi hne hr hstate fid f hf :=
    (h.others i r hi hne (hmem ▸ hr) hstate fid f hf).mono hboot hsince hnow fun h => h
  listed e he := hmem ▸ h.listed e he
  looked r fid f hr hf :=
    (h.looked r fid f (hmem ▸ hr) hf).imp_left fun h => h.mono hboot hsince hnow fun h => h

theorem tick (h : Recovering rest id list s) (n : ℕ) : Recovering rest id list (s.tick n) :=
  h.same rfl rfl rfl (Nat.le_add_right _ _)

/-- The next fault needs nothing. -/
theorem skip (h : Recovering rest id ((fid, f) :: list) s)
    (hf : ∀ r : Run, Settled s r f) : Recovering rest id list s where
  others := h.others
  listed e he := h.listed e (List.mem_cons_of_mem _ he)
  looked r k g hr hg := by
    rcases h.looked r k g hr hg with hs | hmem
    · exact .inl hs
    · rcases List.mem_cons.1 hmem with heq | hmem
      · cases heq
        exact .inl (hf r)
      · exact .inr hmem

/-- A region on the run. -/
theorem write (h : Recovering rest id list s) {w : RunWrite} {clock : Clock}
    {list' : List (FaultId × Fault)}
    (hstate : ∀ r, (w.apply clock r).state = r.state ∨ (w.apply clock r).state = .reconciling)
    (hlist : ∀ e ∈ list', e ∈ list ∧ w.onFault e.1 e.2 = e.2)
    (hlooked : ∀ (r : Run) (k : FaultId) (g : Fault), Settled s r g ∨ (k, g) ∈ list →
      Settled s (w.apply clock r) (w.onFault k g) ∨ (k, w.onFault k g) ∈ list')
    (hmem : t.mem = (Write.run id w).apply clock s.mem) (hboot : t.clock.boot = s.clock.boot)
    (hsince : t.restartedAt = s.restartedAt) (hnow : s.clock.now ≤ t.clock.now) :
    Recovering rest id list' t := by
  constructor
  · intro i r hi hne hr hdestroyed k g hg
    rw [hmem, Write.apply_run, Option.map_eq_some_iff] at hr
    obtain ⟨r₀, hr₀, rfl⟩ := hr
    have hsame : (Write.run id w).onRun clock s.mem i r₀ = r₀ := if_neg hne.symm
    rw [hsame] at hdestroyed hg ⊢
    exact (h.others i r₀ hi hne hr₀ hdestroyed k g hg).mono hboot hsince hnow fun h => h
  · intro e he
    obtain ⟨he, hsame⟩ := hlist e he
    obtain ⟨r, hr, hdestroyed, hf⟩ := h.listed e he
    refine ⟨_, by rw [hmem]; exact Write.apply_run_some hr w clock, ?_, ?_⟩
    · rw [if_pos rfl]
      rcases hstate r with hs | hs <;> simp [hs, hdestroyed]
    · rw [if_pos rfl, RunWrite.apply_fault, hf, Option.map_some, hsame]
  · intro r k g hr hg
    rw [hmem, Write.apply_run, Option.map_eq_some_iff] at hr
    obtain ⟨r₀, hr₀, rfl⟩ := hr
    have happ : (Write.run id w).onRun clock s.mem id r₀ = w.apply clock r₀ := if_pos rfl
    rw [happ] at hg ⊢
    rw [RunWrite.apply_fault, Option.map_eq_some_iff] at hg
    obtain ⟨g₀, hg₀, rfl⟩ := hg
    exact (hlooked r₀ k g₀ (h.looked r₀ k g₀ hr₀ hg₀)).imp_left fun h =>
      h.mono hboot hsince hnow fun h => h

/-- A region that settles the next fault: it is gone, or recorded as needing recovery. -/
theorem handled (h : Recovering rest id ((fid, f) :: list) s) (hne : ∀ e ∈ list, fid ≠ e.1)
    {w : RunWrite} {clock : Clock} {value : FaultState} (hset : w.setsFault = some (fid, value))
    (hstate : ∀ r, value = .removed ∧ (w.apply clock r).state = r.state ∨
      value = .recoveryRequired ∧ (w.apply clock r).state = .reconciling)
    (hmem : t.mem = (Write.run id w).apply clock s.mem) (hboot : t.clock.boot = s.clock.boot)
    (hsince : t.restartedAt = s.restartedAt) (hnow : s.clock.now ≤ t.clock.now) :
    Recovering rest id list t := by
  have hother : ∀ (k : FaultId) (g : Fault), fid ≠ k → w.onFault k g = g := by
    intro k g hk
    simp [RunWrite.onFault, hset, hk]
  refine h.write (fun r => (hstate r).imp And.right And.right) (fun e he => ?_)
    (fun r k g hg => ?_) hmem hboot hsince hnow
  · exact ⟨List.mem_cons_of_mem _ he, hother e.1 e.2 (hne e he)⟩
  · by_cases hk : fid = k
    · left
      have hg : w.onFault k g = { g with state := value } := by
        simp [RunWrite.onFault, hset, hk]
      rw [hg]
      intro hlive
      rcases hstate r with ⟨rfl, -⟩ | ⟨rfl, hs⟩
      · simp [FaultState.live] at hlive
      · exact .inr ⟨rfl, hs⟩
    · rw [hother k g hk]
      rcases hg with hs | hmem
      · refine .inl (hs.mono rfl rfl le_rfl fun h => ?_)
        rcases hstate r with ⟨-, hs⟩ | ⟨-, hs⟩
        · exact hs.trans h
        · exact hs
      · rcases List.mem_cons.1 hmem with heq | hmem
        · exact absurd (Prod.mk.inj heq).1.symm hk
        · exact .inr hmem

end Recovering

/-- `m5_fault_failure` inside the constructor. -/
theorem recoverFailure_wp {rest : List RunId} {id : RunId} {list : List (FaultId × Fault)}
    {fid : FaultId} {f : Fault} (error : String) (hb : Booting s) (hinv : Inv s)
    (h : Recovering rest id ((fid, f) :: list) s) (hne : ∀ e ∈ list, fid ≠ e.1)
    (hlive : f.state.live = true) :
    alone.wp (m5FaultFailure id fid error) (fun _ t => Booting t ∧ Recovering rest id list t)
      (fun _ _ => True) s := by
  obtain ⟨_, hr, hdestroyed, hf⟩ := h.listed (fid, f) (List.mem_cons_self ..)
  refine hb.commit (fun _ => rfl) ?_ fun n hb hu => ?_
  · intro r' hr'
    cases hr.symm.trans hr'
    refine ⟨hdestroyed, fun j x hx hrun => ?_, f, hf, .inr hb.quiet, hinv.mem.sole hr hf hlive⟩
    exact absurd hrun (hb.loop.unowned hx)
  have hrec : Recovering rest id list ((s.tick n).commit (.run id (.faultFailure fid error)) none).2 :=
    h.handled hne rfl (fun _ => .inr ⟨rfl, rfl⟩) rfl rfl rfl (Nat.le_add_right _ _)
  have hrun := Write.apply_run_some (i := id) hr (.faultFailure fid error) (s.tick n).clock
  simp only [hrun]
  refine wp_bind (wp_mono (Q := fun _ t => Booting t ∧ Recovering rest id list t) ?_
    (fun _ _ _ h => h) ?_)
  · rintro failure t - ⟨hb, hrec⟩
    rw [← Prog.bind_ret (Act.commit' _)]
    refine hb.commit' (fun _ => rfl) ?_ fun m hb hu => wp_ret alone_stable ⟨hb, ?_⟩
    · exact fun _ _ => trivial
    · exact hrec.write (w := .faultQuiescence fid failure) (fun _ => .inl rfl)
        (fun e he => ⟨he, rfl⟩) (fun _ _ _ h => h) rfl rfl rfl (Nat.le_add_right _ _)
  · refine wp_handle (wp_bind (hb.call (by rfl) (fun out _ hb _ => ?_) fun out e hb _ => ?_))
    · refine wp_ret stable_wp (wp_ret alone_stable ⟨hb, ?_⟩)
      exact hrec.same rfl rfl rfl (Nat.le_add_right _ _)
    · refine wp_ret alone_stable ⟨hb, ?_⟩
      exact hrec.same rfl rfl rfl (Nat.le_add_right _ _)

/-- Removal of a live fault that is not known to be active and unexpired. -/
theorem recoverFault_wp {rest : List RunId} {id : RunId} {list : List (FaultId × Fault)}
    {fid : FaultId} {f : Fault} (hb : Booting s) (hinv : Inv s)
    (h : Recovering rest id ((fid, f) :: list) s) (hne : ∀ e ∈ list, fid ≠ e.1)
    (hlive : f.state.live = true) :
    alone.wp (recoverFault id fid f) (fun _ t => Booting t ∧ Recovering rest id list t)
      (fun _ _ => True) s := by
  refine alone_readRun (fun n run hrun _ => ?_) fun _ => trivial
  obtain ⟨r, hr, -, hf⟩ := h.listed (fid, f) (List.mem_cons_self ..)
  cases hrun.symm.trans hr
  have hid : run.id = id := hinv.mem.run_id hr
  have hfid : f.id = fid := hinv.mem.fault_id hr hf
  refine wp_handle (wp_bind ((hb.tick n).call (by rfl) (fun out herror hb hu => ?_)
    fun out e hb hu => ?_))
  · refine wp_ret stable_wp (alone_update ?_ rfl fun m => ⟨?_, ?_⟩)
    · refine fun _ _ => ⟨?_, hb.quiet⟩
      simp [perform, Shared.call, Call.effect, herror, hid, hfid]
    · exact hb.updated (fun _ _ => rfl) m
    · refine ((h.tick n).same ?_ ?_ ?_ ?_).handled hne (w := .faultRecovered fid) rfl
        (fun _ => .inl ⟨rfl, rfl⟩) rfl rfl rfl (Nat.le_add_right _ _)
      exacts [rfl, rfl, rfl, Nat.le_add_right _ _]
  · exact recoverFailure_wp e.code hb hu ((h.tick n).same rfl rfl rfl (Nat.le_add_right _ _)) hne
      hlive

/-- Recovery of the faults of one run. -/
theorem recoverFaults_wp {rest : List RunId} {id : RunId} (list : List (FaultId × Fault))
    (hnodup : list.Pairwise fun a b => a.1 ≠ b.1) (hb : Booting s)
    (h : Recovering rest id list s) :
    alone.wp (recoverFaults id list) (fun _ t => Booting t ∧ Recovering rest id [] t)
      (fun _ _ => True) s := by
  induction list generalizing s with
  | nil => exact wp_ret alone_stable ⟨hb, h⟩
  | cons e list ih =>
    obtain ⟨_, f⟩ := e
    obtain ⟨hne, hlist⟩ := List.pairwise_cons.1 hnodup
    refine wp_bind (wp_mono (Q := fun _ t => Booting t ∧ Recovering rest id list t) ?_
      (fun _ _ _ h => h) ?_)
    · exact fun _ t _ ⟨hb, h⟩ => ih hlist hb h
    cases hlive : f.state.live with
    | false =>
      refine wp_ret alone_stable ⟨hb, h.skip fun r hl => ?_⟩
      simp [hlive] at hl
    | true =>
      refine alone_clock fun n hinv => ?_
      have h := h.tick n
      have hb := hb.tick n
      rw [← Prog.bind_ret (Act.when _ _)]
      refine wp_when (fun _ => ?_) fun hc => ?_
      · rw [Prog.bind_ret]
        exact recoverFault_wp hb hinv h hne hlive
      · refine wp_ret alone_stable ⟨hb, h.skip fun r _ => .inl ?_⟩
        simp only [Bool.or_eq_false_iff, bne_eq_false_iff_eq, decide_eq_false_iff_not,
          not_le] at hc
        exact ⟨hc.1.2, hc.1.1, _, hb.since, le_rfl, hc.2⟩

/-- Faults of the runs outside `ids` are settled. -/
def Recovered (ids : List RunId) (s : Shared) : Prop :=
  ∀ (id : RunId) (r : Run), id ∉ ids → s.mem.runs[id]? = some r → r.state ≠ .destroyed →
    ∀ (fid : FaultId) (f : Fault), r.faults[fid]? = some f → Settled s r f

theorem Recovered.same {ids : List RunId} (h : Recovered ids s) (hmem : t.mem = s.mem)
    (hboot : t.clock.boot = s.clock.boot) (hsince : t.restartedAt = s.restartedAt)
    (hnow : s.clock.now ≤ t.clock.now) : Recovered ids t :=
  fun id r hid hr hstate fid f hf =>
    (h id r hid (hmem ▸ hr) hstate fid f hf).mono hboot hsince hnow fun h => h

theorem Recovered.recovering {rest : List RunId} {id : RunId} {r : Run}
    (h : Recovered (id :: rest) s) (hr : s.mem.runs[id]? = some r) (hne : r.state ≠ .destroyed) :
    Recovering rest id r.faults.toList s where
  others i x hi hne hx := h i x (by simp [hi, hne]) hx
  listed e he := ⟨r, hr, hne, TreeMap.mem_toList_iff_getElem?_eq_some.1 he⟩
  looked x fid f hx hf := by
    cases hr.symm.trans hx
    exact .inr (TreeMap.mem_toList_iff_getElem?_eq_some.2 hf)

theorem Recovering.recovered {rest : List RunId} {id : RunId} (h : Recovering rest id [] s) :
    Recovered rest s := by
  intro i r hi hr hstate fid f hf
  by_cases hid : i = id
  · subst hid
    simpa using h.looked r fid f hr hf
  · exact h.others i r hi hid hr hstate fid f hf

/-- Recovery of the runs `ids`. -/
theorem recoverRuns_wp (ids : List RunId) (hb : Booting s) (h : Recovered ids s) :
    alone.wp (recoverRuns ids) (fun _ t => Booting t ∧ Recovered [] t) (fun _ _ => True) s := by
  induction ids generalizing s with
  | nil => exact wp_ret alone_stable ⟨hb, h⟩
  | cons id rest ih =>
    refine alone_readRun (fun n run hrun hinv => ?_) fun _ => trivial
    have h := h.same (t := s.tick n) rfl rfl rfl (Nat.le_add_right _ _)
    have hb := hb.tick n
    refine wp_when_join (P := fun t => Booting t ∧ Recovered rest t) hinv (fun hc => ?_)
      (fun hc => ⟨hb, fun i r hi hr hne => ?_⟩) fun t ⟨hb, h⟩ _ => ih hb h
    · have hne : run.state ≠ .destroyed := by simpa using hc
      refine wp_mono (fun _ t _ h => ⟨h.1, h.2.recovered⟩) (fun _ _ _ h => h)
        (recoverFaults_wp _ ?_ hb (h.recovering hrun hne))
      exact (TreeMap.distinct_keys_toList (t := run.faults)).imp fun h => by
        simpa [Std.LawfulEqCmp.compare_eq_iff_eq] using h
    · refine h i r (fun hmem => ?_) hr hne
      rcases List.mem_cons.1 hmem with rfl | hmem
      · cases hrun.symm.trans hr
        simp [hne] at hc
      · exact hi hmem

/-- `m5_recover`. -/
theorem m5Recover_wp (hb : Booting s) :
    alone.wp m5Recover (fun _ t => Booting t ∧ Recovered [] t) (fun _ _ => True) s := by
  refine alone_read fun n _ => ?_
  refine wp_bind (wp_mono (fun _ t _ h => ?_) (fun _ _ _ h => h)
    (recoverRuns_wp s.mem.runs.keys (hb.tick n) fun id r hid hr => ?_))
  · obtain ⟨hb, h⟩ := h
    rw [← Prog.bind_ret (Act.commit' _)]
    refine hb.commit' (fun _ => rfl) (by trivial) fun m hb hu => wp_ret alone_stable ⟨hb, ?_⟩
    exact h.same rfl rfl rfl (Nat.le_add_right _ _)
  · have hr : s.mem.runs[id]? = some r := hr
    exact absurd (TreeMap.mem_keys.2 (TreeMap.mem_iff_isSome_getElem?.2 (by simp [hr]))) hid

/-! ## The constructor -/

/-- Right after the constructor. -/
structure Ready (s : Shared) : Prop where
  booting : Booting s
  recovered : Recovered [] s

/-- The first region ends every job. -/
theorem Booting.interrupted (b : Boot) (s : Shared) (n : ℕ) :
    Booting (((reboot b s).tick n).commit .interrupted none).2 := by
  refine ⟨?_, fun _ => rfl, fun _ old hold => ⟨old, hold, rfl⟩, Nat.le_add_right _ _⟩
  refine (State.hasPending_eq_false_iff _).2 fun j x hx => ?_
  have hx : (Write.apply ((reboot b s).tick n).clock s.journal .interrupted).jobs[j]? = some x := hx
  rw [Write.apply_job, Option.map_eq_some_iff] at hx
  obtain ⟨_, -, rfl⟩ := hx
  dsimp only [Write.onJob, Write.interruptJob]
  split
  · rfl
  · next hp => simpa using hp

/-- The constructor. -/
theorem construct_wp (b : Boot) (s : Shared) :
    alone.wp construct (fun _ => Ready) (fun _ _ => True) (reboot b s) := by
  refine wp_bind (wp_commit (P := (· = reboot b s)) (fun _ => rfl) alone_stable rfl ?_
    (fun _ => alone_stable) ?_ fun _ _ _ _ _ _ => trivial)
  · rintro _ rfl -
    exact ⟨trivial, fun id hid => by simp [reboot, arming] at hid,
      .inl fun id old hold => ⟨old, hold, rfl⟩⟩
  · rintro _ n₀ rfl - -
    refine wp_ret stable_wp (alone_read fun n _ => ?_)
    have hb := (Booting.interrupted b s n₀).tick n
    refine wp_bind (wp_mono (fun _ t _ hb => ?_) (fun _ _ _ h => h) (adoptRuns_wp _ hb))
    exact wp_mono (fun _ t _ h => ⟨h.1, h.2⟩) (fun _ _ _ h => h) (m5Recover_wp hb)

end Graphlab.Runtime
