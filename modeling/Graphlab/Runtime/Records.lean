import Graphlab.Runtime.Plain

/-!
# The records of source commands

What can happen to `state_["sourceCommands"]`, in memory and in the journal.  A request
takes in a record or none; a region finishes a record, marks those that wait at a
restart, or leaves all alone; nothing else touches them.

## Main definitions

* `State.Waits`, `Orderly` — the records that wait are few, and for different sources.
* `NewCommand`, `Quiet` — what a request does; `arrive_command`.
* `Rewrites`, `Performs` — what an operation does; `perform_performs`.
-/

namespace Graphlab.Runtime

open Std (TreeMap)
open Lib

/-! ## The records of a document -/

/-- The record waits for the worker. -/
def State.Waits (d : State) (key : String) (c : SourceCommand) : Prop :=
  d.sourceCommands[key]? = some c ∧ c.outcome = .requested

/-- The keys of the records that wait. -/
def State.waiting (d : State) : List String :=
  (d.sourceCommands.toList.filter fun e => e.2.outcome == .requested).map Prod.fst

variable {d : State} {key : String} {c : SourceCommand} {s : Shared}

theorem State.mem_waiting : key ∈ d.waiting ↔ ∃ c, d.Waits key c := by
  simp only [waiting, List.mem_map, List.mem_filter, beq_iff_eq, Prod.exists]
  constructor
  · rintro ⟨k, c, ⟨hmem, hc⟩, rfl⟩
    exact ⟨c, TreeMap.mem_toList_iff_getElem?_eq_some.1 hmem, hc⟩
  · rintro ⟨c, hc, hw⟩
    exact ⟨key, c, ⟨TreeMap.mem_toList_iff_getElem?_eq_some.2 hc, hw⟩, rfl⟩

theorem State.waiting_nodup (d : State) : d.waiting.Nodup := by
  have hkeys : d.sourceCommands.toList.Pairwise fun a b => a.1 ≠ b.1 :=
    (TreeMap.distinct_keys_toList (t := d.sourceCommands)).imp fun h => by
      simpa [Std.LawfulEqCmp.compare_eq_iff_eq] using h
  exact List.pairwise_map.2 (hkeys.filter _)

theorem pendingCommands_eq (d : State) : pendingCommands d = d.waiting.length := by
  simp [pendingCommands, State.waiting]

/-- Records that wait afterwards and waited before, one apart. -/
theorem pendingCommands_le {d' : State} (extra : List String)
    (h : ∀ key c, d'.Waits key c → key ∈ extra ∨ ∃ c', d.Waits key c') :
    pendingCommands d' ≤ extra.length + pendingCommands d := by
  rw [pendingCommands_eq, pendingCommands_eq, ← List.length_append]
  refine (List.Nodup.subperm d'.waiting_nodup fun key hkey => ?_).length_le
  obtain ⟨c, hc⟩ := State.mem_waiting.1 hkey
  rw [List.mem_append]
  exact (h key c hc).imp_right State.mem_waiting.2

/-- Two commands are for the same source of the same node. -/
def SourceRequest.Rivals (p q : SourceRequest) : Prop :=
  p.runId = q.runId ∧ p.node = q.node ∧ p.source = q.source

/-- A document whose records that wait are few and for different sources. -/
structure Orderly (d : State) : Prop where
  few : pendingCommands d ≤ 8
  apart : ∀ {k k' : String} {c c' : SourceCommand}, d.Waits k c → d.Waits k' c' →
    c.request.Rivals c'.request → k = k'
  named : ∀ {id : RunId} {r : Run}, d.runs[id]? = some r → r.id = id

/-- Records stop waiting, and runs keep their names. -/
theorem Orderly.of_waits {d' : State} (h : Orderly d) (hw : ∀ key c, d'.Waits key c → d.Waits key c)
    (hn : ∀ (id : RunId) (r' : Run), d'.runs[id]? = some r' →
      ∃ r, d.runs[id]? = some r ∧ r'.id = r.id) : Orderly d' where
  few := by
    have := pendingCommands_le [] fun key c hc => .inr ⟨c, hw key c hc⟩
    exact (this.trans_eq (Nat.zero_add _)).trans h.few
  apart hc hc' hrival := h.apart (hw _ _ hc) (hw _ _ hc') hrival
  named {id r'} hr' := by
    obtain ⟨_, hr, hid⟩ := hn id r' hr'
    exact hid.trans (h.named hr)

theorem Orderly.of_commands {d' : State} (h : Orderly d) (hc : d'.sourceCommands = d.sourceCommands)
    (hn : ∀ (id : RunId) (r : Run), d'.runs[id]? = some r → r.id = id) : Orderly d' where
  few := by
    rw [pendingCommands, hc]
    exact h.few
  apart {k k' c c'} hw hw' := by
    rw [State.Waits, hc] at hw hw'
    exact h.apart hw hw'
  named {id r} := hn id r

/-! ## What regions do to records -/

/-- What a region makes of a record. -/
def Write.onCommand (w : Write) (key : String) (c : SourceCommand) : SourceCommand :=
  match w with
  | .sourceDone k outcome error =>
    if k = key then { c with outcome, error := some error } else c
  | .interrupted => interruptCommand c
  | _ => c

attribute [local simp] Write.onCommand

theorem Write.apply_command (w : Write) (clock : Clock) (d : State) (key : String) :
    (w.apply clock d).sourceCommands[key]? = d.sourceCommands[key]?.map (w.onCommand key) := by
  have hsame : d.sourceCommands[key]? = d.sourceCommands[key]?.map fun c => c := by simp
  cases w with
  | run => exact hsame
  | finished => exact hsame
  | startCancelled => exact hsame
  | telemetryError => exact hsame
  | flush => exact hsame
  | failed => simp only [apply]; split <;> exact hsame
  | faultDone => simp only [apply]; split <;> exact hsame
  | faultBegin =>
    simp only [apply]
    split
    · unfold beginFault
      split
      · exact hsame
      · split
        · exact hsame
        · split <;> exact hsame
    · exact hsame
  | interrupted =>
    simp only [apply, TreeMap.getElem?_map]
    rfl
  | sourceDone k outcome error =>
    simp only [apply, TreeMap.getElem?_modify, Std.LawfulEqCmp.compare_eq_iff_eq]
    by_cases h : k = key
    · subst h; cases d.sourceCommands[k]? <;> simp
    · cases d.sourceCommands[key]? <;> simp [h]

/-- A region that does not finish a command. -/
def Write.plain : Write → Prop
  | .sourceDone _ _ _ => False
  | _ => True

theorem Write.plain_onCommand {w : Write} (h : w.plain) (key : String) (c : SourceCommand) :
    w.onCommand key c = c ∨ c.outcome = .requested ∧ (w.onCommand key c).outcome = .interrupted := by
  cases w with
  | interrupted =>
    by_cases hc : c.outcome = .requested
    · exact .inr ⟨hc, by simp [interruptCommand, hc]⟩
    · exact .inl (by simp [interruptCommand, hc])
  | sourceDone => exact h.elim
  | _ => exact .inl rfl

/-- No record waits when the constructor has marked those that did. -/
theorem Write.interrupted_onCommand (key : String) (c : SourceCommand) :
    (Write.interrupted.onCommand key c).outcome ≠ .requested := by
  by_cases hc : c.outcome = .requested
  · simp [interruptCommand, hc]
  · simp [interruptCommand, hc]

/-- A record that waits after a region waited before. -/
theorem Write.waits_apply {w : Write} {clock : Clock}
    (hw : ∀ k outcome error, w = .sourceDone k outcome error → outcome ≠ .requested)
    (h : (w.apply clock d).Waits key c) : d.Waits key c := by
  obtain ⟨hc, hwaits⟩ := h
  rw [apply_command, Option.map_eq_some_iff] at hc
  obtain ⟨c₀, hc₀, rfl⟩ := hc
  cases w with
  | sourceDone k outcome error =>
    by_cases hk : k = key
    · simp only [onCommand, if_pos hk] at hwaits
      exact absurd hwaits (hw k outcome error rfl)
    · simp only [onCommand, if_neg hk] at hwaits ⊢
      exact ⟨hc₀, hwaits⟩
  | interrupted =>
    rcases plain_onCommand (w := .interrupted) trivial key c₀ with heq | ⟨-, hi⟩
    · rw [heq] at hwaits ⊢
      exact ⟨hc₀, hwaits⟩
    · rw [hi] at hwaits
      cases hwaits
  | _ => exact ⟨hc₀, hwaits⟩

/-- A record whose outcome was recorded does not wait. -/
theorem Write.ne_of_waits_sourceDone {clock : Clock} {k error : String} {outcome : SourceOutcome}
    (ho : outcome ≠ .requested)
    (h : ((Write.sourceDone key outcome error).apply clock d).Waits k c) : k ≠ key := by
  rintro rfl
  obtain ⟨hc, hwaits⟩ := h
  rw [apply_command, Option.map_eq_some_iff] at hc
  obtain ⟨_, -, rfl⟩ := hc
  simp only [onCommand, if_pos] at hwaits
  exact ho hwaits

theorem Write.run_named (w : Write) (clock : Clock) (d : State) (id : RunId) (r' : Run)
    (h : (w.apply clock d).runs[id]? = some r') :
    ∃ r, d.runs[id]? = some r ∧ r'.id = r.id := by
  obtain ⟨r, hr, he⟩ := Write.run_of_apply h
  exact ⟨r, hr, he.id_eq⟩

/-! ## What requests do to records -/

/-- The document takes in a new record. -/
structure NewCommand (d : State) (key : String) (c : SourceCommand) : Prop where
  waits : c.outcome = .requested
  fresh : d.sourceCommands[key]? = none
  alone : commandPending d c.request = false
  room : pendingCommands d < 8

theorem State.waits_insert {d' : State} {k : String} {x : SourceCommand}
    (hc : d'.sourceCommands = d.sourceCommands.insert key c) (h : d'.Waits k x) :
    k = key ∧ x = c ∨ d.Waits k x := by
  obtain ⟨hx, hwaits⟩ := h
  rw [hc] at hx
  simp only [TreeMap.getElem?_insert, Std.LawfulEqCmp.compare_eq_iff_eq] at hx
  split at hx
  · next hk => exact .inl ⟨hk.symm, (Option.some.inj hx).symm⟩
  · exact .inr ⟨hx, hwaits⟩

theorem NewCommand.not_rivals {k : String} {x : SourceCommand} (h : NewCommand d key c)
    (hx : d.Waits k x) : ¬ x.request.Rivals c.request := by
  rintro ⟨hrun, hnode, hsource⟩
  have := h.alone
  simp only [commandPending, List.any_eq_false, Prod.forall] at this
  exact this k x (TreeMap.mem_toList_iff_getElem?_eq_some.2 hx.1)
    (by simp [hx.2, hrun, hnode, hsource])

/-- A new record is one more, and for a source of its own. -/
theorem Orderly.insert {d' : State} (h : Orderly d) (hnew : NewCommand d key c)
    (hc : d'.sourceCommands = d.sourceCommands.insert key c)
    (hn : ∀ (id : RunId) (r : Run), d'.runs[id]? = some r → r.id = id) : Orderly d' where
  few := by
    have : pendingCommands d' ≤ [key].length + pendingCommands d :=
      pendingCommands_le [key] fun k x hx =>
        (State.waits_insert hc hx).imp (fun h => by simp [h.1]) fun h => ⟨x, h⟩
    have := hnew.room
    simp only [List.length_singleton] at *
    omega
  apart {k k' x x'} hx hx' hrival := by
    rcases State.waits_insert hc hx with ⟨rfl, rfl⟩ | hold <;>
      rcases State.waits_insert hc hx' with ⟨rfl, rfl⟩ | hold'
    · rfl
    · obtain ⟨hrun, hnode, hsource⟩ := hrival
      exact absurd ⟨hrun.symm, hnode.symm, hsource.symm⟩ (hnew.not_rivals hold')
    · exact absurd hrival (hnew.not_rivals hold)
    · exact h.apart hold hold' hrival
  named {id r} := hn id r

/-- A request leaves the records alone. -/
def Quiet (s t : Shared) : Prop :=
  t.mem.sourceCommands = s.mem.sourceCommands ∧
  (t.journal.sourceCommands = t.mem.sourceCommands ∨ t.journal = s.journal)

theorem Quiet.refl (s : Shared) : Quiet s s := ⟨rfl, .inr rfl⟩

theorem quiet_saveRequest {mem : State} (h : mem.sourceCommands = s.mem.sourceCommands)
    (error : Option String) : Quiet s (s.saveRequest mem error) := by
  cases error with
  | none => exact ⟨h, .inl rfl⟩
  | some => exact ⟨h, .inr rfl⟩

theorem quiet_enrol (s : Shared) (run : Run) (key hash : String) (job : Job)
    (error : Option String) : Quiet s (s.enrol (s.mem.enqueue run key hash job) job.id error) := by
  cases error with
  | none => exact ⟨rfl, .inl rfl⟩
  | some => exact ⟨rfl, .inr rfl⟩

theorem dispatchLifecycle_quiet (site : Site) (principal : ℕ) (l : Lifecycle) (draw : Draw)
    (s : Shared) : Quiet s (dispatchLifecycle site principal l draw s).2 := by
  unfold dispatchLifecycle
  cases h : admitLifecycle site principal l draw s.mem with
  | error => exact .refl s
  | ok a =>
    cases a with
    | inl => exact .refl s
    | inr a =>
      obtain ⟨_, _⟩ := a
      obtain ⟨-, -, -, -, _, run, _, -, rfl, rfl⟩ := admitLifecycle_inr.1 h
      exact quiet_enrol s run _ _ _ _

theorem dispatchFault_quiet (site : Site) (principal : ℕ) (r : FaultRequest) (draw : Draw)
    (s : Shared) : Quiet s (dispatchFault site principal r draw s).2 := by
  unfold dispatchFault
  cases h : admitFault site principal r draw s.clock s.mem with
  | error => exact .refl s
  | ok a =>
    cases a with
    | inl => exact .refl s
    | inr a =>
      obtain ⟨_, _⟩ := a
      obtain ⟨-, -, -, -, -, -, -, _, _, -, rfl, rfl⟩ := admitFault_inr.1 h
      exact quiet_enrol s _ _ _ _ _

theorem dispatchCancel_quiet (id : JobId) (draw : Draw) (s : Shared) :
    Quiet s (dispatchCancel id draw s).2 := by
  unfold dispatchCancel
  split
  · exact .refl s
  split
  · exact .refl s
  split
  · exact .refl s
  · refine quiet_saveRequest ?_ draw.saveError
    rfl

theorem dispatchTerminalOpen_quiet (p : OpenParams) (draw : Draw) (s : Shared) :
    Quiet s (dispatchTerminalOpen p draw s).2 := by
  unfold dispatchTerminalOpen
  split
  · exact .refl s
  split
  · exact .refl s
  split
  · exact .refl s
  split
  · exact .refl s
  split
  · exact .refl s
  · exact .refl s
  · cases draw.saveError with
    | some => exact ⟨rfl, .inr rfl⟩
    | none =>
      dsimp only [launchSession]
      cases draw.launchError with
      | none => exact ⟨rfl, .inl rfl⟩
      | some =>
        cases draw.stopError with
        | none => exact ⟨rfl, .inl rfl⟩
        | some => cases draw.resaveError <;> exact ⟨rfl, .inl rfl⟩

/-- A request for a source command leaves the records alone, or takes in one more. -/
theorem dispatchSource_command (site : Site) (principal : ℕ) (p : SourceRequest) (draw : Draw)
    (s : Shared) :
    Quiet s (dispatchSource site principal p draw s).2 ∨
    ∃ c error, c.request = p ∧ NewCommand s.mem (site.sourceKey principal p.requestId) c ∧
      (dispatchSource site principal p draw s).2 = s.saveRequest { s.mem with
        sourceCommands := s.mem.sourceCommands.insert (site.sourceKey principal p.requestId) c }
        error := by
  unfold dispatchSource
  split
  · exact .inl (.refl s)
  split
  · exact .inl (.refl s)
  next run hr =>
  dsimp only
  cases hc : s.mem.sourceCommands[site.sourceKey principal p.requestId]? with
  | some => dsimp only; split <;> exact .inl (.refl s)
  | none =>
    dsimp only
    cases ha : admitCommand p draw s.mem run with
    | error => exact .inl (.refl s)
    | ok =>
      obtain ⟨-, halone, hroom⟩ := admitCommand_ok ha
      exact .inr ⟨_, _, rfl, ⟨rfl, hc, halone, hroom⟩, rfl⟩

/-- An arrival leaves the records alone, or takes in one more. -/
theorem arrive_command (site : Site) (a : Arrival) (s : Shared) :
    Quiet s (arrive site a s) ∨
    ∃ principal p draw c error, a = .client principal (.sourceCommand p) draw ∧ c.request = p ∧
      NewCommand s.mem (site.sourceKey principal p.requestId) c ∧
      arrive site a s = s.saveRequest { s.mem with
        sourceCommands := s.mem.sourceCommands.insert (site.sourceKey principal p.requestId) c }
        error := by
  cases a with
  | shutdown => exact .inl ⟨rfl, .inr rfl⟩
  | client principal request draw =>
    unfold arrive
    dsimp only
    split
    · unfold dispatch
      split
      · exact .inl (.refl s)
      cases request with
      | start => exact .inl (dispatchLifecycle_quiet site principal _ draw s)
      | operate => exact .inl (dispatchLifecycle_quiet site principal _ draw s)
      | cancel id => exact .inl (dispatchCancel_quiet id draw s)
      | faultApply => exact .inl (dispatchFault_quiet site principal _ draw s)
      | faultRemove => exact .inl (dispatchFault_quiet site principal _ draw s)
      | terminalOpen p => exact .inl (dispatchTerminalOpen_quiet p draw s)
      | sourceCommand p =>
        refine (dispatchSource_command site principal p draw s).imp_right ?_
        rintro ⟨c, error, hreq, hnew, heq⟩
        exact ⟨principal, p, draw, c, error, rfl, hreq, hnew, heq⟩
    · exact .inl (.refl s)

/-- A record that is there stays. -/
theorem arrive_record (site : Site) (a : Arrival) (h : s.mem.sourceCommands[key]? = some c) :
    (arrive site a s).mem.sourceCommands[key]? = some c := by
  rcases arrive_command site a s with ⟨hc, -⟩ | ⟨principal, p, draw, c', error, -, -, hnew, heq⟩
  · rw [hc]
    exact h
  · have hne : site.sourceKey principal p.requestId ≠ key := by
      rintro rfl
      simp [hnew.fresh] at h
    rw [heq, Shared.saveRequest_mem]
    simp only [TreeMap.getElem?_insert, Std.LawfulEqCmp.compare_eq_iff_eq, if_neg hne, h]

/-- Both documents name their runs. -/
def Named (s : Shared) : Prop :=
  (∀ (id : RunId) (r : Run), s.mem.runs[id]? = some r → r.id = id) ∧
  (∀ (id : RunId) (r : Run), s.journal.runs[id]? = some r → r.id = id)

theorem Serve.named {t : Shared} (hst : Serve s t) (h : Named s) : Named t := by
  have hmem : ∀ (id : RunId) (r' : Run), t.mem.runs[id]? = some r' → r'.id = id := by
    intro id r' hr'
    rcases hst.run_of hr' with ⟨r, hr, _, _, _, _, _, rfl, -⟩ | ⟨-, -, _, _, _, _, _, rfl⟩
    · exact h.1 id r hr
    · rfl
  exact both_of_saved (P := fun d => ∀ (id : RunId) (r : Run), d.runs[id]? = some r → r.id = id)
    hmem h.2 hst.journal_eq

theorem arrive_named (site : Site) (a : Arrival) (h : Named s) : Named (arrive site a s) := by
  have hserved := arrive_serve site a s
  generalize arrive site a s = t at hserved
  induction hserved with
  | refl => exact h
  | tail _ hst ih => exact hst.named ih

/-- Nothing is taken in while the agent stops. -/
theorem arrive_stopping (site : Site) (a : Arrival) (h : s.stopping = true) :
    (arrive site a s).stopping = true ∧ (arrive site a s).mem = s.mem ∧
      (arrive site a s).journal = s.journal := by
  cases a with
  | shutdown => exact ⟨rfl, rfl, rfl⟩
  | client =>
    unfold arrive dispatch
    simp [h]

/-! ## What operations do to records -/

/-- What an operation makes of the document in memory. -/
inductive Rewrites (o : Op) (d : State) : State → Prop
  | still (d' : State) (hc : d'.sourceCommands = d.sourceCommands)
      (hn : ∀ (id : RunId) (r' : Run), d'.runs[id]? = some r' →
        ∃ r, d.runs[id]? = some r ∧ r'.id = r.id) : Rewrites o d d'
  | commit (w : Write) (clock : Clock) (ho : o = .commit w) : Rewrites o d (w.apply clock d)

theorem Rewrites.same (o : Op) (d : State) : Rewrites o d d := .still d rfl fun _ r hr => ⟨r, hr, rfl⟩

/-- A region about one run. -/
theorem Rewrites.run (o : Op) (d : State) (clock : Clock) (id : RunId) (w : RunWrite) :
    Rewrites o d ((Write.run id w).apply clock d) :=
  .still _ rfl fun i r' hr' => Write.run_named _ clock d i r' hr'

/-- What a region leaves in memory, whether it was saved or not. -/
theorem perform_commit_mem {w : Write} (hw : ∀ n, w.aborted n = none) (out : Outcome) (s : Shared) :
    (perform (.commit w) out s).2.mem = w.apply (s.tick out.elapsed).clock s.mem := by
  have hcut : (out.abort.bind fun n => w.aborted n) = none := by simp [hw]
  simp only [perform, performCommit, hcut]
  cases out.error <;> rfl

/-- What an operation makes of the agent. -/
structure Performs (o : Op) (s t : Shared) : Prop where
  mem : Rewrites o s.mem t.mem
  stopping : s.stopping = true → t.stopping = true
  /-- Memory is saved, or it may differ from the journal when a `save` failed, or
  nothing happened to the records. -/
  saved : t.journal = t.mem ∨ t.journal = s.journal ∧
    (t.stopping = true ∨ t.stopping = s.stopping ∧ t.mem.sourceCommands = s.mem.sourceCommands)

theorem Performs.same {o : Op} {t : Shared} (hmem : t.mem = s.mem) (hj : t.journal = s.journal)
    (hs : t.stopping = s.stopping) : Performs o s t :=
  ⟨hmem ▸ .same o s.mem, fun h => hs.trans h, .inr ⟨hj, .inr ⟨hs, by rw [hmem]⟩⟩⟩

theorem perform_performs {o : Op} (ho : ∀ w, o = .update w → w.unsaved = true) (out : Outcome)
    (s : Shared) : Performs o s (perform o out s).2 := by
  cases o with
  | read => exact .same rfl rfl rfl
  | cancelled => exact .same rfl rfl rfl
  | clock => exact .same rfl rfl rfl
  | call => exact .same rfl rfl rfl
  | update w =>
    have hw := ho w rfl
    cases w with
    | run id w => exact ⟨.run _ _ _ id w, fun h => h, .inr ⟨rfl, .inr ⟨rfl, rfl⟩⟩⟩
    | _ => simp [Write.unsaved] at hw
  | commit w =>
    simp only [perform, performCommit]
    split
    · next cut hcut =>
        obtain ⟨_, -, hcut⟩ := Option.bind_eq_some_iff.1 hcut
        obtain ⟨id, _, _, -, rfl⟩ := Write.aborted_some hcut
        exact ⟨.run _ _ _ id _, fun h => h, .inr ⟨rfl, .inr ⟨rfl, rfl⟩⟩⟩
    · cases out.error with
      | none => exact ⟨.commit w _ rfl, fun h => h, .inl rfl⟩
      | some => exact ⟨.commit w _ rfl, fun _ => rfl, .inr ⟨rfl, .inl rfl⟩⟩
  | take =>
    simp only [perform, performTake]
    split
    · exact .same rfl rfl rfl
    split
    · exact .same rfl rfl rfl
    next j hj =>
    have hjob : Rewrites .take s.mem (s.mem.modifyJob j fun j => { j with state := .running }) :=
      .still _ rfl fun _ r hr => ⟨r, hr, rfl⟩
    cases out.error with
    | none => exact ⟨hjob, fun h => h, .inl rfl⟩
    | some => exact ⟨hjob, fun _ => rfl, .inr ⟨rfl, .inl rfl⟩⟩

end Graphlab.Runtime
