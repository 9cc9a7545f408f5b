import Graphlab.Node.Loop

/-!
# Commands that fail

A command whose response has an error should have left the gate as it was, but for a lease that
has run out.  `release` sets the gate before it opens the listener of the streams: if that fails,
the response has an error and the gate is released.

## Main results

* `failed_release_released` — a held gate that a failed `release` has released.
* `error_keeps_gate` — in all other cases an error leaves the gate as it was.
-/

namespace Graphlab.Node

open Lib

/-- Whether the gate is released, and whether with a lease. -/
def Gate.mode (g : Gate) : Bool × Bool := (g.released, g.leased)

/-- The gate at the end of a command that does nothing. -/
def Gate.untouched (g : Gate) (e : Environment) : Gate := (g.expire e.now).expire e.done

/-- A release has to open the listener, and cannot. -/
structure ListenerFails (c : Config) (g : Gate) (e : Environment) : Prop where
  edge : c.edgeTelemetry = true
  closed : (g.expire e.now).tcp = false
  fails : e.address.isOk = false ∨ e.listen = false

/-- The mode that a release leaves, unless its lease has run out by the end. -/
def releasedMode (leased : Bool) (e : Environment) : Bool × Bool :=
  if leased && decide (e.armed + lease ≤ e.done) then (false, false) else (true, leased)

/-- The text of a release. -/
def releaseText (leased : Bool) : String := if leased then "release-lease" else "release"

/-- The command is a release that fails, and it changes the mode of the gate. -/
structure Slips (c : Config) (g : Gate) (r : Request) (leased : Bool) : Prop where
  release : r.command = releaseText leased
  listener : ListenerFails c g r.environment
  changes : releasedMode leased r.environment ≠ (g.untouched r.environment).mode

section Release

variable {c : Config} {g : Gate} {e : Environment} {leased : Bool}

@[simp] theorem openData_tcp : (g.openData e).tcp = g.tcp := by
  rw [Gate.openData]
  split <;> rfl

/-- Opening sockets changes neither the mode nor the deadline. -/
theorem expire_mode_congr {g' : Gate} {now : ℕ} (hmode : g'.mode = g.mode)
    (hdeadline : g'.deadline = g.deadline) : (g'.expire now).mode = (g.expire now).mode := by
  obtain ⟨_, hleased⟩ := Prod.mk.inj hmode
  rw [Gate.expire, Gate.expire, hleased, hdeadline]
  split
  · rfl
  · exact hmode

theorem openData_mode : (g.openData e).mode = g.mode ∧ (g.openData e).deadline = g.deadline := by
  rw [Gate.openData]
  split <;> exact ⟨rfl, rfl⟩

theorem openListener_mode :
    (g.openListener c e).1.mode = g.mode ∧ (g.openListener c e).1.deadline = g.deadline := by
  unfold Gate.openListener
  split
  · split
    · exact ⟨rfl, rfl⟩
    · split <;> exact ⟨rfl, rfl⟩
  · exact ⟨rfl, rfl⟩

theorem release_mode : ((release c g leased e).1.expire e.done).mode = releasedMode leased e := by
  rw [release, expire_mode_congr (openListener_mode.1.trans openData_mode.1)
    (openListener_mode.2.trans openData_mode.2), Gate.expire, releasedMode]
  split <;> rfl

theorem openListener_isOk :
    (g.openListener c e).2.isOk = false ↔
      c.edgeTelemetry = true ∧ g.tcp = false ∧ (e.address.isOk = false ∨ e.listen = false) := by
  unfold Gate.openListener
  split
  · rename_i hopen
    rw [Bool.and_eq_true, Bool.not_eq_true'] at hopen
    simp only [hopen, true_and]
    cases haddress : e.address with
    | error => simp [Except.isOk, Except.toBool]
    | ok =>
      cases hlisten : e.listen with
      | false => simp [Except.isOk, Except.toBool]
      | true => simp [Except.isOk, Except.toBool]
  · rename_i hopen
    rw [Bool.and_eq_true, Bool.not_eq_true'] at hopen
    simp only [Except.isOk, Except.toBool, Bool.true_eq_false, false_iff]
    exact fun h => hopen ⟨h.1, h.2.1⟩

/-- A release fails with its listener. -/
theorem release_isOk :
    (release c (g.expire e.now) leased e).2.isOk = false ↔ ListenerFails c g e := by
  rw [release, openListener_isOk, openData_tcp]
  exact ⟨fun ⟨hedge, hclosed, hfails⟩ => ⟨hedge, hclosed, hfails⟩,
    fun h => ⟨h.edge, h.closed, h.fails⟩⟩

end Release

section Errors

variable {c : Config} {g : Gate} {e : Environment} {command : String}

/-- A command that is not a release leaves the gate alone or returns. -/
theorem control_cases (c : Config) (g : Gate) (command : String) (e : Environment) :
    (∃ leased, command = releaseText leased ∧
      control c g command e = release c (g.expire e.now) leased e) ∨
    (control c g command e).1 = g.expire e.now ∨ (control c g command e).2.isOk = true := by
  unfold control
  dsimp only
  split
  · split <;> exact .inr (.inl rfl)
  split
  · split
    · exact .inr (.inl rfl)
    · exact .inr (.inr rfl)
  split
  · next h =>
      rcases h with rfl | rfl
      · exact .inl ⟨false, rfl, rfl⟩
      · exact .inl ⟨true, rfl, rfl⟩
  split
  · exact .inr (.inr rfl)
  split
  · split <;> exact .inr (.inl rfl)
  split
  · exact .inr (.inl rfl)
  split <;> exact .inr (.inl rfl)

theorem control_release (leased : Bool) :
    control c g (releaseText leased) e = release c (g.expire e.now) leased e := by
  cases leased <;> rfl

theorem error_iff (n : State) (c : Config) (epoch : String) (r : Request) (answer : Answer) :
    (n.response c epoch r answer).error ≠ none ↔ answer.isOk = false := by
  cases answer <;> simp [State.response, Except.isOk, Except.toBool]

/-- **Commands that fail.**  If the response to a command has an error, then the gate is as it was
before, but for a lease that has run out — if and only if the command is not a release that cannot
open its listener and changes the mode of the gate all the same. -/
theorem error_keeps_gate (c : Config) (epoch : String) (n : State) (r : Request) :
    (((n.command c r).response c epoch r (control c n.gate r.command r.environment).2).error ≠ none →
      (n.command c r).gate.mode = (n.gate.untouched r.environment).mode) ↔
    ∀ leased, ¬Slips c n.gate r leased := by
  rw [error_iff]
  constructor
  · rintro h leased ⟨hrelease, hlistener, hchanges⟩
    rw [State.command, hrelease, control_release, release_isOk, release_mode] at h
    exact hchanges (h hlistener)
  · intro h herror
    rcases control_cases c n.gate r.command r.environment with
      ⟨leased, hrelease, heq⟩ | hsame | hok
    · rw [heq, release_isOk] at herror
      rw [State.command, heq, release_mode]
      by_contra hchanges
      exact h leased ⟨hrelease, herror, hchanges⟩
    · rw [State.command, hsame]
      rfl
    · rw [hok] at herror
      cases herror

/-- A node without an address is released, and says that it is not. -/
theorem failed_release_released :
    ∃ n response, run { application := "app", applicationTelemetry := true, edgeTelemetry := true }
      "0123456789abcdef0123456789abcdef" {}
      [⟨1, some { polled := 2, request := some ⟨"release",
        { now := 3, data := false, address := .error "data0_has_no_address" }⟩ }⟩] =
      (n, [response]) ∧
      response.error = some "data0_has_no_address" ∧ response.state = "released" ∧
      n.gate.mode = (true, false) :=
  ⟨_, _, rfl, rfl, rfl, rfl⟩

end Errors

end Graphlab.Node
