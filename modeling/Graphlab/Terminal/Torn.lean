import Graphlab.Terminal.Replay

/-!
# Recordings after failed writes

A write that fails may leave a part of a record in the file, while the recording counts as if
nothing had been written.  A part at the end of the file does no harm: `replay` stops there.  If
the caller goes on and the next call writes after it, `replay` takes the two for one record.

## Main results

* `replay_after_failures` — while no call writes to a file that is longer than the recording
  counts, the file replays as the records of the calls that returned.
* `replay_torn` — otherwise `replay` may refuse the file.
-/

namespace Graphlab.Terminal

open Lib

namespace Recording

/-- Calls of `append` whose caller goes on after an exception: the recording that is left, and
the calls that returned. -/
def attempt : Recording → List Append → Recording × List Append
  | r, [] => (r, [])
  | r, a :: calls =>
    match r.append a with
    | (.ok _, r') => ((r'.attempt calls).1, a :: (r'.attempt calls).2)
    | (.error _, r') => r'.attempt calls

/-- The file is as long as the recording counts. -/
def Intact (r : Recording) : Prop := r.file.length = r.size

/-- A call that writes finds the file intact. -/
def Permits (r : Recording) (a : Append) : Prop := (r.append a).2.file = r.file ∨ r.Intact

def PermitsAll : Recording → List Append → Prop
  | _, [] => True
  | r, a :: calls => r.Permits a ∧ (r.append a).2.PermitsAll calls

/-! ## One call -/

variable {r : Recording} {calls : List Append}

/-- What `all` leaves when it throws: a part that is shorter. -/
theorem all_false {b part : Bytes} {writes : List Wrote}
    (h : r.all b writes = (part, false)) : part <+: b ∧ part.length < b.length := by
  set room := b.take (largestOffset - r.file.length) with hroom
  have hshort : room <+: b := List.take_prefix _ b
  have hpart : (writeAll writes room).1 = part := congrArg Prod.fst h
  have hfailed : ((writeAll writes room).2 && room.length == b.length) = false :=
    congrArg Prod.snd h
  rcases writeAll_cases writes room with hall | ⟨part', hpart', hlt, hall⟩
  · rw [hall] at hpart hfailed
    rw [Bool.true_and, beq_eq_false_iff_ne] at hfailed
    rw [← hpart]
    exact ⟨hshort, lt_of_le_of_ne hshort.length_le hfailed⟩
  · rw [hall] at hpart
    rw [← hpart]
    exact ⟨hpart'.trans hshort, hlt.trans_le hshort.length_le⟩

/-- What a call of `append` that throws did. -/
theorem append_error {r' : Recording} {a : Append} {e : String} (h : r.append a = (.error e, r')) :
    r' = r ∨ ∃ part, part <+: (r.next a).frame ∧ part.length < (r.next a).frame.length ∧
      1 ≤ a.type ∧ a.type ≤ 5 ∧ a.bytes.length ≤ 65536 ∧
      r' = { r with file := r.file ++ part } := by
  unfold append at h
  split at h
  · cases h
    exact .inl rfl
  rename_i hvalid
  split at h
  · cases h
    exact .inl rfl
  rcases hall : r.all (r.next a).frame a.writes with ⟨part, taken⟩
  simp only [hall] at h
  cases taken with
  | true => cases h
  | false =>
    simp only [Bool.or_eq_true, decide_eq_true_eq, not_or] at hvalid
    obtain ⟨hpart, hlt⟩ := all_false hall
    cases h
    exact .inr ⟨part, hpart, hlt, by omega, by omega, by omega, rfl⟩

/-! ## The records of the calls that returned -/

/-- The file has the records of the calls that returned and perhaps a part of one more. -/
structure Kept (r : Recording) (calls : List Append) : Prop where
  whole : Appended { r with file := magic ++ frames (recorded calls) } calls
  file : ∃ tail, r.file = magic ++ (frames (recorded calls) ++ tail) ∧ Cut calls.length tail

theorem Appended.kept (h : r.Appended calls) : r.Kept calls := by
  refine ⟨?_, [], by rw [List.append_nil]; exact h.file, .inl rfl⟩
  rw [← h.file]
  exact h

/-- A file that is intact has no part of a record. -/
theorem Kept.appended (h : r.Kept calls) (hintact : r.Intact) : r.Appended calls := by
  obtain ⟨tail, hfile, -⟩ := h.file
  have hsize : r.size = (magic ++ frames (recorded calls)).length := h.whole.size
  have htail : tail = [] := by
    rw [Intact, hfile, hsize] at hintact
    simp only [List.length_append] at hintact
    exact List.length_eq_zero_iff.mp (by omega)
  have hwhole := h.whole
  rw [htail, List.append_nil] at hfile
  rwa [← hfile] at hwhole

/-- One call that is permitted. -/
theorem Kept.append (h : r.Kept calls) {a : Append} (hpermits : r.Permits a) :
    (r.append a).2.Kept (if (r.append a).1 = .ok () then calls ++ [a] else calls) := by
  rcases happend : r.append a with ⟨result, r'⟩
  rw [Permits, happend] at hpermits
  cases result with
  | ok =>
    rw [if_pos rfl]
    have hintact : r.Intact := by
      refine hpermits.resolve_left fun hsame => ?_
      obtain ⟨-, -, -, -, hr'⟩ := append_ok happend
      have hlength := congrArg List.length hsame
      rw [hr'] at hlength
      simp at hlength
    exact ((h.appended hintact).append happend).kept
  | error =>
    rw [if_neg (by simp)]
    rcases append_error happend with rfl | ⟨part, hpart, hlt, hpos, hle, hbytes, rfl⟩
    · exact h
    by_cases hnil : part = []
    · subst hnil
      simpa using h
    · have hintact : r.Intact := by
        refine hpermits.resolve_left fun hsame => hnil ?_
        exact List.append_right_eq_self.mp hsame
      have happended := h.appended hintact
      refine ⟨h.whole, part, ?_, .inr ⟨r.next a, happended.valid_next hpos hle hbytes, ?_, hpart, hlt⟩⟩
      · rw [happended.file, List.append_assoc]
      · exact happended.sequence

theorem Kept.attempt {before : List Append} (h : r.Kept before) (hpermits : r.PermitsAll calls) :
    (r.attempt calls).1.Kept (before ++ (r.attempt calls).2) := by
  induction calls generalizing r before with
  | nil => simpa [Recording.attempt] using h
  | cons a calls ih =>
    have hstep := h.append hpermits.1
    have hrest := hpermits.2
    rw [Recording.attempt]
    rcases happend : r.append a with ⟨result, r'⟩
    rw [happend] at hstep hrest
    cases result with
    | ok =>
      rw [if_pos rfl] at hstep
      have hkept := ih hstep hrest
      rwa [List.append_assoc, List.singleton_append] at hkept
    | error =>
      rw [if_neg (by simp)] at hstep
      exact ih hstep hrest

theorem Kept.replays (h : r.Kept calls) :
    Replays r.file (recorded calls) (r.size < r.file.length) := by
  obtain ⟨tail, hfile, _⟩ := h.file
  have hsize : r.size = (magic ++ frames (recorded calls)).length := h.whole.size
  have hlength : (recorded calls).length = calls.length := by simp [recorded]
  have htorn : r.size < r.file.length ↔ tail ≠ [] := by
    rw [hfile, hsize, ← List.length_pos_iff]
    simp only [List.length_append]
    omega
  rw [htorn, hfile]
  exact Replays.of_frames h.whole.numbered (by rwa [hlength])

end Recording

/-- **Recordings after failed writes.**  For any calls of `append` whose caller goes on after
exceptions, if no call writes to a file that a failed write has left longer than the recording
counts: the file replays as the records of the calls that returned, and a page says that the
tail is partial exactly when it comes to what a failed write has left. -/
theorem replay_after_failures {budget : ℕ} {opened synced : Bool} {writes : List Wrote}
    {r₀ : Recording} (hcreate : Recording.create budget opened writes synced = .ok r₀)
    (calls : List Append) (hpermits : r₀.PermitsAll calls) :
    Replays (r₀.attempt calls).1.file (recorded (r₀.attempt calls).2)
      ((r₀.attempt calls).1.size < (r₀.attempt calls).1.file.length) :=
  ((Recording.appended_create hcreate).kept.attempt hpermits).replays

namespace Sample

/-- A record that is cut after ten bytes. -/
def failing : Append where
  type := 1
  bytes := [0x68, 0x69]
  writes := [.bytes 9, .failed]

end Sample

theorem replay_after_failures_last :
    Recording.create 1000 true [] true = .ok { budget := 1000 } ∧
    Replays (Recording.attempt { budget := 1000 } (Sample.calls ++ [Sample.failing])).1.file
      (recorded (Recording.attempt { budget := 1000 } (Sample.calls ++ [Sample.failing])).2)
      ((Recording.attempt { budget := 1000 } (Sample.calls ++ [Sample.failing])).1.size <
        (Recording.attempt { budget := 1000 } (Sample.calls ++ [Sample.failing])).1.file.length) := by
  have hcreate : Recording.create 1000 true [] true = .ok { budget := 1000 } := rfl
  refine ⟨hcreate, replay_after_failures hcreate _ ?_⟩
  exact ⟨.inr rfl, .inr rfl, .inr rfl, .inr rfl, trivial⟩

/-- The call after the one that failed returns, and `replay` refuses the file. -/
theorem replay_torn :
    Recording.create 1000 true [] true = .ok { budget := 1000 } ∧
    (Recording.attempt { budget := 1000 } [Sample.failing, { type := 1, bytes := [0x21] }]).2 =
      [{ type := 1, bytes := [0x21] }] ∧
    replay (some (Recording.attempt { budget := 1000 }
      [Sample.failing, { type := 1, bytes := [0x21] }]).1.file) 0 = .error "invalid_recording" := by
  decide +kernel

end Graphlab.Terminal
