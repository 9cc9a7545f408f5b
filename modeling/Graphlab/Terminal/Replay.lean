import Graphlab.Lib.Fallible
import Graphlab.Terminal.Recording
import Mathlib.Data.List.Chain

/-!
# Replay reads what was appended

The file of a recording is its header and the frames of its records (`Appended`); a file that
is cut has the frames of the records before the cut and a part of one more (`take_frames`).
On such a file `replay` shows the records from the start that is asked for, as many as a page
holds (`replayFrom_frames`), so that pages that follow each other show all of them.

## Main results

* `replay_recording` — every record once and in order, also of a file that is cut.
-/

namespace Graphlab.Terminal

open Lib

/-! ## Frames -/

/-- A record that `append` can write. -/
structure Record.Valid (r : Record) : Prop where
  type_pos : 1 ≤ r.type
  type_le : r.type ≤ 5
  bytes : r.bytes.length ≤ 65536
  sequence : r.sequence < 2 ^ 64
  monotonicNs : r.monotonicNs < 2 ^ 64
  offset : r.offset < 2 ^ 64

/-- Valid records, numbered from `e`. -/
def Numbered : ℕ → List Record → Prop
  | _, [] => True
  | e, r :: rs => r.Valid ∧ r.sequence = e ∧ Numbered (e + 1) rs

variable {e : ℕ} {rs ws : List Record} {tail : Bytes}

theorem Numbered.drop (h : Numbered e rs) (k : ℕ) : Numbered (e + min k rs.length) (rs.drop k) := by
  induction k generalizing e rs with
  | zero => simpa using h
  | succ k ih =>
    cases rs with
    | nil => trivial
    | cons r rs =>
      have hrest := ih h.2.2
      rwa [show e + 1 + min k rs.length = e + min (k + 1) (r :: rs).length by
        rw [List.length_cons]; omega] at hrest

def frames (rs : List Record) : Bytes := rs.flatMap Record.frame

@[simp] theorem frames_nil : frames [] = [] := rfl

@[simp] theorem frames_cons (r : Record) (rs : List Record) :
    frames (r :: rs) = r.frame ++ frames rs := rfl

@[simp] theorem frames_append (rs rs' : List Record) :
    frames (rs ++ rs') = frames rs ++ frames rs' := List.flatMap_append

@[simp] theorem Record.length_header (r : Record) : r.header.length = 32 := by
  simp [Record.header]

@[simp] theorem Record.length_frame (r : Record) : r.frame.length = 32 + r.bytes.length := by
  simp [Record.frame]

theorem get_of_read {b : Bytes} {i k n : ℕ} (h : Bytes.read k b i = some n) : get b i k = n := by
  unfold Bytes.read at h
  split at h
  · exact Option.some.inj h
  · cases h

namespace Record

variable {r : Record} (h : r.Valid) (rest : Bytes)
include h

theorem get_type : get (r.header ++ rest) 0 4 = r.type := by
  have hle := h.type_le
  apply get_of_read
  simp only [header, List.append_assoc]
  rw [Bytes.read_little, Nat.mod_eq_of_lt (by omega)]

theorem get_length : get (r.header ++ rest) 4 4 = r.bytes.length := by
  have hle := h.bytes
  apply get_of_read
  simp only [header, List.append_assoc]
  rw [Bytes.read_skip _ _ (by omega), Bytes.read_little, Nat.mod_eq_of_lt (by omega)]

theorem get_sequence : get (r.header ++ rest) 8 8 = r.sequence := by
  have hlt := h.sequence
  apply get_of_read
  simp only [header, List.append_assoc]
  rw [Bytes.read_skip _ _ (by omega), Bytes.read_skip _ _ (by omega), Bytes.read_little,
    Nat.mod_eq_of_lt (by omega)]

theorem get_monotonicNs : get (r.header ++ rest) 16 8 = r.monotonicNs := by
  have hlt := h.monotonicNs
  apply get_of_read
  simp only [header, List.append_assoc]
  rw [Bytes.read_skip _ _ (by omega), Bytes.read_skip _ _ (by omega), Bytes.read_skip _ _ (by omega),
    Bytes.read_little, Nat.mod_eq_of_lt (by omega)]

theorem get_offset : get (r.header ++ rest) 24 8 = r.offset := by
  have hlt := h.offset
  apply get_of_read
  simp only [header, List.append_assoc]
  rw [Bytes.read_skip _ _ (by omega), Bytes.read_skip _ _ (by omega), Bytes.read_skip _ _ (by omega),
    Bytes.read_skip _ _ (by omega), Bytes.read_little, Nat.mod_eq_of_lt (by omega)]

/-- A frame is read back. -/
theorem parse_frame : parse (r.frame ++ rest) r.bytes.length = r := by
  have hbytes : ((r.header ++ (r.bytes ++ rest)).drop 32).take r.bytes.length = r.bytes := by
    rw [← r.length_header, List.drop_left, List.take_left]
  rw [frame, List.append_assoc, parse, get_type h, get_sequence h, get_monotonicNs h, get_offset h,
    hbytes]

end Record

/-! ## One record -/

/-- The loop reads a whole record. -/
theorem replayFrom_frame {r : Record} (h : r.Valid) (start bytes : ℕ) (page : Page) (rest : Bytes) :
    replayFrom start r.sequence bytes page (r.frame ++ rest) =
      if r.sequence < start then replayFrom start (r.sequence + 1) bytes page rest
      else if 65536 < bytes + r.bytes.length && !page.records.isEmpty then .ok page
      else if 128 ≤ page.records.length + 1 then
        .ok { page with records := page.records ++ [r.shown], next := r.sequence + 1 }
      else
        replayFrom start (r.sequence + 1) (bytes + r.bytes.length)
          { page with records := page.records ++ [r.shown], next := r.sequence + 1 } rest := by
  have hlength : (r.frame ++ rest).length = 32 + r.bytes.length + rest.length := by simp
  have hn : get (r.frame ++ rest) 4 4 = r.bytes.length := by
    rw [Record.frame, List.append_assoc, Record.get_length h]
  have hdrop : (r.frame ++ rest).drop (32 + r.bytes.length) = rest := by
    rw [← r.length_frame, List.drop_left]
  have hvalid : ¬ (decide (65536 < r.bytes.length) || r.sequence != r.sequence ||
      decide (r.type < 1) || decide (5 < r.type)) = true := by
    have hpos := h.type_pos
    have hle := h.type_le
    have hbytes := h.bytes
    simp
    omega
  rw [replayFrom, if_neg (by omega), dif_neg (by omega)]
  simp only [hn, r.parse_frame h rest, hdrop]
  rw [if_neg hvalid, if_neg (by omega)]
  simp only [List.length_append, List.length_singleton]

/-- What may be left of a file after whole records: nothing, or a part of a record. -/
def Cut (e : ℕ) (tail : Bytes) : Prop :=
  tail = [] ∨ ∃ r : Record, r.Valid ∧ r.sequence = e ∧ tail <+: r.frame ∧
    tail.length < r.frame.length

/-- The loop stops at a record that is cut. -/
theorem replayFrom_cut (h : Cut e tail) (start bytes : ℕ) (page : Page) :
    replayFrom start e bytes page tail =
      .ok (if tail = [] then page else { page with partialTail := true }) := by
  rcases h with rfl | ⟨r, hr, rfl, ⟨rest, hrest⟩, hlt⟩
  · rw [replayFrom]
    rfl
  · rw [replayFrom]
    by_cases hnil : tail = []
    · subst hnil
      rfl
    have hpos : tail.length ≠ 0 := fun hzero => hnil (List.length_eq_zero_iff.mp hzero)
    rw [if_neg hpos, if_neg hnil]
    by_cases hheader : tail.length < 32
    · rw [dif_pos hheader]
    rw [dif_neg hheader]
    -- The header is whole, so the loop knows how many bytes are missing.
    obtain ⟨m, rfl⟩ : ∃ m, tail = r.header ++ m := by
      have htake : tail.take 32 = r.header := by
        have hframe := congrArg (List.take 32) hrest
        rw [List.take_append_of_le_length (by omega), Record.frame, ← r.length_header,
          List.take_left] at hframe
        rwa [r.length_header] at hframe
      exact ⟨tail.drop 32, by rw [← htake, List.take_append_drop]⟩
    have hshort : (r.header ++ m).length - 32 < r.bytes.length := by
      simp only [List.length_append, Record.length_header, Record.length_frame] at hlt ⊢
      omega
    have hpositive := hr.type_pos
    have hle := hr.type_le
    have hbytes := hr.bytes
    simp only [parse, r.get_length hr, r.get_type hr, r.get_sequence hr]
    rw [if_neg (by simp; omega), if_pos hshort]

/-! ## A page -/

/-- The loop skips the records before the start. -/
theorem replayFrom_skip {start : ℕ} (bytes : ℕ) (page : Page) (tail : Bytes) (h : Numbered e ws)
    (he : e ≤ start) :
    replayFrom start e bytes page (frames ws ++ tail) =
      replayFrom start (e + min (start - e) ws.length) bytes page
        (frames (ws.drop (start - e)) ++ tail) := by
  induction ws generalizing e with
  | nil => simp
  | cons r ws ih =>
    obtain ⟨hr, rfl, hws⟩ := h
    by_cases hlt : r.sequence < start
    · rw [frames_cons, List.append_assoc, replayFrom_frame hr, if_pos hlt, ih hws (by omega)]
      obtain ⟨d, hd⟩ : ∃ d, start - r.sequence = d + 1 := ⟨start - r.sequence - 1, by omega⟩
      have hd' : start - (r.sequence + 1) = d := by omega
      rw [hd, hd', List.drop_succ_cons, List.length_cons]
      congr 1
      omega
    · have hzero : start - r.sequence = 0 := by omega
      simp [hzero]

/-- The page `p` is `page` and the first `k` of the records `ws`, which are all that is left of
the file but for a part of a record if it is `torn`. -/
structure Page.Continues (page : Page) (ws : List Record) (torn : Prop) (k : ℕ) (p : Page) :
    Prop where
  le : k ≤ ws.length
  records : p.records = page.records ++ (ws.take k).map Record.shown
  next : p.next = page.next + k
  partialTail : p.partialTail = true ↔ torn ∧ k = ws.length ∧ p.records.length < 128
  progress : page.records = [] → ws ≠ [] → 0 < k

/-- From the start on the loop collects records. -/
theorem replayFrom_collect {start : ℕ} {bytes : ℕ} {page : Page} (h : Numbered e ws)
    (hcut : Cut (e + ws.length) tail) (hstart : ws ≠ [] → start ≤ e)
    (hnext : ws ≠ [] → page.next = e) (hwhole : page.partialTail = false)
    (hcount : page.records.length < 128) :
    ∃ p k, replayFrom start e bytes page (frames ws ++ tail) = .ok p ∧
      page.Continues ws (tail ≠ []) k p := by
  induction ws generalizing e bytes page with
  | nil =>
    refine ⟨_, 0, replayFrom_cut hcut start bytes page, ?_⟩
    by_cases htail : tail = []
    · rw [if_pos htail]
      exact ⟨le_rfl, by simp, rfl, by simp [hwhole, htail], fun _ hne => absurd rfl hne⟩
    · rw [if_neg htail]
      exact ⟨le_rfl, by simp, rfl, by simp [htail, hcount], fun _ hne => absurd rfl hne⟩
  | cons r ws ih =>
    obtain ⟨hr, rfl, hws⟩ := h
    have hfrom : ¬ r.sequence < start := Nat.not_lt.mpr (hstart (List.cons_ne_nil r ws))
    have hat := hnext (List.cons_ne_nil r ws)
    rw [frames_cons, List.append_assoc, replayFrom_frame hr, if_neg hfrom]
    by_cases hfull : (decide (65536 < bytes + r.bytes.length) && !page.records.isEmpty) = true
    · -- The payload does not fit, and the page has a record.
      rw [if_pos hfull]
      have hsome : page.records ≠ [] := by
        intro hnil
        simp [hnil] at hfull
      exact ⟨page, 0, rfl, Nat.zero_le _, by simp, rfl, by simp [hwhole],
        fun hnil => absurd hnil hsome⟩
    rw [if_neg hfull]
    set page' : Page :=
      { page with records := page.records ++ [r.shown], next := r.sequence + 1 } with hpage'
    have hlength : page'.records.length = page.records.length + 1 := by simp [hpage']
    by_cases hlast : 128 ≤ page.records.length + 1
    · rw [if_pos hlast]
      refine ⟨page', 1, rfl, Nat.succ_pos _, by simp [hpage'], by simp [hpage', hat], ?_,
        fun _ _ => Nat.one_pos⟩
      have hnot : ¬ page'.records.length < 128 := by omega
      have hstill : page'.partialTail = false := hwhole
      rw [hstill]
      exact ⟨fun htrue => absurd htrue Bool.false_ne_true, fun hall => absurd hall.2.2 hnot⟩
    · rw [if_neg hlast]
      have hcut' : Cut (r.sequence + 1 + ws.length) tail := by
        rwa [List.length_cons, Nat.add_comm ws.length, ← Nat.add_assoc] at hcut
      obtain ⟨p, k, hp, hk⟩ := @ih (r.sequence + 1) (bytes + r.bytes.length) page' hws hcut'
        (fun _ => by omega) (fun _ => rfl) hwhole (by omega)
      refine ⟨p, k + 1, hp, Nat.succ_le_succ hk.le, ?_, ?_, ?_, fun _ _ => Nat.succ_pos k⟩
      · rw [hk.records]
        simp [hpage']
      · rw [hk.next]
        show r.sequence + 1 + k = _
        omega
      · rw [hk.partialTail, List.length_cons]
        simp

/-- **A page.**  On the frames of numbered records and perhaps a part of one more, `replay` shows
the records from the start on, as many as a page holds. -/
theorem replay_frames (h : Numbered 0 ws) (hcut : Cut ws.length tail) (start : ℕ) :
    ∃ p k, replay (some (magic ++ (frames ws ++ tail))) start = .ok p ∧
      Page.Continues { next := start } (ws.drop start) (tail ≠ []) k p := by
  have hmagic : (magic ++ (frames ws ++ tail)).take 8 = magic := List.take_left' rfl
  have hrest : (magic ++ (frames ws ++ tail)).drop 8 = frames ws ++ tail := List.drop_left' rfl
  have hlength : (ws.drop start).length = ws.length - start := List.length_drop
  have hfirst : ws.drop start ≠ [] → 0 + min start ws.length = start := by
    intro hne
    have hpos := List.length_pos_iff.mpr hne
    omega
  have hcut' : Cut (0 + min start ws.length + (ws.drop start).length) tail := by
    rwa [hlength, show 0 + min start ws.length + (ws.length - start) = ws.length by omega]
  rw [replay, if_pos hmagic, hrest, replayFrom_skip 0 _ tail h (Nat.zero_le start), Nat.sub_zero]
  exact replayFrom_collect (h.drop start) hcut' (fun hne => (hfirst hne).ge)
    (fun hne => (hfirst hne).symm) rfl (Nat.succ_pos 127)

/-! ## Pages that follow each other -/

/-- **Pages.**  The calls end, each page but the last begins after the one before it, and
together they show the records from the start on. -/
theorem follow_frames (h : Numbered 0 ws) (hcut : Cut ws.length tail) (start : ℕ) :
    ∃ ps, (∀ calls, ws.length - start < calls →
        follow calls (some (magic ++ (frames ws ++ tail))) start = .ok (some ps)) ∧
      ps.flatMap Page.records = (ws.drop start).map Record.shown ∧
      List.IsChain (· < ·) (start :: ps.dropLast.map Page.next) ∧ ps ≠ [] := by
  -- By induction on the number of records from the start on; a page takes some of them.
  generalize hleft : ws.length - start = left
  induction left using Nat.strong_induction_on generalizing start with
  | _ left ih =>
    obtain ⟨p, k, hp, hk⟩ := replay_frames h hcut start
    have hlength : (ws.drop start).length = left := by rw [List.length_drop, hleft]
    have hnext : p.next = start + k := hk.next
    have hrecords : p.records = ((ws.drop start).take k).map Record.shown := hk.records
    by_cases hempty : ws.drop start = []
    · have hnone : p.records = [] := by simp [hrecords, hempty]
      refine ⟨[p], fun calls hcalls => ?_, by simp [hnone, hempty],
        List.IsChain.singleton start, List.cons_ne_nil p []⟩
      obtain ⟨calls, rfl⟩ : ∃ c, calls = c + 1 := ⟨calls - 1, by omega⟩
      rw [follow, hp, ok_bind, hnone]
      rfl
    · have hpos : 0 < k := hk.progress rfl hempty
      have hle := hk.le
      obtain ⟨ps, hps, hshow, hchain, hne⟩ := ih (left - k) (by omega) (start + k) (by omega)
      have hsome : p.records ≠ [] := by
        rw [hrecords]
        simp
        omega
      refine ⟨p :: ps, fun calls hcalls => ?_, ?_, ?_, List.cons_ne_nil p ps⟩
      · obtain ⟨calls, rfl⟩ : ∃ c, calls = c + 1 := ⟨calls - 1, by omega⟩
        have hrest := hps calls (by omega)
        rw [follow, hp, ok_bind, if_neg (by simpa using hsome), hnext, hrest]
        rfl
      · rw [List.flatMap_cons, hrecords, hshow, ← List.map_append, ← List.drop_drop,
          List.take_append_drop]
      · rw [List.dropLast_cons_of_ne_nil hne, List.map_cons, hnext]
        exact List.IsChain.cons_cons (by omega) hchain

/-! ## A file that is cut -/

/-- The records of which the first `k` bytes of the frames hold every byte. -/
def within : ℕ → List Record → List Record
  | _, [] => []
  | k, r :: rs => if r.frame.length ≤ k then r :: within (k - r.frame.length) rs else []

/-- A cut leaves whole records and perhaps a part of one. -/
theorem take_frames (h : Numbered e rs) (k : ℕ) :
    Numbered e (within k rs) ∧ ∃ tail, Cut (e + (within k rs).length) tail ∧
      (frames rs).take k = frames (within k rs) ++ tail := by
  induction rs generalizing e k with
  | nil => exact ⟨trivial, [], .inl rfl, by simp [within]⟩
  | cons r rs ih =>
    obtain ⟨hr, rfl, hrs⟩ := h
    by_cases hle : r.frame.length ≤ k
    · obtain ⟨hwithin, tail, _, htake⟩ := ih hrs (k - r.frame.length)
      rw [within, if_pos hle]
      refine ⟨⟨hr, rfl, hwithin⟩, tail, ?_, ?_⟩
      · rwa [List.length_cons, Nat.add_comm _ 1, ← Nat.add_assoc]
      · rw [frames_cons, List.take_append, List.take_of_length_le hle, htake, frames_cons,
          List.append_assoc]
    · rw [within, if_neg hle]
      have htake : (r.frame ++ frames rs).take k = r.frame.take k :=
        List.take_append_of_le_length (by omega)
      refine ⟨trivial, r.frame.take k, .inr ⟨r, hr, rfl, List.take_prefix k r.frame, ?_⟩, htake⟩
      rw [List.length_take]
      omega

theorem within_of_length_le {k : ℕ} (h : (frames rs).length ≤ k) : within k rs = rs := by
  induction rs generalizing k with
  | nil => rfl
  | cons r rs ih =>
    rw [frames_cons, List.length_append] at h
    rw [within, if_pos (by omega), ih (by omega)]

/-- The cut is after the first byte of a record and before its end. -/
def Inside (cut : ℕ) (rs : List Record) : Prop :=
  8 + (frames (within (cut - 8) rs)).length < cut ∧ cut < 8 + (frames rs).length

/-! ## What is replayed -/

/-- What pages show of the records from `s` on. -/
def pending (s : ℕ) (rs : List Record) : List Shown :=
  (rs.filter (s ≤ ·.sequence)).map Record.shown

/-- The file replays as the records `rs`: a page shows some of those that are asked for, and
tells whether it came to a record that is cut; the pages that follow each other show all. -/
structure Replays (file : Bytes) (rs : List Record) (torn : Prop) : Prop where
  page (s : ℕ) : ∃ p, replay (some file) s = .ok p ∧ p.records <+: pending s rs ∧
    (p.partialTail = true ↔ torn ∧ p.records = pending s rs ∧ p.records.length < 128)
  pages (s : ℕ) : ∃ ps,
    (∀ calls, (pending s rs).length < calls → follow calls (some file) s = .ok (some ps)) ∧
    ps.flatMap Page.records = pending s rs ∧
    List.IsChain (· < ·) (s :: ps.dropLast.map Page.next)

theorem Numbered.filter_eq_drop (h : Numbered e rs) (s : ℕ) :
    rs.filter (s ≤ ·.sequence) = rs.drop (s - e) := by
  induction rs generalizing e with
  | nil => simp
  | cons r rs ih =>
    obtain ⟨-, rfl, hrs⟩ := h
    have hrest := ih hrs
    by_cases hle : s ≤ r.sequence
    · rw [List.filter_cons_of_pos (by simpa using hle), hrest,
        show s - (r.sequence + 1) = 0 by omega, show s - r.sequence = 0 by omega,
        List.drop_zero, List.drop_zero]
    · rw [List.filter_cons_of_neg (by simpa using hle), hrest,
        show s - r.sequence = s - (r.sequence + 1) + 1 by omega, List.drop_succ_cons]

theorem Numbered.pending_eq (h : Numbered 0 rs) (s : ℕ) :
    pending s rs = (rs.drop s).map Record.shown := by
  rw [pending, h.filter_eq_drop s, Nat.sub_zero]

theorem Replays.of_frames (h : Numbered 0 ws)
    (hcut : Cut ws.length tail) : Replays (magic ++ (frames ws ++ tail)) ws (tail ≠ []) where
  page s := by
    obtain ⟨p, k, hp, hk⟩ := replay_frames h hcut s
    have hrecords : p.records = ((ws.drop s).take k).map Record.shown := hk.records
    rw [h.pending_eq s]
    refine ⟨p, hp, ?_, ?_⟩
    · rw [hrecords]
      exact (List.take_prefix k _).map Record.shown
    · have hall : p.records = (ws.drop s).map Record.shown ↔ k = (ws.drop s).length := by
        have hle := hk.le
        constructor
        · intro heq
          have hlengths := congrArg List.length (hrecords.symm.trans heq)
          rw [List.length_map, List.length_map, List.length_take] at hlengths
          omega
        · intro heq
          rw [hrecords, heq, List.take_length]
      rw [hk.partialTail, hall]
  pages s := by
    obtain ⟨ps, hps, hshow, hchain, -⟩ := follow_frames h hcut s
    rw [h.pending_eq s, List.length_map, List.length_drop]
    exact ⟨ps, hps, hshow, hchain⟩

theorem Record.shown_injective : Function.Injective Record.shown := by
  intro r r' h
  have hbytes : r.bytes = r'.bytes :=
    Base64.encode_injective (String.ofList_injective (congrArg Shown.base64 h))
  cases r
  cases r'
  simp_all [Record.shown]

/-! ## What was appended -/

/-- The bytes of output in some calls. -/
def outputBytes (calls : List Append) : ℕ :=
  ((calls.filter (·.type = 1)).map (·.bytes.length)).sum

/-- The records of calls that returned, numbered from zero, each with the bytes of output
before it. -/
def recorded (calls : List Append) : List Record :=
  calls.mapIdx fun i a =>
    { type := a.type
      sequence := i
      monotonicNs := a.elapsed % 2 ^ 64
      offset := outputBytes (calls.take i)
      bytes := a.bytes }

theorem recorded_append (calls : List Append) (a : Append) :
    recorded (calls ++ [a]) = recorded calls ++
      [{ type := a.type, sequence := calls.length, monotonicNs := a.elapsed % 2 ^ 64,
         offset := outputBytes calls, bytes := a.bytes }] := by
  have hearlier : recorded calls = calls.mapIdx fun i b =>
      { type := b.type, sequence := i, monotonicNs := b.elapsed % 2 ^ 64,
        offset := outputBytes ((calls ++ [a]).take i), bytes := b.bytes : Record } := by
    apply List.ext_getElem (by simp [recorded])
    intro i hi _
    have hlt : i < calls.length := by simpa [recorded] using hi
    simp [recorded, List.take_append_of_le_length hlt.le]
  rw [recorded, List.mapIdx_append, ← hearlier]
  simp

theorem outputBytes_append (calls : List Append) (a : Append) :
    outputBytes (calls ++ [a]) =
      if a.type = 1 then outputBytes calls + a.bytes.length else outputBytes calls := by
  by_cases htype : a.type = 1 <;> simp [outputBytes, htype]

theorem Numbered.append {r : Record} (h : Numbered e rs) (hr : r.Valid)
    (hsequence : r.sequence = e + rs.length) : Numbered e (rs ++ [r]) := by
  induction rs generalizing e with
  | nil => exact ⟨hr, by simpa using hsequence, trivial⟩
  | cons r' rs ih =>
    refine ⟨h.1, h.2.1, ih h.2.2 ?_⟩
    rw [hsequence, List.length_cons]
    omega

namespace Recording

/-- What a recording holds after calls that returned. -/
structure Appended (r : Recording) (calls : List Append) : Prop where
  file : r.file = magic ++ frames (recorded calls)
  size : r.size = r.file.length
  bounded : r.file.length ≤ largestOffset
  sequence : r.sequence = calls.length
  output : r.output = outputBytes calls
  /-- A record takes 32 bytes and its payload. -/
  counted : 32 * r.sequence + r.output ≤ r.file.length
  numbered : Numbered 0 (recorded calls)

/-- What a call of `append` that returns did. -/
theorem append_ok {r r' : Recording} {a : Append} (h : r.append a = (.ok (), r')) :
    1 ≤ a.type ∧ a.type ≤ 5 ∧ a.bytes.length ≤ 65536 ∧
      r.file.length + (r.next a).frame.length ≤ largestOffset ∧
      r' = { r with
        file := r.file ++ (r.next a).frame
        size := r.size + (r.next a).frame.length
        sequence := r.sequence + 1
        output := if a.type = 1 then r.output + a.bytes.length else r.output } := by
  unfold append at h
  split at h
  · cases h
  rename_i hvalid
  split at h
  · cases h
  rcases hall : r.all (r.next a).frame a.writes with ⟨part, taken⟩
  simp only [hall] at h
  cases taken
  · cases h
  have hroom : ((r.next a).frame.take (largestOffset - r.file.length)).length =
      (r.next a).frame.length := by
    have hsnd := congrArg Prod.snd hall
    simp only [all, Bool.and_eq_true, beq_iff_eq] at hsnd
    exact hsnd.2
  have hpos : 0 < (r.next a).frame.length := by rw [Record.length_frame]; omega
  rw [List.length_take] at hroom
  simp only [Bool.or_eq_true, decide_eq_true_eq, not_or] at hvalid
  exact ⟨by omega, by omega, by omega, by omega, (Prod.mk.inj h).2.symm⟩

theorem appended_create {budget : ℕ} {opened synced : Bool} {writes : List Wrote} {r : Recording}
    (h : create budget opened writes synced = .ok r) : r.Appended [] := by
  unfold create at h
  split at h
  · cases h
  split at h
  · cases h
  split at h
  · cases h
  cases h
  exact ⟨rfl, rfl, show magic.length ≤ largestOffset by decide, rfl, rfl,
    show 0 ≤ magic.length by decide, trivial⟩

variable {calls : List Append}

theorem Appended.valid_next {r : Recording} {a : Append} (h : r.Appended calls) (hpos : 1 ≤ a.type)
    (hle : a.type ≤ 5) (hbytes : a.bytes.length ≤ 65536) : (r.next a).Valid := by
  have hcounted := h.counted
  have hbounded := h.bounded
  have hlargest : largestOffset < 2 ^ 63 := by decide
  exact
    { type_pos := hpos
      type_le := hle
      bytes := hbytes
      sequence := show r.sequence < 2 ^ 64 by omega
      monotonicNs := Nat.mod_lt _ (by decide)
      offset := show r.output < 2 ^ 64 by omega }

theorem Appended.append {r r' : Recording} {a : Append} (h : r.Appended calls)
    (happend : r.append a = (.ok (), r')) : r'.Appended (calls ++ [a]) := by
  obtain ⟨hpos, hle, hbytes, hroom, rfl⟩ := append_ok happend
  have hcounted := h.counted
  have hlength : (r.next a).frame.length = 32 + a.bytes.length := Record.length_frame _
  have hnext : recorded (calls ++ [a]) = recorded calls ++ [r.next a] := by
    rw [recorded_append, next, h.sequence, h.output]
  have hvalid : (r.next a).Valid := h.valid_next hpos hle hbytes
  refine ⟨?_, ?_, ?_, ?_, ?_, ?_, ?_⟩
  · simp [hnext, h.file]
  · simp [h.size]
  · simpa using hroom
  · simp [h.sequence]
  · rw [outputBytes_append, h.output]
  · simp only [List.length_append, hlength]
    split <;> omega
  · rw [hnext]
    refine h.numbered.append hvalid ?_
    rw [recorded, List.length_mapIdx, Nat.zero_add]
    exact h.sequence

theorem Appended.appendAll {r r' : Recording} {before : List Append} (h : r.Appended before)
    (hcalls : r.appendAll calls = .ok r') : r'.Appended (before ++ calls) := by
  induction calls generalizing r before with
  | nil =>
    cases hcalls
    rwa [List.append_nil]
  | cons a calls ih =>
    rw [Recording.appendAll] at hcalls
    split at hcalls
    · cases hcalls
    · rename_i happend
      rw [List.append_cons]
      exact ih (h.append happend) hcalls

end Recording

/-- **Replay of a recording.**  After calls of `append` that all returned, the file replays as
the records of the calls; cut anywhere after its header, it replays as the records before the
cut, and a page says so exactly when it comes to a record that is cut.  What a page shows of a
record tells the record. -/
theorem replay_recording {budget : ℕ} {opened synced : Bool} {writes : List Wrote}
    {calls : List Append} {r₀ r : Recording}
    (hcreate : Recording.create budget opened writes synced = .ok r₀)
    (hcalls : r₀.appendAll calls = .ok r) :
    Function.Injective Record.shown ∧
    Replays r.file (recorded calls) False ∧
    ∀ cut, 8 ≤ cut → Replays (r.file.take cut) (within (cut - 8) (recorded calls))
      (Inside cut (recorded calls)) := by
  have happended : r.Appended calls := (Recording.appended_create hcreate).appendAll hcalls
  have hnumbered := happended.numbered
  refine ⟨Record.shown_injective, ?_, ?_⟩
  · have hwhole := Replays.of_frames hnumbered (.inl rfl : Cut _ [])
    rw [List.append_nil, ← happended.file] at hwhole
    simpa using hwhole
  · intro cut hcut
    obtain ⟨hwithin, tail, htail, htake⟩ := take_frames hnumbered (cut - 8)
    have hfile : r.file.take cut =
        magic ++ (frames (within (cut - 8) (recorded calls)) ++ tail) := by
      rw [happended.file, List.take_append, ← htake, List.take_of_length_le hcut]
      rfl
    -- The part of a record is what the cut leaves after the whole records.
    have hinside : tail ≠ [] ↔ Inside cut (recorded calls) := by
      have hlength := congrArg List.length htake
      rw [List.length_take, List.length_append] at hlength
      rw [← List.length_pos_iff, Inside]
      constructor
      · intro hpos
        by_cases hend : (frames (recorded calls)).length ≤ cut - 8
        · rw [within_of_length_le hend] at hlength
          omega
        · omega
      · omega
    rw [hfile, ← hinside]
    rw [Nat.zero_add] at htail
    exact Replays.of_frames hwithin htail

namespace Sample

/-- Two bytes of output, a resize, one more byte of output. -/
def calls : List Append :=
  [{ type := 1, bytes := [0x68, 0x69], elapsed := 5, writes := [.interrupted, .bytes 20] },
   { type := 2, bytes := [] }, { type := 1, bytes := [0x21], elapsed := 9 }]

def recording : Recording where
  file := magic ++ frames (recorded calls)
  size := 107
  sequence := 3
  output := 3
  budget := 1000

end Sample

theorem replay_recording_three :
    Recording.create 1000 true [] true = .ok { budget := 1000 } ∧
    Recording.appendAll { budget := 1000 } Sample.calls = .ok Sample.recording ∧
    Replays Sample.recording.file (recorded Sample.calls) False ∧
    Replays (Sample.recording.file.take 80) (within 72 (recorded Sample.calls))
      (Inside 80 (recorded Sample.calls)) := by
  have hcreate : Recording.create 1000 true [] true = .ok { budget := 1000 } := rfl
  have hcalls : Recording.appendAll { budget := 1000 } Sample.calls = .ok Sample.recording := by
    decide
  have hreplay := replay_recording hcreate hcalls
  exact ⟨hcreate, hcalls, hreplay.2.1, hreplay.2.2 80 (by decide)⟩

end Graphlab.Terminal
