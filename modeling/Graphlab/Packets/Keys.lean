import Graphlab.Packets.History

/-!
# Ordering keys

A segment is named by its run and its artifact.  As long as the time at which it was closed
does not change, its ordering key is a function of that name, and no other segment has it.

## Main definitions

* `Disk.Steady closedAt` — the manifests give every segment the time of `closedAt`.
* `Names closedAt run artifact key` — the key of a segment.
-/

namespace Graphlab.Packets

open Lib Capture

/-! ## Texts -/

/-- A text is cut at the first separator in one way only. -/
theorem cut_inj {a : Char} : ∀ {xs xs' ys ys' : List Char}, a ∉ xs → a ∉ xs' →
    xs ++ a :: ys = xs' ++ a :: ys' → xs = xs' ∧ ys = ys'
  | [], [], _, _, _, _, h => ⟨rfl, (List.cons.inj h).2⟩
  | [], x' :: _, _, _, _, h', h => by
      have heq : a = x' := (List.cons.inj h).1
      simp [heq] at h'
  | x :: _, [], _, _, hx, _, h => by
      have heq : x = a := (List.cons.inj h).1
      simp [heq] at hx
  | x :: xs, x' :: xs', _, _, hx, hx', h => by
      obtain ⟨rfl, htail⟩ := List.cons.inj h
      obtain ⟨rfl, hys⟩ := cut_inj (fun hm => hx (List.mem_cons_of_mem _ hm))
        (fun hm => hx' (List.mem_cons_of_mem _ hm)) htail
      exact ⟨rfl, hys⟩

/-- A separator that no number has is not among its digits. -/
theorem not_mem_toDigits {c : Char} (hc : c.isDigit = false) (n : ℕ) : c ∉ Nat.toDigits 10 n := by
  intro hmem
  rw [Nat.isDigit_of_mem_toDigits (by decide) (by decide) hmem] at hc
  cases hc

/-- Leading zeros do not change a number. -/
theorem ofDigitChars_zeros (k : ℕ) (cs : List Char) :
    Nat.ofDigitChars 10 (List.replicate k '0' ++ cs) 0 = Nat.ofDigitChars 10 cs 0 := by
  induction k with
  | zero => rfl
  | succ k ih =>
    rw [List.replicate_succ, List.cons_append, Nat.ofDigitChars_cons]
    exact ih

theorem pad_inj {m n : ℕ} (h : pad m = pad n) : m = n := by
  have hlists := congrArg (fun s : String => Nat.ofDigitChars 10 s.toList 0) h
  simpa [pad, ofDigitChars_zeros, Nat.ofDigitChars_toDigits] using hlists

/-- An artifact names its capture and its segment. -/
theorem artifact_inj {c c' : String} {n n' : ℕ}
    (h : c ++ "-" ++ toString n = c' ++ "-" ++ toString n') : c = c' ∧ n = n' := by
  have hlists := congrArg (fun s : String => s.toList.reverse) h
  simp only [String.toList_append, toList_toString, List.reverse_append, List.append_assoc] at hlists
  have hdash : ∀ k, '-' ∉ (Nat.toDigits 10 k).reverse := fun k hk =>
    not_mem_toDigits (by decide) k (List.mem_reverse.mp hk)
  obtain ⟨hn, hc⟩ := cut_inj (hdash n) (hdash n') hlists
  refine ⟨String.toList_inj.mp (List.reverse_inj.mp hc), toString_inj ?_⟩
  rw [← String.toList_inj, toList_toString, toList_toString]
  exact List.reverse_inj.mp hn

theorem closedTime_length {t : String} (h : closedTime t = true) : t.toList.length = 20 := by
  simp only [closedTime, Bool.and_eq_true, beq_iff_eq] at h
  rw [h.1]
  rfl

/-- An ordering key names the run, the capture and the segment. -/
theorem orderKey_inj {t t' : String} {r r' c c' : Name} {n n' : ℕ} (ht : closedTime t = true)
    (ht' : closedTime t' = true) (h : orderKey t r c n = orderKey t' r' c' n') :
    t = t' ∧ r = r' ∧ c = c' ∧ n = n' := by
  have hlists := congrArg String.toList h
  simp only [orderKey, String.toList_append, List.append_assoc] at hlists
  obtain ⟨hclosed, hlists⟩ := List.append_inj hlists
    ((closedTime_length ht).trans (closedTime_length ht').symm)
  have hlists := (List.cons.inj hlists).2
  obtain ⟨hrun, hlists⟩ := cut_inj r.plain r'.plain hlists
  obtain ⟨hcapture, hlists⟩ := cut_inj c.plain c'.plain hlists
  refine ⟨String.toList_inj.mp hclosed, ?_, ?_, pad_inj (String.toList_inj.mp hlists)⟩
  · cases r
    cases r'
    simpa [String.toList_inj] using hrun
  · cases c
    cases c'
    simpa [String.toList_inj] using hcapture

theorem orderKey_ne_empty (t : String) (r c : Name) (n : ℕ) : orderKey t r c n ≠ "" := by
  intro h
  have hlists := congrArg String.toList h
  simp [orderKey] at hlists

/-! ## The key of a segment -/

/-- The key of a segment, by its run and artifact. -/
def Names (closedAt : String → String → ℕ → String) (run artifact key : String) : Prop :=
  ∃ (r c : Name) (n : ℕ), run = r.text ∧ artifact = c.text ++ "-" ++ toString n ∧
    closedTime (closedAt r.text c.text n) = true ∧
    key = orderKey (closedAt r.text c.text n) r c n

section Names

variable {closedAt : String → String → ℕ → String} {run run' artifact artifact' key key' : String}

/-- A segment has one key. -/
theorem Names.functional (h : Names closedAt run artifact key)
    (h' : Names closedAt run artifact key') : key = key' := by
  obtain ⟨r, c, _, rfl, rfl, -, rfl⟩ := h
  obtain ⟨r', c', _, hr, ha, -, rfl⟩ := h'
  obtain ⟨hc, rfl⟩ := artifact_inj ha
  cases r
  cases r'
  cases c
  cases c'
  cases hr
  cases hc
  rfl

/-- No two segments have the same key. -/
theorem Names.injective (h : Names closedAt run artifact key)
    (h' : Names closedAt run' artifact' key) : run = run' ∧ artifact = artifact' := by
  obtain ⟨_, _, _, rfl, rfl, ht, rfl⟩ := h
  obtain ⟨_, _, _, rfl, rfl, ht', hkey⟩ := h'
  obtain ⟨-, rfl, rfl, rfl⟩ := orderKey_inj ht ht' hkey
  exact ⟨rfl, rfl⟩

end Names

/-! ## Manifests whose times stay -/

/-- A manifest of the run `run` and the capture `capture` lists a segment as closed at a
time. -/
def Lists (m : Json) (run capture : String) (sequence : ℕ) (closed : String) : Prop :=
  m.field "runId" = .ok (.string run) ∧ m.field "id" = .ok (.string capture) ∧
    ∃ segments s text, m.field "segments" = .ok segments ∧ s ∈ segments.elements ∧
      s.field "sequence" = .ok text ∧ integer text = .ok sequence ∧
      s.field "closedAt" = .ok (.string closed)

/-- Every manifest lists a segment with the time of `closedAt`. -/
def Disk.Steady (closedAt : String → String → ℕ → String) (disk : Disk) : Prop :=
  ∀ directory m, disk.manifest directory = some m → ∀ run capture sequence closed,
    Lists m run capture sequence closed → closed = closedAt run capture sequence

/-- What the disk gives to a step has the times of `closedAt`. -/
def Step.Steady (closedAt : String → String → ℕ → String) : Step → Prop
  | .work disk _ _ => Disk.Steady closedAt disk
  | _ => True

/-! ## The candidates of a scan -/

/-- The ordering key of a candidate. -/
def Candidate.HasKey (run : Run) (x : Candidate) (key : String) : Prop :=
  ∃ text closed, x.segment.field "sequence" = .ok text ∧ integer text = .ok x.sequence ∧
    x.segment.field "closedAt" = .ok (.string closed) ∧ closedTime closed = true ∧
    key = orderKey closed run.id x.capture.id x.sequence

/-- The manifest of its capture lists a candidate. -/
def Candidate.Listed (disk : Disk) (run : Run) (x : Candidate) : Prop :=
  ∃ m segments, disk.manifest x.capture.directory = some m ∧
    m.field "runId" = .ok (.string run.id.text) ∧
    m.field "id" = .ok (.string x.capture.id.text) ∧
    m.field "segments" = .ok segments ∧ x.segment ∈ segments.elements

/-- A scan of the run meets the candidate, with this key. -/
def Meets (disk : Disk) (run : Run) (key : String) (x : Candidate) : Prop :=
  x.capture ∈ run.captures ∧ x.Listed disk run ∧ x.HasKey run key

/-- What is added to a window are the candidates with their keys that `P` says. -/
def Gathers (P : String → Candidate → Prop) (w w' : Window String Candidate) : Prop :=
  ∃ xs, w' = w.adds 1000 xs ∧ ∀ key x, (key, x) ∈ xs ↔ P key x

section Gathers

variable {disk : Disk} {run : Run} {c : Descriptor} {w w' w₁ : Window String Candidate}

theorem Gathers.nil {P : String → Candidate → Prop} (h : ∀ key x, ¬P key x) : Gathers P w w :=
  ⟨[], rfl, fun key x => by simp [h key x]⟩

theorem Gathers.append {P Q R : String → Candidate → Prop} (hP : Gathers P w w₁)
    (hQ : Gathers Q w₁ w') (hR : ∀ key x, P key x ∨ Q key x ↔ R key x) : Gathers R w w' := by
  obtain ⟨xs, rfl, hxs⟩ := hP
  obtain ⟨ys, rfl, hys⟩ := hQ
  refine ⟨xs ++ ys, by rw [Window.adds, Window.adds, Window.adds, List.foldl_append], ?_⟩
  intro key x
  rw [List.mem_append, hxs, hys, hR]

theorem collectSegment_gathers {s : Json} (h : collectSegment run c w s = .ok w') :
    Gathers (fun key x => x.capture = c ∧ x.segment = s ∧ x.HasKey run key) w w' := by
  simp only [collectSegment, bind_eq_ok, check_eq_ok] at h
  obtain ⟨text, htext, sequence, hsequence, value, hvalue, closed, _, -, htime, h⟩ := h
  cases h
  have hstring : value = .string closed := by
    cases value <;> simp_all [Json.text]
  subst hstring
  refine ⟨[(orderKey closed run.id c.id sequence, ⟨c, s, sequence⟩)], rfl, fun key x => ?_⟩
  simp only [List.mem_singleton, Prod.mk.injEq]
  constructor
  · rintro ⟨rfl, rfl⟩
    exact ⟨rfl, rfl, text, closed, htext, hsequence, hvalue, htime, rfl⟩
  · obtain ⟨_, _, _⟩ := x
    rintro ⟨rfl, rfl, text', closed', htext', hsequence', hclosed', -, rfl⟩
    cases htext.symm.trans htext'
    cases hsequence.symm.trans hsequence'
    cases hvalue.symm.trans hclosed'
    exact ⟨rfl, rfl⟩

theorem collectSegments_gathers {rest : List Json} (h : collectSegments run c rest w = .ok w') :
    Gathers (fun key x => x.capture = c ∧ x.segment ∈ rest ∧ x.HasKey run key) w w' := by
  induction rest generalizing w with
  | nil =>
    cases h
    exact .nil (by simp)
  | cons s rest ih =>
    simp only [collectSegments, bind_eq_ok] at h
    obtain ⟨_, hfirst, h⟩ := h
    refine (collectSegment_gathers hfirst).append (ih h) fun key x => ?_
    rw [List.mem_cons]
    tauto

theorem collectCapture_gathers (h : collectCapture disk run c w = .ok w') :
    Gathers (fun key x => x.capture = c ∧ x.Listed disk run ∧ x.HasKey run key) w w' := by
  rw [collectCapture] at h
  cases hm : disk.manifest c.directory with
  | none => simp [hm] at h
  | some m =>
    simp only [hm, bind_eq_ok, check_eq_ok, decide_eq_true_eq] at h
    obtain ⟨_, hid, -, rfl, _, hrun, -, rfl, -, -, -, -, -, -, -, -, segments, hsegments, h⟩ := h
    obtain ⟨xs, rfl, hxs⟩ := collectSegments_gathers h
    refine ⟨xs, rfl, fun key x => (hxs key x).trans (and_congr_right ?_)⟩
    rintro rfl
    refine and_congr_left fun _ => ⟨fun hx => ⟨m, segments, hm, hrun, hid, hsegments, hx⟩, ?_⟩
    rintro ⟨m', segments', hm', -, -, hsegments', hx⟩
    cases hm.symm.trans hm'
    cases hsegments.symm.trans hsegments'
    exact hx

/-- **What a scan collects**: the candidates that it meets. -/
theorem collect_gathers (h : collect disk run = .ok w) : Gathers (Meets disk run) {} w := by
  suffices h : ∀ captures w₁, collectCaptures disk run captures w₁ = .ok w →
      Gathers (fun key x => x.capture ∈ captures ∧ x.Listed disk run ∧ x.HasKey run key) w₁ w from
    h run.captures {} ‹_›
  intro captures
  induction captures with
  | nil =>
    intro w₁ h
    cases h
    exact .nil (by simp)
  | cons c rest ih =>
    intro w₁ h
    simp only [collectCaptures, bind_eq_ok] at h
    obtain ⟨w₂, hfirst, h⟩ := h
    refine (collectCapture_gathers hfirst).append (ih w₂ h) fun key x => ?_
    rw [List.mem_cons]
    tauto

/-- The entries of a window are candidates that the scan meets. -/
theorem meets_of_collect (h : collect disk run = .ok w) {p : String × Candidate}
    (hp : p ∈ w.entries) : Meets disk run p.1 p.2 := by
  obtain ⟨xs, rfl, hxs⟩ := collect_gathers h
  rw [(Window.adds_eq 1000 xs).1] at hp
  dsimp only at hp
  have hmem := mem_of_mem_emplaces ((latest_suffix _ _).subset hp)
  exact (hxs _ _).mp (hmem.resolve_right List.not_mem_nil)

end Gathers

/-- The candidates are in the order of their keys, and each has the key of its segment. -/
structure Collected (closedAt : String → String → ℕ → String) (run : Run)
    (entries : List (String × Candidate)) : Prop where
  ordered : entries.Pairwise fun p q => p.1 < q.1
  named : ∀ p ∈ entries, Names closedAt run.id.text p.2.artifact p.1

/-- **The candidates of a scan have the keys of their segments**, in order. -/
theorem collect_collected {closedAt : String → String → ℕ → String} {run : Run} {disk : Disk}
    (hdisk : Disk.Steady closedAt disk) {w : Window String Candidate}
    (h : collect disk run = .ok w) : Collected closedAt run w.entries := by
  constructor
  · obtain ⟨xs, rfl, -⟩ := collect_gathers h
    obtain ⟨hadds, hsorted, -⟩ := Window.adds_eq 1000 xs
    rw [hadds]
    dsimp only
    exact hsorted.sublist (latest_suffix _ _).sublist
  · intro p hp
    obtain ⟨-, ⟨m, segments, hm, hrun, hid, hsegments, hx⟩, text, closed, htext, hsequence, hclosed,
      htime, hkey⟩ := meets_of_collect h hp
    obtain rfl := hdisk _ m hm _ _ _ closed
      ⟨hrun, hid, segments, p.2.segment, text, hsegments, hx, htext, hsequence, hclosed⟩
    exact ⟨run.id, p.2.capture.id, p.2.sequence, rfl, rfl, htime, hkey⟩

end Graphlab.Packets
