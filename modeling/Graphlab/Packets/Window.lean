import Graphlab.Packets.Receipts

/-!
# The window of a scan

A scan looks at the newest 1000 segments that it meets, the oldest of them first, and indexes at
most 128 that are new.  A segment it has indexed keeps its receipt until the catalog is full; its
key is then at or below the retirement floor.  So the scans of a run that does not change come to
an end: each one that changes a receipt leaves less to do, and one that changes nothing has found
every segment of its window.

## Main definitions

* `Rescans` — scans of one run, no save of which fails.
* `Store.due` — what is left to do.

## Main results

* `pad_lt_pad` — keys of one capture are in the order of its sequence.
* `candidate_window` — what a scan looks at, and what repeated scans leave.
-/

namespace Graphlab.Packets

open Lib Capture

/-! ## The order of the keys -/

theorem ofDigitChars_first (c : Char) (cs : List Char) : Nat.ofDigitChars 10 (c :: cs) 0 =
    10 ^ cs.length * (c.toNat - '0'.toNat) + Nat.ofDigitChars 10 cs 0 := by
  rw [Nat.ofDigitChars_cons, Nat.ofDigitChars_eq_ofDigitChars_zero, Nat.mul_zero, Nat.zero_add]

theorem ofDigitChars_lt {cs : List Char} (h : ∀ c ∈ cs, c.isDigit = true) :
    Nat.ofDigitChars 10 cs 0 < 10 ^ cs.length := by
  induction cs with
  | nil => decide
  | cons c cs ih =>
    have hdigit := (digitChar_toNat_sub (h c List.mem_cons_self)).2
    have hrest := ih fun d hd => h d (List.mem_cons_of_mem c hd)
    rw [ofDigitChars_first, List.length_cons, pow_succ]
    nlinarith

/-- Texts of digits, of one length, are in the order of the numbers. -/
theorem lt_of_ofDigitChars_lt {xs ys : List Char} (hxs : ∀ c ∈ xs, c.isDigit = true)
    (hys : ∀ c ∈ ys, c.isDigit = true) (hlength : xs.length = ys.length)
    (h : Nat.ofDigitChars 10 xs 0 < Nat.ofDigitChars 10 ys 0) : xs < ys := by
  induction xs generalizing ys with
  | nil =>
    rw [List.length_eq_zero_iff.mp hlength.symm] at h
    exact absurd h (lt_irrefl _)
  | cons x xs ih =>
    obtain ⟨y, ys, rfl⟩ := List.exists_cons_of_length_eq_add_one hlength.symm
    rw [List.forall_mem_cons] at hxs hys
    rw [List.length_cons, List.length_cons, Nat.add_right_cancel_iff] at hlength
    rw [ofDigitChars_first, ofDigitChars_first, hlength] at h
    rw [List.cons_lt_cons_iff]
    rcases lt_trichotomy x y with hlt | rfl | hgt
    · exact .inl hlt
    · exact .inr ⟨rfl, ih hxs.2 hys.2 hlength (by omega)⟩
    · -- the first digit decides
      have hbound := ofDigitChars_lt hys.2
      have hfirst : y.toNat - '0'.toNat + 1 ≤ x.toNat - '0'.toNat := by
        have hlt : y.toNat < x.toNat := hgt
        have hzero := hys.1
        simp only [Char.isDigit, Bool.and_eq_true, decide_eq_true_eq, ge_iff_le,
          UInt32.le_iff_toNat_le] at hzero
        have hzero : '0'.toNat ≤ y.toNat := hzero.1
        omega
      have hmul := Nat.mul_le_mul_left (10 ^ ys.length) hfirst
      rw [Nat.mul_add, Nat.mul_one] at hmul
      omega

/-- The digits of a sequence number with leading zeros. -/
theorem pad_digits {n : ℕ} (h : n < 2 ^ 63) : (pad n).toList.length = 19 ∧
    (∀ c ∈ (pad n).toList, c.isDigit = true) ∧ Nat.ofDigitChars 10 (pad n).toList 0 = n := by
  have hsize : (Nat.toDigits 10 n).length ≤ 19 := by
    rw [Nat.length_toDigits_le_iff (by decide) (by decide)]
    omega
  simp only [pad, String.toList_append, String.toList_ofList, toList_toString,
    utf8ByteSize_toString]
  refine ⟨by simp; omega, fun c hc => ?_, ?_⟩
  · rcases List.mem_append.mp hc with hc | hc
    · rw [List.eq_of_mem_replicate hc]
      rfl
    · exact Nat.isDigit_of_mem_toDigits (by decide) (by decide) hc
  · rw [ofDigitChars_zeros, Nat.ofDigitChars_toDigits (by decide) (by decide)]

/-- **Keys of one capture with one time are in the order of the sequence.** -/
theorem orderKey_lt_iff (closed : String) (run capture : Name) {m n : ℕ} (hm : m < 2 ^ 63)
    (hn : n < 2 ^ 63) :
    orderKey closed run capture m < orderKey closed run capture n ↔ m < n := by
  have hlt : ∀ {m n : ℕ}, m < 2 ^ 63 → n < 2 ^ 63 → m < n →
      orderKey closed run capture m < orderKey closed run capture n := by
    intro m n hm hn h
    obtain ⟨hlength, hdigits, hvalue⟩ := pad_digits hm
    obtain ⟨hlength', hdigits', hvalue'⟩ := pad_digits hn
    simp only [String.lt_iff_toList_lt, orderKey, String.toList_append]
    refine List.append_left_lt (lt_of_ofDigitChars_lt hdigits hdigits' ?_ ?_)
    · rw [hlength, hlength']
    · rw [hvalue, hvalue']
      exact h
  refine ⟨fun h => ?_, hlt hm hn⟩
  by_contra hle
  rcases (Nat.le_of_not_lt hle).eq_or_lt with rfl | hgt
  · exact absurd h (lt_irrefl _)
  · exact absurd h (hlt hn hm hgt).not_gt

/-! ## What scans have left to do -/

/-- The segment has a receipt with its key, or is retired. -/
def Store.fixed (s : Store) (run : String) (p : String × Candidate) : Bool :=
  s.segments.any (fun r => r.names run p.2.artifact && r.orderKey == p.1) || decide (p.1 ≤ s.floor)

/-- The segments of a window that are not fixed, and the receipts without a key. -/
def Store.due (s : Store) (run : String) (entries : List (String × Candidate)) : ℕ :=
  entries.countP (fun p => !s.fixed run p) + s.segments.countP fun r => !r.keyed

namespace Store

variable {s t : Store} {run : String} {p : String × Candidate}
  {entries : List (String × Candidate)}

theorem fixed_iff : s.fixed run p = true ↔
    (∃ r ∈ s.segments, r.names run p.2.artifact = true ∧ r.orderKey = p.1) ∨ p.1 ≤ s.floor := by
  simp [fixed]

/-- What a transaction keeps is not due again. -/
theorem unfixed_le (h : ∀ p, s.fixed run p = true → t.fixed run p = true) :
    (entries.countP fun p => !t.fixed run p) ≤ entries.countP fun p => !s.fixed run p := by
  refine List.countP_mono_left fun p _ hp => ?_
  simp only [Bool.not_eq_true', ← Bool.not_eq_true] at hp ⊢
  exact mt (h p) hp

theorem fixed_recycle (h : s.fixed run p = true) : s.recycle.fixed run p = true := by
  obtain ⟨old, hold, hsegments, -⟩ := s.recycle_spec
  rw [fixed_iff] at h ⊢
  rcases h with ⟨r, hr, hnames, hkey⟩ | hle
  · by_cases hgone : old r = true
    · exact .inr (hkey ▸ (hold r hr hgone).2)
    · refine .inl ⟨r, ?_, hnames, hkey⟩
      rw [hsegments]
      exact List.mem_filter.mpr ⟨hr, by simpa using hgone⟩
  · exact .inr (hle.trans s.floor_le_recycle)

theorem due_recycle (s : Store) : s.recycle.due run entries ≤ s.due run entries := by
  obtain ⟨_, -, hsegments, -⟩ := s.recycle_spec
  refine Nat.add_le_add (unfixed_le fun p => fixed_recycle) ?_
  rw [hsegments]
  exact List.filter_sublist.countP_le

/-- A receipt without a key gets one. -/
theorem due_label {r : Receipt} (hr : r ∈ s.segments) (hnames : r.names run p.2.artifact = true)
    (hkeyed : r.keyed = false) (hp : p.1 ≠ "") :
    (s.label run p.2.artifact p.1).due run entries < s.due run entries := by
  have hlabel : ∀ x : Receipt, (x.label run p.2.artifact p.1).keyed = false → x.keyed = false := by
    intro x hx
    rw [Receipt.label] at hx
    split_ifs at hx with h
    · simp [Receipt.keyed, hp] at hx
    · exact hx
  have hfixed : ∀ q, s.fixed run q = true → (s.label run p.2.artifact p.1).fixed run q = true := by
    intro q h
    rw [fixed_iff] at h ⊢
    rcases h with ⟨x, hx, hq, hkey⟩ | hle
    · by_cases hx' : x.keyed = true
      · refine .inl ⟨x, List.mem_map.mpr ⟨x, hx, ?_⟩, hq, hkey⟩
        simp [Receipt.label, hx']
      · rw [Receipt.keyed, bne_iff_ne, not_not] at hx'
        refine .inr (not_lt.mp ?_)
        rw [← hkey, hx', String.lt_iff_toList_lt]
        exact List.not_lt_nil _
    · exact .inr hle
  refine Nat.add_lt_add_of_le_of_lt (unfixed_le hfixed) ?_
  rw [label, List.countP_map]
  refine countP_lt (fun x _ hx => ?_) hr (by simp [hkeyed]) ?_
  · simpa using hlabel x (by simpa using hx)
  · rw [Function.comp_apply, Receipt.label, if_pos (by simp [hnames, hkeyed])]
    simp [Receipt.keyed, hp]

/-- A segment that was not fixed gets its receipt. -/
theorem due_insert {receipt : Receipt} {rows : List Stored} (hp : p ∈ entries)
    (hnew : s.fixed run p = false) (hnames : receipt.names run p.2.artifact = true)
    (hkey : receipt.orderKey = p.1) (hne : p.1 ≠ "") :
    (s.insert receipt rows).due run entries < s.due run entries := by
  refine Nat.add_lt_add_of_lt_of_le ?_ ?_
  · refine countP_lt (fun q _ hq => ?_) hp (by simp [hnew]) ?_
    · simp only [Bool.not_eq_true', ← Bool.not_eq_true, fixed_iff] at hq ⊢
      refine mt (Or.imp_left ?_) hq
      rintro ⟨r, hr, hsame⟩
      exact ⟨r, List.mem_append_left _ hr, hsame⟩
    · simp only [Bool.not_eq_false', fixed_iff]
      exact .inl ⟨receipt, List.mem_append_right _ (List.mem_singleton_self _), hnames, hkey⟩
  · simp [insert, List.countP_append, Receipt.keyed, hkey, hne]

/-- A settled segment has a receipt or is retired. -/
theorem Settled.done (h : s.Settled run p) :
    (∃ r ∈ s.segments, r.names run p.2.artifact = true) ∨ p.1 ≤ s.floor := by
  rcases h with ⟨r, hfind, -⟩ | ⟨-, hle⟩
  · have hnames := List.find?_some hfind
    exact .inl ⟨r, List.mem_of_find?_eq_some hfind, hnames⟩
  · exact .inr hle

end Store

/-! ## Repeated scans -/

/-- If the worker is about to save a segment, it can. -/
def History.Saves (enc : Codec) (disk : Disk) (clock : ℕ → ℤ) (h : History) : Prop :=
  ∀ request key next left accepted, h.scan = some ⟨request, .saving key next left accepted⟩ →
    ∃ status rows store, indexed enc disk request.run next = .ok (status, rows) ∧
      h.store.save enc request.run next.capture next.artifact key status rows clock = .ok store

/-- Scans of one run with one disk, and queries, which ask for them; `n` scans have ended. -/
inductive Rescans (enc : Codec) (disk : Disk) (run : Run) (h₀ : History) : ℕ → History → Prop
  | start : Rescans enc disk run h₀ 0 h₀
  | query {n : ℕ} {h : History} (page : Page) (wall : ℤ) (hr : Rescans enc disk run h₀ n h) :
      Rescans enc disk run h₀ n (h.step enc (.query run page wall))
  | work {n : ℕ} {h : History} (clock : ℕ → ℤ) (hr : Rescans enc disk run h₀ n h)
      (hsaves : h.Saves enc disk clock) :
      Rescans enc disk run h₀
        (if h.scan.isSome && (h.step enc (.work disk clock none)).scan.isNone then n + 1 else n)
        (h.step enc (.work disk clock none))

/-- All of the window is settled. -/
def Store.AllSettled (s : Store) (run : Run) (entries : List (String × Candidate)) : Prop :=
  ∀ p ∈ entries, s.Settled run.id.text p

/-- `n` scans of the window have ended.  Until all of it is settled, each has done something of
what was due at the beginning. -/
inductive Underway (run : Run) (entries : List (String × Candidate)) (bound n : ℕ) (s : Store) :
    Option Scan → Prop
  | idle (h : s.AllSettled run entries ∨ s.due run.id.text entries + n ≤ bound) :
      Underway run entries bound n s none
  | collecting (h : s.AllSettled run entries ∨ s.due run.id.text entries + n ≤ bound) :
      Underway run entries bound n s (some ⟨{ run }, .collecting⟩)
  /-- There is nothing to do, or this scan has done something, or nothing so far. -/
  | visiting {left : List (String × Candidate)} {accepted : ℕ} (hleft : ∀ p ∈ left, p ∈ entries)
      (h : s.AllSettled run entries ∨ s.due run.id.text entries + n < bound ∨
        s.due run.id.text entries + n ≤ bound ∧ accepted = 0 ∧
          ∀ p ∈ entries, p ∈ left ∨ s.Settled run.id.text p) :
      Underway run entries bound n s (some ⟨{ run }, .visiting left accepted⟩)
  | saving {key : String} {next : Candidate} {left : List (String × Candidate)} {accepted : ℕ}
      (hnext : (key, next) ∈ entries) (hleft : ∀ p ∈ left, p ∈ entries)
      (h : s.due run.id.text entries + n ≤ bound) (hnew : s.fixed run.id.text (key, next) = false) :
      Underway run entries bound n s (some ⟨{ run }, .saving key next left accepted⟩)

section Underway

variable {enc : Codec} {disk : Disk} {run : Run} {entries : List (String × Candidate)}
  {bound n : ℕ} {h : History}

/-- A look at the next segment of the window. -/
theorem Underway.look {key : String} {next : Candidate} {left : List (String × Candidate)}
    {accepted : ℕ} (hkeys : ∀ p ∈ entries, p.1 ≠ "")
    (hu : Underway run entries bound n h.store
      (some ⟨{ run }, .visiting ((key, next) :: left) accepted⟩)) :
    Underway run entries bound n (h.look { run } key next left accepted).store
        (h.look { run } key next left accepted).scan ∧
      (h.look { run } key next left accepted).scan.isNone = false ∧
      (h.look { run } key next left accepted).pending = h.pending := by
  cases hu with
  | visiting hleft hphase =>
    obtain ⟨hentry, hrest⟩ := List.forall_mem_cons.mp hleft
    have hopen : ¬h.store.Settled run.id.text (key, next) →
        h.store.due run.id.text entries + n ≤ bound := by
      intro hno
      rcases hphase with hall | hlt | ⟨hle, -⟩
      · exact absurd (hall _ hentry) hno
      · exact hlt.le
      · exact hle
    have hlooked := looked h { run } key next left accepted
    generalize h.look { run } key next left accepted = h' at hlooked ⊢
    cases hlooked with
    | passed _ hsettled =>
      refine ⟨.visiting hrest (hphase.imp_right (Or.imp_right ?_)), rfl, rfl⟩
      rintro ⟨hdue, haccepted, hseen⟩
      refine ⟨hdue, haccepted, fun p hp => ?_⟩
      rcases hseen p hp with hin | hp
      · rcases List.mem_cons.mp hin with rfl | hin
        · exact .inr hsettled
        · exact .inl hin
      · exact .inr hp
    | @labelled r hfind hkeyed =>
      have hnames := List.find?_some hfind
      have hlabel := @Store.due_label h.store run.id.text (key, next) entries r
        (List.mem_of_find?_eq_some hfind) hnames hkeyed (hkeys _ hentry)
      have hrecycle := @Store.due_recycle run.id.text entries
        (h.store.label run.id.text next.artifact key)
      have hdue := hopen (by
        rintro (⟨r', hfind', hkeyed'⟩ | ⟨hnone, -⟩)
        · cases hfind.symm.trans hfind'
          rw [hkeyed] at hkeyed'
          cases hkeyed'
        · cases hfind.symm.trans hnone)
      have hless := (Nat.add_lt_add_right (hrecycle.trans_lt hlabel) n).trans_le hdue
      exact ⟨.visiting hrest (.inr (.inl hless)), rfl, rfl⟩
    | ended hfull =>
      refine ⟨.visiting (by simp) (hphase.imp_right (Or.imp_right ?_)), rfl, rfl⟩
      rintro ⟨-, rfl, -⟩
      exact absurd hfull.2 (by decide)
    | taken habsent hfloor =>
      have hnew : ∀ r ∈ h.store.segments, ¬r.names run.id.text next.artifact = true :=
        fun r hr hnames => habsent r hr (by simpa [Receipt.names] using hnames)
      refine ⟨.saving hentry hrest (hopen ?_) ?_, rfl, rfl⟩
      · rintro (⟨r, hfind, -⟩ | ⟨-, hle⟩)
        · have hnames := List.find?_some hfind
          exact hnew r (List.mem_of_find?_eq_some hfind) hnames
        · exact absurd hle (hfloor rfl).not_ge
      · rw [← Bool.not_eq_true, Store.fixed_iff]
        rintro (⟨r, hr, hnames, -⟩ | hle)
        · exact hnew r hr hnames
        · exact absurd hle (hfloor rfl).not_ge

/-- One step of the worker, which may end a scan. -/
theorem Underway.work (hkeys : ∀ p ∈ entries, p.1 ≠ "") {w : Window String Candidate}
    (hcollect : collect disk run = .ok w) (hw : w.entries = entries) {clock : ℕ → ℤ}
    (hsaves : h.Saves enc disk clock) (hpending : h.pending = none ∨ h.pending = some { run })
    (hu : Underway run entries bound n h.store h.scan) :
    Underway run entries bound
      (if h.scan.isSome && (h.work enc disk clock none).scan.isNone then n + 1 else n)
      (h.work enc disk clock none).store (h.work enc disk clock none).scan ∧
    ((h.work enc disk clock none).pending = none ∨
      (h.work enc disk clock none).pending = some { run }) := by
  rw [History.work]
  generalize hscan : h.scan = scan at hu
  cases hu with
  | idle hdue =>
    dsimp only
    rcases hpending with hnone | hsome
    · have htake : h.take = h := by rw [History.take, hscan, hnone]
      rw [htake, hscan]
      exact ⟨.idle hdue, .inl hnone⟩
    · rw [History.take, hscan, hsome]
      exact ⟨.collecting hdue, .inl rfl⟩
  | collecting hdue =>
    simp only [History.collecting, hcollect]
    refine ⟨.visiting (fun p hp => hw ▸ hp) (hdue.imp_right fun hdue => ?_), hpending⟩
    exact .inr ⟨hdue, rfl, fun p hp => .inl (hw ▸ hp)⟩
  | @visiting left accepted hleft hphase =>
    cases left with
    | nil =>
      refine ⟨.idle ?_, hpending⟩
      rcases hphase with hall | hlt | ⟨-, -, hseen⟩
      · exact .inl hall
      · exact .inr hlt
      · exact .inl fun p hp => (hseen p hp).resolve_left List.not_mem_nil
    | cons =>
      obtain ⟨hlook, hbusy, hsame⟩ := Underway.look (h := h) hkeys (.visiting hleft hphase)
      dsimp only
      rw [hbusy, hsame, Bool.and_false, if_neg Bool.false_ne_true]
      exact ⟨hlook, hpending⟩
  | @saving key next left accepted hnext hleft hdue hnew =>
    obtain ⟨status, rows, _, hindexed, hsave⟩ := hsaves _ _ _ _ _ hscan
    have hinsert := @Store.due_insert h.store run.id.text (key, next) entries
      (receiptOf run next key status)
      (stored run next.capture next.artifact clock h.store.sequence rows) hnext hnew
      (by simp [Receipt.names, receiptOf]) rfl (hkeys _ hnext)
    simp only [History.saveNext, hindexed, ok_bind, hsave]
    refine ⟨.visiting hleft (.inr (.inl ?_)), hpending⟩
    obtain ⟨-, rfl⟩ := save_cases hsave
    have hrecycle := @Store.due_recycle run.id.text entries
      ((h.store.insert (receiptOf run next key status)
        (stored run next.capture next.artifact clock h.store.sequence rows)).prune enc
          (clock rows.length))
    exact (Nat.add_lt_add_right (hrecycle.trans_lt hinsert) n).trans_le hdue

/-- A query prunes rows only. -/
theorem Underway.prune {s : Store} {scan : Option Scan} (wall : ℤ)
    (hu : Underway run entries bound n s scan) :
    Underway run entries bound n (s.prune enc wall) scan := by
  cases hu with
  | idle hdue => exact .idle hdue
  | collecting hdue => exact .collecting hdue
  | visiting hleft hphase => exact .visiting hleft hphase
  | saving hnext hleft hdue hnew => exact .saving hnext hleft hdue hnew

/-- More scans than there was to do. -/
theorem Underway.allSettled {s : Store} {scan : Option Scan}
    (hu : Underway run entries bound n s scan) (hn : bound < n) : s.AllSettled run entries := by
  cases hu with
  | idle hdue => exact hdue.resolve_right (by omega)
  | collecting hdue => exact hdue.resolve_right (by omega)
  | visiting hleft hphase =>
    rcases hphase with hall | hlt | ⟨hle, -⟩
    · exact hall
    · omega
    · omega
  | saving => omega

/-- What scans have left to do after `n` of them. -/
theorem Rescans.underway {h₀ : History} {w : Window String Candidate}
    (hcollect : collect disk run = .ok w) (hidle : h₀.scan = none) (hpending : h₀.pending = none)
    (hr : Rescans enc disk run h₀ n h) :
    Underway run w.entries (h₀.store.due run.id.text w.entries) n h.store h.scan ∧
      (h.pending = none ∨ h.pending = some { run }) := by
  have hkeys : ∀ p ∈ w.entries, p.1 ≠ "" := by
    intro p hp
    obtain ⟨-, -, _, _, -, -, -, -, hkey⟩ := meets_of_collect hcollect hp
    rw [hkey]
    exact orderKey_ne_empty _ _ _ _
  induction hr with
  | start =>
    rw [hidle]
    exact ⟨.idle (.inr le_rfl), .inl hpending⟩
  | @query n h page wall _ ih =>
    rw [History.step]
    rcases query_cases enc h run page wall with heq | ⟨pending, heq, hpending⟩
    · rw [heq]
      exact ih
    · rw [heq]
      refine ⟨ih.1.prune wall, ?_⟩
      rcases hpending with rfl | ⟨-, rfl⟩
      · exact ih.2
      · exact .inr rfl
  | work clock _ hsaves ih => exact ih.1.work hkeys hcollect rfl hsaves ih.2

end Underway

/-- **The window of a scan.**  It has the newest 1000 of the keys that the scan meets, each once, and
says whether there are more; keys of one capture that was closed at one time are in the order of
the sequence; and scans of a run that does not change, if no save fails, end with every segment of
the window receipted or retired. -/
theorem candidate_window {disk : Disk} {run : Run} {w : Window String Candidate}
    (h : collect disk run = .ok w) :
    (∃ keys : List String, keys.Pairwise (· < ·) ∧ (∀ k, k ∈ keys ↔ ∃ x, Meets disk run k x) ∧
      w.entries.map Prod.fst = latest 1000 keys ∧ (w.truncated = true ↔ 1000 < keys.length)) ∧
    (∀ closed (capture : Name) m n, m < 2 ^ 63 → n < 2 ^ 63 →
      (orderKey closed run.id capture m < orderKey closed run.id capture n ↔ m < n)) ∧
    ∀ enc (h₀ : History), h₀.scan = none → h₀.pending = none →
      ∃ scans, ∀ n h', Rescans enc disk run h₀ n h' → scans ≤ n → ∀ p ∈ w.entries,
        (∃ r ∈ h'.store.segments, r.names run.id.text p.2.artifact = true) ∨
          p.1 ≤ h'.store.floor := by
  refine ⟨?_, fun closed capture m n hm hn => orderKey_lt_iff closed run.id capture hm hn, ?_⟩
  · obtain ⟨xs, rfl, hxs⟩ := collect_gathers h
    obtain ⟨hadds, hsorted, hkeys⟩ := Window.adds_eq 1000 xs
    refine ⟨(emplaces xs []).map Prod.fst, List.pairwise_map.mpr hsorted, fun k => ?_, ?_, ?_⟩
    · rw [hkeys, List.mem_map]
      constructor
      · rintro ⟨p, hp, rfl⟩
        exact ⟨p.2, (hxs _ _).mp hp⟩
      · rintro ⟨x, hx⟩
        exact ⟨(k, x), (hxs _ _).mpr hx, rfl⟩
    · rw [hadds, latest, latest, List.length_map, List.map_drop]
    · rw [hadds, List.length_map, decide_eq_true_eq]
  · intro enc h₀ hidle hpending
    refine ⟨h₀.store.due run.id.text w.entries + 1, fun n h' hr hn p hp => ?_⟩
    exact ((hr.underway h hidle hpending).1.allSettled hn p hp).done

theorem candidate_window_sample : ∃ w keys, collect sampleDisk sampleRun = .ok w ∧
    w.entries.length = 1 ∧ w.entries.map Prod.fst = latest 1000 keys ∧
      (w.truncated = true ↔ 1000 < keys.length) := by
  have hone : (collect sampleDisk sampleRun).toOption.map (·.entries.length) = some 1 := by
    decide
  cases hcollect : collect sampleDisk sampleRun with
  | error => simp [hcollect, Except.toOption] at hone
  | ok w =>
    obtain ⟨⟨keys, -, -, hentries, htruncated⟩, -⟩ := candidate_window hcollect
    refine ⟨w, keys, rfl, ?_, hentries, htruncated⟩
    simpa [hcollect, Except.toOption] using hone

end Graphlab.Packets
