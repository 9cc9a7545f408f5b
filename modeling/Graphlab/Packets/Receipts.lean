import Graphlab.Packets.Bounds
import Graphlab.Packets.Keys

/-!
# Receipts, rows and the retirement floor

Receipts are evicted while their rows stay, a rebuild indexes below the floor, and receipts
of the first version get their keys late.  What links the three is `Sound.covered`: a row
whose receipt is gone has a key at or below the floor.  A scan that is no rebuild passes
over such keys; a rebuild starts without any row of its run (`Scan.Fine`).

## Main results

* `History.run_inv` — the invariant along every run.
* `catalog_sound` — no packet has two rows, evictions are exact, the floor is final and a
  segment is committed as a whole.
-/

namespace Graphlab.Packets

open Lib Capture

/-! ## Packet indices -/

/-- The rows so far have different packet indices. -/
structure Progress.Distinct (p : Progress) : Prop where
  nodup : (p.items.map Row.packetIndex).Nodup
  lt : ∀ r ∈ p.items, ∃ n < p.packets, r.packetIndex = toString n

theorem Progress.Distinct.took {limit type : ℕ} {b : Bytes} {p p' : Progress}
    (h : Took limit b type p p') (hp : p.Distinct) : p'.Distinct := by
  cases h with
  | packet _ _ _ _ _ _ _ _ _ hitems =>
    have hlt : ∀ r ∈ p.items, ∃ n < p.packets + 1, r.packetIndex = toString n := fun r hr => by
      obtain ⟨n, hn, heq⟩ := hp.lt r hr
      exact ⟨n, by omega, heq⟩
    rcases hitems with ⟨rfl, -⟩ | ⟨row, hrow, rfl⟩
    · exact ⟨hp.nodup, hlt⟩
    refine ⟨?_, fun r hr => ?_⟩
    · rw [List.map_append, List.nodup_append]
      refine ⟨hp.nodup, by simp, fun x hx y hy heq => ?_⟩
      obtain ⟨r, hr, rfl⟩ := List.mem_map.mp hx
      obtain ⟨_, _, hindex⟩ := hp.lt r hr
      simp only [List.map_cons, List.map_nil, List.mem_singleton, hrow] at hy
      have := toString_inj ((hindex.symm.trans heq).trans hy)
      omega
    · rcases List.mem_append.mp hr with hr | hr
      · exact hlt r hr
      · rw [List.mem_singleton.mp hr]
        exact ⟨p.packets, Nat.lt_succ_self _, hrow⟩
  | _ => exact ⟨hp.nodup, hp.lt⟩

/-- **The rows of a file have different packet indices.** -/
theorem decode_nodup {bytes : Bytes} {context : Context} {limit : ℕ} {d : Decoded}
    (h : decode bytes context limit = .ok d) : (d.items.map Row.packetIndex).Nodup := by
  obtain ⟨-, _, _, -, hp, -, -, rfl⟩ := decode_iff_reads.mp h
  exact (hp.invariant Progress.Distinct.took ⟨by simp, by simp⟩).nodup

variable {disk : Disk} {run : Run} {status : Status} {rows : List Row} {artifact key : String}
    {next : Candidate} {clock : ℕ → ℤ} {accepted : ℕ}

theorem indexed_nodup {enc : Codec} {x : Candidate}
    (h : indexed enc disk run x = .ok (status, rows)) : (rows.map Row.packetIndex).Nodup := by
  simp only [indexed, bind_eq_ok] at h
  obtain ⟨sha256, -, _, -, h⟩ := h
  cases hexamine : examine enc disk run x with
  | error =>
    simp only [hexamine] at h
    cases h
    simp
  | ok =>
    simp only [hexamine] at h
    cases h
    simp only [examine, bind_eq_ok] at hexamine
    obtain ⟨-, -, -, -, -, -, -, -, _, -, -, -, _, -, _, hdecode, -, -, -, -, hd⟩ :=
      hexamine
    cases hd
    exact decode_nodup hdecode

/-! ## What the statements do -/

namespace Store

variable {enc : Codec} {wall : ℤ} {s : Store}

/-- **What `recycle` does**: some receipts with keys up to the floor are moved to the evicted
ones; if the keys differ, they are those beyond the newest 1000. -/
theorem recycle_spec (s : Store) : ∃ old : Receipt → Bool,
    (∀ r ∈ s.segments, old r = true → r.keyed = true ∧ r.orderKey ≤ s.recycle.floor) ∧
    s.recycle.segments = s.segments.filter (fun r => !old r) ∧
    s.recycle.evicted = s.evicted ++ s.segments.filter old ∧
    ((s.keyed.map Receipt.orderKey).Nodup → ∀ r ∈ s.keyed,
      (old r = true ↔ 1000 ≤ above (s.keyed.map Receipt.orderKey) r.orderKey)) := by
  rw [recycle]
  cases hrank : ranked 1000 (s.keyed.map Receipt.orderKey) with
  | none =>
    refine ⟨fun _ => false, by simp, by simp, by simp, fun _ r hr => ?_⟩
    have hlt := above_lt_length (List.mem_map_of_mem (f := Receipt.orderKey) hr)
    have hle := ranked_eq_none.mp hrank
    simp only [Bool.false_eq_true, false_iff]
    omega
  | some key =>
    refine ⟨fun r => r.keyed && decide (r.orderKey ≤ key), fun r _ hold => ?_, rfl, rfl,
      fun hnodup r hr => ?_⟩
    · simp only [Bool.and_eq_true, decide_eq_true_eq] at hold
      exact ⟨hold.1, hold.2.trans (le_max_right _ _)⟩
    · have hkeyed : r.keyed = true := (List.mem_filter.mp hr).2
      simp only [hkeyed, Bool.true_and, decide_eq_true_eq]
      exact le_ranked_iff hnodup hrank (List.mem_map_of_mem hr)

/-- At most 1000 receipts with a key are left. -/
theorem keyed_recycle_le (s : Store) : s.recycle.keyed.length ≤ 1000 := by
  rw [recycle]
  cases hrank : ranked 1000 (s.keyed.map Receipt.orderKey) with
  | none => simpa using ranked_eq_none.mp hrank
  | some =>
    refine le_trans (le_of_eq ?_) (above_ranked_le hrank)
    simp only [keyed, above, List.filter_filter, List.filter_map, List.length_map,
      Function.comp_def]
    refine congrArg List.length (List.filter_congr fun r _ => ?_)
    cases r.keyed with
    | false => simp only [Bool.false_and, Bool.and_false]
    | true => simp only [Bool.true_and, Bool.and_true, ← decide_not, not_le]

theorem floor_le_recycle (s : Store) : s.floor ≤ s.recycle.floor := by
  rw [recycle]
  cases ranked 1000 (s.keyed.map Receipt.orderKey) with
  | none => exact le_rfl
  | some => exact le_max_left _ _

@[simp] theorem rows_recycle (s : Store) : s.recycle.rows = s.rows := by
  rw [recycle]
  split <;> rfl

@[simp] theorem sequence_recycle (s : Store) : s.recycle.sequence = s.sequence := by
  rw [recycle]
  split <;> rfl

theorem mem_of_mem_recycle {r : Receipt} (h : r ∈ s.recycle.segments) : r ∈ s.segments := by
  obtain ⟨_, -, hsegments, -⟩ := recycle_spec s
  rw [hsegments] at h
  exact (List.mem_filter.mp h).1

theorem shed_suffix (enc : Codec) (rows : List Stored) : shed enc rows <:+ rows := by
  fun_induction shed enc rows with
  | case1 rows hlarge ih => exact ih.trans (List.drop_suffix _ _)
  | case2 rows hsmall => exact List.suffix_rfl

theorem recent_sublist (wall : ℤ) (rows : List Stored) : (recent wall rows).Sublist rows :=
  List.filter_sublist

theorem newest_suffix (rows : List Stored) : newest rows <:+ rows := List.drop_suffix _ _

theorem rows_prune_sublist (enc : Codec) (wall : ℤ) (s : Store) :
    (s.prune enc wall).rows.Sublist s.rows := by
  rw [prune]
  exact (shed_suffix enc _).sublist.trans ((newest_suffix _).sublist.trans (recent_sublist wall _))

end Store

/-! ## The invariant of the tables -/

/-- No row belongs to a segment. -/
def Store.Untouched (s : Store) (run artifact : String) : Prop :=
  ∀ row ∈ s.rows, ¬(row.run = run ∧ row.artifact = artifact)

/-- What identifies the packet of a row. -/
def Stored.packet (r : Stored) : String × String × String := (r.run, r.artifact, r.body.packetIndex)

/-- The tables fit together. -/
structure Sound (closedAt : String → String → ℕ → String) (s : Store) : Prop where
  unique : (s.segments.map fun r => (r.run, r.artifact)).Nodup
  named : ∀ r ∈ s.segments, r.keyed = true → Names closedAt r.run r.artifact r.orderKey
  single : (s.rows.map Stored.packet).Nodup
  /-- A row whose receipt is gone has a key up to the floor. -/
  covered : ∀ row ∈ s.rows, (∃ r ∈ s.segments, r.run = row.run ∧ r.artifact = row.artifact) ∨
    ∃ key, Names closedAt row.run row.artifact key ∧ key ≤ s.floor
  retired : ∀ r ∈ s.evicted, Names closedAt r.run r.artifact r.orderKey ∧ r.orderKey ≤ s.floor

namespace Sound

variable {closedAt : String → String → ℕ → String} {enc : Codec} {wall : ℤ} {s : Store}

/-- Receipts with a key have different keys. -/
theorem keys_nodup (h : Sound closedAt s) : (s.keyed.map Receipt.orderKey).Nodup := by
  have hpairs : (s.keyed.map fun r => (r.run, r.artifact)).Nodup :=
    h.unique.sublist (List.filter_sublist.map _)
  refine List.Nodup.map_on (fun r hr r' hr' heq => ?_) (List.Nodup.of_map _ hpairs)
  have hmem := List.mem_filter.mp hr
  have hmem' := List.mem_filter.mp hr'
  have hsame := (h.named r hmem.1 hmem.2).injective (heq ▸ h.named r' hmem'.1 hmem'.2)
  exact List.inj_on_of_nodup_map hpairs hr hr' (Prod.ext hsame.1 hsame.2)

theorem prune (h : Sound closedAt s) : Sound closedAt (s.prune enc wall) where
  unique := h.unique
  named := h.named
  single := h.single.sublist ((Store.rows_prune_sublist enc wall s).map _)
  covered row hrow := h.covered row ((Store.rows_prune_sublist enc wall s).subset hrow)
  retired := h.retired

theorem maintain (h : Sound closedAt s) (state : MaintenanceState) (e : Option String) :
    Sound closedAt (s.maintain state e) :=
  ⟨h.unique, h.named, h.single, h.covered, h.retired⟩

theorem clear (h : Sound closedAt s) (run : Run) (id : String) :
    Sound closedAt (s.clear run id) where
  unique := h.unique.sublist (List.filter_sublist.map _)
  named r hr := h.named r (List.mem_filter.mp hr).1
  single := h.single.sublist (List.filter_sublist.map _)
  covered row hrow := by
    obtain ⟨hrow, hrun⟩ := List.mem_filter.mp hrow
    refine (h.covered row hrow).imp_left fun ⟨r, hr, hsame⟩ => ⟨r, ?_, hsame⟩
    exact List.mem_filter.mpr ⟨hr, by simpa [hsame.1] using hrun⟩
  retired := h.retired

theorem recycle (h : Sound closedAt s) : Sound closedAt s.recycle := by
  obtain ⟨old, hold, hsegments, hevicted, -⟩ := s.recycle_spec
  have hfloor := s.floor_le_recycle
  refine ⟨?_, fun r hr => h.named r (Store.mem_of_mem_recycle hr), ?_, fun row hrow => ?_,
    fun r hr => ?_⟩
  · rw [hsegments]
    exact h.unique.sublist (List.filter_sublist.map _)
  · rw [Store.rows_recycle]
    exact h.single
  · rw [Store.rows_recycle] at hrow
    rcases h.covered row hrow with ⟨r, hr, hsame⟩ | ⟨key, hkey, hle⟩
    · by_cases hkept : old r = true
      · obtain ⟨hkeyed, hle⟩ := hold r hr hkept
        exact .inr ⟨r.orderKey, hsame.1 ▸ hsame.2 ▸ h.named r hr hkeyed, hle⟩
      · refine .inl ⟨r, ?_, hsame⟩
        rw [hsegments]
        exact List.mem_filter.mpr ⟨hr, by simpa using hkept⟩
    · exact .inr ⟨key, hkey, hle.trans hfloor⟩
  · rw [hevicted] at hr
    rcases List.mem_append.mp hr with hr | hr
    · exact (h.retired r hr).imp_right fun hle => hle.trans hfloor
    · obtain ⟨hr, hkept⟩ := List.mem_filter.mp hr
      obtain ⟨hkeyed, hle⟩ := hold r hr hkept
      exact ⟨h.named r hr hkeyed, hle⟩

/-- A receipt of the first version gets its key. -/
theorem label (h : Sound closedAt s) {run : String} (hkey : Names closedAt run artifact key) :
    Sound closedAt (s.label run artifact key) := by
  have hpair : ∀ r, ((Receipt.label run artifact key r).run,
      (Receipt.label run artifact key r).artifact) = (r.run, r.artifact) := fun r => by
    rw [Receipt.label]
    split <;> rfl
  refine ⟨?_, fun r hr hkeyed => ?_, h.single, fun row hrow => ?_, h.retired⟩
  · simpa only [Store.label, List.map_map, Function.comp_def, hpair] using h.unique
  · obtain ⟨r₀, hr₀, rfl⟩ := List.mem_map.mp hr
    rw [Receipt.label] at hkeyed ⊢
    by_cases hnew : (r₀.names run artifact && !r₀.keyed) = true
    · rw [if_pos hnew]
      simp only [Receipt.names, Bool.and_eq_true, beq_iff_eq] at hnew
      obtain ⟨⟨rfl, rfl⟩, -⟩ := hnew
      exact hkey
    · rw [if_neg hnew] at hkeyed ⊢
      exact h.named r₀ hr₀ hkeyed
  · refine (h.covered row hrow).imp_left fun ⟨r, hr, hsame⟩ => ?_
    have hboth := Prod.ext_iff.mp (hpair r)
    exact ⟨_, List.mem_map_of_mem hr, hboth.1.trans hsame.1, hboth.2.trans hsame.2⟩

/-- A segment that has neither receipt nor rows is inserted. -/
theorem insert (h : Sound closedAt s) {receipt : Receipt} {rows : List Stored}
    (hkey : Names closedAt receipt.run receipt.artifact receipt.orderKey)
    (hnew : ∀ r ∈ s.segments, ¬(r.run = receipt.run ∧ r.artifact = receipt.artifact))
    (huntouched : s.Untouched receipt.run receipt.artifact)
    (hrows : ∀ row ∈ rows, row.run = receipt.run ∧ row.artifact = receipt.artifact)
    (hsingle : (rows.map Stored.packet).Nodup) : Sound closedAt (s.insert receipt rows) := by
  refine ⟨?_, fun r hr hkeyed => ?_, ?_, fun row hrow => ?_, h.retired⟩
  · simp only [Store.insert, List.map_append, List.map_cons, List.map_nil]
    refine List.nodup_append.mpr ⟨h.unique, by simp, fun x hx y hy heq => ?_⟩
    obtain ⟨r, hr, rfl⟩ := List.mem_map.mp hx
    have hpair := Prod.ext_iff.mp (heq.trans (List.mem_singleton.mp hy))
    exact hnew r hr ⟨hpair.1, hpair.2⟩
  · rcases List.mem_append.mp hr with hr | hr
    · exact h.named r hr hkeyed
    · rw [List.mem_singleton.mp hr]
      exact hkey
  · simp only [Store.insert, List.map_append]
    refine List.nodup_append.mpr ⟨h.single, hsingle, fun x hx y hy heq => ?_⟩
    obtain ⟨row, hrow, rfl⟩ := List.mem_map.mp hx
    obtain ⟨row', hrow', rfl⟩ := List.mem_map.mp hy
    simp only [Stored.packet, Prod.mk.injEq] at heq
    have hsame := hrows row' hrow'
    exact huntouched row hrow ⟨heq.1.trans hsame.1, heq.2.1.trans hsame.2⟩
  · rcases List.mem_append.mp hrow with hrow | hrow
    · exact (h.covered row hrow).imp_left fun ⟨r, hr, hsame⟩ =>
        ⟨r, List.mem_append_left _ hr, hsame⟩
    · have hsame := hrows row hrow
      exact .inl ⟨receipt, List.mem_append_right _ (List.mem_singleton_self _), hsame.1.symm,
        hsame.2.symm⟩

end Sound

/-! ## What a step commits -/

/-- The receipt that `save` inserts. -/
def receiptOf (run : Run) (x : Candidate) (key : String) (status : Status) : Receipt :=
  { run := run.id.text
    artifact := x.artifact
    body := { status with artifactId := x.artifact, edge := x.capture.edge }
    orderKey := key }

/-- What one step can do to the tables. -/
inductive Committed (enc : Codec) (h : History) : Step → Store → Prop
  /-- At most the maintenance record is written. -/
  | nothing {x : Step} (maintenance : Option Maintenance) :
      Committed enc h x { h.store with maintenance }
  | pruned {run : Run} {page : Page} {wall : ℤ} :
      Committed enc h (.query run page wall) (h.store.prune enc wall)
  | cleared {run : Run} {id : String} : Committed enc h (.rebuild run id) (h.store.clear run id)
  /-- A receipt of the first version gets its key. -/
  | labelled {disk : Disk} {clock : ℕ → ℤ} {request : Request} {key : String} {next : Candidate}
      {left : List (String × Candidate)} {accepted : ℕ}
      (scan : h.scan = some ⟨request, .visiting ((key, next) :: left) accepted⟩) :
      Committed enc h (.work disk clock none)
        (h.store.label request.run.id.text next.artifact key).recycle
  /-- A segment is indexed: its receipt and all its rows are inserted. -/
  | saved {disk : Disk} {clock : ℕ → ℤ} {request : Request} {key : String} {next : Candidate}
      {left : List (String × Candidate)} {accepted : ℕ} {status : Status} {rows : List Row}
      (scan : h.scan = some ⟨request, .saving key next left accepted⟩)
      (indexed : indexed enc disk request.run next = .ok (status, rows))
      (room : h.store.sequence + rows.length < 2 ^ 63) :
      Committed enc h (.work disk clock none)
        (((h.store.insert (receiptOf request.run next key status)
          (stored request.run next.capture next.artifact clock h.store.sequence rows)).prune enc
            (clock rows.length)).recycle)

section Committed

variable {enc : Codec} {h : History}

theorem save_cases {s s' : Store}
    (hsave : s.save enc run next.capture next.artifact key status rows clock = .ok s') :
    s.sequence + rows.length < 2 ^ 63 ∧
      s' = (((s.insert (receiptOf run next key status)
        (stored run next.capture next.artifact clock s.sequence rows)).prune enc
          (clock rows.length)).recycle) := by
  simp only [Store.save, bind_eq_ok, check_eq_ok, decide_eq_true_eq] at hsave
  obtain ⟨-, -, -, -, -, hroom, hsave⟩ := hsave
  cases hsave
  exact ⟨hroom, rfl⟩

theorem query_cases (enc : Codec) (h : History) (run : Run) (p : Page) (wall : ℤ) :
    (h.query enc run p wall).2 = h ∨ ∃ pending, (h.query enc run p wall).2 =
        { h with store := h.store.prune enc wall, pending } ∧
      (pending = h.pending ∨ h.scan = none ∧ pending = some { run }) := by
  have hserve : ∀ (h : History) top before, ∃ pending, (h.serve enc run p top before).2 =
      { h with pending } ∧ (pending = h.pending ∨ h.scan = none ∧ pending = some { run }) := by
    intro h top before
    simp only [History.serve]
    split
    · rename_i hidle
      simp only [Bool.and_eq_true, Option.isNone_iff_eq_none] at hidle
      exact ⟨some { run }, rfl, .inr ⟨hidle.1, rfl⟩⟩
    · exact ⟨h.pending, rfl, .inl rfl⟩
  rw [History.query]
  split_ifs
  · exact .inl rfl
  · exact .inl rfl
  · right
    cases p.cursor with
    | none =>
      obtain ⟨pending, heq, hpending⟩ :=
        hserve { h with store := h.store.prune enc wall } (h.store.prune enc wall).top
          ((h.store.prune enc wall).top + 1)
      exact ⟨pending, heq, hpending⟩
    | some c =>
      cases hresume : resume enc (h.store.prune enc wall) run p.filter c with
      | error => exact ⟨h.pending, by simp only [hresume], .inl rfl⟩
      | ok bounds =>
        obtain ⟨pending, heq, hpending⟩ :=
          hserve { h with store := h.store.prune enc wall } bounds.1 bounds.2
        exact ⟨pending, by simpa only [hresume] using heq, hpending⟩

theorem committed_abandon {x : Step} (request : Request) (e : String) :
    Committed enc h x (h.abandon request e).store := by
  simp only [History.abandon]
  split
  · exact .nothing _
  · exact .nothing h.store.maintenance

/-- `known` passes over a segment: it has a receipt with a key, or none and is retired. -/
def Store.Settled (s : Store) (run : String) (p : String × Candidate) : Prop :=
  (∃ r, s.segments.find? (·.names run p.2.artifact) = some r ∧ r.keyed = true) ∨
    s.segments.find? (·.names run p.2.artifact) = none ∧ p.1 ≤ s.floor

/-- The outcomes of looking at a candidate. -/
inductive Looked (h : History) (request : Request) (key : String) (next : Candidate)
    (left : List (String × Candidate)) (accepted : ℕ) : History → Prop
  | passed (retiredInScan : ℕ) (settled : h.store.Settled request.run.id.text (key, next)) :
      Looked h request key next left accepted
        ({ h with retiredInScan }.goto request (.visiting left accepted))
  | labelled {r : Receipt}
      (found : h.store.segments.find? (·.names request.run.id.text next.artifact) = some r)
      (keyed : r.keyed = false) :
      Looked h request key next left accepted
        ({ h with store := (h.store.label request.run.id.text next.artifact key).recycle }.goto
          request (.visiting left accepted))
  | ended (full : request.rebuild = false ∧ 128 ≤ accepted) :
      Looked h request key next left accepted (h.goto request (.visiting [] accepted))
  | taken (absent : ∀ r ∈ h.store.segments,
        ¬(r.run = request.run.id.text ∧ r.artifact = next.artifact))
      (floor : request.rebuild = false → h.store.floor < key) :
      Looked h request key next left accepted
        (h.goto request (.saving key next left (accepted + 1)))

theorem looked (h : History) (request : Request) (key : String) (next : Candidate)
    (left : List (String × Candidate)) (accepted : ℕ) :
    Looked h request key next left accepted (h.look request key next left accepted) := by
  rw [History.look, Store.known]
  cases hfind : h.store.segments.find? (·.names request.run.id.text next.artifact) with
  | some r =>
    dsimp only
    cases hkeyed : r.keyed with
    | true => exact .passed h.retiredInScan (.inl ⟨r, hfind, hkeyed⟩)
    | false => exact .labelled hfind hkeyed
  | none =>
    dsimp only
    by_cases hretired : (!request.rebuild && decide (key ≤ h.store.floor)) = true
    · rw [if_pos hretired]
      simp only [Bool.and_eq_true, decide_eq_true_eq] at hretired
      exact .passed (h.retiredInScan + 1) (.inr ⟨hfind, hretired.2⟩)
    · rw [if_neg hretired]
      dsimp only
      split_ifs with hfull
      · exact .ended (by simpa using hfull)
      · refine .taken (fun r hr hsame => ?_) fun hrebuild => by simpa [hrebuild] using hretired
        have := List.find?_eq_none.mp hfind r hr
        simp [Receipt.names, hsame] at this

theorem committed_look {request : Request} {left : List (String × Candidate)}
    (hscan : h.scan = some ⟨request, .visiting ((key, next) :: left) accepted⟩) :
    Committed enc h (.work disk clock none) (h.look request key next left accepted).store := by
  have hlooked := looked h request key next left accepted
  generalize h.look request key next left accepted = h' at hlooked ⊢
  cases hlooked with
  | passed => exact .nothing h.store.maintenance
  | labelled => exact .labelled hscan
  | ended => exact .nothing h.store.maintenance
  | taken => exact .nothing h.store.maintenance

/-- **What a step commits.** -/
theorem step_committed (enc : Codec) (h : History) (x : Step) : Committed enc h x (h.step enc x).store := by
  have hkeep : ∀ {x : Step}, Committed enc h x h.store := .nothing h.store.maintenance
  cases x with
  | query run page wall =>
    rcases query_cases enc h run page wall with heq | ⟨pending, heq, -⟩
    · rw [History.step, heq]
      exact hkeep
    · rw [History.step, heq]
      exact .pruned
  | rebuild =>
    simp only [History.step, History.rebuild]
    split
    · exact hkeep
    · exact .cleared
  | restart =>
    simp only [History.step, History.restart]
    split
    · exact .nothing _
    · exact hkeep
  | work disk clock fault =>
    rw [History.step, History.work]
    cases hscan : h.scan with
    | none =>
      dsimp only
      rw [History.take, hscan]
      cases h.pending with
      | none => exact hkeep
      | some => exact hkeep
    | some sc =>
      obtain ⟨request, phase⟩ := sc
      cases fault with
      | some e => exact committed_abandon request e
      | none =>
        cases phase with
        | collecting =>
          simp only [History.collecting]
          cases collect disk request.run with
          | error =>
            simp only [History.abandon]
            split
            · exact .nothing _
            · exact hkeep
          | ok =>
            simp only [History.goto]
            split
            · exact .nothing _
            · exact hkeep
        | visiting left accepted =>
          cases left with
          | nil =>
            dsimp only
            split
            · exact .nothing _
            · exact hkeep
          | cons => exact committed_look hscan
        | saving key next left accepted =>
          simp only [History.saveNext]
          cases hindexed : indexed enc disk request.run next with
          | error e => exact committed_abandon request e
          | ok result =>
            obtain ⟨status, rows⟩ := result
            simp only [ok_bind]
            cases hsave : h.store.save enc request.run next.capture next.artifact key
                status rows clock with
            | error e => exact committed_abandon request e
            | ok s' =>
              obtain ⟨hroom, rfl⟩ := save_cases hsave
              exact .saved hscan hindexed hroom

end Committed

/-! ## The invariant of the history -/

/-- The candidates that a scan has yet to visit; those of a rebuild have no rows. -/
structure Visits (closedAt : String → String → ℕ → String) (s : Store) (q : Request)
    (left : List (String × Candidate)) : Prop where
  collected : Collected closedAt q.run left
  fresh : q.rebuild = true → ∀ p ∈ left, s.Untouched q.run.id.text p.2.artifact

/-- What holds in a phase of a scan. -/
def Phase.Fine (closedAt : String → String → ℕ → String) (s : Store) (q : Request) : Phase → Prop
  | .collecting => q.rebuild = true → ∀ row ∈ s.rows, row.run ≠ q.run.id.text
  | .visiting left _ => Visits closedAt s q left
  | .saving key next left _ => Visits closedAt s q ((key, next) :: left) ∧
      (∀ r ∈ s.segments, ¬(r.run = q.run.id.text ∧ r.artifact = next.artifact)) ∧
      s.Untouched q.run.id.text next.artifact ∧ (q.rebuild = false → s.floor < key)

/-- The invariant of a history. -/
structure History.Inv (closedAt : String → String → ℕ → String) (h : History) : Prop where
  sound : Sound closedAt h.store
  few : h.store.keyed.length ≤ 1000
  idle : h.scan.isSome = true → h.pending = none
  cleared : ∀ q, h.pending = some q → q.rebuild = true →
    ∀ row ∈ h.store.rows, row.run ≠ q.run.id.text
  fine : ∀ q phase, h.scan = some ⟨q, phase⟩ → phase.Fine closedAt h.store q

section Inv

variable {closedAt : String → String → ℕ → String} {enc : Codec} {h : History} {s s' : Store}
  {q : Request} {left : List (String × Candidate)}

theorem Store.Untouched.mono {run : String} (hs : s.Untouched run artifact)
    (hrows : ∀ row ∈ s'.rows, row ∈ s.rows) : s'.Untouched run artifact :=
  fun row hrow => hs row (hrows row hrow)

theorem Visits.mono (hv : Visits closedAt s q left) (hrows : ∀ row ∈ s'.rows, row ∈ s.rows) :
    Visits closedAt s' q left :=
  ⟨hv.collected, fun hrebuild p hp => (hv.fresh hrebuild p hp).mono hrows⟩

theorem Visits.tail {p : String × Candidate} (hv : Visits closedAt s q (p :: left)) :
    Visits closedAt s q left :=
  ⟨⟨hv.collected.ordered.of_cons, fun p hp => hv.collected.named p (List.mem_cons_of_mem _ hp)⟩,
    fun hrebuild p hp => hv.fresh hrebuild p (List.mem_cons_of_mem _ hp)⟩

theorem Phase.Fine.mono {phase : Phase} (hf : phase.Fine closedAt s q)
    (hrows : ∀ row ∈ s'.rows, row ∈ s.rows) (hsegments : s'.segments = s.segments)
    (hfloor : s'.floor = s.floor) : phase.Fine closedAt s' q := by
  cases phase with
  | collecting => exact fun hrebuild row hrow => hf hrebuild row (hrows row hrow)
  | visiting => exact Visits.mono hf hrows
  | saving =>
    obtain ⟨hv, habsent, huntouched, hfloor'⟩ := hf
    exact ⟨hv.mono hrows, hsegments ▸ habsent, huntouched.mono hrows, hfloor ▸ hfloor'⟩

/-- A candidate that has no receipt and is not retired has no rows. -/
theorem Sound.untouched (hs : Sound closedAt s) {run : String}
    (hkey : Names closedAt run artifact key)
    (habsent : ∀ r ∈ s.segments, ¬(r.run = run ∧ r.artifact = artifact))
    (hfloor : s.floor < key) : s.Untouched run artifact := by
  rintro row hrow ⟨rfl, rfl⟩
  rcases hs.covered row hrow with ⟨r, hr, hsame⟩ | ⟨key', hkey', hle⟩
  · exact habsent r hr hsame
  · rw [hkey.functional hkey'] at hfloor
    exact absurd hle (not_le_of_gt hfloor)

theorem mem_stored {c : Descriptor} {sequence : ℕ} {row : Stored}
    (hrow : row ∈ stored run c artifact clock sequence rows) :
    row.run = run.id.text ∧ row.artifact = artifact ∧ sequence < row.id := by
  obtain ⟨_, _, rfl⟩ := List.mem_mapIdx.mp hrow
  exact ⟨rfl, rfl, by dsimp only; omega⟩

theorem stored_nodup {c : Descriptor} {sequence : ℕ} (hrows : (rows.map Row.packetIndex).Nodup) :
    ((stored run c artifact clock sequence rows).map Stored.packet).Nodup := by
  have heq : (stored run c artifact clock sequence rows).map Stored.packet =
      (rows.map Row.packetIndex).map fun index => (run.id.text, artifact, index) := by
    apply List.ext_getElem
    · simp [stored]
    · intro i hi hi'
      simp [stored, Stored.packet]
  rw [heq]
  exact hrows.map fun a b hab => (Prod.mk.inj (Prod.mk.inj hab).2).2

namespace History.Inv

theorem query (hi : Inv closedAt h) (run : Run) (p : Page) (wall : ℤ) :
    Inv closedAt (h.query enc run p wall).2 := by
  rcases query_cases enc h run p wall with heq | ⟨pending, heq, hpending⟩
  · rw [heq]
    exact hi
  · rw [heq]
    have hrows := (Store.rows_prune_sublist enc wall h.store).subset
    refine ⟨hi.sound.prune, hi.few, fun hscan => ?_, fun q hq hrebuild row hrow => ?_,
      fun q phase hscan => (hi.fine q phase hscan).mono hrows rfl rfl⟩
    · rcases hpending with rfl | ⟨hnone, -⟩
      · exact hi.idle hscan
      · simp [hnone] at hscan
    · rcases hpending with rfl | ⟨-, rfl⟩
      · exact hi.cleared q hq hrebuild row (hrows hrow)
      · cases hq
        cases hrebuild

theorem rebuild (hi : Inv closedAt h) (run : Run) (id : String) :
    Inv closedAt (h.rebuild run id).2 := by
  rw [History.rebuild]
  split
  · exact hi
  · rename_i hidle
    simp only [Bool.or_eq_true, not_or, Option.not_isSome_iff_eq_none] at hidle
    have hkeyed : (h.store.clear run id).keyed.Sublist h.store.keyed :=
      List.filter_sublist.filter _
    refine ⟨hi.sound.clear run id, hkeyed.length_le.trans hi.few, fun hscan => ?_,
      fun q hq _ row hrow => ?_, fun q phase hscan => ?_⟩
    · simp [hidle.1] at hscan
    · cases hq
      simpa using (List.mem_filter.mp hrow).2
    · simp [hidle.1] at hscan

/-- Only the maintenance record is written. -/
theorem maintained (hi : Inv closedAt h) (state : MaintenanceState) (e : Option String) :
    Inv closedAt { h with store := h.store.maintain state e } :=
  ⟨hi.sound.maintain state e, hi.few, hi.idle, hi.cleared,
    fun q phase hscan => (hi.fine q phase hscan).mono (fun _ hrow => hrow) rfl rfl⟩

/-- The worker has no scan. -/
theorem ended (hi : Inv closedAt h) {h' : History} (hscan : h.scan.isSome = true)
    (hstore : h'.store = h.store) (hpending : h'.pending = h.pending) (hended : h'.scan = none) :
    Inv closedAt h' := by
  refine ⟨hstore ▸ hi.sound, hstore ▸ hi.few, fun hsome => ?_, fun q hq => ?_, fun q phase hq => ?_⟩
  · simp [hended] at hsome
  · rw [hpending, hi.idle hscan] at hq
    cases hq
  · rw [hended] at hq
    cases hq

theorem abandon (hi : Inv closedAt h) (hscan : h.scan.isSome = true) (q : Request) (e : String) :
    Inv closedAt (h.abandon q e) := by
  rw [History.abandon]
  split
  · exact (hi.maintained _ _).ended hscan rfl rfl rfl
  · exact hi.ended hscan rfl rfl rfl

/-- The scan goes on with other tables. -/
theorem goto (hi : Inv closedAt h) {h' : History} {phase : Phase} (hscan : h.scan.isSome = true)
    (hpending : h'.pending = h.pending) (hsound : Sound closedAt h'.store)
    (hfew : h'.store.keyed.length ≤ 1000) (hphase : phase.Fine closedAt h'.store q) :
    Inv closedAt (h'.goto q phase) := by
  refine ⟨hsound, hfew, fun _ => hpending.trans (hi.idle hscan), fun q' hq' => ?_,
    fun q' phase' hq' => ?_⟩
  · rw [History.goto, hpending, hi.idle hscan] at hq'
    cases hq'
  · cases hq'
    exact hphase

theorem collecting (hi : Inv closedAt h) (hdisk : Disk.Steady closedAt disk)
    (hscan : h.scan = some ⟨q, .collecting⟩) : Inv closedAt (h.collecting disk q) := by
  have hsome : h.scan.isSome = true := by simp [hscan]
  have hfine := hi.fine q _ hscan
  rw [History.collecting]
  cases hcollect : collect disk q.run with
  | error e =>
    dsimp only
    split
    · exact (hi.maintained _ _).abandon hsome q e
    · exact hi.abandon hsome q e
  | ok w =>
    have hv : Visits closedAt h.store q w.entries :=
      ⟨collect_collected hdisk hcollect, fun hrebuild p _ row hrow hsame =>
        hfine hrebuild row hrow hsame.1⟩
    dsimp only
    split
    · exact hi.goto hsome rfl (hi.sound.maintain _ _) hi.few
        (hv.mono fun _ hrow => hrow)
    · exact hi.goto hsome rfl hi.sound hi.few hv

theorem look (hi : Inv closedAt h)
    (hscan : h.scan = some ⟨q, .visiting ((key, next) :: left) accepted⟩) :
    Inv closedAt (h.look q key next left accepted) := by
  have hsome : h.scan.isSome = true := by simp [hscan]
  have hv : Visits closedAt h.store q ((key, next) :: left) := hi.fine q _ hscan
  have hkey := hv.collected.named (key, next) List.mem_cons_self
  have hlooked := looked h q key next left accepted
  generalize h.look q key next left accepted = h' at hlooked ⊢
  cases hlooked with
  | passed => exact hi.goto hsome rfl hi.sound hi.few hv.tail
  | labelled =>
    refine hi.goto hsome rfl (hi.sound.label hkey).recycle (Store.keyed_recycle_le _) ?_
    exact hv.tail.mono fun row hrow => by simpa [Store.label] using hrow
  | ended =>
    refine hi.goto hsome rfl hi.sound hi.few ?_
    exact ⟨⟨List.Pairwise.nil, by simp⟩, by simp⟩
  | taken habsent hfloor =>
    refine hi.goto hsome rfl hi.sound hi.few ⟨hv, habsent, ?_, hfloor⟩
    by_cases hrebuild : q.rebuild = true
    · exact hv.fresh hrebuild _ List.mem_cons_self
    · exact hi.sound.untouched hkey habsent (hfloor (by simpa using hrebuild))

/-- The tables with the segment that the worker saves. -/
theorem inserted (hi : Inv closedAt h) (hscan : h.scan = some ⟨q, .saving key next left accepted⟩)
    (hindexed : indexed enc disk q.run next = .ok (status, rows)) :
    Sound closedAt (h.store.insert (receiptOf q.run next key status)
      (stored q.run next.capture next.artifact clock h.store.sequence rows)) := by
  obtain ⟨hv, habsent, huntouched, -⟩ := hi.fine q _ hscan
  exact hi.sound.insert (hv.collected.named (key, next) List.mem_cons_self) habsent huntouched
    (fun row hrow => ⟨(mem_stored hrow).1, (mem_stored hrow).2.1⟩)
    (stored_nodup (indexed_nodup hindexed))

theorem saveNext (hi : Inv closedAt h) (hscan : h.scan = some ⟨q, .saving key next left accepted⟩) :
    Inv closedAt (h.saveNext enc disk clock q key next left accepted) := by
  have hsome : h.scan.isSome = true := by simp [hscan]
  obtain ⟨hv, -⟩ := hi.fine q _ hscan
  have hkey := hv.collected.named (key, next) List.mem_cons_self
  rw [History.saveNext]
  cases hindexed : indexed enc disk q.run next with
  | error e => exact hi.abandon hsome q e
  | ok result =>
    obtain ⟨status, rows⟩ := result
    simp only [ok_bind]
    cases hsave : h.store.save enc q.run next.capture next.artifact key status rows clock with
    | error e => exact hi.abandon hsome q e
    | ok =>
      rw [(save_cases hsave).2]
      refine hi.goto hsome rfl (hi.inserted hscan hindexed).prune.recycle (Store.keyed_recycle_le _) ?_
      refine ⟨hv.tail.collected, fun hrebuild p hp row hrow hsame => ?_⟩
      rw [Store.rows_recycle] at hrow
      rcases List.mem_append.mp ((Store.rows_prune_sublist _ _ _).subset hrow) with hrow | hrow
      · exact hv.tail.fresh hrebuild p hp row hrow hsame
      · -- the keys of two candidates differ, so their segments do
        have hlt := (List.pairwise_cons.mp hv.collected.ordered).1 p hp
        have hp' := hv.tail.collected.named p hp
        rw [← hsame.2, (mem_stored hrow).2.1] at hp'
        exact absurd hlt (by rw [hkey.functional hp']; exact lt_irrefl _)

theorem work (hi : Inv closedAt h) (hdisk : Disk.Steady closedAt disk) (clock : ℕ → ℤ)
    (fault : Option String) : Inv closedAt (h.work enc disk clock fault) := by
  rw [History.work]
  cases hscan : h.scan with
  | none =>
    dsimp only
    rw [History.take, hscan]
    cases hpending : h.pending with
    | none => exact hi
    | some q =>
      refine ⟨hi.sound, hi.few, fun _ => rfl, fun q' hq' => ?_, fun q' phase hq' => ?_⟩
      · cases hq'
      · cases hq'
        exact hi.cleared q hpending
  | some sc =>
    have hsome : h.scan.isSome = true := by simp [hscan]
    obtain ⟨q, phase⟩ := sc
    cases fault with
    | some e => exact hi.abandon hsome q e
    | none =>
      cases phase with
      | collecting => exact hi.collecting hdisk hscan
      | visiting left accepted =>
        cases left with
        | nil =>
          dsimp only
          split
          · exact (hi.maintained _ _).ended hsome rfl rfl rfl
          · exact hi.ended hsome rfl rfl rfl
        | cons => exact hi.look hscan
      | saving => exact hi.saveNext hscan

theorem restart (hi : Inv closedAt h) : Inv closedAt h.restart := by
  rw [History.restart]
  split
  · exact ⟨hi.sound.maintain _ _, hi.few, by simp, by simp, by simp⟩
  · exact ⟨hi.sound, hi.few, by simp, by simp, by simp⟩

/-- **A step keeps the invariant.** -/
theorem step (hi : Inv closedAt h) (enc : Codec) {x : Step} (hx : x.Steady closedAt) :
    Inv closedAt (h.step enc x) := by
  cases x with
  | query run page wall => exact hi.query run page wall
  | rebuild run id => exact hi.rebuild run id
  | work disk clock fault => exact hi.work hx clock fault
  | restart => exact hi.restart

end History.Inv

/-- **The invariant holds along every run.** -/
theorem History.run_inv {steps : List Step} (hsteps : ∀ x ∈ steps, x.Steady closedAt) :
    ∀ {h : History}, Inv closedAt h → Inv closedAt (h.run enc steps) := by
  induction steps with
  | nil => exact fun hi => hi
  | cons x steps ih =>
    intro h hi
    exact ih (fun y hy => hsteps y (List.mem_cons_of_mem _ hy))
      (hi.step enc (hsteps x List.mem_cons_self))

end Inv

/-! ## Evictions -/

/-- What a step evicts: of the receipts with a key that its transaction holds, those beyond the
newest 1000.  Other receipts only go with their run, in a rebuild. -/
structure Evicts (x : Step) (s s' : Store) (gone : List Receipt) : Prop where
  log : s'.evicted = s.evicted ++ gone
  beyond : ∀ r ∈ gone ++ s'.keyed,
    (r ∈ gone ↔ 1000 ≤ above ((gone ++ s'.keyed).map Receipt.orderKey) r.orderKey)
  kept : ∀ r ∈ s.keyed, r ∈ gone ∨ r ∈ s'.keyed ∨
    ∃ run id, x = .rebuild run id ∧ r.run = run.id.text
  floor : s.floor ≤ s'.floor

section Evicts

variable {closedAt : String → String → ℕ → String} {x : Step} {s s' t : Store}

/-- Nothing is evicted. -/
theorem Evicts.none (hfew : s'.keyed.length ≤ 1000) (hlog : s'.evicted = s.evicted)
    (hkept : ∀ r ∈ s.keyed, r ∈ s'.keyed ∨ ∃ run id, x = .rebuild run id ∧ r.run = run.id.text)
    (hfloor : s.floor ≤ s'.floor) : Evicts x s s' [] := by
  refine ⟨by simpa using hlog, fun r hr => ?_, fun r hr => .inr (hkept r hr), hfloor⟩
  have hlt := above_lt_length (List.mem_map_of_mem (f := Receipt.orderKey) hr)
  rw [List.length_map, List.nil_append] at hlt
  simp only [List.not_mem_nil, List.nil_append, false_iff]
  omega

/-- A transaction that ends with `recycle`. -/
theorem Evicts.recycle (ht : Sound closedAt t) (hlog : t.evicted = s.evicted)
    (hkept : ∀ r ∈ s.keyed, r ∈ t.keyed) (hfloor : s.floor ≤ t.floor) :
    ∃ gone, Evicts x s t.recycle gone := by
  obtain ⟨old, hold, hsegments, hevicted, hexact⟩ := t.recycle_spec
  have hgone : t.segments.filter old = t.keyed.filter old := by
    rw [Store.keyed, List.filter_filter]
    refine List.filter_congr fun r hr => ?_
    cases ho : old r with
    | false => rfl
    | true => simp [(hold r hr ho).1]
  have hrest : t.recycle.keyed = t.keyed.filter fun r => !old r := by
    rw [Store.keyed, hsegments, Store.keyed, List.filter_filter, List.filter_filter]
    refine List.filter_congr fun r _ => Bool.and_comm _ _
  have hperm : (t.segments.filter old ++ t.recycle.keyed).Perm t.keyed := by
    rw [hgone, hrest]
    exact List.filter_append_perm _ _
  refine ⟨t.segments.filter old, by rw [hevicted, hlog], fun r hr => ?_, fun r hr => ?_,
    hfloor.trans t.floor_le_recycle⟩
  · have hr' := hperm.mem_iff.mp hr
    rw [above_perm (hperm.map _), ← hexact ht.keys_nodup r hr', hgone, List.mem_filter]
    exact and_iff_right hr'
  · have hr' := hkept r hr
    cases ho : old r with
    | true =>
      rw [hgone]
      exact .inl (List.mem_filter.mpr ⟨hr', ho⟩)
    | false =>
      rw [hrest]
      exact .inr (.inl (List.mem_filter.mpr ⟨hr', by simp [ho]⟩))

/-- A receipt that has its key keeps it. -/
theorem mem_keyed_label {r : Receipt} (hr : r ∈ s.keyed) (run artifact key : String) :
    r ∈ (s.label run artifact key).keyed := by
  obtain ⟨hmem, hkeyed⟩ := List.mem_filter.mp hr
  refine List.mem_filter.mpr ⟨List.mem_map.mpr ⟨r, hmem, ?_⟩, hkeyed⟩
  rw [Receipt.label, hkeyed]
  simp

theorem step_evicts {enc : Codec} {h : History} (hi : h.Inv closedAt) (hx : x.Steady closedAt) :
    ∃ gone, Evicts x h.store (h.step enc x).store gone := by
  have hcommitted := step_committed enc h x
  have hfew := (hi.step enc hx).few
  generalize (h.step enc x).store = s' at hcommitted hfew
  cases hcommitted with
  | nothing => exact ⟨[], .none hfew rfl (fun r hr => .inl hr) le_rfl⟩
  | pruned => exact ⟨[], .none hfew rfl (fun r hr => .inl hr) le_rfl⟩
  | @cleared run id =>
    refine ⟨[], .none hfew rfl (fun r hr => ?_) le_rfl⟩
    obtain ⟨hmem, hkeyed⟩ := List.mem_filter.mp hr
    by_cases hrun : r.run = run.id.text
    · exact .inr ⟨run, id, rfl, hrun⟩
    · refine .inl (List.mem_filter.mpr ⟨List.mem_filter.mpr ⟨hmem, ?_⟩, hkeyed⟩)
      simpa using hrun
  | labelled hscan =>
    have hv : Visits _ _ _ _ := hi.fine _ _ hscan
    exact Evicts.recycle (hi.sound.label (hv.collected.named _ List.mem_cons_self)) rfl
      (fun r hr => mem_keyed_label hr _ _ _) le_rfl
  | saved hscan hindexed _ =>
    refine Evicts.recycle (hi.inserted hscan hindexed).prune rfl (fun r hr => ?_) le_rfl
    obtain ⟨hmem, hkeyed⟩ := List.mem_filter.mp hr
    exact List.mem_filter.mpr ⟨List.mem_append_left _ hmem, hkeyed⟩

end Evicts

/-! ## The catalog -/

/-- The step from `h` to the store `s'` indexes no segment. -/
def Nothing (h : History) (s' : Store) : Prop :=
  (∀ row ∈ s'.rows, row ∈ h.store.rows) ∧
    ∀ r ∈ s'.segments, ∃ r₀ ∈ h.store.segments, r₀.run = r.run ∧ r₀.artifact = r.artifact

/-- The step from `h` to the store `s'` inserts the receipt and all rows of one segment; unless
this is a rebuild, the segment has not been evicted. -/
def Whole (enc : Codec) (h : History) (s' : Store) : Prop :=
  ∃ (q : Request) (phase : Phase) (disk : Disk) (clock : ℕ → ℤ) (key : String) (next : Candidate)
    (status : Status) (rows : List Row),
    h.scan = some ⟨q, phase⟩ ∧ indexed enc disk q.run next = .ok (status, rows) ∧
    s' = (((h.store.insert (receiptOf q.run next key status)
      (stored q.run next.capture next.artifact clock h.store.sequence rows)).prune enc
        (clock rows.length)).recycle) ∧
    (q.rebuild = false →
      ∀ r ∈ h.store.evicted, ¬(r.run = q.run.id.text ∧ r.artifact = next.artifact))

theorem step_whole {closedAt : String → String → ℕ → String} {enc : Codec} {h : History}
    (hi : h.Inv closedAt) (x : Step) :
    Nothing h (h.step enc x).store ∨ Whole enc h (h.step enc x).store := by
  have hcommitted := step_committed enc h x
  generalize (h.step enc x).store = s' at hcommitted
  cases hcommitted with
  | nothing => exact .inl ⟨fun _ hrow => hrow, fun r hr => ⟨r, hr, rfl, rfl⟩⟩
  | pruned =>
    exact .inl ⟨fun _ hrow => (Store.rows_prune_sublist _ _ _).subset hrow,
      fun r hr => ⟨r, hr, rfl, rfl⟩⟩
  | cleared =>
    exact .inl ⟨fun _ hrow => (List.mem_filter.mp hrow).1,
      fun r hr => ⟨r, (List.mem_filter.mp hr).1, rfl, rfl⟩⟩
  | labelled =>
    refine .inl ⟨fun row hrow => by simpa [Store.label] using hrow, fun r hr => ?_⟩
    obtain ⟨r₀, hr₀, rfl⟩ := List.mem_map.mp (Store.mem_of_mem_recycle hr)
    refine ⟨r₀, hr₀, ?_⟩
    rw [Receipt.label]
    split <;> exact ⟨rfl, rfl⟩
  | saved hscan hindexed _ =>
    obtain ⟨hv, -, -, hfloor⟩ := hi.fine _ _ hscan
    have hkey := hv.collected.named _ List.mem_cons_self
    refine .inr ⟨_, _, _, _, _, _, _, _, hscan, hindexed, rfl, fun hrebuild r hr hsame => ?_⟩
    obtain ⟨hnamed, hle⟩ := hi.sound.retired r hr
    rw [hsame.1, hsame.2] at hnamed
    rw [hnamed.functional hkey] at hle
    exact absurd hle (not_le_of_gt (hfloor hrebuild))

/-- The tables as the first version leaves them: receipts without keys, and their rows.  The
tables of a new database are such. -/
structure Store.Legacy (s : Store) : Prop where
  unique : (s.segments.map fun r => (r.run, r.artifact)).Nodup
  unkeyed : ∀ r ∈ s.segments, r.keyed = false
  single : (s.rows.map Stored.packet).Nodup
  received : ∀ row ∈ s.rows, ∃ r ∈ s.segments, r.run = row.run ∧ r.artifact = row.artifact
  evicted : s.evicted = []

theorem Store.Legacy.inv {closedAt : String → String → ℕ → String} {s : Store} (hs : s.Legacy) :
    History.Inv closedAt { store := s } := by
  refine ⟨⟨hs.unique, fun r hr hkeyed => ?_, hs.single, fun row hrow => .inl (hs.received row hrow),
    fun r hr => ?_⟩, ?_, by simp, by simp, by simp⟩
  · rw [hs.unkeyed r hr] at hkeyed
    cases hkeyed
  · rw [hs.evicted] at hr
    cases hr
  · have hnone : s.keyed = [] := List.filter_eq_nil_iff.mpr fun r hr => by simp [hs.unkeyed r hr]
    simp [hnone]

/-- **The packet catalog.**  In every run over manifests whose closing times stay: no packet has
two rows; at most 1000 receipts have a key, and a step evicts exactly those beyond the newest
1000; the floor does not fall and is at least every evicted key, so that only a rebuild indexes
an evicted segment again; and a step inserts the receipt of a segment with all its rows or
inserts nothing. -/
theorem catalog_sound (enc : Codec) (closedAt : String → String → ℕ → String) {s : Store}
    (hs : s.Legacy) {steps : List Step} (hsteps : ∀ x ∈ steps, x.Steady closedAt) :
    let h := History.run enc { store := s } steps
    (h.store.rows.map Stored.packet).Nodup ∧ h.store.keyed.length ≤ 1000 ∧
      (∀ r ∈ h.store.evicted, r.orderKey ≤ h.store.floor) ∧
      ∀ x : Step, x.Steady closedAt →
        (∃ gone, Evicts x h.store (h.step enc x).store gone) ∧
          (Nothing h (h.step enc x).store ∨ Whole enc h (h.step enc x).store) := by
  intro h
  have hi : h.Inv closedAt := History.run_inv hsteps hs.inv
  exact ⟨hi.sound.single, hi.few, fun r hr => (hi.sound.retired r hr).2,
    fun x hx => ⟨step_evicts hi hx, step_whole hi x⟩⟩

/-- A codec for fixed inputs. -/
def sampleCodec : Codec where
  size _ := 100
  sha256 _ := "sha256:00"
  digest _ := "sha256:0000000000000000000000000000000000000000000000000000000000000000"
  digest_size _ := by decide

theorem plain_capture : '/' ∉ "c".toList := by decide

theorem plain_run : '/' ∉ "r".toList := by decide

def sampleCapture : Descriptor where
  id := ⟨"c", plain_capture⟩
  runId := "r"
  edge := "e"
  epoch := "1"
  mapping := .null
  bootId := "b"
  directory := "d"
  interface := "eth0"
  canonicalEndpoint := "a:0"

def sampleRun : Run where
  id := ⟨"r", plain_run⟩
  captures := [sampleCapture]

/-- A manifest with one segment. -/
def sampleManifest : Json :=
  .object [("bootId", .string "b"), ("id", .string "c"), ("mapping", .null),
    ("runId", .string "r"),
    ("segments", .array [.object [("closedAt", .string "2026-01-01T00:00:00Z"),
      ("file", .string "0.pcapng"), ("packets", .string "0"), ("sequence", .string "0"),
      ("sha256", .string "sha256:00"), ("size", .string "0"), ("state", .string "closed")]])]

def sampleDisk : Disk where
  manifest d := if d = "d" then some sampleManifest else none
  file _ := .content []

theorem sampleDisk_steady : Disk.Steady (fun _ _ _ => "2026-01-01T00:00:00Z") sampleDisk := by
  intro directory m hm run capture sequence closed hlists
  obtain ⟨-, -, _, _, _, hsegments, hs, -, -, hclosed⟩ := hlists
  simp only [sampleDisk] at hm
  split_ifs at hm
  cases hm
  cases hsegments
  cases List.mem_singleton.mp hs
  cases hclosed
  rfl

/-- A query asks for a scan, and the worker indexes the segment. -/
def sampleSteps : List Step :=
  .query sampleRun {} 0 :: List.replicate 5 (.work sampleDisk (fun _ => 0) none)

theorem catalog_sound_sample :
    let h := History.run sampleCodec { store := { epoch := "e" } } sampleSteps
    h.store.segments.length = 1 ∧ (h.store.rows.map Stored.packet).Nodup ∧
      h.store.keyed.length ≤ 1000 := by
  have hsteps : ∀ x ∈ sampleSteps, x.Steady fun _ _ _ => "2026-01-01T00:00:00Z" := by
    intro x hx
    rcases List.mem_cons.mp hx with rfl | hx
    · trivial
    · rw [List.eq_of_mem_replicate hx]
      exact sampleDisk_steady
  have hsound := catalog_sound sampleCodec (fun _ _ _ => "2026-01-01T00:00:00Z")
    (s := { epoch := "e" }) ⟨by simp, by simp, by simp, by simp, rfl⟩ hsteps
  exact ⟨by decide +kernel, hsound.1, hsound.2.1⟩

end Graphlab.Packets
