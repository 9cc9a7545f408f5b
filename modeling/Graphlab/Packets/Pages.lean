import Graphlab.Lib.Quoted
import Graphlab.Packets.Receipts

/-!
# Pages of a query

A client follows `nextCursor` while the history goes on: segments are saved, rows are pruned,
runs rebuilt, the database replaced.  Every deletion of a row raises the generation, and a
new database has a new epoch, so a page that is accepted reads from the rows of the first
page and rows with larger keys.

## Main definitions

* `Event` — a step, or a recovery.
* `follow`, `browse` — the client.

## Main results

* `pages_exact` — the pages are exactly the matching rows of the first one's store.
-/

namespace Graphlab.Packets

open Lib Capture

/-! ## Events -/

/-- What may happen between two pages. -/
inductive Event
  | step (x : Step)
  /-- `recover` replaces the database; the constructor gives it an epoch. -/
  | recover (epoch : String)

namespace History

def event (enc : Codec) (h : History) : Event → History
  | .step x => h.step enc x
  | .recover epoch => { store := { epoch } }

def events (enc : Codec) (h : History) (es : List Event) : History := es.foldl (event enc) h

end History

/-- No recovery among the events draws this epoch. -/
def Event.Fresh (epoch : String) : Event → Prop
  | .step _ => True
  | .recover e => e ≠ epoch

/-! ## Rows since a page -/

/-- The rows are in the order of their keys. -/
structure Store.Ordered (s : Store) : Prop where
  ascending : (s.rows.map Stored.id).Pairwise (· < ·)
  le : ∀ r ∈ s.rows, r.id ≤ s.sequence
  bounded : s.sequence < 2 ^ 63

/-- Later tables hold all the rows; what is new has larger keys. -/
def Store.Extends (s s' : Store) : Prop :=
  ∃ later, s'.rows = s.rows ++ later ∧ ∀ r ∈ later, s.sequence < r.id

/-- How tables of one database come after others. -/
structure Store.Since (s s' : Store) : Prop where
  epoch : s'.epoch = s.epoch
  sequence : s.sequence ≤ s'.sequence
  rows : s.generation < s'.generation ∨ s'.generation = s.generation ∧ s.Extends s'

namespace Store

variable {enc : Codec} {s s' s'' : Store}

theorem Since.of_same (hepoch : s'.epoch = s.epoch) (hsequence : s'.sequence = s.sequence)
    (hgeneration : s'.generation = s.generation) (hrows : s'.rows = s.rows) : s.Since s' :=
  ⟨hepoch, hsequence.ge, .inr ⟨hgeneration, [], by simp [hrows], by simp⟩⟩

theorem Since.trans (h : s.Since s') (h' : s'.Since s'') : s.Since s'' := by
  refine ⟨h'.epoch.trans h.epoch, h.sequence.trans h'.sequence, ?_⟩
  rcases h.rows with hlt | ⟨heq, later, hlater, hkeys⟩
  · refine .inl (hlt.trans_le ?_)
    rcases h'.rows with hlt' | ⟨heq', -⟩
    · exact hlt'.le
    · exact heq'.ge
  · rcases h'.rows with hlt' | ⟨heq', later', hlater', hkeys'⟩
    · exact .inl (heq ▸ hlt')
    · refine .inr ⟨heq'.trans heq, later ++ later', ?_, fun r hr => ?_⟩
      · rw [hlater', hlater, List.append_assoc]
      · rcases List.mem_append.mp hr with hr | hr
        · exact hkeys r hr
        · exact h.sequence.trans_lt (hkeys' r hr)

theorem Ordered.of_rows (hs : s.Ordered) (hrows : s'.rows.Sublist s.rows)
    (hsequence : s'.sequence = s.sequence) : s'.Ordered :=
  ⟨hs.ascending.sublist (hrows.map _), fun r hr => hsequence ▸ hs.le r (hrows.subset hr),
    hsequence ▸ hs.bounded⟩

variable {rows : List Stored}

theorem shed_of_not_large (h : large enc rows = false) : shed enc rows = rows := by
  rw [shed, h]
  rfl

/-- A batch that goes is not empty. -/
theorem length_shed_lt {enc : Codec} (h : large enc rows = true) :
    (shed enc rows).length < rows.length := by
  have hne : rows ≠ [] := by
    rintro rfl
    simp [large, bodyBytes] at h
  have hpos := List.length_pos_iff.mpr hne
  have hle := (shed_suffix enc (rows.drop 2000)).length_le
  rw [shed, if_pos h]
  rw [List.length_drop] at hle
  omega

/-- Nothing is deleted exactly if none of the three statements deletes a row. -/
theorem rows_prune_eq_iff (enc : Codec) (wall : ℤ) (s : Store) :
    (s.prune enc wall).rows = s.rows ↔ (recent wall s.rows).length = s.rows.length ∧
      (newest (recent wall s.rows)).length = (recent wall s.rows).length ∧
      large enc (newest (recent wall s.rows)) = false := by
  change shed enc (newest (recent wall s.rows)) = s.rows ↔ _
  constructor
  · intro h
    have hlength := congrArg List.length h
    have hrecent := (recent_sublist wall s.rows).length_le
    have hnewest := (newest_suffix (recent wall s.rows)).length_le
    have hshed := (shed_suffix enc (newest (recent wall s.rows))).length_le
    refine ⟨by omega, by omega, ?_⟩
    by_contra hlarge
    have := length_shed_lt (Bool.eq_true_of_not_eq_false hlarge)
    omega
  · rintro ⟨hrecent, hnewest, hlarge⟩
    rw [shed_of_not_large hlarge, (newest_suffix _).eq_of_length hnewest,
      (recent_sublist wall s.rows).eq_of_length hrecent]

/-- **The generation is raised exactly by a pruning that deletes a row.** -/
theorem generation_prune (enc : Codec) (wall : ℤ) (s : Store) :
    (s.prune enc wall).generation =
      if (s.prune enc wall).rows = s.rows then s.generation else s.generation + 1 := by
  have hiff := rows_prune_eq_iff enc wall s
  by_cases hrows : (s.prune enc wall).rows = s.rows
  · obtain ⟨hrecent, hnewest, hlarge⟩ := hiff.mp hrows
    rw [if_pos hrows, prune]
    simp [hrecent, hnewest, hlarge]
  · rw [if_neg hrows, prune]
    refine if_pos ?_
    simp only [Bool.or_eq_true, bne_iff_ne, ne_eq]
    by_contra hsame
    simp only [not_or, not_not, Bool.not_eq_true] at hsame
    exact hrows (hiff.mpr ⟨hsame.1.1, hsame.1.2, hsame.2⟩)

theorem since_prune (enc : Codec) (wall : ℤ) (s : Store) : s.Since (s.prune enc wall) := by
  refine ⟨rfl, le_rfl, ?_⟩
  rw [generation_prune]
  split
  · next hrows => exact .inr ⟨rfl, [], by rw [hrows, List.append_nil], by simp⟩
  · exact .inl (Nat.lt_succ_self _)

theorem epoch_recycle (s : Store) : s.recycle.epoch = s.epoch := by
  rw [recycle]
  split <;> rfl

theorem generation_recycle (s : Store) : s.recycle.generation = s.generation := by
  rw [recycle]
  split <;> rfl

theorem since_recycle (s : Store) : s.Since s.recycle :=
  .of_same s.epoch_recycle s.sequence_recycle s.generation_recycle s.rows_recycle

theorem since_label (s : Store) (run artifact key : String) : s.Since (s.label run artifact key) :=
  .of_same rfl rfl rfl rfl

theorem Ordered.recycle (hs : s.Ordered) : s.recycle.Ordered :=
  hs.of_rows (s.rows_recycle ▸ List.Sublist.refl _) s.sequence_recycle

theorem Ordered.prune (hs : s.Ordered) (enc : Codec) (wall : ℤ) : (s.prune enc wall).Ordered :=
  hs.of_rows (rows_prune_sublist enc wall s) rfl

/-- The keys of inserted rows. -/
theorem stored_ids (run : Run) (c : Descriptor) (artifact : String) (clock : ℕ → ℤ) (sequence : ℕ)
    (rows : List Row) : (stored run c artifact clock sequence rows).map Stored.id =
      List.range' (sequence + 1) rows.length := by
  apply List.ext_getElem
  · simp [stored]
  · intro i hi hi'
    simp [stored]

theorem since_insert {receipt : Receipt}
    (hrows : ∀ r ∈ rows, s.sequence < r.id) : s.Since (s.insert receipt rows) :=
  ⟨rfl, Nat.le_add_right _ _, .inr ⟨rfl, rows, rfl, hrows⟩⟩

theorem Ordered.insert (hs : s.Ordered) {receipt : Receipt} {run : Run} {c : Descriptor}
    {artifact : String} {clock : ℕ → ℤ} {rows : List Row}
    (hroom : s.sequence + rows.length < 2 ^ 63) :
    (s.insert receipt (stored run c artifact clock s.sequence rows)).Ordered := by
  have hids := stored_ids run c artifact clock s.sequence rows
  have hlength : (stored run c artifact clock s.sequence rows).length = rows.length := by
    simp [stored]
  refine ⟨?_, fun r hr => ?_, ?_⟩
  · simp only [Store.insert, List.map_append, hids]
    refine List.pairwise_append.mpr ⟨hs.ascending, List.pairwise_lt_range', fun a ha b hb => ?_⟩
    obtain ⟨r, hr, rfl⟩ := List.mem_map.mp ha
    have hle := hs.le r hr
    have hb := List.mem_range'_1.mp hb
    omega
  · simp only [Store.insert, hlength]
    rcases List.mem_append.mp hr with hr | hr
    · exact (hs.le r hr).trans (Nat.le_add_right _ _)
    · have hid := List.mem_map_of_mem (f := Stored.id) hr
      rw [hids, List.mem_range'_1] at hid
      omega
  · simpa only [Store.insert, hlength] using hroom

end Store

theorem step_since {enc : Codec} {h : History} (hs : h.store.Ordered) (x : Step) :
    (h.step enc x).store.Ordered ∧ h.store.Since (h.step enc x).store := by
  have hcommitted := step_committed enc h x
  generalize (h.step enc x).store = s' at hcommitted
  cases hcommitted with
  | nothing => exact ⟨hs.of_rows (.refl _) rfl, .of_same rfl rfl rfl rfl⟩
  | pruned => exact ⟨hs.prune enc _, h.store.since_prune enc _⟩
  | cleared =>
    exact ⟨hs.of_rows List.filter_sublist rfl, rfl, le_rfl, .inl (Nat.lt_succ_self _)⟩
  | labelled =>
    exact ⟨Store.Ordered.recycle (hs.of_rows (.refl _) rfl),
      (h.store.since_label _ _ _).trans (Store.since_recycle _)⟩
  | saved hscan hindexed hroom =>
    refine ⟨((hs.insert hroom).prune enc _).recycle, Store.Since.trans (.trans ?_
      (Store.since_prune enc _ _)) (Store.since_recycle _)⟩
    exact Store.since_insert fun r hr => (mem_stored hr).2.2

/-- Tables that come after `s`, or those of another database. -/
def Store.Beyond (s s' : Store) : Prop := s'.Ordered ∧ (s'.epoch ≠ s.epoch ∨ s.Since s')

theorem Store.Beyond.since {s s' s'' : Store} (h : s.Beyond s') (hordered : s''.Ordered)
    (hsince : s'.Since s'') : s.Beyond s'' := by
  refine ⟨hordered, h.2.imp (fun hepoch => ?_) fun h => h.trans hsince⟩
  rwa [hsince.epoch]

/-- **Rows since a state**: after any events, the database is another one, or its generation is
larger, or nothing has gone. -/
theorem events_beyond (enc : Codec) {s : Store} {es : List Event}
    (hes : ∀ e ∈ es, e.Fresh s.epoch) :
    ∀ {h : History}, s.Beyond h.store → s.Beyond (h.events enc es).store := by
  induction es with
  | nil => exact fun h => h
  | cons e es ih =>
    intro h hb
    refine ih (fun e he => hes e (List.mem_cons_of_mem _ he)) ?_
    cases e with
    | step x => exact hb.since (step_since hb.1 x).1 (step_since hb.1 x).2
    | recover =>
      exact ⟨⟨List.Pairwise.nil, by simp [History.event], Nat.two_pow_pos 63⟩,
        .inl (hes _ List.mem_cons_self)⟩

/-! ## One page -/

variable {r : Stored} {limit : ℕ}

section Page

variable {enc : Codec} {run : Run} {f : Filter}

/-- What a page shows of a row. -/
def Stored.item (r : Stored) : ℕ × Row := (r.id, r.body)

/-- The matching rows are in descending order. -/
theorem matching_descending {s : Store} (hs : s.Ordered) (top before : ℕ) :
    (s.matching run f top before).Pairwise fun a b => b.id < a.id := by
  rw [Store.matching, List.pairwise_reverse]
  have hascending := hs.ascending
  rw [List.pairwise_map] at hascending
  exact hascending.sublist List.filter_sublist

theorem mem_matching {s : Store} {top before : ℕ} :
    r ∈ s.matching run f top before ↔
      r ∈ s.rows ∧ f.matches run r = true ∧ r.id ≤ top ∧ r.id < before := by
  simp [Store.matching]

/-- A smaller bound leaves fewer of the rows. -/
theorem matching_filter (s : Store) {top before before' : ℕ} (h : before' ≤ before) :
    (s.matching run f top before).filter (fun r => decide (r.id < before')) =
      s.matching run f top before' := by
  rw [Store.matching, Store.matching, List.filter_reverse, List.filter_filter]
  refine congrArg List.reverse (List.filter_congr fun r _ => ?_)
  by_cases hlt : r.id < before'
  · simp [hlt, hlt.trans_le h]
  · simp [hlt]

/-- Rows with larger keys than `top` do not matter. -/
theorem matching_extends {s s' : Store} (h : s.Extends s') {top : ℕ} (htop : top ≤ s.sequence)
    (before : ℕ) : s'.matching run f top before = s.matching run f top before := by
  obtain ⟨later, hrows, hlater⟩ := h
  have hnone : later.filter (fun r => f.matches run r && decide (r.id ≤ top ∧ r.id < before)) = [] :=
    List.filter_eq_nil_iff.mpr fun r hr => by
      have := hlater r hr
      simp only [Bool.and_eq_true, decide_eq_true_eq, not_and]
      omega
  rw [Store.matching, Store.matching, hrows, List.filter_append, hnone, List.append_nil]

theorem le_top {s : Store} (hr : r ∈ s.rows) : r.id ≤ s.top := by
  have hfold : ∀ (l : List ℕ) (a x : ℕ), x ≤ a ∨ x ∈ l → x ≤ l.foldl max a := by
    intro l
    induction l with
    | nil => simp
    | cons y l ih =>
      intro a x hx
      refine ih _ _ ?_
      rcases hx with hx | hx
      · exact .inl (hx.trans (le_max_left _ _))
      · rcases List.mem_cons.mp hx with rfl | hx
        · exact .inl (le_max_right _ _)
        · exact .inr hx
  exact hfold _ _ _ (.inr (List.mem_map_of_mem hr))

theorem top_le {s : Store} (hs : s.Ordered) : s.top ≤ s.sequence := by
  have hfold : ∀ (l : List ℕ) (a : ℕ), a ≤ s.sequence → (∀ x ∈ l, x ≤ s.sequence) →
      l.foldl max a ≤ s.sequence := by
    intro l
    induction l with
    | nil => exact fun a ha _ => ha
    | cons y l ih =>
      intro a ha hl
      exact ih _ (max_le ha (hl y List.mem_cons_self)) fun x hx => hl x (List.mem_cons_of_mem _ hx)
  refine hfold _ _ (Nat.zero_le _) fun x hx => ?_
  obtain ⟨r, hr, rfl⟩ := List.mem_map.mp hx
  exact hs.le r hr

/-- The cursor that a page gives. -/
def cursorAt (enc : Codec) (run : Run) (f : Filter) (s : Store) (top before : ℕ) : Cursor :=
  { epoch := s.epoch, scope := scope enc run f, generation := s.generation, top, before }

/-- The page of the matching rows `found`, and the cursor after it. -/
structure Shows (enc : Codec) (run : Run) (f : Filter) (s : Store) (top limit : ℕ)
    (found : List Stored) (a : Answer) : Prop where
  items : a.items = (found.take limit).map Stored.item
  last : found.length ≤ limit → a.nextCursor = none
  more : limit < found.length → ∃ r, (found.take limit).getLast? = some r ∧
    a.nextCursor = some (cursorAt enc run f s top r.id)

theorem serve_shows (h : History) (hpos : 0 < limit) (cursor : Option Json) (top before : ℕ) :
    Shows enc run f h.store top limit (h.store.matching run f top before)
      (h.serve enc run { filter := f, limit, cursor } top before).1 := by
  have hstore : ∀ q : Option Request, (if (h.scan.isNone && h.pending.isNone) = true then
      { h with pending := q } else h).store = h.store := fun q => by split <;> rfl
  generalize hfound : h.store.matching run f top before = found
  have hiff : limit < (found.take (limit + 1)).length ↔ limit < found.length := by
    rw [List.length_take]
    omega
  by_cases hmore : limit < found.length
  · have hdrop : (found.take (limit + 1)).dropLast = found.take limit := by
      rw [List.dropLast_eq_take, List.take_take, List.length_take]
      congr 1
      omega
    refine ⟨?_, fun hle => absurd hmore (by omega), fun _ => ?_⟩
    · simp only [History.serve, hstore, Int.toNat_natCast, hfound, if_pos (hiff.mpr hmore), hdrop]
      rfl
    · have hne : found.take limit ≠ [] := by
        rw [← List.length_pos_iff, List.length_take]
        omega
      refine ⟨_, List.getLast?_eq_getLast_of_ne_nil hne, ?_⟩
      simp only [History.serve, hstore, Int.toNat_natCast, hfound, if_pos (hiff.mpr hmore), hdrop,
        List.getLast?_eq_getLast_of_ne_nil hne, Option.map_some]
      rfl
  · have htake : ∀ n, limit ≤ n → found.take n = found := fun n hn =>
      List.take_of_length_le (by omega)
    refine ⟨?_, fun _ => ?_, fun hlt => absurd hlt hmore⟩
    · simp only [History.serve, hstore, Int.toNat_natCast, hfound, htake (limit + 1) (by omega), if_neg hmore,
        htake limit le_rfl]
      rfl
    · simp only [History.serve, hstore, Int.toNat_natCast, hfound, htake (limit + 1) (by omega), if_neg hmore]

theorem store_serve (h : History) (p : Page) (top before : ℕ) :
    (h.serve enc run p top before).2.store = h.store := by
  simp only [History.serve]
  split <;> rfl

end Page

/-! ## Cursors -/

section Cursor

variable {enc : Codec} {run : Run} {f : Filter}

theorem length_toDigits_le {n : ℕ} (h : n < 2 ^ 63) : (Nat.toDigits 10 n).length ≤ 19 :=
  (Nat.length_toDigits_le_iff (by decide) (by decide)).mpr (h.trans (by decide))

theorem integer_toString {n : ℕ} (h : n < 2 ^ 63) : integer (.string (toString n)) = .ok n := by
  have hsize : (toString n).utf8ByteSize ≤ 19 := by
    rw [utf8ByteSize_toString]
    exact length_toDigits_le h
  simp only [integer, decimal_toString, decide_eq_true h, Bool.and_true, decide_eq_true hsize]
  rfl

/-- A cursor of this run and filter whose numbers SQLite can hold. -/
structure Cursor.Own (enc : Codec) (run : Run) (f : Filter) (c : Cursor) : Prop where
  epoch : Json.quotedSize c.epoch = 34
  scope : c.scope = Packets.scope enc run f
  generation : c.generation < 2 ^ 63
  top : c.top < 2 ^ 63
  before : c.before < 2 ^ 63

theorem Cursor.Own.dumpSize_le {c : Cursor} (hc : c.Own enc run f) : c.json.dumpSize ≤ 512 := by
  have hbefore := length_toDigits_le hc.before
  have htop := length_toDigits_le hc.top
  have hgeneration := length_toDigits_le hc.generation
  have hscope : Json.quotedSize c.scope = 73 := by
    rw [hc.scope]
    exact enc.digest_size _
  have hkeys : Json.quotedSize "before" = 8 ∧ Json.quotedSize "epoch" = 7 ∧
      Json.quotedSize "generation" = 12 ∧ Json.quotedSize "scope" = 7 ∧
      Json.quotedSize "top" = 5 := by decide
  simp only [Cursor.json, Json.dumpSize_object, Json.fieldsSize_cons, Json.fieldsSize_nil,
    Json.dumpSize_string, quotedSize_toString, hscope, hc.epoch, hkeys]
  omega

/-- **A cursor of this run and filter** is refused only if the epoch or the generation has
changed. -/
theorem Cursor.Own.resume {c : Cursor} (hc : c.Own enc run f) (s : Store) :
    (c.epoch ≠ s.epoch ∧ resume enc s run f c.json = .error "packet_cursor_scope") ∨
    (c.generation ≠ s.generation ∧
      resume enc s run f c.json = .error "packet_history_expired") ∨
    (c.epoch = s.epoch ∧ c.generation = s.generation ∧
      resume enc s run f c.json = .ok (c.top, c.before)) := by
  have hsize : decide (c.json.dumpSize ≤ 512) = true := decide_eq_true hc.dumpSize_le
  have hgeneration : c.json.find? "generation" = some (.string (toString c.generation)) := rfl
  have htop : c.json.find? "top" = some (.string (toString c.top)) := rfl
  have hbefore : c.json.find? "before" = some (.string (toString c.before)) := rfl
  have hscope : cursorText c.json "scope" = .ok c.scope := rfl
  have hepoch : cursorText c.json "epoch" = .ok c.epoch := rfl
  have hfields : c.json.field "top" = .ok (.string (toString c.top)) ∧
      c.json.field "before" = .ok (.string (toString c.before)) := ⟨rfl, rfl⟩
  simp only [Packets.resume, hsize, hgeneration, htop, hbefore, hscope, hepoch, hfields, ok_bind,
    check_bind, Option.isSome_some, Bool.and_self, hc.scope, beq_self_eq_true, Bool.true_and,
    integer_toString hc.top, integer_toString hc.before]
  by_cases heq : c.epoch = s.epoch
  · by_cases hgen : c.generation = s.generation
    · refine .inr (.inr ⟨heq, hgen, ?_⟩)
      simp [heq, hgen, check]
    · refine .inr (.inl ⟨hgen, ?_⟩)
      have hne : decide (some (Json.string (toString c.generation)) =
          some (.string (toString s.generation))) = false := decide_eq_false fun h =>
        hgen (toString_inj (Json.string.inj (Option.some.inj h)))
      simp only [hne, heq, beq_self_eq_true]
      rfl
  · refine .inl ⟨heq, ?_⟩
    simp [heq, check]

end Cursor

/-! ## The client -/

/-- One more page: what happens before it, its limit and its time. -/
structure Turn where
  before : List Event
  limit : ℕ
  wall : ℤ

/-- Follow a cursor, one turn after the other, until there is none: what the pages show, and
the cursor that is left. -/
def follow (enc : Codec) (run : Run) (f : Filter) :
    History → Cursor → List Turn → Except String (List (ℕ × Row) × Option Cursor)
  | _, c, [] => .ok ([], some c)
  | h, c, t :: ts =>
    match (h.events enc t.before).query enc run
        { filter := f, limit := t.limit, cursor := some c.json } t.wall with
    | (.error e, _) => .error e
    | (.ok a, h) =>
      match a.nextCursor with
      | none => .ok (a.items, none)
      | some c => do
          let (items, next) ← follow enc run f h c ts
          return (a.items ++ items, next)

/-- A first query, and the pages after it. -/
def browse (enc : Codec) (run : Run) (f : Filter) (h : History) (limit : ℕ) (wall : ℤ)
    (turns : List Turn) : Except String (List (ℕ × Row) × Option Cursor) :=
  match h.query enc run { filter := f, limit } wall with
  | (.error e, _) => .error e
  | (.ok a, h) =>
    match a.nextCursor with
    | none => .ok (a.items, none)
    | some c => do
        let (items, next) ← follow enc run f h c turns
        return (a.items ++ items, next)

/-- The outcome of following a cursor to what is left of the rows. -/
def Exact (found : List Stored) : Except String (List (ℕ × Row) × Option Cursor) → Prop
  | .error e => e = "packet_history_expired" ∨ e = "packet_cursor_scope"
  | .ok (items, next) =>
    items <+: found.map Stored.item ∧ (next = none → items = found.map Stored.item)

/-- A page and what follows. -/
theorem Exact.append {found : List Stored} {rest : Except String (List (ℕ × Row) × Option Cursor)}
    (h : Exact (found.drop limit) rest) :
    Exact found (do
      let (items, next) ← rest
      return ((found.take limit).map Stored.item ++ items, next)) := by
  have hsplit : found.map Stored.item =
      (found.take limit).map Stored.item ++ (found.drop limit).map Stored.item := by
    rw [← List.map_append, List.take_append_drop]
  cases rest with
  | error => exact h
  | ok result =>
    obtain ⟨_, _⟩ := result
    refine ⟨?_, fun hnext => ?_⟩
    · rw [hsplit]
      exact List.prefix_append_right_inj _ |>.mpr h.1
    · rw [hsplit, h.2 hnext]

/-- In descending order, the rows below the last of a page are those after it. -/
theorem filter_below {found : List Stored} (h : found.Pairwise fun a b => b.id < a.id)
    (hr : (found.take limit).getLast? = some r) :
    found.filter (fun x => decide (x.id < r.id)) = found.drop limit := by
  conv_lhs => rw [← List.take_append_drop limit found]
  rw [← List.take_append_drop limit found, List.pairwise_append] at h
  obtain ⟨_, hfront⟩ := List.getLast?_eq_some_iff.mp hr
  rw [List.filter_append, List.filter_eq_nil_iff.mpr, List.nil_append, List.filter_eq_self.mpr]
  · intro x hx
    simpa using h.2.2 r (List.mem_of_getLast? hr) x hx
  · intro x hx
    have hpairs := h.1
    rw [hfront, List.pairwise_append] at hpairs
    rw [hfront] at hx
    rcases List.mem_append.mp hx with hx | hx
    · have := hpairs.2.2 x hx r (List.mem_singleton_self _)
      simp only [decide_eq_true_eq]
      omega
    · simp [List.mem_singleton.mp hx]

/-- A filter that `query` accepts. -/
structure Filter.Valid (f : Filter) : Prop where
  node : f.node.utf8ByteSize ≤ 128
  edge : f.edge.utf8ByteSize ≤ 128
  protocol : f.protocol.utf8ByteSize ≤ 128

section Browse

variable {enc : Codec} {run : Run} {f : Filter}

/-- A query without a cursor. -/
theorem query_first (enc : Codec) (run : Run) (hf : f.Valid) (hpos : 1 ≤ limit) (hle : limit ≤ 200)
    (h : History) (wall : ℤ) : ∃ a h', h.query enc run { filter := f, limit } wall = (.ok a, h') ∧
      h'.store = h.store.prune enc wall ∧
      Shows enc run f h'.store h'.store.top limit
        (h'.store.matching run f h'.store.top (h'.store.top + 1)) a := by
  obtain ⟨_, _, _⟩ := hf
  rw [History.query, if_neg (by dsimp only; omega), if_neg (by dsimp only; omega)]
  generalize h.store.prune enc wall = s
  dsimp only
  refine ⟨_, _, rfl, store_serve _ _ _ _, ?_⟩
  rw [store_serve]
  exact serve_shows { h with store := s } hpos none _ _

/-- A query with a cursor of this run and filter. -/
theorem query_next (hf : f.Valid) (hpos : 1 ≤ limit) (hle : limit ≤ 200) (h : History) (wall : ℤ)
    {c : Cursor} (hc : c.Own enc run f) :
    (∃ e h', h.query enc run { filter := f, limit, cursor := some c.json } wall = (.error e, h') ∧
      (e = "packet_history_expired" ∨ e = "packet_cursor_scope")) ∨
    ∃ a h', h.query enc run { filter := f, limit, cursor := some c.json } wall = (.ok a, h') ∧
      h'.store = h.store.prune enc wall ∧ c.epoch = h'.store.epoch ∧
      c.generation = h'.store.generation ∧
      Shows enc run f h'.store c.top limit (h'.store.matching run f c.top c.before) a := by
  obtain ⟨_, _, _⟩ := hf
  rw [History.query, if_neg (by dsimp only; omega), if_neg (by dsimp only; omega)]
  generalize h.store.prune enc wall = s
  dsimp only
  rcases hc.resume s with ⟨-, heq⟩ | ⟨-, heq⟩ | ⟨hepoch, hgeneration, heq⟩
  · rw [heq]
    exact .inl ⟨_, _, rfl, .inr rfl⟩
  · rw [heq]
    exact .inl ⟨_, _, rfl, .inl rfl⟩
  · rw [heq]
    refine .inr ⟨_, _, rfl, store_serve _ _ _ _, ?_⟩
    rw [store_serve]
    exact ⟨hepoch, hgeneration, serve_shows { h with store := s } hpos _ _ _⟩

/-- The rows that are left after a page. -/
theorem matching_after {s : Store} (hs : s.Ordered) {top before : ℕ}
    (hr : ((s.matching run f top before).take limit).getLast? = some r) :
    s.matching run f top r.id = (s.matching run f top before).drop limit := by
  have hmem := mem_matching.mp (List.mem_of_mem_take (List.mem_of_getLast? hr))
  rw [← filter_below (matching_descending hs top before) hr,
    matching_filter s hmem.2.2.2.le]

/-- **Following a cursor**: the pages are what is left of the matching rows of the first page's
store `s`. -/
theorem follow_exact (enc : Codec) (run : Run) (hf : f.Valid) {s : Store} (hs : s.Ordered)
    (hgeneration : s.generation < 2 ^ 63) (hepoch : Json.quotedSize s.epoch = 34)
    {turns : List Turn} : ∀ {h : History} {before : ℕ}, s.Beyond h.store → before < 2 ^ 63 →
      (∀ t ∈ turns, 1 ≤ t.limit ∧ t.limit ≤ 200 ∧ ∀ e ∈ t.before, e.Fresh s.epoch) →
      Exact (s.matching run f s.top before)
        (follow enc run f h (cursorAt enc run f s s.top before) turns) := by
  have htop : s.top < 2 ^ 63 := (top_le hs).trans_lt hs.bounded
  induction turns with
  | nil =>
    intro h before _ _ _
    exact ⟨List.nil_prefix, fun hnone => absurd hnone (by simp)⟩
  | cons t ts ih =>
    intro h before hbeyond hbefore hturns
    obtain ⟨hpos, hle, hfresh⟩ := hturns t List.mem_cons_self
    have hown : (cursorAt enc run f s s.top before).Own enc run f :=
      ⟨hepoch, rfl, hgeneration, htop, hbefore⟩
    have hb : s.Beyond (h.events enc t.before).store :=
      events_beyond enc hfresh hbeyond
    rw [follow]
    rcases query_next hf hpos hle (h.events enc t.before) t.wall hown with
      ⟨e, h', heq, he⟩ | ⟨a, h', heq, hstore, hsame, hgen, hshows⟩
    · rw [heq]
      exact he
    · -- the page is accepted, so nothing has gone since the first one
      have hnext : s.Beyond h'.store := hstore ▸
        hb.since (hb.1.prune enc t.wall) (Store.since_prune enc t.wall _)
      have hsince : s.Since h'.store := hnext.2.resolve_left fun hne => hne hsame.symm
      have hextends : s.Extends h'.store := by
        rcases hsince.rows with hlt | ⟨-, hextends⟩
        · exact absurd hgen (Nat.ne_of_lt hlt)
        · exact hextends
      have hmatching : h'.store.matching run f s.top before = s.matching run f s.top before :=
        matching_extends hextends (top_le hs) before
      have hcursor : ∀ id, cursorAt enc run f h'.store s.top id = cursorAt enc run f s s.top id :=
        fun id => by simp only [cursorAt, hsame.symm, hgen.symm]
      obtain ⟨hitems, hlast, hmore⟩ := hmatching ▸ hshows
      rw [heq]
      dsimp only
      rcases Nat.lt_or_ge t.limit (s.matching run f s.top before).length with hlt | hge
      · obtain ⟨r, hr, hnextCursor⟩ := hmore hlt
        have hnextCursor := hnextCursor.trans (congrArg some (hcursor r.id))
        have hmem := mem_matching.mp (List.mem_of_mem_take (List.mem_of_getLast? hr))
        have hrest := ih hnext ((hs.le r hmem.1).trans_lt hs.bounded)
          fun t ht => hturns t (List.mem_cons_of_mem _ ht)
        rw [matching_after hs hr] at hrest
        rw [hnextCursor, hitems]
        exact hrest.append
      · rw [hlast hge, hitems, List.take_of_length_le hge]
        exact ⟨List.prefix_rfl, fun _ => rfl⟩

/-- **Pages.**  Following `nextCursor` from a first query, with any events between the pages, is
refused because the history has changed or shows, in descending order and each once, the
matching rows that the first query saw: all of them once there is no next cursor.  And as long
as epoch and generation stay, no row goes. -/
theorem pages_exact (enc : Codec) (run : Run) (hf : f.Valid) (h : History)
    (hordered : h.store.Ordered) (hepoch : Json.quotedSize h.store.epoch = 34)
    {limit : ℕ} (hpos : 1 ≤ limit) (hle : limit ≤ 200) (wall : ℤ)
    (hgeneration : (h.store.prune enc wall).generation < 2 ^ 63) {turns : List Turn}
    (hturns : ∀ t ∈ turns, 1 ≤ t.limit ∧ t.limit ≤ 200 ∧ ∀ e ∈ t.before, e.Fresh h.store.epoch) :
    let found := ((h.store.prune enc wall).rows.filter (f.matches run)).reverse
    found.Pairwise (fun a b => b.id < a.id) ∧
      Exact found (browse enc run f h limit wall turns) ∧
      ∀ es : List Event, (∀ e ∈ es, e.Fresh h.store.epoch) →
        (h.events enc es).store.epoch = h.store.epoch →
        (h.events enc es).store.generation = h.store.generation →
        ∀ r ∈ h.store.rows, r ∈ (h.events enc es).store.rows := by
  have hs : (h.store.prune enc wall).Ordered := hordered.prune enc wall
  obtain ⟨_, h', heq, hstore, hitems, hlast, hmore⟩ := 
    query_first enc run hf hpos hle h wall
  rw [hstore] at hitems hlast hmore
  generalize hpruned : h.store.prune enc wall = s at hs hitems hlast hmore hstore hgeneration
  have hsame : s.epoch = h.store.epoch := by rw [← hpruned]; rfl
  have hall : (s.rows.filter (f.matches run)).reverse = s.matching run f s.top (s.top + 1) := by
    rw [Store.matching]
    refine congrArg List.reverse (List.filter_congr fun r hr => ?_)
    have := le_top hr
    simp [this, Nat.lt_succ_of_le this]
  intro found
  have hfound : found = s.matching run f s.top (s.top + 1) := hall
  refine ⟨hfound ▸ matching_descending hs _ _, ?_, fun es hes hepoch' hgeneration' r hr => ?_⟩
  · rw [hfound, browse, heq]
    dsimp only
    rcases Nat.lt_or_ge limit (s.matching run f s.top (s.top + 1)).length with hlt | hge
    · obtain ⟨r, hr, hcursor⟩ := hmore hlt
      have hmem := mem_matching.mp (List.mem_of_mem_take (List.mem_of_getLast? hr))
      have hbeyond : s.Beyond h'.store := ⟨hstore ▸ hs, .inr (hstore ▸ .of_same rfl rfl rfl rfl)⟩
      have hrest := follow_exact enc run hf hs hgeneration (hsame ▸ hepoch) hbeyond
        ((hs.le r hmem.1).trans_lt hs.bounded) (hsame ▸ hturns)
      rw [matching_after hs hr] at hrest
      rw [hcursor, hitems]
      exact hrest.append
    · rw [hlast hge, hitems, List.take_of_length_le hge]
      exact ⟨List.prefix_rfl, fun _ => rfl⟩
  · have hstart : h.store.Beyond h.store := ⟨hordered, .inr (.of_same rfl rfl rfl rfl)⟩
    have hbeyond := events_beyond enc hes hstart
    obtain ⟨-, -, hlt | ⟨-, _, hrows, -⟩⟩ := hbeyond.2.resolve_left fun hne => hne hepoch'
    · exact absurd hgeneration' (Nat.ne_of_gt hlt)
    · rw [hrows]
      exact List.mem_append_left _ hr

end Browse

/-- A row of the run `sampleRun`. -/
def sampleRow (id : ℕ) : Stored where
  id
  run := "r"
  artifact := "c-0"
  edge := "e"
  nodeA := ""
  nodeB := ""
  protocol := "other"
  time := 0
  body :=
    { context := {}
      packetIndex := toString id
      blockOffset := "0"
      timestampUnixMicros := "0"
      capturedLength := 0
      originalLength := 0
      truncated := false
      headers := {} }

/-- A store with three rows. -/
def sampleStore : Store where
  epoch := "00000000000000000000000000000000"
  rows := [sampleRow 1, sampleRow 2, sampleRow 3]
  sequence := 3

/-- Two pages, and between them a query without a cursor. -/
theorem pages_exact_sample :
    let turns : List Turn := [⟨[.step (.query sampleRun {} 1)], 2, 2⟩]
    ((browse sampleCodec sampleRun {} { store := sampleStore } 2 0 turns).toOption.map
        fun r => (r.1.map Prod.fst, r.2)) = some ([3, 2, 1], none) ∧
      Exact ((sampleStore.prune sampleCodec 0).rows.filter (Filter.matches {} sampleRun)).reverse
        (browse sampleCodec sampleRun {} { store := sampleStore } 2 0 turns) := by
  intro turns
  have hturns : ∀ t ∈ turns, 1 ≤ t.limit ∧ t.limit ≤ 200 ∧
      ∀ e ∈ t.before, e.Fresh sampleStore.epoch := by
    intro t ht
    cases List.mem_singleton.mp ht
    refine ⟨by decide, by decide, fun e he => ?_⟩
    cases List.mem_singleton.mp he
    trivial
  have hexact := pages_exact sampleCodec sampleRun (f := {}) ⟨by decide, by decide, by decide⟩
    { store := sampleStore } ⟨by decide, by decide, by decide⟩ (by decide) (by decide : 1 ≤ 2)
    (by decide) 0 (by decide) hturns
  exact ⟨by decide +kernel, hexact.2.1⟩

end Graphlab.Packets
