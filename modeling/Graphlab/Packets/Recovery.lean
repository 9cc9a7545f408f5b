import Graphlab.Lib.Bytes
import Graphlab.Lib.Crash

/-!
# Recovery of the packet index

`History::recover` moves the files of a database to quarantine names, builds a fresh one
beside them and renames it into place, under a marker that says so.  A call may die after
any operation on the files; the next one goes on from what it finds.

A retry decides by what stands there now: a file at the path is quarantined unless a
quarantined one exists, and then removed.  If the original set has no main file, a fresh
database that an interrupted call has published is taken for an original.

## Main results

* `recover_quarantines` — any number of interrupted calls and one that returns, unless a call
  begins while the path holds such a database.
* `published_quarantined` — a run in which one does.
-/

namespace Graphlab.Packets

open Lib

/-! ## Files -/

/-- The files of a database. -/
inductive Suffix
  | main | journal | wal | shm
  deriving DecidableEq, Repr

/-- The names beside the path of the database. -/
inductive Entry
  | path (s : Suffix)
  | quarantine (s : Suffix)
  | replacement (s : Suffix)
  /-- `.recovering`. -/
  | marker
  /-- The temporary file of the marker. -/
  | markerTemporary
  deriving DecidableEq, Repr

/-- What stands at a name. -/
inductive Content
  | data (bytes : Bytes)
  /-- A database that the constructor has made. -/
  | database (epoch : String)
  /-- A file that is being written. -/
  | unfinished
  /-- The text of the marker. -/
  | intent
  | link
  deriving DecidableEq, Repr

abbrev Directory := Entry → Option Content

inductive FileOp
  | exists (n : Entry)
  | isSymlink (n : Entry)
  | write (n : Entry) (c : Content)
  | rename (source target : Entry)
  | remove (n : Entry)
  | sync
  deriving DecidableEq, Repr

abbrev FileOp.Ans : FileOp → Type
  | .exists _ => Bool
  | .isSymlink _ => Bool
  | _ => Unit

/-- What an operation does. -/
def FileOp.act : (o : FileOp) → Directory → o.Ans × Directory
  | .exists n, d => ((d n).isSome, d)
  | .isSymlink n, d => (d n == some .link, d)
  | .write n c, d => ((), Function.update d n (some c))
  | .rename source target, d =>
    ((), Function.update (Function.update d target (d source)) source none)
  | .remove n, d => ((), Function.update d n none)
  | .sync, d => ((), d)

abbrev FileProg := Prog FileOp FileOp.Ans String

def fileOp (o : FileOp) : FileProg o.Ans := .op o .ret

/-! ## The source -/

def suffixes : List Suffix := [.main, .journal, .wal, .shm]

/-- The names that must not be links. -/
def refuseLinks : List Entry → FileProg Unit
  | [] => pure ()
  | n :: rest => do
      if ← fileOp (.isSymlink n) then throw "packet_database_symlink"
      refuseLinks rest

/-- No quarantined file may exist. -/
def refuseQuarantine : List Suffix → FileProg Unit
  | [] => pure ()
  | s :: rest => do
      if ← fileOp (.exists (.quarantine s)) then throw "packet_quarantine_exists"
      refuseQuarantine rest

/-- `atomic_json` of the marker. -/
def mark : FileProg Unit := do
  fileOp (.write .markerTemporary .unfinished)
  fileOp (.write .markerTemporary .intent)
  fileOp .sync
  fileOp (.rename .markerTemporary .marker)
  fileOp .sync

/-- Quarantine each file once; discard what an earlier call has built. -/
def quarantine : List Suffix → FileProg Unit
  | [] => pure ()
  | s :: rest => do
      if ← fileOp (.exists (.path s)) then
        if ← fileOp (.exists (.quarantine s)) then fileOp (.remove (.path s))
        else fileOp (.rename (.path s) (.quarantine s))
      fileOp (.remove (.replacement s))
      quarantine rest

/-- The constructor at the replacement's path, which makes a database with a journal. -/
def build (epoch : String) : FileProg Unit := do
  fileOp (.write (.replacement .main) .unfinished)
  fileOp (.write (.replacement .journal) .unfinished)
  fileOp (.write (.replacement .main) (.database epoch))
  fileOp (.remove (.replacement .journal))

/-- What `recover` does under the marker. -/
def replace (epoch : String) : FileProg Unit := do
  quarantine suffixes
  fileOp .sync
  build epoch
  fileOp (.rename (.replacement .main) (.path .main))
  fileOp .sync
  fileOp (.remove .marker)
  fileOp .sync

/-- `History::recover`; the new database gets the epoch. -/
def recover (epoch : String) : FileProg Unit := do
  refuseLinks [.path .main, .path .journal, .path .wal, .path .shm, .marker, .quarantine .main,
    .replacement .main]
  if !(← fileOp (.exists .marker)) then
    refuseQuarantine suffixes
    mark
  replace epoch

/-- The first checks of the constructor at the path. -/
def openPath (d : Directory) : Except String Unit :=
  if (d .marker).isSome then .error "packet_recovery_interrupted"
  else if d (.path .main) = some .link then .error "packet_database_symlink"
  else .ok ()

/-! ## States of a recovery -/

/-- The original files, by their bytes. -/
abbrev Originals := Suffix → Option Bytes

/-- An original file. -/
def Originals.content (o : Originals) (s : Suffix) : Option Content := (o s).map .data

section States

variable {o : Originals} {d d' : Directory} {s : Suffix}

/-- Nothing has changed. -/
def Unchanged (o : Originals) (d : Directory) : Prop :=
  d .marker = none ∧ ∀ s, d (.path s) = o.content s ∧ d (.quarantine s) = none

/-- A file of the path that is quarantined, if there was one. -/
def Done (o : Originals) (d : Directory) (s : Suffix) : Prop :=
  d (.path s) = none ∧ d (.quarantine s) = o.content s

/-- A file that is not yet quarantined, or is, or whose place a fresh database has taken. -/
def Moved (o : Originals) (d : Directory) (s : Suffix) : Prop :=
  (d (.path s) = o.content s ∧ d (.quarantine s) = none) ∨ Done o d s ∨
    (∃ e, d (.path s) = some (.database e)) ∧ d (.quarantine s) = o.content s ∧ (o s).isSome

/-- The fresh database is in its place. -/
structure Fresh (o : Originals) (d : Directory) : Prop where
  path : ∃ e, d (.path .main) = some (.database e)
  rest : ∀ s, s ≠ .main → d (.path s) = none
  quarantine : ∀ s, d (.quarantine s) = o.content s

/-- The states that a call may leave. -/
def Recovering (o : Originals) (d : Directory) : Prop :=
  Unchanged o d ∨ (d .marker).isSome = true ∧ ((∀ s, Moved o d s) ∨ Fresh o d) ∨
    d .marker = none ∧ Fresh o d

theorem Done.moved (h : Done o d s) : Moved o d s := .inr (.inl h)

theorem Moved.congr (h : Moved o d s) (hpath : d' (.path s) = d (.path s))
    (hquarantine : d' (.quarantine s) = d (.quarantine s)) : Moved o d' s := by
  simpa only [Moved, Done, hpath, hquarantine] using h

theorem Done.congr (h : Done o d s) (hpath : d' (.path s) = d (.path s))
    (hquarantine : d' (.quarantine s) = d (.quarantine s)) : Done o d' s := by
  simpa only [Done, hpath, hquarantine] using h

theorem Recovering.moved (hmarker : (d .marker).isSome = true) (h : ∀ s, Moved o d s) :
    Recovering o d := .inr (.inl ⟨hmarker, .inl h⟩)

end States

/-! ## The parts of a call -/

section Parts

variable {o : Originals} {d : Directory} {I : Directory → Prop} {E : String → Directory → Prop}

theorem refuseLinks_holds (hI : I d) (hE : ∀ n, d n = some .link → E "packet_database_symlink" d) :
    ∀ names, (refuseLinks names).Holds FileOp.act I (fun _ t => t = d) E d
  | [] => ⟨hI, rfl⟩
  | n :: rest => by
      refine ⟨hI, ?_⟩
      dsimp only [FileOp.act]
      cases hn : d n == some Content.link with
      | true => exact ⟨hI, hE n (by simpa using hn)⟩
      | false => exact refuseLinks_holds hI hE rest

theorem refuseQuarantine_holds (hI : I d)
    (hE : ∀ s, (d (.quarantine s)).isSome = true → E "packet_quarantine_exists" d) :
    ∀ l, (refuseQuarantine l).Holds FileOp.act I
      (fun _ t => t = d ∧ ∀ s ∈ l, d (.quarantine s) = none) E d
  | [] => ⟨hI, rfl, by simp⟩
  | s :: rest => by
      refine ⟨hI, ?_⟩
      dsimp only [FileOp.act]
      cases hs : d (.quarantine s) with
      | some => exact ⟨hI, hE s (by simp [hs])⟩
      | none =>
        refine Prog.Holds.mono (refuseQuarantine_holds hI hE rest) fun _ t ht => ⟨ht.1, ?_⟩
        exact List.forall_mem_cons.mpr ⟨hs, ht.2⟩

/-- The marker is written over an unchanged directory. -/
theorem mark_holds (hd : Unchanged o d) : mark.Holds FileOp.act (Recovering o)
    (fun _ t => (t .marker).isSome = true ∧ ∀ s, Moved o t s) E d := by
  have htemporary : ∀ {d : Directory} c, Unchanged o d →
      Unchanged o (Function.update d .markerTemporary (some c)) := fun c hd =>
    ⟨by simpa using hd.1, fun s => by simpa using hd.2 s⟩
  have h₁ := htemporary .unfinished hd
  have h₂ := htemporary .intent h₁
  have hmoved : ∀ {d : Directory}, Unchanged o d → d .markerTemporary = some .intent →
      (((FileOp.rename .markerTemporary .marker).act d).2 .marker).isSome = true ∧
        ∀ s, Moved o ((FileOp.rename .markerTemporary .marker).act d).2 s := fun hd hintent =>
    ⟨by simp [FileOp.act, hintent], fun s => .inl (by simpa [FileOp.act] using hd.2 s)⟩
  have h₃ := hmoved h₂ (by simp)
  exact ⟨.inl hd, .inl h₁, .inl h₂, .inl h₂, .moved h₃.1 h₃.2, .moved h₃.1 h₃.2, h₃⟩

/-- One file is quarantined, or what has taken its place is removed. -/
theorem quarantine_holds : ∀ {l : List Suffix} {d : Directory}, l.Nodup →
    (d .marker).isSome = true → (∀ s ∈ l, Moved o d s) → (∀ s ∉ l, Done o d s) →
    (quarantine l).Holds FileOp.act (Recovering o)
      (fun _ t => (t .marker).isSome = true ∧ ∀ s, Done o t s) E d
  | [], d, _, hmarker, _, hdone =>
    have hall : ∀ s, Done o d s := fun s => hdone s (by simp)
    ⟨.moved hmarker fun s => (hall s).moved, hmarker, hall⟩
  | s :: l, d, hnodup, hmarker, hmoved, hdone => by
      obtain ⟨_, hnodup⟩ := List.nodup_cons.mp hnodup
      have hall : ∀ s', Moved o d s' := fun s' => by
        by_cases hmem : s' ∈ s :: l
        · exact hmoved s' hmem
        · exact (hdone s' hmem).moved
      -- what remains once the file `s` is in its place
      have hrest : ∀ {t : Directory}, (t .marker).isSome = true → Done o t s →
          (∀ s', s' ≠ s → t (.path s') = d (.path s') ∧ t (.quarantine s') = d (.quarantine s')) →
          Prog.Holds FileOp.act (Recovering o)
            (fun _ t => (t .marker).isSome = true ∧ ∀ s, Done o t s) E
            ((fileOp (.remove (.replacement s))).bind fun _ => quarantine l) t := by
        intro t htmarker hts hother
        have hallt : ∀ s', Moved o t s' := fun s' => by
          by_cases heq : s' = s
          · exact heq ▸ hts.moved
          · exact (hall s').congr (hother s' heq).1 (hother s' heq).2
        refine ⟨.moved htmarker hallt, quarantine_holds hnodup (by simpa [FileOp.act] using htmarker)
          (fun s' hs' => ?_) fun s' hs' => ?_⟩
        · exact (hallt s').congr (by simp [FileOp.act]) (by simp [FileOp.act])
        · refine Done.congr (d := t) ?_ (by simp [FileOp.act]) (by simp [FileOp.act])
          by_cases heq : s' = s
          · exact heq ▸ hts
          · exact (hdone s' (by simp [heq, hs'])).congr (hother s' heq).1 (hother s' heq).2
      have hI : Recovering o d := .moved hmarker hall
      refine ⟨hI, ?_⟩
      dsimp only [FileOp.act]
      cases hpath : d (.path s) with
      | none =>
        have hdone : Done o d s := by
          rcases hall s with ⟨h, h'⟩ | h | ⟨⟨e, h⟩, -⟩
          · exact ⟨hpath, by rw [h', ← h, hpath]⟩
          · exact h
          · rw [hpath] at h
            cases h
        exact hrest hmarker hdone fun s' _ => ⟨rfl, rfl⟩
      | some =>
        refine ⟨hI, ?_⟩
        dsimp only [FileOp.act]
        cases hquarantine : d (.quarantine s) with
        | none =>
          have horiginal : d (.path s) = o.content s := by
            rcases hall s with ⟨h, -⟩ | h | ⟨-, h, hsome⟩
            · exact h
            · exact absurd h.1 (by simp [hpath])
            · rw [hquarantine, Originals.content] at h
              cases ho : o s <;> simp [ho] at h hsome
          refine ⟨hI, hrest ?_ ?_ ?_⟩
          · simpa [FileOp.act] using hmarker
          · simpa [Done, FileOp.act] using horiginal
          · intro s' hne
            simp [FileOp.act, hne]
        | some =>
          have horiginal : d (.quarantine s) = o.content s := by
            rcases hall s with ⟨-, h⟩ | h | ⟨-, h, -⟩
            · rw [hquarantine] at h
              cases h
            · exact h.2
            · exact h
          refine ⟨hI, hrest ?_ ?_ ?_⟩
          · simpa [FileOp.act] using hmarker
          · simpa [Done, FileOp.act] using horiginal
          · intro s' hne
            simp [FileOp.act, hne]

/-- The fresh database is built and renamed into its place. -/
theorem replace_holds (epoch : String) (hmarker : (d .marker).isSome = true)
    (hmoved : ∀ s, Moved o d s) : (replace epoch).Holds FileOp.act (Recovering o)
      (fun _ t => t .marker = none ∧ Fresh o t ∧ t (.path .main) = some (.database epoch)) E d := by
  refine Prog.Holds.bind (quarantine_holds (by decide) hmarker (fun s _ => hmoved s)
    fun s hs => absurd (by cases s <;> decide) hs) fun _ d hd => ?_
  obtain ⟨hmarker, hdone⟩ := hd
  -- the replacement does not touch the other names
  have hkept : ∀ {t : Directory} (s : Suffix) (c : Option Content),
      (t .marker).isSome = true ∧ (∀ s, Done o t s) →
      (Function.update t (.replacement s) c .marker).isSome = true ∧
        ∀ s', Done o (Function.update t (.replacement s) c) s' := fun s c ht =>
    ⟨by simpa using ht.1, fun s' => (ht.2 s').congr (by simp) (by simp)⟩
  have hI : ∀ {t : Directory}, (t .marker).isSome = true ∧ (∀ s, Done o t s) → Recovering o t :=
    fun ht => .moved ht.1 fun s => (ht.2 s).moved
  have h₀ := And.intro hmarker hdone
  have h₁ := hkept .main (some .unfinished) h₀
  have h₂ := hkept .journal (some .unfinished) h₁
  have h₃ := hkept .main (some (.database epoch)) h₂
  have h₄ := hkept .journal none h₃
  refine ⟨hI h₀, hI h₀, hI h₁, hI h₂, hI h₃, hI h₄, ?_⟩
  generalize hd' : ((FileOp.rename (.replacement .main) (.path .main)).act _).2 = d'
  have hpath : d' (.path .main) = some (.database epoch) := by
    simp [← hd', FileOp.act]
  have hfresh : Fresh o d' := by
    refine ⟨⟨epoch, hpath⟩, fun s hs => ?_, fun s => ?_⟩
    · simpa [← hd', FileOp.act, hs] using (hdone s).1
    · simpa [← hd', FileOp.act] using (hdone s).2
  have hmarker' : (d' .marker).isSome = true := by simpa [← hd', FileOp.act] using hmarker
  have hend : Fresh o ((FileOp.remove .marker).act d').2 := by
    refine ⟨⟨epoch, by simpa [FileOp.act] using hpath⟩, fun s hs => ?_, fun s => ?_⟩
    · simpa [FileOp.act] using hfresh.rest s hs
    · simpa [FileOp.act] using hfresh.quarantine s
  have hnone : ((FileOp.remove .marker).act d').2 .marker = none := by simp [FileOp.act]
  refine ⟨.inr (.inl ⟨hmarker', .inr hfresh⟩), .inr (.inl ⟨hmarker', .inr hfresh⟩),
    .inr (.inr ⟨hnone, hend⟩), .inr (.inr ⟨hnone, hend⟩), hnone, hend, ?_⟩
  simpa [FileOp.act] using hpath

/-- A call may begin here: if the path holds a database that an earlier call has built, there is
a quarantined main file. -/
def Begins (d : Directory) : Prop :=
  (∃ e, d (.path .main) = some (.database e)) → (d (.quarantine .main)).isSome = true

/-- **A call of `recover`**: in every state of it nothing has changed, or the marker is there, or
it is done.  It throws only at links and at a quarantined file of an earlier recovery. -/
theorem recover_holds (epoch : String) (hd : Recovering o d) (hb : Begins d)
    (hlink : ∀ n, d n = some .link → E "packet_database_symlink" d)
    (hquarantine : d .marker = none → ∀ s, (d (.quarantine s)).isSome = true →
      E "packet_quarantine_exists" d) :
    (recover epoch).Holds FileOp.act (Recovering o)
      (fun _ t => t .marker = none ∧ Fresh o t ∧ t (.path .main) = some (.database epoch)) E d := by
  refine Prog.Holds.bind (refuseLinks_holds hd hlink _) fun _ t ht => ?_
  subst ht
  refine ⟨hd, ?_⟩
  dsimp only [FileOp.act]
  cases hmarker : t .marker with
  | some =>
    have hsome : (t .marker).isSome = true := by simp [hmarker]
    refine replace_holds epoch hsome ?_
    rcases hd with h | ⟨-, h | h⟩ | ⟨h, -⟩
    · rw [h.1] at hmarker
      cases hmarker
    · exact h
    · intro s
      by_cases hs : s = .main
      · subst hs
        have hquarantine := hb h.path
        rw [h.quarantine, Originals.content, Option.isSome_map] at hquarantine
        exact .inr (.inr ⟨h.path, h.quarantine _, hquarantine⟩)
      · exact .inr (.inl ⟨h.rest s hs, h.quarantine s⟩)
    · rw [h] at hmarker
      cases hmarker
  | none =>
    change Prog.Holds _ _ _ _
      ((refuseQuarantine suffixes).bind fun _ => mark.bind fun _ => replace epoch) t
    refine Prog.Holds.bind (refuseQuarantine_holds hd (hquarantine hmarker) _) fun _ t' ht' => ?_
    obtain ⟨rfl, hnone⟩ := ht'
    have hunchanged : Unchanged o t' := by
      rcases hd with h | ⟨h, -⟩ | ⟨-, h⟩
      · exact h
      · simp [hmarker] at h
      · have hquarantine := hb h.path
        rw [hnone .main (by decide)] at hquarantine
        cases hquarantine
    exact Prog.Holds.bind (mark_holds hunchanged) fun _ t ht => replace_holds epoch ht.1 ht.2

/-- With a quarantined file and no marker, `recover` reads and throws. -/
theorem refuseQuarantine_refused (hI : I d) : ∀ {l : List Suffix},
    (∃ s ∈ l, (d (.quarantine s)).isSome = true) →
    (refuseQuarantine l).Holds FileOp.act I (fun _ _ => False)
      (fun e t => e = "packet_quarantine_exists" ∧ t = d) d
  | [], h => by simp at h
  | s :: rest, h => by
      refine ⟨hI, ?_⟩
      dsimp only [FileOp.act]
      cases hs : d (.quarantine s) with
      | some => exact ⟨hI, rfl, rfl⟩
      | none =>
        refine refuseQuarantine_refused hI ?_
        obtain ⟨s', hs', hsome⟩ := h
        rcases List.mem_cons.mp hs' with rfl | hs'
        · rw [hs] at hsome
          cases hsome
        · exact ⟨s', hs', hsome⟩

end Parts

/-! ## Calls that die -/

/-- The directory after some calls that died, each begun as `Begins` says. -/
inductive Interrupted (o : Originals) : Directory → Prop
  | start {d : Directory} (h : Unchanged o d) : Interrupted o d
  | died {d : Directory} (h : Interrupted o d) (begins : Begins d) (epoch : String) (n : ℕ) :
      Interrupted o ((recover epoch).cut FileOp.act n d)

theorem Interrupted.recovering {o : Originals} {d : Directory} (h : Interrupted o d) :
    Recovering o d := by
  induction h with
  | start h => exact .inl h
  | died _ begins epoch n ih =>
    exact (recover_holds epoch ih begins (E := fun _ _ => True) (fun _ _ => trivial)
      fun _ _ _ => trivial).cut n

/-- With a quarantined file and no marker, `recover` changes nothing and throws. -/
theorem recover_refused (epoch : String) {d : Directory} (hmarker : d .marker = none)
    (hlink : ∀ n, d n ≠ some .link) {s : Suffix} (hs : (d (.quarantine s)).isSome = true) :
    (recover epoch).exec FileOp.act d = (.error "packet_quarantine_exists", d) ∧
      ∀ n, (recover epoch).cut FileOp.act n d = d := by
  have hholds : (recover epoch).Holds FileOp.act (· = d) (fun _ _ => False)
      (fun e t => e = "packet_quarantine_exists" ∧ t = d) d := by
    refine Prog.Holds.bind (refuseLinks_holds (I := (· = d)) rfl (fun n hn => absurd hn (hlink n)) _)
      fun _ t ht => ?_
    subst ht
    refine ⟨rfl, ?_⟩
    dsimp only [FileOp.act]
    rw [hmarker]
    change Prog.Holds _ _ _ _
      ((refuseQuarantine suffixes).bind fun _ => mark.bind fun _ => replace epoch) t
    refine Prog.Holds.bind (refuseQuarantine_refused (I := (· = t)) rfl
      ⟨s, by cases s <;> decide, hs⟩) ?_
    exact fun _ _ hfalse => hfalse.elim
  obtain ⟨_, _, hexec, rfl, rfl⟩ := hholds.throws
  exact ⟨hexec, fun n => hholds.cut n⟩

/-- **Recovery.**  After any calls that died, each begun without a published database in the
path of a missing main file: nothing has changed, or the constructor refuses the path, or the
last call was at its end.  A call that returns then leaves no marker, a fresh database, and at
the quarantine names exactly the original files; it does return unless there are links or it
was done.  A later call that finds a quarantined file changes nothing and throws. -/
theorem recover_quarantines (o : Originals) :
    (∀ d, Interrupted o d →
      (Unchanged o d ∨ openPath d = .error "packet_recovery_interrupted" ∨
        d .marker = none ∧ Fresh o d) ∧
      ∀ epoch, Begins d →
        (∀ d', (recover epoch).exec FileOp.act d = (.ok (), d') →
          d' .marker = none ∧ d' (.path .main) = some (.database epoch) ∧
            ∀ s, d' (.quarantine s) = o.content s) ∧
        ((∀ n, d n ≠ some .link) → ¬(d .marker = none ∧ Fresh o d) →
          ∃ d', (recover epoch).exec FileOp.act d = (.ok (), d'))) ∧
    ∀ (d : Directory) (epoch : String), d .marker = none → (∀ n, d n ≠ some .link) →
      (∃ s, (d (.quarantine s)).isSome = true) →
      (recover epoch).exec FileOp.act d = (.error "packet_quarantine_exists", d) ∧
        ∀ n, (recover epoch).cut FileOp.act n d = d := by
  refine ⟨fun d hd => ⟨?_, fun epoch hb => ⟨fun d' hexec => ?_, fun hlink hnot => ?_⟩⟩,
    fun d epoch hmarker hlink ⟨s, hs⟩ => recover_refused epoch hmarker hlink hs⟩
  · rcases hd.recovering with h | ⟨h, -⟩ | h
    · exact .inl h
    · exact .inr (.inl (by rw [openPath, if_pos h]))
    · exact .inr (.inr h)
  · have hholds := recover_holds epoch hd.recovering hb (E := fun _ _ => True)
      (fun _ _ => trivial) fun _ _ _ => trivial
    obtain ⟨hmarker, hfresh, hpath⟩ := hholds.exec hexec
    exact ⟨hmarker, hpath, hfresh.quarantine⟩
  · have hholds := recover_holds epoch hd.recovering hb (E := fun _ _ => False)
      (fun n hn => hlink n hn) fun hmarker s hs => by
        rcases hd.recovering with h | ⟨h, -⟩ | h
        · rw [(h.2 s).2] at hs
          cases hs
        · simp [hmarker] at h
        · exact hnot h
    obtain ⟨_, d', hexec⟩ := hholds.returns
    exact ⟨d', hexec⟩

/-- The directory of a database whose files are given. -/
def original (o : Originals) : Directory
  | .path s => o.content s
  | _ => none

theorem original_unchanged (o : Originals) : Unchanged o (original o) := ⟨rfl, fun _ => ⟨rfl, rfl⟩⟩

/-- A main file and a write-ahead log. -/
def sampleOriginals : Originals
  | .main => some [1]
  | .wal => some [2]
  | _ => none

/-- A call that dies between the publication and the removal of the marker, and one that
returns. -/
theorem recover_quarantines_retried :
    let d := (recover "a").cut FileOp.act 35 (original sampleOriginals)
    d (.path .main) = some (.database "a") ∧
      openPath d = .error "packet_recovery_interrupted" ∧
      ∀ s, ((recover "b").exec FileOp.act d).2 (.quarantine s) = sampleOriginals.content s := by
  have hstart : Interrupted sampleOriginals (original sampleOriginals) :=
    .start (original_unchanged _)
  have hbegins : Begins (original sampleOriginals) := fun ⟨e, he⟩ => by cases he
  have hdied := hstart.died hbegins "a" 35
  have hretry := ((recover_quarantines sampleOriginals).1 _ hdied).2 "b" fun _ => by decide
  have hlink : ∀ n, (recover "a").cut FileOp.act 35 (original sampleOriginals) n ≠ some .link := by
    rintro (s | s | s | _ | _)
    iterate 3 cases s <;> decide
    all_goals decide
  obtain ⟨d', hd'⟩ := hretry.2 hlink fun hdone => absurd hdone.1 (by decide)
  refine ⟨by decide, by decide, fun s => ?_⟩
  rw [hd']
  exact (hretry.1 d' hd').2.2 s

/-- A write-ahead log without its main file. -/
def orphanLog : Originals
  | .wal => some [2]
  | _ => none

/-- **A published database is quarantined.**  The original set has no main file.  A call dies
after it has renamed the fresh database into place; the next one returns, and the quarantine
holds that database as a main file that never was. -/
theorem published_quarantined :
    let d := (recover "a").cut FileOp.act 33 (original orphanLog)
    let result := (recover "b").exec FileOp.act d
    (Interrupted orphanLog d ∧ d (.path .main) = some (.database "a")) ∧ result.1 = .ok () ∧
      result.2 (.quarantine .main) = some (.database "a") ∧ orphanLog.content .main = none := by
  refine ⟨⟨?_, by decide⟩, by decide, by decide, rfl⟩
  exact .died (.start (original_unchanged _)) (fun ⟨e, he⟩ => by cases he) "a" 33

end Graphlab.Packets
