import Mathlib.Data.List.Induction
import Mathlib.Data.List.Perm.Basic
import Mathlib.Logic.Function.Iterate
import Mathlib.Logic.Relation

/-!
# Components and cycles

The connected components of a list of edges, a multigraph in which an edge may occur twice
or join a vertex to itself, and the union-find that finds them without ranks or path
compression.  Beside the forest it notes the edges that join what is connected already; the
components in which there is one are those with a cycle, whatever the order of the edges.

## Main definitions

* `Conn`, `OnCycle` — connected vertices, and vertices in a component with a cycle.
* `Walk`, `IsCycle` — walks and cycles; `onCycle_iff`.
* `Unions`, `Unions.join`, `Unions.ofList` — the union-find.
* `Unions.root_eq_iff`, `Unions.cyclic_iff` — what it computes.
-/

namespace Graphlab.Lib

variable {α : Type}

/-! ## Connected vertices -/

/-- Two vertices are connected by edges of a list. -/
def Conn (l : List (α × α)) : α → α → Prop := Relation.EqvGen fun x y => (x, y) ∈ l

namespace Conn

variable {l l' : List (α × α)} {x y z : α} {e : α × α}

theorem refl (l : List (α × α)) (x : α) : Conn l x x := Relation.EqvGen.refl x

theorem symm (h : Conn l x y) : Conn l y x := Relation.EqvGen.symm x y h

theorem trans (h : Conn l x y) (h' : Conn l y z) : Conn l x z := Relation.EqvGen.trans x y z h h'

theorem of_mem (h : e ∈ l) : Conn l e.1 e.2 := Relation.EqvGen.rel _ _ h

theorem mono (hsub : l ⊆ l') (h : Conn l x y) : Conn l' x y :=
  Relation.EqvGen.mono (fun _ _ hm => hsub hm) _ _ h

theorem nil (h : Conn [] x y) : x = y := by
  induction h with
  | rel x y h => cases h
  | refl => rfl
  | symm x y _ ih => exact ih.symm
  | trans x y z _ _ ih ih' => exact ih.trans ih'

/-- One more edge connects what it joins. -/
theorem append_singleton :
    Conn (l ++ [e]) x y ↔
      Conn l x y ∨ (Conn l x e.1 ∧ Conn l e.2 y) ∨ (Conn l x e.2 ∧ Conn l e.1 y) := by
  constructor
  · intro h
    induction h with
    | rel x y h =>
      rcases List.mem_append.mp h with h | h
      · exact .inl (of_mem h)
      · rw [← List.mem_singleton.mp h]
        exact .inr (.inl ⟨refl _ _, refl _ _⟩)
    | refl => exact .inl (refl _ _)
    | symm x y _ ih =>
      rcases ih with h | ⟨h, h'⟩ | ⟨h, h'⟩
      · exact .inl h.symm
      · exact .inr (.inr ⟨h'.symm, h.symm⟩)
      · exact .inr (.inl ⟨h'.symm, h.symm⟩)
    | trans x y z _ _ ih ih' =>
      rcases ih with h | ⟨h, h'⟩ | ⟨h, h'⟩ <;> rcases ih' with k | ⟨k, k'⟩ | ⟨k, k'⟩
      · exact .inl (h.trans k)
      · exact .inr (.inl ⟨h.trans k, k'⟩)
      · exact .inr (.inr ⟨h.trans k, k'⟩)
      · exact .inr (.inl ⟨h, h'.trans k⟩)
      · exact .inr (.inl ⟨h, k'⟩)
      · exact .inl (h.trans k')
      · exact .inr (.inr ⟨h, h'.trans k⟩)
      · exact .inl (h.trans k')
      · exact .inr (.inr ⟨h, k'⟩)
  · have hold : ∀ {x y}, Conn l x y → Conn (l ++ [e]) x y :=
      fun h => h.mono (List.subset_append_left _ _)
    have hnew : Conn (l ++ [e]) e.1 e.2 := of_mem (by simp)
    rintro (h | ⟨h, h'⟩ | ⟨h, h'⟩)
    · exact hold h
    · exact (hold h).trans (hnew.trans (hold h'))
    · exact (hold h).trans (hnew.symm.trans (hold h'))

end Conn

/-! ## Cycles -/

/-- The vertex lies in a component with a cycle: without one of its edges the ends of this
edge stay connected. -/
def OnCycle [DecidableEq α] (l : List (α × α)) (x : α) : Prop :=
  ∃ e ∈ l, Conn (l.erase e) e.1 e.2 ∧ Conn l x e.1

/-- An edge of the vertex's component joins what the edges before it connect. -/
def Closes (l : List (α × α)) (x : α) : Prop :=
  ∃ pre e post, l = pre ++ e :: post ∧ Conn pre e.1 e.2 ∧ Conn l x e.1

section Cycles

variable [DecidableEq α] {l l' : List (α × α)} {x y : α}

theorem OnCycle.perm (hperm : l.Perm l') (h : OnCycle l x) : OnCycle l' x := by
  obtain ⟨e, he, hcycle, hx⟩ := h
  exact ⟨e, hperm.subset he, hcycle.mono (hperm.erase e).subset, hx.mono hperm.subset⟩

theorem Closes.onCycle (h : Closes l x) : OnCycle l x := by
  obtain ⟨pre, e, _, rfl, hpre, hx⟩ := h
  refine ⟨e, by simp, hpre.mono fun f hf => ?_, hx⟩
  by_cases hin : e ∈ pre
  · rw [List.erase_append_left _ hin]
    by_cases hfe : f = e
    · rw [hfe]
      simp
    · exact List.mem_append_left _ ((List.mem_erase_of_ne hfe).mpr hf)
  · rw [List.erase_append_right _ hin]
    exact List.mem_append_left _ hf

/-- Without an edge that closes anything, no edge lies on a cycle. -/
theorem closes_of_conn_erase {e : α × α} (he : e ∈ l) (hcycle : Conn (l.erase e) e.1 e.2) :
    Closes l e.1 := by
  induction l using List.reverseRecOn with
  | nil => cases he
  | append_singleton l f ih =>
    have hlast : Conn l f.1 f.2 → ∀ {x}, Conn (l ++ [f]) x f.1 → Closes (l ++ [f]) x :=
      fun hf _ hx => ⟨l, f, [], rfl, hf, hx⟩
    by_cases hin : e ∈ l
    · rw [List.erase_append_left _ hin, Conn.append_singleton] at hcycle
      have hsub : l.erase e ⊆ l := List.erase_subset
      have hedge : Conn l e.1 e.2 := Conn.of_mem hin
      -- the path around `e` either avoids the last edge or shows that it closes a cycle
      rcases hcycle with h | ⟨h, h'⟩ | ⟨h, h'⟩
      · obtain ⟨pre, g, post, rfl, hpre, hx⟩ := ih hin h
        exact ⟨pre, g, post ++ [f], by simp, hpre, hx.mono (List.subset_append_left _ _)⟩
      · have h := h.mono hsub
        have h' := h'.mono hsub
        refine hlast (h.symm.trans (hedge.trans h'.symm)) ?_
        exact h.mono (List.subset_append_left _ _)
      · have h := h.mono hsub
        have h' := h'.mono hsub
        refine hlast (h'.trans (hedge.symm.trans h)) ?_
        exact (hedge.trans h'.symm).mono (List.subset_append_left _ _)
    · have hef : e = f := by
        rcases List.mem_append.mp he with h | h
        · exact absurd h hin
        · exact List.mem_singleton.mp h
      subst hef
      rw [List.erase_append_right _ hin] at hcycle
      refine hlast (hcycle.mono ?_) (Conn.refl _ _)
      simp

theorem closes_iff_onCycle : Closes l x ↔ OnCycle l x := by
  constructor
  · exact Closes.onCycle
  · rintro ⟨e, he, hcycle, hx⟩
    obtain ⟨pre, f, post, heq, hpre, hf⟩ := closes_of_conn_erase he hcycle
    exact ⟨pre, f, post, heq, hpre, hx.trans hf⟩

end Cycles

/-! ## Walks -/

/-- The edge joins two vertices, in one direction or the other. -/
def Joins (e : α × α) (x y : α) : Prop := e = (x, y) ∨ e = (y, x)

/-- A walk: each step names an edge and the vertex that it comes to. -/
inductive Walk : α → List ((α × α) × α) → α → Prop
  | nil (x : α) : Walk x [] x
  | cons {e : α × α} {x y z : α} {w : List ((α × α) × α)} (h : Joins e x y) (hw : Walk y w z) :
      Walk x ((e, y) :: w) z

/-- A cycle of the multigraph: a closed walk that uses no edge and comes to no vertex twice.
Two parallel edges are a cycle, and so is an edge from a vertex to itself. -/
structure IsCycle (l : List (α × α)) (x : α) (w : List ((α × α) × α)) : Prop where
  steps : w ≠ []
  closed : Walk x w x
  edges : (w.map Prod.fst).Subperm l
  vertices : (w.map Prod.snd).Nodup

section Walks

variable {l : List (α × α)} {w w' : List ((α × α) × α)} {x y z : α} {e : α × α}

theorem Joins.conn (h : Joins e x y) (he : e ∈ l) : Conn l x y := by
  rcases h with rfl | rfl
  · exact .of_mem he
  · exact (Conn.of_mem he).symm

theorem Walk.conn (h : Walk x w y) (hl : w.map Prod.fst ⊆ l) : Conn l x y := by
  induction h with
  | nil x => exact .refl l x
  | cons hjoins _ ih =>
    rw [List.map_cons, List.cons_subset] at hl
    exact (hjoins.conn hl.1).trans (ih hl.2)

/-- All vertices of a walk are connected with its start. -/
theorem Walk.conn_of_mem (h : Walk x w y) (hl : w.map Prod.fst ⊆ l)
    (hz : z ∈ x :: w.map Prod.snd) : Conn l x z := by
  induction h with
  | nil =>
    rw [List.map_nil, List.mem_singleton] at hz
    exact hz ▸ .refl l _
  | cons hjoins _ ih =>
    rw [List.map_cons, List.cons_subset] at hl
    rcases List.mem_cons.mp hz with rfl | hz
    · exact .refl l _
    · exact (hjoins.conn hl.1).trans (ih hl.2 hz)

theorem Walk.append (h : Walk x w y) (h' : Walk y w' z) : Walk x (w ++ w') z := by
  induction h with
  | nil => exact h'
  | cons hjoins _ ih => exact .cons hjoins (ih h')

/-- The ends of its edges are vertices of the walk. -/
theorem Walk.ends_mem (h : Walk x w y) (he : e ∈ w.map Prod.fst) :
    e.1 ∈ x :: w.map Prod.snd ∧ e.2 ∈ x :: w.map Prod.snd := by
  induction h with
  | nil => cases he
  | cons hjoins _ ih =>
    rcases List.mem_cons.mp he with rfl | he
    · rcases hjoins with heq | heq <;> simp [heq]
    · exact (ih he).imp (List.mem_cons_of_mem _) (List.mem_cons_of_mem _)

/-- A walk that comes to no vertex twice uses no edge twice. -/
theorem Walk.edges_nodup (h : Walk x w y) (hv : (x :: w.map Prod.snd).Nodup) :
    (w.map Prod.fst).Nodup := by
  induction h with
  | nil => exact List.nodup_nil
  | cons hjoins hw ih =>
    obtain ⟨hx, hv⟩ := List.nodup_cons.mp hv
    refine List.nodup_cons.mpr ⟨fun he => hx ?_, ih hv⟩
    obtain ⟨hfirst, hsecond⟩ := hw.ends_mem he
    rcases hjoins with heq | heq
    · rwa [heq] at hfirst
    · rwa [heq] at hsecond

/-- Connected vertices are joined by a walk that comes to no vertex twice. -/
theorem Conn.exists_walk (h : Conn l x y) :
    ∃ w, Walk x w y ∧ w.map Prod.fst ⊆ l ∧ (x :: w.map Prod.snd).Nodup := by
  induction l using List.reverseRecOn generalizing x y with
  | nil =>
    rw [h.nil]
    exact ⟨[], .nil y, by simp, by simp⟩
  | append_singleton l f ih =>
    have hold : ∀ {s : List (α × α)}, s ⊆ l → s ⊆ l ++ [f] :=
      fun hs => List.subset_append_of_subset_left _ hs
    by_cases hxy : Conn l x y
    · obtain ⟨w, hw, hl, hv⟩ := ih hxy
      exact ⟨w, hw, hold hl, hv⟩
    -- otherwise the last edge joins the component of `x` to that of `y`
    have hbridge : ∃ a b, Joins f a b ∧ Conn l x a ∧ Conn l b y := by
      rcases Conn.append_singleton.mp h with h | ⟨hx, hy⟩ | ⟨hx, hy⟩
      · exact absurd h hxy
      · exact ⟨f.1, f.2, .inl rfl, hx, hy⟩
      · exact ⟨f.2, f.1, .inr rfl, hx, hy⟩
    obtain ⟨_, b, hjoins, hxa, hby⟩ := hbridge
    obtain ⟨w, hw, hl, hv⟩ := ih hxa
    obtain ⟨w', hw', hl', hv'⟩ := ih hby
    refine ⟨w ++ (f, b) :: w', hw.append (.cons hjoins hw'), ?_, ?_⟩
    · rw [List.map_append, List.map_cons]
      refine List.append_subset.mpr ⟨hold hl, List.cons_subset.mpr ⟨by simp, hold hl'⟩⟩
    · rw [List.map_append, List.map_cons, ← List.cons_append]
      refine List.nodup_append.mpr ⟨hv, hv', fun u hu v hv heq => hxy ?_⟩
      subst heq
      exact (hw.conn_of_mem hl hu).trans ((hw'.conn_of_mem hl' hv).symm.trans hby)

/-- **Components with a cycle.** -/
theorem onCycle_iff [DecidableEq α] : OnCycle l x ↔ ∃ y w, Conn l x y ∧ IsCycle l y w := by
  constructor
  · rintro ⟨e, he, hcycle, hx⟩
    obtain ⟨w, hw, hl, hv⟩ := hcycle.symm.exists_walk
    refine ⟨e.1, (e, e.2) :: w, hx, by simp, .cons (.inl rfl) hw, ?_, hv⟩
    have hsub := List.subperm_of_subset (hw.edges_nodup hv) hl
    exact ((List.subperm_cons e).mpr hsub).trans (List.perm_cons_erase he).symm.subperm
  · rintro ⟨y, w, hx, hcycle⟩
    obtain ⟨hsteps, hclosed, hedges, -⟩ := hcycle
    cases hclosed with
    | nil => exact absurd rfl hsteps
    | @cons e _ v _ w hjoins hw =>
      have he : e ∈ l := hedges.subset (by simp)
      have hrest : (w.map Prod.fst).Subperm (l.erase e) := by
        simpa using hedges.erase e
      -- the rest of the cycle connects the ends of its first edge
      have hback := hw.conn hrest.subset
      rcases hjoins with rfl | rfl
      · exact ⟨_, he, hback.symm, hx⟩
      · exact ⟨_, he, hback, hx.trans (Conn.of_mem he).symm⟩

end Walks

/-! ## Forests -/

section Forest

/-- Every vertex is at most `n` steps from its root. -/
def Rooted (parent : α → α) (n : ℕ) : Prop := ∀ x, parent (parent^[n] x) = parent^[n] x

variable {parent : α → α}

theorem Rooted.iterate {n m : ℕ} (h : Rooted parent n) (hle : n ≤ m) (x : α) :
    parent^[m] x = parent^[n] x := by
  obtain ⟨k, rfl⟩ := Nat.exists_eq_add_of_le hle
  rw [Nat.add_comm, Function.iterate_add_apply]
  exact Function.iterate_fixed (h x) k

theorem Rooted.mono {n m : ℕ} (h : Rooted parent n) (hle : n ≤ m) : Rooted parent m := by
  intro x
  rw [h.iterate hle]
  exact h x

/-- The root of `ra` is hung under the root `rb`. -/
theorem iterate_hang [DecidableEq α] {ra rb : α} (hra : parent ra = ra) (hrb : parent rb = rb)
    (hne : ra ≠ rb) {n : ℕ} {x : α} (hx : parent (parent^[n] x) = parent^[n] x) :
    (fun y => if y = ra then rb else parent y)^[n + 1] x =
      if parent^[n] x = ra then rb else parent^[n] x := by
  have hfixed : (fun y => if y = ra then rb else parent y) rb = rb := by
    simp [Ne.symm hne, hrb]
  induction n generalizing x with
  | zero =>
    rw [Function.iterate_zero_apply] at hx ⊢
    rw [Function.iterate_one]
    by_cases h : x = ra
    · simp [h]
    · simp [h, hx]
  | succ n ih =>
    rw [Function.iterate_succ_apply]
    by_cases h : x = ra
    · subst h
      simp only [if_true]
      rw [Function.iterate_fixed hfixed, Function.iterate_fixed hra, if_pos rfl]
    · rw [if_neg h]
      rw [Function.iterate_succ_apply] at hx ⊢
      exact ih hx

end Forest

/-! ## Union-find -/

/-- The root of a vertex, at most so many steps away. -/
def root [DecidableEq α] (parent : α → α) : ℕ → α → α
  | 0, x => x
  | n + 1, x => if parent x = x then x else root parent n (parent x)

/-- A forest, and a vertex of each edge that joined what was connected. -/
structure Unions (α : Type) where
  parent : α → α := fun x => x
  cyclic : List α := []

namespace Unions

variable [DecidableEq α]

/-- One edge; `fuel` bounds the way to a root. -/
def join (fuel : ℕ) (u : Unions α) (e : α × α) : Unions α :=
  let ra := root u.parent fuel e.1
  let rb := root u.parent fuel e.2
  if ra = rb then { u with cyclic := e.1 :: u.cyclic }
  else { u with parent := fun x => if x = ra then rb else u.parent x }

/-- All edges.  The way to a root is no longer than the number of edges. -/
def ofList (l : List (α × α)) : Unions α := l.foldl (join l.length) {}

theorem root_eq_iterate (parent : α → α) (n : ℕ) (x : α) : root parent n x = parent^[n] x := by
  induction n generalizing x with
  | zero => rfl
  | succ n ih =>
    rw [root]
    split
    · rename_i hfixed
      exact (Function.iterate_fixed hfixed _).symm
    · rw [ih, Function.iterate_succ_apply]

/-- What the forest is after some edges: the way to a root is no longer than their number,
vertices with one root are those that are connected, and the vertices noted are those of
edges that closed a cycle. -/
structure Follows (u : Unions α) (l : List (α × α)) : Prop where
  rooted : Rooted u.parent l.length
  roots : ∀ x y, u.parent^[l.length] x = u.parent^[l.length] y ↔ Conn l x y
  cyclic : ∀ c, c ∈ u.cyclic ↔ ∃ pre e post, l = pre ++ e :: post ∧ Conn pre e.1 e.2 ∧ c = e.1

omit [DecidableEq α] in
theorem follows_nil : Follows ({} : Unions α) [] where
  rooted _ := rfl
  roots x y := by
    constructor
    · intro h
      rw [show x = y from h]
      exact Conn.refl _ _
    · exact Conn.nil
  cyclic c := by simp

omit [DecidableEq α] in
/-- The last edge of a list, or one before. -/
theorem split_append_singleton {l : List (α × α)} {f : α × α} {P : List (α × α) → α × α → Prop} :
    (∃ pre e post, l ++ [f] = pre ++ e :: post ∧ P pre e) ↔
      P l f ∨ ∃ pre e post, l = pre ++ e :: post ∧ P pre e := by
  constructor
  · rintro ⟨pre, e, post, heq, h⟩
    induction post using List.reverseRecOn with
    | nil =>
      obtain ⟨hl, hf⟩ := List.append_inj' heq rfl
      rw [List.singleton_inj] at hf
      rw [hl, hf]
      exact .inl h
    | append_singleton post g _ =>
      rw [← List.cons_append, ← List.append_assoc] at heq
      obtain ⟨rfl, -⟩ := List.append_inj' heq rfl
      exact .inr ⟨pre, e, post, rfl, h⟩
  · rintro (h | ⟨pre, e, post, rfl, h⟩)
    · exact ⟨l, f, [], rfl, h⟩
    · exact ⟨pre, e, post ++ [f], by simp, h⟩

theorem Follows.join {u : Unions α} {l : List (α × α)} (h : Follows u l) {fuel : ℕ}
    (hfuel : l.length ≤ fuel) (e : α × α) : Follows (u.join fuel e) (l ++ [e]) := by
  have hroot : ∀ x, root u.parent fuel x = u.parent^[l.length] x := by
    intro x
    rw [root_eq_iterate, h.rooted.iterate hfuel]
  have hconn : root u.parent fuel e.1 = root u.parent fuel e.2 ↔ Conn l e.1 e.2 := by
    rw [hroot, hroot, h.roots]
  have hlength : (l ++ [e]).length = l.length + 1 := by simp
  have hnoted : ∀ c, (∃ pre f post, l ++ [e] = pre ++ f :: post ∧ Conn pre f.1 f.2 ∧ c = f.1) ↔
      (Conn l e.1 e.2 ∧ c = e.1) ∨ c ∈ u.cyclic := by
    intro c
    rw [split_append_singleton (P := fun pre f => Conn pre f.1 f.2 ∧ c = f.1), h.cyclic]
  by_cases hsame : root u.parent fuel e.1 = root u.parent fuel e.2
  · -- the edge closes a cycle, and the forest stays
    have hold := hconn.mp hsame
    rw [Unions.join, if_pos hsame]
    refine ⟨?_, ?_, ?_⟩
    · rw [hlength]
      exact h.rooted.mono (Nat.le_succ _)
    · intro x y
      simp only [hlength]
      rw [h.rooted.iterate (Nat.le_succ _), h.rooted.iterate (Nat.le_succ _), h.roots,
        Conn.append_singleton]
      refine ⟨.inl, ?_⟩
      rintro (hxy | ⟨hx, hy⟩ | ⟨hx, hy⟩)
      · exact hxy
      · exact hx.trans (hold.trans hy)
      · exact hx.trans (hold.symm.trans hy)
    · intro c
      simp only [hnoted, List.mem_cons, hold, true_and]
  · -- the edge joins two trees
    have hnew : ¬ Conn l e.1 e.2 := mt hconn.mpr hsame
    have hra : u.parent (root u.parent fuel e.1) = root u.parent fuel e.1 := by
      rw [hroot]
      exact h.rooted _
    have hrb : u.parent (root u.parent fuel e.2) = root u.parent fuel e.2 := by
      rw [hroot]
      exact h.rooted _
    have hhang := fun x => iterate_hang hra hrb hsame (h.rooted x)
    rw [Unions.join, if_neg hsame]
    refine ⟨?_, ?_, ?_⟩
    · intro x
      simp only [hlength, hhang]
      by_cases hx : u.parent^[l.length] x = root u.parent fuel e.1
      · simp [hx, Ne.symm hsame, hrb]
      · simp [hx, h.rooted x]
    · intro x y
      simp only [hlength, hhang]
      rw [Conn.append_singleton, ← h.roots, ← h.roots, ← h.roots, ← h.roots, ← h.roots, hroot,
        hroot]
      rw [hroot, hroot] at hsame
      generalize u.parent^[l.length] x = rx
      generalize u.parent^[l.length] y = ry
      generalize u.parent^[l.length] e.1 = ra at hsame ⊢
      generalize u.parent^[l.length] e.2 = rb at hsame ⊢
      by_cases hx : rx = ra <;> by_cases hy : ry = ra <;> grind
    · intro c
      simp only [hnoted, hnew, false_and, false_or]

theorem follows_ofList (l : List (α × α)) : Follows (ofList l) l := by
  have key : ∀ post pre : List (α × α), ∀ u : Unions α, pre ++ post = l → Follows u pre →
      Follows (post.foldl (join l.length) u) l := by
    intro post
    induction post with
    | nil =>
      intro pre u heq hu
      rw [List.append_nil] at heq
      exact heq ▸ hu
    | cons e post ih =>
      intro pre u heq hu
      refine ih (pre ++ [e]) _ (by simpa using heq) (hu.join ?_ e)
      rw [← heq, List.length_append]
      omega
  exact key l [] {} rfl follows_nil

/-- **Vertices with one root are the connected ones.** -/
theorem root_eq_iff {l : List (α × α)} {x y : α} :
    root (ofList l).parent l.length x = root (ofList l).parent l.length y ↔ Conn l x y := by
  rw [root_eq_iterate, root_eq_iterate]
  exact (follows_ofList l).roots x y

/-- **A vertex with the root of a noted one lies in a component with a cycle.** -/
theorem cyclic_iff {l : List (α × α)} {x : α} :
    (∃ c ∈ (ofList l).cyclic, root (ofList l).parent l.length x =
      root (ofList l).parent l.length c) ↔ OnCycle l x := by
  rw [← closes_iff_onCycle]
  constructor
  · rintro ⟨c, hc, hroot⟩
    obtain ⟨pre, e, post, heq, hpre, rfl⟩ := ((follows_ofList l).cyclic c).mp hc
    exact ⟨pre, e, post, heq, hpre, root_eq_iff.mp hroot⟩
  · rintro ⟨pre, e, post, heq, hpre, hx⟩
    refine ⟨e.1, ((follows_ofList l).cyclic _).mpr ⟨pre, e, post, heq, hpre, rfl⟩, ?_⟩
    exact root_eq_iff.mpr hx

end Unions

end Graphlab.Lib
