import Mathlib.Data.List.Basic
import Mathlib.Data.Nat.Basic

/-!
# Batches from a cursor

A list is handed out in batches of at most `k` by calls that start at a cursor.  A call returns a
full batch and leaves the cursor where it stopped, or it reaches the end and resets the cursor.  An
element that is refused makes the call throw behind it, and what the call has collected is lost.

A sweep is the calls until the cursor is zero again.  It hands out every element that is not refused
exactly if each stretch of such elements before a refused one fills its batches.

## Main definitions

* `batch` — one call; `Sweep` — the calls of a sweep; `handedOut` — what they return.
* `Filled` — the condition on stretches.

## Main results

* `exists_sweep`, `Sweep.unique` — there is one sweep.
* `handedOut_eq_iff` — when it hands out everything.
-/

namespace Graphlab.Lib

variable {α β ε : Type*}

/-- Calls from a cursor until it is zero again, with what each has returned. -/
inductive Sweep (call : ℕ → ℕ × β) : ℕ → List β → Prop
  | last {cursor : ℕ} (h : (call cursor).1 = 0) : Sweep call cursor [(call cursor).2]
  | next {cursor : ℕ} {results : List β} (h : (call cursor).1 ≠ 0)
      (hrest : Sweep call (call cursor).1 results) :
      Sweep call cursor ((call cursor).2 :: results)

theorem Sweep.unique {call : ℕ → ℕ × β} {cursor : ℕ} {results results' : List β}
    (h : Sweep call cursor results) (h' : Sweep call cursor results') : results = results' := by
  induction h generalizing results' with
  | last hzero =>
    cases h' with
    | last => rfl
    | next hne => exact absurd hzero hne
  | next hne _ ih =>
    cases h' with
    | last hzero => exact absurd hzero hne
    | next _ hrest => rw [ih hrest]

/-- What the calls that do not throw have returned. -/
def handedOut (results : List (Except ε (List α))) : List α :=
  results.flatMap fun
    | .ok xs => xs
    | .error _ => []

@[simp] theorem handedOut_ok (xs : List α) (results : List (Except ε (List α))) :
    handedOut (.ok xs :: results) = xs ++ handedOut results := rfl

@[simp] theorem handedOut_error (e : ε) (results : List (Except ε (List α))) :
    handedOut (.error e :: results) = handedOut results := rfl

section Batch

variable (k : ℕ) (refused : α → Bool) (e : ε)

/-- A call at position `i`, with `xs` to come and `acc` collected: the cursor that it leaves, and
what it returns or throws. -/
def batch : ℕ → List α → List α → ℕ × Except ε (List α)
  | _, [], acc => (0, .ok acc)
  | i, x :: xs, acc =>
    if k ≤ acc.length then (i, .ok acc)
    else if refused x then (i + 1, .error e)
    else batch (i + 1) xs (acc ++ [x])

/-- What is handed out of `xs` when `acc` was collected before. -/
def kept : List α → List α → List α
  | [], acc => acc
  | x :: xs, acc =>
    if refused x then (if k ≤ acc.length then acc else []) ++ kept xs []
    else if k ≤ acc.length then acc ++ kept xs [x]
    else kept xs (acc ++ [x])

/-- The stretch of `r` elements that are not refused, and each further one of the list, fills its
batches if a refused element follows. -/
def Filled : ℕ → List α → Prop
  | _, [] => True
  | r, x :: xs => if refused x then k ∣ r ∧ Filled 0 xs else Filled (r + 1) xs

variable {k refused e}

attribute [local simp] batch kept Filled

/-! ## The sweep -/

/-- The results of a sweep whose first call is at position `i` of the list, with `acc` collected. -/
def Rest (k : ℕ) (refused : α → Bool) (e : ε) (list : List α) (i : ℕ) (xs acc : List α)
    (results : List (Except ε (List α))) : Prop :=
  ∀ call : ℕ → ℕ × Except ε (List α), (∀ c, call c = batch k refused e c (list.drop c) []) →
    ∀ cursor, call cursor = batch k refused e i xs acc → Sweep call cursor results

variable {list xs : List α} {results : List (Except ε (List α))}

theorem rest_last {acc ys : List α} {i : ℕ} (h : batch k refused e i xs acc = (0, .ok ys)) :
    Rest k refused e list i xs acc [.ok ys] := by
  intro call _ cursor hcursor
  rw [h] at hcursor
  have hsweep := @Sweep.last _ call cursor (by rw [hcursor])
  rwa [hcursor] at hsweep

theorem rest_next {acc : List α} {i c : ℕ} {result : Except ε (List α)}
    (h : batch k refused e i xs acc = (c, result)) (hc : c ≠ 0)
    (hrest : Rest k refused e list c (list.drop c) [] results) :
    Rest k refused e list i xs acc (result :: results) := by
  intro call hcall cursor hcursor
  rw [h] at hcursor
  have hsweep := @Sweep.next _ call cursor results (by rwa [hcursor]) (by
    rw [hcursor]
    exact hrest call hcall c (hcall c))
  rwa [hcursor] at hsweep

theorem rest_congr {ys acc acc' : List α} {i j : ℕ}
    (h : batch k refused e i xs acc = batch k refused e j ys acc')
    (hrest : Rest k refused e list j ys acc' results) :
    Rest k refused e list i xs acc results :=
  fun call hcall cursor hcursor => hrest call hcall cursor (hcursor.trans h)

/-- **There is a sweep.**  The induction is on what is to come; a full batch is followed by a call
at the same element. -/
theorem exists_rest (hk : 0 < k) (list : List α) {acc : List α} {i : ℕ} (hi : list.drop i = xs)
    (hacc : acc.length ≤ k) (hpos : acc.length ≤ i) :
    ∃ results, handedOut results = kept k refused xs acc ∧
      (∀ ys, .ok ys ∈ results → ys.length ≤ k) ∧ Rest k refused e list i xs acc results := by
  induction xs generalizing acc i with
  | nil => exact ⟨[.ok acc], by simp [handedOut], by simpa using hacc, rest_last rfl⟩
  | cons x xs ih =>
    have hnext : list.drop (i + 1) = xs := by rw [← List.drop_drop, hi, List.drop_one, List.tail_cons]
    -- the element, with room for it
    have hroom : ∀ acc : List α, acc.length < k → acc.length ≤ i →
        ∃ results, handedOut results = kept k refused (x :: xs) acc ∧
          (∀ ys, .ok ys ∈ results → ys.length ≤ k) ∧
          Rest k refused e list i (x :: xs) acc results := by
      intro acc hacc hpos
      have hnot : ¬k ≤ acc.length := by omega
      by_cases hx : refused x = true
      · obtain ⟨results, hout, hlength, hrest⟩ := @ih [] (i + 1) hnext
          (Nat.zero_le k) (Nat.zero_le _)
        refine ⟨.error e :: results, ?_, ?_, ?_⟩
        · simp [hx, hnot, hout]
        · simpa using hlength
        · exact rest_next (by simp [hx, hnot]) (Nat.succ_ne_zero i) (hnext ▸ hrest)
      · obtain ⟨results, hout, hlength, hrest⟩ := @ih (acc ++ [x]) (i + 1) hnext
          (by rw [List.length_append]; exact hacc) (by simpa using hpos)
        refine ⟨results, ?_, hlength, ?_⟩
        · simp [hx, hnot, hout]
        · exact rest_congr (by simp [hx, hnot]) hrest
    rcases Nat.lt_or_eq_of_le hacc with hlt | heq
    · exact hroom acc hlt hpos
    · -- a full batch
      obtain ⟨results, hout, hlength, hrest⟩ := hroom [] hk (Nat.zero_le i)
      refine ⟨.ok acc :: results, ?_, ?_, ?_⟩
      · rw [handedOut_ok, hout]
        by_cases hx : refused x = true
        · simp [hx, heq, Nat.pos_iff_ne_zero.mp hk]
        · simp [hx, heq, Nat.pos_iff_ne_zero.mp hk]
      · intro ys hys
        rcases List.mem_cons.mp hys with h | h
        · cases h
          exact hacc
        · exact hlength ys h
      · exact rest_next (by simp [heq]) (by omega) (hi ▸ hrest)

theorem exists_sweep (hk : 0 < k) {call : ℕ → ℕ × Except ε (List α)}
    (hcall : ∀ c, call c = batch k refused e c (list.drop c) []) :
    ∃ results, Sweep call 0 results ∧ (∀ ys, .ok ys ∈ results → ys.length ≤ k) ∧
      handedOut results = kept k refused list [] := by
  obtain ⟨results, hout, hlength, hrest⟩ :=
    @exists_rest α ε k refused e list hk list [] 0 List.drop_zero (Nat.zero_le k) le_rfl
  exact ⟨results, hrest call hcall 0 (hcall 0), hlength, hout⟩

/-! ## What a sweep hands out -/

theorem kept_sublist (k : ℕ) (refused : α → Bool) (xs acc : List α) :
    (kept k refused xs acc).Sublist (acc ++ xs.filter fun x => !refused x) := by
  induction xs generalizing acc with
  | nil => simp
  | cons x xs ih =>
    rw [kept]
    split_ifs with hx hfull hfull
    · simpa [hx] using List.Sublist.append_left (ih []) acc
    · simpa [hx] using (ih []).trans (List.sublist_append_right acc _)
    · simpa [hx] using List.Sublist.append_left (ih [x]) acc
    · simpa [hx] using ih (acc ++ [x])

theorem filled_add (k : ℕ) (refused : α → Bool) (r : ℕ) (xs : List α) :
    Filled k refused (r + k) xs ↔ Filled k refused r xs := by
  induction xs generalizing r with
  | nil => exact Iff.rfl
  | cons x xs ih =>
    rw [Filled, Filled]
    split_ifs
    · rw [Nat.dvd_add_self_right]
    · rw [Nat.add_right_comm, ih]

/-- **When everything is handed out.** -/
theorem kept_eq_iff (hk : 0 < k) {acc : List α} (hacc : acc.length ≤ k) :
    kept k refused xs acc = acc ++ xs.filter (fun x => !refused x) ↔
      Filled k refused acc.length xs := by
  induction xs generalizing acc with
  | nil => simp
  | cons x xs ih =>
    by_cases hx : refused x = true
    · by_cases hfull : k ≤ acc.length
      · have heq : acc.length = k := le_antisymm hacc hfull
        have hrest := @ih [] (Nat.zero_le k)
        simpa [hx, heq] using hrest
      · rcases Nat.eq_zero_or_pos acc.length with hnil | hpos
        · obtain rfl := List.length_eq_zero_iff.mp hnil
          have hrest := @ih [] (Nat.zero_le k)
          simpa [hx] using hrest
        · -- what was collected is lost
          refine iff_of_false ?_ ?_
          · intro h
            have hlength := congrArg List.length h
            have hle := (kept_sublist k refused xs []).length_le
            simp [hx, hfull] at hlength hle
            omega
          · intro h
            rw [Filled, if_pos hx] at h
            exact Nat.not_dvd_of_pos_of_lt hpos (by omega) h.1
    · by_cases hfull : k ≤ acc.length
      · have heq : acc.length = k := le_antisymm hacc hfull
        have hrest := @ih [x] hk
        have hshift := filled_add k refused 1 xs
        rw [Nat.add_comm] at hshift
        simpa [hx, heq, hshift] using hrest
      · have hrest := @ih (acc ++ [x]) (by rw [List.length_append]; exact Nat.lt_of_not_le hfull)
        simpa [hx, hfull] using hrest

/-- The first stretch, which continues one of `r` elements, and the others. -/
theorem filled_iff {r : ℕ} : Filled k refused r xs ↔
    (∀ run x ys, xs = run ++ x :: ys → (∀ y ∈ run, refused y = false) → refused x = true →
      k ∣ r + run.length) ∧
    ∀ ws w run x ys, xs = ws ++ w :: (run ++ x :: ys) → refused w = true →
      (∀ y ∈ run, refused y = false) → refused x = true → k ∣ run.length := by
  induction xs generalizing r with
  | nil => simp
  | cons a xs ih =>
    rw [Filled]
    split_ifs with ha
    · rw [ih]
      constructor
      · rintro ⟨hr, hfirst, hothers⟩
        refine ⟨fun run x ys h hrun hx => ?_, fun ws w run x ys h hw hrun hx => ?_⟩
        · cases run with
          | nil => exact hr
          | cons =>
            cases h
            simp [ha] at hrun
        · cases ws with
          | nil =>
            cases h
            simpa using hfirst run x ys rfl hrun hx
          | cons _ ws =>
            cases h
            exact hothers ws w run x ys rfl hw hrun hx
      · rintro ⟨hfirst, hothers⟩
        refine ⟨hfirst [] a xs rfl (by simp) ha, fun run x ys h hrun hx => ?_,
          fun ws w run x ys h hw hrun hx => ?_⟩
        · rw [Nat.zero_add]
          exact hothers [] a run x ys (by rw [h, List.nil_append]) ha hrun hx
        · exact hothers (a :: ws) w run x ys (by rw [h, List.cons_append]) hw hrun hx
    · have ha : refused a = false := by simpa using ha
      rw [ih]
      constructor
      · rintro ⟨hfirst, hothers⟩
        refine ⟨fun run x ys h hrun hx => ?_, fun ws w run x ys h hw hrun hx => ?_⟩
        · cases run with
          | nil =>
            cases h
            rw [ha] at hx
            cases hx
          | cons y run =>
            cases h
            rw [List.length_cons, Nat.add_comm run.length, ← Nat.add_assoc]
            exact hfirst run x ys rfl (fun y hy => hrun y (List.mem_cons_of_mem _ hy)) hx
        · cases ws with
          | nil =>
            cases h
            rw [ha] at hw
            cases hw
          | cons _ ws =>
            cases h
            exact hothers ws w run x ys rfl hw hrun hx
      · rintro ⟨hfirst, hothers⟩
        refine ⟨fun run x ys h hrun hx => ?_, fun ws w run x ys h hw hrun hx => ?_⟩
        · have hlength := hfirst (a :: run) x ys (by rw [h, List.cons_append])
            (by simpa [ha] using hrun) hx
          rwa [List.length_cons, Nat.add_comm run.length, ← Nat.add_assoc] at hlength
        · exact hothers (a :: ws) w run x ys (by rw [h, List.cons_append]) hw hrun hx

/-- Each stretch of elements that are not refused, between the beginning or a refused element and
a refused one, fills its batches. -/
def FillsBatches (k : ℕ) (refused : α → Bool) (xs : List α) : Prop :=
  ∀ ws run x ys, xs = ws ++ (run ++ x :: ys) → (∀ w ∈ ws.getLast?, refused w = true) →
    (∀ y ∈ run, refused y = false) → refused x = true → k ∣ run.length

theorem filled_zero_iff : Filled k refused 0 xs ↔ FillsBatches k refused xs := by
  rw [filled_iff]
  constructor
  · rintro ⟨hfirst, hothers⟩ ws run x ys h hws hrun hx
    rcases List.eq_nil_or_concat ws with rfl | ⟨ws, w, rfl⟩
    · simpa using hfirst run x ys h hrun hx
    · rw [List.concat_eq_append] at h hws
      exact hothers ws w run x ys (by rw [h, List.append_assoc, List.singleton_append])
        (hws w (by simp)) hrun hx
  · intro h
    refine ⟨fun run x ys heq hrun hx => ?_, fun ws w run x ys heq hw hrun hx => ?_⟩
    · rw [Nat.zero_add]
      exact h [] run x ys heq (by simp) hrun hx
    · refine h (ws ++ [w]) run x ys ?_ ?_ hrun hx
      · rw [heq, List.append_assoc, List.singleton_append]
      · intro y hy
        obtain rfl : w = y := by simpa using hy
        exact hw

/-- **A sweep hands out everything that is not refused, in order, exactly if all batches are
filled.** -/
theorem handedOut_eq_iff (hk : 0 < k) (h : handedOut results = kept k refused list []) :
    handedOut results = list.filter (fun x => !refused x) ↔ FillsBatches k refused list := by
  rw [h, ← filled_zero_iff]
  exact kept_eq_iff hk (Nat.zero_le k)

end Batch

end Graphlab.Lib
