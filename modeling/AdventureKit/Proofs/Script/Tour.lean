import Mathlib.Data.List.Perm.Subperm
import AdventureKit.Proofs.Script.Nesting

/-!
# Tours through a script

Both ways to list a script visit one place after the other.  `Tour` says which places a run visits, also if it fails at
one of them.  A tour block by block visits places further and further on, and a tour along the calls visits each place
once, so the bounds of the tours are never reached.
-/

namespace AdventureKit.Script

variable {k : Nat} {m n u : Machine}

/-! ## Tours -/

/-- From the machine `m` the places `xs` are visited, after those in `seen`.  The tour ends in `n` with the result `r`:
there is nothing to visit any more, or the visit of the last place failed. -/
inductive Tour (next : (seen : List Nat) → Machine → Option Nat) (visit : Nat → Script Unit) :
    (seen : List Nat) → (m : Machine) → (xs : List Nat) → (r : Except Fault Unit) → (n : Machine) → Prop
  | done {seen : List Nat} {m : Machine} : next seen m = none → Tour next visit seen m [] (.ok ()) m
  | failed {seen : List Nat} {m n : Machine} {x : Nat} {e : Fault} : next seen m = some x →
      (visit x).run.run m = (.error e, n) → Tour next visit seen m [x] (.error e) n
  | step {seen : List Nat} {m u n : Machine} {x : Nat} {xs : List Nat} {r : Except Fault Unit} :
      next seen m = some x → (visit x).run.run m = (.ok (), u) → Tour next visit (x :: seen) u xs r n →
      Tour next visit seen m (x :: xs) r n

/-- A loop whose visits shrink a size makes a tour without reaching its bound. -/
theorem exists_tour {next : List Nat → Machine → Option Nat} {visit : Nat → Script Unit}
    (Inv : List Nat → Machine → Prop) (size : List Nat → Machine → Nat)
    (hlasts : ∀ {seen m x r n}, Inv seen m → next seen m = some x → (visit x).run.run m = (r, n) →
      r ≠ .error .exhausted)
    (hstep : ∀ {seen m x n}, Inv seen m → next seen m = some x → (visit x).run.run m = (.ok (), n) →
      Inv (x :: seen) n ∧ size (x :: seen) n < size seen m) :
    ∀ {bound seen m}, Inv seen m → size seen m < bound →
      ∃ xs r n, (tourFrom next visit bound seen).run.run m = (r, n) ∧ Tour next visit seen m xs r n ∧
        r ≠ .error .exhausted
  | 0, _, _, _, hsize => absurd hsize (Nat.not_lt_zero _)
  | bound + 1, seen, m, hinv, hsize => by
    unfold tourFrom
    rw [run_bind_of_ok (run_get m)]
    cases hnext : next seen m with
    | none => exact ⟨[], .ok (), m, rfl, .done hnext, by simp⟩
    | some x =>
      rcases hvisit : (visit x).run.run m with ⟨e | _, u⟩
      · have he := hlasts hinv hnext hvisit
        exact ⟨[x], .error e, u, run_bind_of_error hvisit, .failed hnext hvisit, he⟩
      · obtain ⟨hinv', hless⟩ := hstep hinv hnext hvisit
        obtain ⟨xs, r, n, hrun, htour, hr⟩ := exists_tour Inv size hlasts hstep hinv'
          (Nat.lt_of_lt_of_le hless (Nat.le_of_lt_succ hsize))
        exact ⟨x :: xs, r, n, (run_bind_of_ok hvisit).trans hrun, .step hnext hvisit htour, hr⟩

/-! ## Subroutines -/

/-- The line that a subroutine starts with. -/
def heading (x : Nat) (depth : Int) : String :=
  margin ⟨x - headerSize, depth, none, none, []⟩ ++ pieceText ["sub_" ++ toString x ++ " \x7b"]

/-- The lines that a subroutine ends with. -/
def ending (p : Progress) : String :=
  margin p ++ pieceText ["\x7d"] ++ "\n"

/-- The machine behind the heading of a subroutine. -/
def Machine.headed (m : Machine) : Machine :=
  (m.updated fun p => { p with offset := m.cursor.pos }).wrote
    (heading (m.cursor.pos + headerSize) m.progress.depth)

theorem run_subroutine (m : Machine) :
    subroutine.run.run m =
      (match block.run.run m.headed with
        | (.ok (), n) => (.ok (), n.wrote (ending n.progress))
        | (.error e, n) => (.error e, n)) := by
  unfold subroutine mark
  rw [bind_assoc, run_bind_of_ok (run_place m), run_bind_of_ok (run_update _ m), run_bind_of_ok (run_place _),
    run_bind_of_ok (run_line _ _)]
  have hheaded : ((m.updated fun p => { p with offset := m.cursor.pos }).wrote
      (margin { m.progress with offset := m.cursor.pos } ++
        pieceText ["sub_" ++ toString (m.cursor.pos + headerSize) ++ " \x7b"])) = m.headed := by
    unfold Machine.headed heading
    rw [Nat.add_sub_cancel]
    rfl
  show (block >>= _).run.run ((m.updated fun p => { p with offset := m.cursor.pos }).wrote
      (margin { m.progress with offset := m.cursor.pos } ++
        pieceText ["sub_" ++ toString (m.cursor.pos + headerSize) ++ " \x7b"])) = _
  rw [hheaded]
  rcases hblock : block.run.run m.headed with ⟨e | _, n⟩
  · exact run_bind_of_error hblock
  · rw [run_bind_of_ok hblock, run_bind_of_ok (run_line _ n), run_write]
    simp only [Machine.wrote, ending, String.append_assoc]

theorem run_subroutine_eq_ok (h : subroutine.run.run m = (.ok (), n)) :
    ∃ u, block.run.run m.headed = (.ok (), u) ∧ n = u.wrote (ending u.progress) := by
  rw [run_subroutine] at h
  rcases hblock : block.run.run m.headed with ⟨e | _, u⟩
  · rw [hblock] at h
    cases h
  · rw [hblock] at h
    cases h
    exact ⟨u, rfl, rfl⟩

theorem kindred_subroutine : Compared Kindred k subroutine subroutine :=
  comparison_kindred.bind kindred_mark fun _ => comparison_kindred.steady_bind steady_place fun _ =>
    comparison_kindred.steady_bind (steady_line _) fun _ => comparison_kindred.bind (kindred_block k) fun _ =>
      comparison_kindred.steady ((steady_line _).bind fun _ => steady_write _)

theorem consumed_of_subroutine (hleft : m.cursor.left ≠ 0) (h : subroutine.run.run m = (.ok (), n)) :
    n.cursor.left < m.cursor.left := by
  obtain ⟨u, hu, rfl⟩ := run_subroutine_eq_ok h
  have hless : u.cursor.left < m.headed.cursor.left := consumed_of_block hleft hu
  exact hless

/-! ## Block by block -/

theorem nextBlock_eq_some {length x : Nat} {seen : List Nat} (h : nextBlock length seen m = some x) :
    x = m.cursor.pos ∧ x + 1 < length := by
  unfold nextBlock at h
  split at h
  · cases h
    exact ⟨rfl, ‹_›⟩
  · cases h

/-- While more than the last byte of the code is left, there is a block to take. -/
theorem left_of_nextBlock {length x : Nat} {seen : List Nat} (hlength : length ≤ m.cursor.data.size)
    (h : nextBlock length seen m = some x) : m.cursor.left ≠ 0 := by
  obtain ⟨rfl, hless⟩ := nextBlock_eq_some h
  unfold Cursor.left
  omega

/-- A block that is visited takes the cursor on. -/
theorem pos_of_nextBlock {length x : Nat} {seen : List Nat} (hlength : length ≤ m.cursor.data.size)
    (hnext : nextBlock length seen m = some x) (h : subroutine.run.run m = (.ok (), n)) :
    n.cursor.data = m.cursor.data ∧ m.cursor.pos < n.cursor.pos := by
  have hdata := (kindred_subroutine.ahead (Nat.lt_succ_self _) h).data
  have hless := consumed_of_subroutine (left_of_nextBlock hlength hnext) h
  unfold Cursor.left at hless
  rw [hdata] at hless
  exact ⟨hdata, by omega⟩

theorem exists_tour_nextBlock {length : Nat} (hlength : length ≤ m.cursor.data.size) :
    ∃ xs r n, (tourFrom (nextBlock length) (fun _ => subroutine) (length + 1) []).run.run m = (r, n) ∧
      Tour (nextBlock length) (fun _ => subroutine) [] m xs r n ∧ r ≠ .error .exhausted := by
  refine exists_tour (fun _ m => length ≤ m.cursor.data.size) (fun _ m => length - m.cursor.pos) ?_ ?_ hlength
    (Nat.lt_succ_of_le (Nat.sub_le _ _))
  · intro seen m x r n _ _ hvisit
    exact kindred_subroutine.lasts (Nat.lt_succ_self _) hvisit
  · intro seen m x n hinv hnext hvisit
    obtain ⟨hdata, hpos⟩ := pos_of_nextBlock hinv hnext hvisit
    obtain ⟨rfl, hless⟩ := nextBlock_eq_some hnext
    exact ⟨by rwa [hdata], by omega⟩

/-- Block by block the places lie further and further on. -/
theorem Tour.increasing {length : Nat} {seen xs : List Nat} {r : Except Fault Unit}
    (h : Tour (nextBlock length) (fun _ => subroutine) seen m xs r n) (hlength : length ≤ m.cursor.data.size) :
    xs.Pairwise (· < ·) ∧ ∀ x ∈ xs, m.cursor.pos ≤ x ∧ x + 1 < length := by
  induction h with
  | done _ => exact ⟨.nil, by simp⟩
  | failed hnext _ =>
    obtain ⟨rfl, hless⟩ := nextBlock_eq_some hnext
    exact ⟨List.pairwise_singleton _ _, by simpa using hless⟩
  | @step seen m u n x xs r hnext hvisit _ ih =>
    obtain ⟨hdata, hpos⟩ := pos_of_nextBlock hlength hnext hvisit
    obtain ⟨hpairwise, hxs⟩ := ih (by rwa [hdata])
    obtain ⟨rfl, hless⟩ := nextBlock_eq_some hnext
    refine ⟨List.pairwise_cons.2 ⟨fun x hx => Nat.lt_of_lt_of_le hpos (hxs x hx).1, hpairwise⟩, ?_⟩
    refine List.forall_mem_cons.2 ⟨⟨Nat.le_refl _, hless⟩, fun x hx => ?_⟩
    exact ⟨Nat.le_trans (Nat.le_of_lt hpos) (hxs x hx).1, (hxs x hx).2⟩

/-! ## Call by call -/

theorem nextCall_eq_some {seen : List Nat} {x : Nat} (h : nextCall seen m = some x) :
    x ∈ m.progress.calls ∧ x ∉ seen := by
  refine ⟨List.mem_of_find?_eq_some h, ?_⟩
  have hx := List.find?_some h
  simpa using hx

/-- The machine at a called place. -/
@[irreducible] def Machine.called (m : Machine) (x : Nat) : Machine :=
  m.moved ⟨m.cursor.data, x - headerSize⟩

theorem called_eq (m : Machine) (x : Nat) : m.called x = m.moved ⟨m.cursor.data, x - headerSize⟩ := by
  unfold Machine.called
  rfl

theorem progress_called (m : Machine) (x : Nat) : (m.called x).progress = m.progress := by
  rw [called_eq, Machine.moved]

theorem run_visitCall (x : Nat) (m : Machine) :
    (visitCall x).run.run m =
      if x < headerSize then (.error .beforeStart, m) else subroutine.run.run (m.called x) := by
  unfold visitCall
  split
  · rename_i hx
    have hseek : m.cursor.move ((x : Int) - headerSize) .start = .error .beforeStart := if_pos (by omega)
    exact run_bind_of_error (run_seek_of_error hseek)
  · rename_i hx
    have hseek : m.cursor.move ((x : Int) - headerSize) .start = .ok ⟨m.cursor.data, x - headerSize⟩ := by
      have hnat : ((x : Int) - headerSize).toNat = x - headerSize := by omega
      rw [← hnat]
      exact if_neg (by omega)
    rw [run_bind_of_ok (run_seek_of_ok hseek), called_eq]

theorem run_visitCall_eq_ok {x : Nat} (h : (visitCall x).run.run m = (.ok (), n)) :
    headerSize ≤ x ∧ subroutine.run.run (m.called x) = (.ok (), n) := by
  rw [run_visitCall] at h
  split at h
  · cases h
  · exact ⟨Nat.le_of_not_lt ‹_›, h⟩

theorem visitCall_lasts {x : Nat} {r : Except Fault Unit} (h : (visitCall x).run.run m = (r, n)) :
    r ≠ .error .exhausted := by
  rw [run_visitCall] at h
  split at h
  · cases h
    simp
  · exact kindred_subroutine.lasts (Nat.lt_succ_self _) h

/-- A visit of a called place adds calls of places below the limit. -/
theorem calls_of_visitCall {x : Nat} (h : (visitCall x).run.run m = (.ok (), n)) :
    ∃ ts, (∀ t ∈ ts, t < placeLimit) ∧ n.progress.calls = m.progress.calls ++ ts := by
  obtain ⟨-, h⟩ := run_visitCall_eq_ok h
  obtain ⟨_, ts, -, hts, hcalls, -⟩ := kindred_subroutine.calls (Nat.lt_succ_self _) rfl rfl h
  rw [progress_called] at hcalls
  exact ⟨ts, hts, hcalls⟩

theorem calls_lt_of_visitCall {x : Nat} (hcalls : ∀ t ∈ m.progress.calls, t < placeLimit)
    (h : (visitCall x).run.run m = (.ok (), n)) : ∀ t ∈ n.progress.calls, t < placeLimit := by
  obtain ⟨ts, hts, hn⟩ := calls_of_visitCall h
  rw [hn]
  exact fun t ht => (List.mem_append.1 ht).elim (hcalls t) (hts t)

theorem length_le_of_nodup {xs : List Nat} (hxs : xs.Nodup) (hlt : ∀ x ∈ xs, x < k) : xs.length ≤ k := by
  have hsubset : xs ⊆ List.range k := fun x hx => List.mem_range.2 (hlt x hx)
  have hle := (List.subperm_of_subset hxs hsubset).length_le
  rwa [List.length_range] at hle

/-- What is known of the places that were seen and those that were called. -/
structure Known (seen : List Nat) (m : Machine) : Prop where
  nodup : seen.Nodup
  seen_lt : ∀ x ∈ seen, x < placeLimit
  calls_lt : ∀ x ∈ m.progress.calls, x < placeLimit

theorem Known.step {seen : List Nat} {x : Nat} (h : Known seen m) (hnext : nextCall seen m = some x)
    (hvisit : (visitCall x).run.run m = (.ok (), n)) : Known (x :: seen) n := by
  obtain ⟨hcall, hnew⟩ := nextCall_eq_some hnext
  exact ⟨List.nodup_cons.2 ⟨hnew, h.nodup⟩, List.forall_mem_cons.2 ⟨h.calls_lt x hcall, h.seen_lt⟩,
    calls_lt_of_visitCall h.calls_lt hvisit⟩

theorem exists_tour_nextCall (hcalls : ∀ x ∈ m.progress.calls, x < placeLimit) :
    ∃ xs r n, (tourFrom nextCall visitCall (placeLimit + 1) []).run.run m = (r, n) ∧
      Tour nextCall visitCall [] m xs r n ∧ r ≠ .error .exhausted := by
  refine exists_tour Known (fun seen _ => placeLimit - seen.length) (fun _ _ => visitCall_lasts) ?_
    ⟨List.nodup_nil, by simp, hcalls⟩ (Nat.lt_succ_self _)
  intro seen m x n hinv hnext hvisit
  have hknown := hinv.step hnext hvisit
  have hlength := length_le_of_nodup hknown.nodup hknown.seen_lt
  rw [List.length_cons] at hlength ⊢
  exact ⟨hknown, by omega⟩

/-- Call by call no place is visited twice. -/
theorem Tour.nodup {seen xs : List Nat} {r : Except Fault Unit} (h : Tour nextCall visitCall seen m xs r n) :
    xs.Nodup ∧ ∀ x ∈ xs, x ∉ seen := by
  induction h with
  | done _ => exact ⟨List.nodup_nil, by simp⟩
  | failed hnext _ => exact ⟨List.pairwise_singleton _ _, by simpa using (nextCall_eq_some hnext).2⟩
  | step hnext _ _ ih =>
    obtain ⟨hnodup, hnew⟩ := ih
    refine ⟨List.nodup_cons.2 ⟨fun hx => hnew _ hx (List.mem_cons_self ..), hnodup⟩, ?_⟩
    exact List.forall_mem_cons.2 ⟨(nextCall_eq_some hnext).2, fun x hx hseen => hnew x hx (List.mem_cons_of_mem _ hseen)⟩

theorem Tour.lt_placeLimit {seen xs : List Nat} {r : Except Fault Unit} (h : Tour nextCall visitCall seen m xs r n)
    (hcalls : ∀ x ∈ m.progress.calls, x < placeLimit) : ∀ x ∈ xs, x < placeLimit := by
  induction h with
  | done _ => simp
  | failed hnext _ => simpa using hcalls _ (nextCall_eq_some hnext).1
  | step hnext hvisit _ ih =>
    exact List.forall_mem_cons.2 ⟨hcalls _ (nextCall_eq_some hnext).1, ih (calls_lt_of_visitCall hcalls hvisit)⟩

/-! ## Listings -/

theorem run_listing (exported : Bool) (length : Nat) (m : Machine) :
    (listing exported length).run.run m =
      (if exported then tourFrom nextCall visitCall (placeLimit + 1) []
        else tourFrom (nextBlock length) (fun _ => subroutine) (length + 1) []).run.run
          (m.wrote (opening m.progress.calls)) := by
  unfold listing
  rw [run_bind_of_ok (run_get m), run_bind_of_ok (run_write _ m)]

end AdventureKit.Script
