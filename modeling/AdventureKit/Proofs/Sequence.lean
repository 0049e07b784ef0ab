import AdventureKit.Sequence
import Mathlib.Data.List.Chain

/-!
# Laws of replacing and cutting

A text that is put together from segments is searched segment by segment, as long as no hit reaches over
the end of one.  Where a hit could only go on with one element, it is enough that no segment starts with
it: `Rewrites bar old new u v` says that `u` becomes `v` in front of anything that does not start with
`bar`, and `Rewrites.flatMap` goes through a text of such segments.

The runs of a list expand to it; none is empty, and neighbours differ.
-/

namespace AdventureKit.Sequence

theorem flatMap_eq_self {α : Type} {xs : List α} {f : α → List α} (h : ∀ x ∈ xs, f x = [x]) : xs.flatMap f = xs := by
  induction xs with
  | nil => rfl
  | cons x xs ih =>
    obtain ⟨hx, hxs⟩ := List.forall_mem_cons.1 h
    rw [List.flatMap_cons, hx, ih hxs, List.singleton_append]

theorem head?_append_ne {α : Type} {bar : α} {u rest : List α} (hu : u.head? ≠ some bar)
    (hrest : rest.head? ≠ some bar) : (u ++ rest).head? ≠ some bar := by
  cases u with
  | nil => exact hrest
  | cons x u => exact hu

theorem head?_flatMap_ne {α β : Type} {bar : α} {f : β → List α} {ts : List β}
    (h : ∀ t ∈ ts, (f t).head? ≠ some bar) : (ts.flatMap f).head? ≠ some bar := by
  induction ts with
  | nil => simp
  | cons t ts ih =>
    obtain ⟨ht, hts⟩ := List.forall_mem_cons.1 h
    exact head?_append_ne ht (ih hts)

variable {α β : Type} [BEq α]

/-! ## Replacing -/

theorem replaceFrom_skip (old new : List α) (skip : Nat) (xs : List α) :
    replaceFrom old new skip xs = replaceFrom old new 0 (xs.drop skip) := by
  induction xs generalizing skip with
  | nil => simp [replaceFrom]
  | cons x xs ih =>
    cases skip with
    | zero => rfl
    | succ skip => rw [replaceFrom, ih, List.drop_succ_cons]

theorem replaceFrom_of_miss {old xs : List α} {x : α} (h : old.isPrefixOf (x :: xs) = false) (new : List α) :
    replaceFrom old new 0 (x :: xs) = x :: replaceFrom old new 0 xs := by
  rw [replaceFrom, h]
  simp

theorem replaceAll_eq {old : List α} (hold : old ≠ []) (new xs : List α) :
    replaceAll old new xs = replaceFrom old new 0 xs := by
  rw [replaceAll, if_neg (by simpa using hold)]

/-! ## Segments -/

/-- `u` becomes `v` in front of anything that does not start with `bar`. -/
def Rewrites (bar : α) (old new u v : List α) : Prop :=
  ∀ rest, rest.head? ≠ some bar → replaceFrom old new 0 (u ++ rest) = v ++ replaceFrom old new 0 rest

theorem Rewrites.append {bar : α} {old new u v u' v' : List α} (h : Rewrites bar old new u v)
    (h' : Rewrites bar old new u' v') (hu' : u'.head? ≠ some bar) : Rewrites bar old new (u ++ u') (v ++ v') := by
  intro rest hrest
  rw [List.append_assoc, h _ (head?_append_ne hu' hrest), h' rest hrest, List.append_assoc]

/-- A segment that parts from a hit at an element of its own. -/
theorem Rewrites.cons_of_miss {bar x : α} {old new u v : List α}
    (hp : ∀ rest, old.isPrefixOf (x :: (u ++ rest)) = false) (h : Rewrites bar old new u v) :
    Rewrites bar old new (x :: u) (x :: v) := by
  intro rest hrest
  rw [List.cons_append, replaceFrom_of_miss (hp rest), h rest hrest, List.cons_append]

theorem Rewrites.flatMap {bar : α} {old new : List α} {f g : β → List α} {ts : List β}
    (h : ∀ t ∈ ts, Rewrites bar old new (f t) (g t)) (hf : ∀ t ∈ ts, (f t).head? ≠ some bar) :
    Rewrites bar old new (ts.flatMap f) (ts.flatMap g) := by
  induction ts with
  | nil => exact fun rest _ => rfl
  | cons t ts ih =>
    obtain ⟨ht, hts⟩ := List.forall_mem_cons.1 h
    obtain ⟨-, hfs⟩ := List.forall_mem_cons.1 hf
    exact ht.append (ih hts hfs) (head?_flatMap_ne hfs)

theorem Rewrites.replaceAll_eq {bar : α} {old new u v : List α} (h : Rewrites bar old new u v) (hold : old ≠ []) :
    replaceAll old new u = v := by
  have hend := h [] (by simp)
  rw [List.append_nil] at hend
  rw [Sequence.replaceAll_eq hold, hend, replaceFrom, List.append_nil]

/-- The part that a cut begins with only grows at its front. -/
theorem exists_splitFrom (mark : List α) (skip : Nat) (xs : List α) :
    ∃ first rest, ∀ part, splitFrom mark skip part xs = (part.reverse ++ first) :: rest := by
  induction xs generalizing skip with
  | nil => exact ⟨[], [], fun part => by simp [splitFrom]⟩
  | cons x xs ih =>
    cases skip with
    | succ skip => exact ih skip
    | zero =>
      by_cases hp : mark.isPrefixOf (x :: xs) = true
      · exact ⟨[], splitFrom mark (mark.length - 1) [] xs, fun part => by simp [splitFrom, hp]⟩
      · obtain ⟨first, rest, h⟩ := ih 0
        exact ⟨x :: first, rest, fun part => by simp [splitFrom, hp, h]⟩

/-! ## Hits, found by equality -/

variable [LawfulBEq α]

theorem isPrefixOf_eq_false {x a : α} (h : x ≠ a) (old xs : List α) :
    (a :: old).isPrefixOf (x :: xs) = false := by
  simp [List.isPrefixOf, Ne.symm h]

theorem replaceFrom_of_hit {old : List α} (hold : old ≠ []) (new rest : List α) :
    replaceFrom old new 0 (old ++ rest) = new ++ replaceFrom old new 0 rest := by
  cases old with
  | nil => exact absurd rfl hold
  | cons a old =>
    have hp : (a :: old).isPrefixOf (a :: (old ++ rest)) = true :=
      List.isPrefixOf_iff_prefix.2 (List.prefix_append (a :: old) rest)
    rw [List.cons_append, replaceFrom, if_pos hp, replaceFrom_skip, List.length_cons, Nat.add_sub_cancel,
      List.drop_left]

theorem replaceFrom_append_of_notMem {a : α} {u : List α} (h : a ∉ u) (old new rest : List α) :
    replaceFrom (a :: old) new 0 (u ++ rest) = u ++ replaceFrom (a :: old) new 0 rest := by
  induction u with
  | nil => rfl
  | cons x u ih =>
    rw [List.mem_cons, not_or] at h
    rw [List.cons_append, replaceFrom_of_miss (isPrefixOf_eq_false (Ne.symm h.1) old _), ih h.2,
      List.cons_append]

/-- Where the part that is replaced does not begin, nothing changes. -/
theorem replaceFrom_append_of_miss {old : List α} (new : List α) {front rest : List α}
    (h : ∀ i < front.length, ¬ old <+: (front ++ rest).drop i) :
    replaceFrom old new 0 (front ++ rest) = front ++ replaceFrom old new 0 rest := by
  induction front with
  | nil => rfl
  | cons x front ih =>
    have hmiss : old.isPrefixOf (x :: (front ++ rest)) = false := by
      rw [Bool.eq_false_iff, ne_eq, List.isPrefixOf_iff_prefix]
      exact h 0 (Nat.zero_lt_succ _)
    rw [List.cons_append, replaceFrom_of_miss hmiss, ih (fun i hi => h (i + 1) (Nat.succ_lt_succ hi)), List.cons_append]

/-- A part that occurs once is replaced there, and all else stays. -/
theorem replaceAll_of_once {old : List α} (hold : old ≠ []) (new : List α) {front behind : List α}
    (h : ∀ i, old <+: (front ++ (old ++ behind)).drop i → i = front.length) :
    replaceAll old new (front ++ (old ++ behind)) = front ++ (new ++ behind) := by
  have hfront : ∀ i < front.length, ¬ old <+: (front ++ (old ++ behind)).drop i := by
    intro i hi hocc
    have heq := h i hocc
    omega
  have hbehind : ∀ i < behind.length, ¬ old <+: (behind ++ []).drop i := by
    intro i _ hocc
    have hplace : (front ++ (old ++ behind)).drop (front.length + (old.length + i)) = behind.drop i := by
      rw [← List.drop_drop, List.drop_left, ← List.drop_drop, List.drop_left]
    rw [List.append_nil, ← hplace] at hocc
    have heq := h _ hocc
    have hpos := List.length_pos_iff.2 hold
    omega
  have hrest := replaceFrom_append_of_miss new hbehind
  rw [List.append_nil] at hrest
  rw [replaceAll_eq hold, replaceFrom_append_of_miss new hfront, replaceFrom_of_hit hold, hrest, replaceFrom,
    List.append_nil]

/-- Every hit of a single element is replaced on its own. -/
theorem replaceAll_single (a : α) (new xs : List α) :
    replaceAll [a] new xs = xs.flatMap fun x => if x == a then new else [x] := by
  rw [replaceAll_eq (by simp)]
  induction xs with
  | nil => rfl
  | cons x xs ih =>
    by_cases hx : x = a
    · have hhit : replaceFrom [a] new 0 (a :: xs) = new ++ replaceFrom [a] new 0 xs :=
        replaceFrom_of_hit (by simp) new xs
      rw [hx, hhit, ih]
      simp
    · rw [replaceFrom_of_miss (isPrefixOf_eq_false hx [] xs), ih]
      simp [hx]

/-- What single elements become, if none of them occurs in what is put in their places. -/
theorem replaceMany_singles {pairs : List (α × List α)} (h : ∀ p ∈ pairs, ∀ q ∈ pairs, p.1 ∉ q.2)
    (xs : List α) :
    replaceMany (pairs.map fun p => ([p.1], p.2)) xs = xs.flatMap fun x => (pairs.lookup x).getD [x] := by
  induction pairs generalizing xs with
  | nil => simp [replaceMany]
  | cons pair pairs ih =>
    obtain ⟨a, new⟩ := pair
    have hrest := ih fun p hp q hq => h p (List.mem_cons_of_mem _ hp) q (List.mem_cons_of_mem _ hq)
    -- what is put in for `a` is not touched by the later pairs
    have hnew : new.flatMap (fun x => (pairs.lookup x).getD [x]) = new := by
      refine flatMap_eq_self fun x hx => ?_
      have hnone : pairs.lookup x = none := by
        rw [List.lookup_eq_none_iff]
        intro p hp
        refine bne_iff_ne.2 fun he => ?_
        exact h p (List.mem_cons_of_mem _ hp) (a, new) List.mem_cons_self (he ▸ hx)
      rw [hnone, Option.getD_none]
    have hfirst : replaceMany (((a, new) :: pairs).map fun p => ([p.1], p.2)) xs =
        replaceMany (pairs.map fun p => ([p.1], p.2)) (replaceAll [a] new xs) := rfl
    rw [hfirst, hrest, replaceAll_single, List.flatMap_assoc]
    congr 1
    funext x
    by_cases hx : x = a
    · simp [hx, hnew]
    · have hne : (x == a) = false := by simpa using hx
      simp [List.lookup_cons, hne]

namespace Rewrites

variable {bar a : α} {old new u : List α}

theorem of_notMem (h : a ∉ u) : Rewrites bar (a :: old) new u u :=
  fun rest _ => replaceFrom_append_of_notMem h old new rest

theorem hit (hold : old ≠ []) : Rewrites bar old new old new :=
  fun rest _ => replaceFrom_of_hit hold new rest

/-- The first element of a hit that would go on with `bar`. -/
theorem cut (x : α) : Rewrites bar (x :: bar :: old) new [x] [x] := by
  intro rest hrest
  refine replaceFrom_of_miss ?_ new
  cases rest with
  | nil => simp [List.isPrefixOf]
  | cons y rest =>
    have hy : y ≠ bar := fun he => hrest (by simp [he])
    simp [List.isPrefixOf, Ne.symm hy]

end Rewrites

/-! ## The first mark -/

/-- `xs` is cut at the first of the `marks` in it: none begins before. -/
structure CutsAtFirst {α : Type} (marks : List (List α)) (xs before mark after : List α) : Prop where
  mem : mark ∈ marks
  eq_append : xs = before ++ mark ++ after
  first : ∀ k < before.length, ∀ other ∈ marks, ¬ other <+: xs.drop k

section FirstMark

omit [BEq α] [LawfulBEq α]

variable {x : α} {marks : List (List α)} {xs before mark after : List α}

theorem cutsAtFirst_nil (hmem : mark ∈ marks) : CutsAtFirst marks (mark ++ after) [] mark after :=
  ⟨hmem, by simp, by simp⟩

theorem CutsAtFirst.before_eq_nil (h : CutsAtFirst marks xs before mark after) {other : List α} (hmem : other ∈ marks)
    (hbegins : other <+: xs) : before = [] := by
  by_contra hne
  exact h.first 0 (List.length_pos_iff.2 hne) other hmem (by simpa using hbegins)

/-- An element at which no mark begins belongs to the part before. -/
theorem cutsAtFirst_cons (hmiss : ∀ other ∈ marks, ¬ other <+: x :: xs) :
    CutsAtFirst marks (x :: xs) before mark after ↔
      ∃ front, before = x :: front ∧ CutsAtFirst marks xs front mark after := by
  constructor
  · intro h
    cases before with
    | nil => exact absurd ⟨after, h.eq_append.symm⟩ (hmiss mark h.mem)
    | cons b front =>
      obtain ⟨rfl, heq⟩ := List.cons.inj h.eq_append
      exact ⟨front, rfl, h.mem, heq, fun k hk other hother =>
        h.first (k + 1) (Nat.succ_lt_succ hk) other hother⟩
  · rintro ⟨front, rfl, h⟩
    refine ⟨h.mem, congrArg (x :: ·) h.eq_append, fun k hk other hother => ?_⟩
    cases k with
    | zero => exact hmiss other hother
    | succ k => exact h.first k (Nat.lt_of_succ_lt_succ hk) other hother

end FirstMark

theorem splitFirst_eq_some_iff {mark xs before after : List α} :
    splitFirst mark xs = some (before, after) ↔ CutsAtFirst [mark] xs before mark after := by
  have hmisses : ∀ {xs : List α}, ¬ mark.isPrefixOf xs = true → ∀ other ∈ [mark], ¬ other <+: xs := by
    intro xs hmiss other hother
    rw [List.mem_singleton.1 hother]
    exact mt List.isPrefixOf_iff_prefix.2 hmiss
  constructor
  · intro h
    induction xs generalizing before with
    | nil =>
      rw [splitFirst] at h
      split at h
      · rename_i hempty
        cases h
        rw [List.isEmpty_iff.1 hempty]
        exact cutsAtFirst_nil List.mem_cons_self
      · cases h
    | cons x xs ih =>
      rw [splitFirst] at h
      split at h
      · rename_i hbegins
        obtain ⟨rest, hrest⟩ := List.isPrefixOf_iff_prefix.1 hbegins
        cases h
        rw [← hrest, List.drop_left]
        exact cutsAtFirst_nil List.mem_cons_self
      · rename_i hmiss
        obtain ⟨⟨front, rest⟩, hfound, hsplit⟩ := Option.map_eq_some_iff.1 h
        cases hsplit
        exact (cutsAtFirst_cons (hmisses hmiss)).2 ⟨front, rfl, ih hfound⟩
  · intro h
    induction xs generalizing before with
    | nil =>
      obtain ⟨rfl, rfl, rfl⟩ : before = [] ∧ mark = [] ∧ after = [] := by simpa using h.eq_append
      rfl
    | cons x xs ih =>
      rw [splitFirst]
      by_cases hbegins : mark.isPrefixOf (x :: xs) = true
      · obtain rfl := h.before_eq_nil List.mem_cons_self (List.isPrefixOf_iff_prefix.1 hbegins)
        rw [if_pos hbegins, h.eq_append, List.nil_append, List.drop_left]
      · obtain ⟨front, rfl, hfront⟩ := (cutsAtFirst_cons (hmisses hbegins)).1 h
        rw [if_neg hbegins, ih hfront]
        rfl

theorem splitFirst_append {a : α} {before : List α} (h : a ∉ before) (mark after : List α) :
    splitFirst (a :: mark) (before ++ a :: mark ++ after) = some (before, after) := by
  refine splitFirst_eq_some_iff.2 ⟨List.mem_cons_self, rfl, fun k hk other hother hbegins => ?_⟩
  rw [List.mem_singleton.1 hother, List.append_assoc, List.drop_append_of_le_length (Nat.le_of_lt hk),
    List.drop_eq_getElem_cons hk, List.cons_append, List.cons_prefix_cons] at hbegins
  exact h (hbegins.1 ▸ List.getElem_mem hk)

theorem splitFirst_eq_none_iff {mark xs : List α} : splitFirst mark xs = none ↔ ¬ mark <:+: xs := by
  induction xs with
  | nil => simp [splitFirst]
  | cons x xs ih =>
    rw [splitFirst, List.infix_cons_iff, not_or]
    by_cases hbegins : mark.isPrefixOf (x :: xs) = true
    · rw [if_pos hbegins]
      simp [List.isPrefixOf_iff_prefix.1 hbegins]
    · rw [if_neg hbegins, Option.map_eq_none_iff, ih]
      exact ⟨fun h => ⟨mt List.isPrefixOf_iff_prefix.2 hbegins, h⟩, And.right⟩

/-! ## Runs -/

omit [LawfulBEq α] in
theorem runs_cons (x : α) (xs : List α) : runs (x :: xs) = addToRuns x (runs xs) := rfl

/-- The elements of runs. -/
def expand (rs : List (α × Nat)) : List α :=
  rs.flatMap fun r => List.replicate r.2 r.1

theorem expand_addToRuns (x : α) (rs : List (α × Nat)) : expand (addToRuns x rs) = x :: expand rs := by
  cases rs with
  | nil => rfl
  | cons r rs =>
    obtain ⟨y, n⟩ := r
    rw [addToRuns]
    split
    · rename_i hxy
      rw [eq_of_beq hxy]
      rfl
    · rfl

theorem expand_runs (xs : List α) : expand (runs xs) = xs := by
  induction xs with
  | nil => rfl
  | cons x xs ih => rw [runs_cons, expand_addToRuns, ih]

/-- Runs are not empty, and neighbours differ. -/
structure MaximalRuns (rs : List (α × Nat)) : Prop where
  pos : ∀ r ∈ rs, 0 < r.2
  apart : rs.IsChain fun r r' => r.1 ≠ r'.1

theorem MaximalRuns.addToRuns {rs : List (α × Nat)} (h : MaximalRuns rs) (x : α) : MaximalRuns (addToRuns x rs) := by
  cases rs with
  | nil => exact ⟨by simp [Sequence.addToRuns], by simp [Sequence.addToRuns]⟩
  | cons r rs =>
    obtain ⟨y, n⟩ := r
    obtain ⟨-, hpos⟩ := List.forall_mem_cons.1 h.pos
    rw [Sequence.addToRuns]
    split
    · refine ⟨List.forall_mem_cons.2 ⟨Nat.succ_pos n, hpos⟩, ?_⟩
      cases rs with
      | nil => exact List.isChain_singleton _
      | cons r rs => exact List.isChain_cons_cons.2 (List.isChain_cons_cons.1 h.apart)
    · rename_i hxy
      exact ⟨List.forall_mem_cons.2 ⟨Nat.one_pos, h.pos⟩,
        List.isChain_cons_cons.2 ⟨fun he => hxy (beq_iff_eq.2 he), h.apart⟩⟩

theorem maximalRuns (xs : List α) : MaximalRuns (runs xs) := by
  induction xs with
  | nil => exact ⟨by simp [runs], List.isChain_nil⟩
  | cons x xs ih => exact ih.addToRuns x

theorem mem_of_mem_runs {xs : List α} {r : α × Nat} (h : r ∈ runs xs) : r.1 ∈ xs := by
  have hpos := (maximalRuns xs).pos r h
  have hmem : r.1 ∈ expand (runs xs) :=
    List.mem_flatMap.2 ⟨r, h, List.mem_replicate.2 ⟨Nat.ne_of_gt hpos, rfl⟩⟩
  rwa [expand_runs] at hmem

theorem runs_replicate (x : α) (n : Nat) : runs (List.replicate (n + 1) x) = [(x, n + 1)] := by
  induction n with
  | zero => rfl
  | succ n ih =>
    rw [List.replicate_succ, runs_cons, ih]
    simp [addToRuns]

/-- How often an element stands at the front of a list. -/
theorem length_takeWhile_of_runs {xs : List α} {x : α} {n : Nat} {rs : List (α × Nat)} (h : runs xs = (x, n) :: rs)
    (y : α) : (xs.takeWhile (· == y)).length = if x == y then n else 0 := by
  have hmax := maximalRuns xs
  rw [h] at hmax
  obtain ⟨hn, hpos⟩ := List.forall_mem_cons.1 hmax.pos
  have hxs : xs = List.replicate n x ++ expand rs := by
    rw [← expand_runs xs, h]
    rfl
  rw [hxs]
  by_cases hxy : x = y
  · have hall : ∀ z ∈ List.replicate n x, (z == y) = true := by
      intro z hz
      rw [(List.mem_replicate.1 hz).2, hxy]
      exact BEq.rfl
    -- the next run has another value
    have hstop : (expand rs).takeWhile (· == y) = [] := by
      cases rs with
      | nil => rfl
      | cons r rs =>
        obtain ⟨z, m⟩ := r
        have hne : x ≠ z := (List.isChain_cons_cons.1 hmax.apart).1
        obtain ⟨k, rfl⟩ := Nat.exists_eq_add_of_lt (hpos (z, m) List.mem_cons_self)
        have hz : ¬ z = y := fun hz => hne (hxy.trans hz.symm)
        simp [expand, List.replicate_succ, hz]
    rw [if_pos (beq_iff_eq.2 hxy), List.takeWhile_append_of_pos hall, hstop, List.append_nil, List.length_replicate]
  · obtain ⟨k, rfl⟩ := Nat.exists_eq_add_of_lt hn
    simp [List.replicate_succ, hxy]

/-! ## Distinct elements -/

section

variable {α : Type} [BEq α] [LawfulBEq α] {seen xs : List α} {x : α}

theorem mem_foldl_addNew : x ∈ xs.foldl addNew seen ↔ x ∈ seen ∨ x ∈ xs := by
  induction xs generalizing seen with
  | nil => simp
  | cons y ys ih =>
    rw [List.foldl_cons, ih, addNew]
    split
    · rename_i hy
      have hy := List.contains_iff_mem.1 hy
      grind
    · grind

theorem nodup_foldl_addNew (h : seen.Nodup) : (xs.foldl addNew seen).Nodup := by
  induction xs generalizing seen with
  | nil => exact h
  | cons x xs ih =>
    rw [List.foldl_cons, addNew]
    split
    · exact ih h
    · rename_i hx
      exact ih (List.nodup_cons.2 ⟨mt List.contains_iff_mem.2 hx, h⟩)

theorem nodup_distinct (xs : List α) : (distinct xs).Nodup :=
  (List.reverse_perm _).nodup_iff.2 (nodup_foldl_addNew List.nodup_nil)

theorem mem_distinct : x ∈ distinct xs ↔ x ∈ xs := by
  rw [distinct, List.mem_reverse, mem_foldl_addNew]
  simp

end

/-- Texts that are sorted stand in the order of their characters. -/
theorem pairwise_mergeSort (names : List String) :
    (names.mergeSort fun a b => decide (a ≤ b)).Pairwise (· ≤ ·) := by
  have hsorted : (names.mergeSort fun a b => decide (a ≤ b)).Pairwise fun a b => decide (a ≤ b) = true := by
    refine List.pairwise_mergeSort ?_ ?_ _
    · intro a b c hab hbc
      exact decide_eq_true (String.le_trans (of_decide_eq_true hab) (of_decide_eq_true hbc))
    · intro a b
      simpa using String.le_total a b
  exact hsorted.imp of_decide_eq_true

end AdventureKit.Sequence
