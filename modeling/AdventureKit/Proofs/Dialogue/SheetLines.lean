import Mathlib.Data.List.Forall2
import AdventureKit.Dialogue.Sheet
import AdventureKit.Proofs.Sequence

/-!
# Lines of sheets

The reader of a sheet goes from character to character.  `Reads` says what it makes of the characters of one cell, in
whatever line the cell stands: of a quoted text that text (`reads_quoted`), of a plain text that text (`reads_plain`).  A
line is read as its cells (`recordsFrom_line`).
-/

namespace AdventureKit.Sheet

/-! ## Cells -/

/-- The text of a cell in quotes, with every quote in it written twice. -/
def quotedCell (t : Text) : Text :=
  quote :: (t.flatMap fun c => if c == quote then [quote, quote] else [c]) ++ [quote]

theorem cellOf_eq {t : Text} (h : Sequence.occursIn [quote, quote] t = false) : cellOf t = .ok (quotedCell t) := by
  unfold cellOf doubleQuotes
  rw [h, Sequence.replaceAll_single]
  rfl

/-- A text without separators that does not start with a quote. -/
structure Plain (t : Text) : Prop where
  noTab : tab ∉ t
  noFeed : feed ∉ t
  noReturn : 13 ∉ t
  noQuote : t.head? ≠ some quote
  length : t.length ≤ longestCell

/-- Where the characters of a cell bring the reader. -/
structure Reads (raw t : Text) (position : Position) : Prop where
  onTab : move tab position = .endCell
  onFeed : move feed position = .endLine
  run : ∃ size, ∀ cells rest, recordsFrom .cellStart [] 0 cells (raw ++ rest) =
    recordsFrom position t.reverse size cells rest

theorem recordsFrom_add {position after : Position} {c : Nat} (hmove : move c position = .add after) {size : Nat}
    (hsize : size < longestCell) (cell : Text) (cells : List Text) (t : Text) :
    recordsFrom position cell size cells (c :: t) = recordsFrom after (c :: cell) (size + 1) cells t := by
  rw [recordsFrom, hmove]
  exact if_pos hsize

theorem recordsFrom_drop {position after : Position} {c : Nat} (hmove : move c position = .drop after) (size : Nat)
    (cell : Text) (cells : List Text) (t : Text) :
    recordsFrom position cell size cells (c :: t) = recordsFrom after cell size cells t := by
  rw [recordsFrom, hmove]

theorem recordsFrom_endCell {position : Position} {c : Nat} (hmove : move c position = .endCell) (size : Nat)
    (cell : Text) (cells : List Text) (t : Text) :
    recordsFrom position cell size cells (c :: t) = recordsFrom .cellStart [] 0 (cell.reverse :: cells) t := by
  rw [recordsFrom, hmove]

theorem recordsFrom_endLine {position : Position} {c : Nat} (hmove : move c position = .endLine) (size : Nat)
    (cell : Text) (cells : List Text) (t : Text) :
    recordsFrom position cell size cells (c :: t) =
      .ok (cell.reverse :: cells).reverse :: recordsFrom .lineStart [] 0 [] t := by
  rw [recordsFrom, hmove]

/-- Between quotes a text is read as it is, with its quotes written twice. -/
theorem recordsFrom_quoted {t : Text} {size : Nat} (hsize : size + t.length ≤ longestCell) (cell : Text)
    (cells : List Text) (rest : Text) :
    recordsFrom .quoted cell size cells ((t.flatMap fun c => if c == quote then [quote, quote] else [c]) ++ rest) =
      recordsFrom .quoted (t.reverse ++ cell) (size + t.length) cells rest := by
  induction t generalizing size cell with
  | nil => rfl
  | cons c t ih =>
    rw [List.length_cons] at hsize
    have hnext : recordsFrom .quoted cell size cells ((if c == quote then [quote, quote] else [c]) ++
        ((t.flatMap fun c => if c == quote then [quote, quote] else [c]) ++ rest)) =
          recordsFrom .quoted (c :: cell) (size + 1) cells
            ((t.flatMap fun c => if c == quote then [quote, quote] else [c]) ++ rest) := by
      by_cases hc : c = quote
      · have hseen : move quote .quoted = .drop .quoteSeen := rfl
        have htwice : move quote .quoteSeen = .add .quoted := rfl
        subst hc
        rw [if_pos BEq.rfl]
        exact (recordsFrom_drop hseen _ _ _ _).trans (recordsFrom_add htwice (by omega) _ _ _)
      · have hadd : move c .quoted = .add .quoted := if_neg hc
        rw [if_neg (fun h => hc (beq_iff_eq.1 h))]
        exact recordsFrom_add hadd (by omega) _ _ _
    rw [List.flatMap_cons, List.append_assoc, hnext, ih (by omega), List.reverse_cons, List.append_assoc,
      List.length_cons, Nat.add_assoc, Nat.add_comm 1]
    rfl

theorem reads_quoted {t : Text} (h : t.length ≤ longestCell) : Reads (quotedCell t) t .quoteSeen where
  onTab := by decide
  onFeed := by decide
  run := by
    have hopen : move quote .cellStart = .drop .quoted := rfl
    have hseen : move quote .quoted = .drop .quoteSeen := rfl
    refine ⟨0 + t.length, fun cells rest => ?_⟩
    rw [quotedCell, List.cons_append, List.cons_append, recordsFrom_drop hopen, List.append_assoc,
      recordsFrom_quoted (by rwa [Nat.zero_add]), List.append_nil]
    exact recordsFrom_drop hseen _ _ _ _

/-- Without quotes a text is read up to the next separator. -/
theorem recordsFrom_plain {t : Text} (htab : tab ∉ t) (hfeed : feed ∉ t) {size : Nat}
    (hsize : size + t.length ≤ longestCell) (cell : Text) (cells : List Text) (rest : Text) :
    recordsFrom .plain cell size cells (t ++ rest) =
      recordsFrom .plain (t.reverse ++ cell) (size + t.length) cells rest := by
  induction t generalizing size cell with
  | nil => rfl
  | cons c t ih =>
    rw [List.length_cons] at hsize
    rw [List.mem_cons, not_or] at htab hfeed
    have hadd : move c .plain = .add .plain :=
      (if_neg fun h => hfeed.1 h.symm).trans (if_neg fun h => htab.1 h.symm)
    rw [List.cons_append, recordsFrom_add hadd (by omega), ih htab.2 hfeed.2 (by omega), List.reverse_cons,
      List.append_assoc, List.length_cons, Nat.add_assoc, Nat.add_comm 1]
    rfl

theorem reads_plain {t : Text} (h : Plain t) : ∃ position, Reads t t position := by
  cases t with
  | nil => exact ⟨.cellStart, by decide, by decide, 0, fun _ _ => rfl⟩
  | cons c t =>
    obtain ⟨htab, hfeed, -, hquote, hlength⟩ := h
    rw [List.length_cons] at hlength
    rw [List.mem_cons, not_or] at htab hfeed
    have hadd : move c .cellStart = .add .plain :=
      (if_neg fun h => hfeed.1 h.symm).trans ((if_neg fun h => hquote (congrArg some h)).trans
        (if_neg fun h => htab.1 h.symm))
    refine ⟨.plain, by decide, by decide, 1 + t.length, fun cells rest => ?_⟩
    rw [List.cons_append, recordsFrom_add hadd (by decide), recordsFrom_plain htab.2 hfeed.2 (by omega),
      List.reverse_cons]

/-! ## Lines -/

/-- The text of a line. -/
def lineText (raws : List Text) : Text :=
  (linePieces raws).flatten

theorem lineText_cons (raw : Text) (raws : List Text) :
    lineText (raw :: raws) = raw ++ (raws.flatMap (tab :: ·) ++ [feed]) := by
  have hsep : ∀ raws : List Text, ((raw :: raws).intersperse [tab]).flatten = raw ++ raws.flatMap (tab :: ·) := by
    intro raws
    induction raws generalizing raw with
    | nil => rfl
    | cons next raws ih =>
      rw [List.intersperse_cons_cons, List.flatten_cons, List.flatten_cons, ih, List.flatMap_cons]
      rfl
  rw [lineText, linePieces, List.flatten_append, hsep, List.append_assoc]
  rfl

/-- From the end of a cell the reader goes through the other cells to the end of the line. -/
theorem recordsFrom_cells {raws ts : List Text} (h : List.Forall₂ (fun raw t => ∃ p, Reads raw t p) raws ts)
    {position : Position} (htab : move tab position = .endCell) (hfeed : move feed position = .endLine) (cell : Text)
    (size : Nat) (cells : List Text) (rest : Text) :
    recordsFrom position cell size cells (raws.flatMap (tab :: ·) ++ feed :: rest) =
      .ok (cells.reverse ++ cell.reverse :: ts) :: recordsFrom .lineStart [] 0 [] rest := by
  induction h generalizing position cell size cells with
  | nil =>
    rw [List.flatMap_nil, List.nil_append, recordsFrom_endLine hfeed, List.reverse_cons]
  | cons hcell _ ih =>
    obtain ⟨next, hcell⟩ := hcell
    obtain ⟨size', hrun⟩ := hcell.run
    rw [List.flatMap_cons, List.cons_append, List.cons_append, recordsFrom_endCell htab, List.append_assoc, hrun,
      ih hcell.onTab hcell.onFeed, List.reverse_reverse, List.reverse_cons, List.append_assoc]
    rfl

theorem recordsFrom_lineStart {c : Nat} (hc : c ≠ feed) (t : Text) :
    recordsFrom .lineStart [] 0 [] (c :: t) = recordsFrom .cellStart [] 0 [] (c :: t) := by
  have hmove : move c .lineStart = move c .cellStart := by
    unfold move
    rw [if_neg hc, if_neg hc]
  rw [recordsFrom, recordsFrom, hmove]

/-- **A line is read as its cells.** -/
theorem recordsFrom_line {raw t : Text} {raws ts : List Text} (hfirst : ∃ p, Reads raw t p) (hfeed : feed ∉ raw)
    (h : List.Forall₂ (fun raw t => ∃ p, Reads raw t p) raws ts) (hsome : raw ≠ [] ∨ raws ≠ []) (rest : Text) :
    recordsFrom .lineStart [] 0 [] (lineText (raw :: raws) ++ rest) =
      .ok (t :: ts) :: recordsFrom .lineStart [] 0 [] rest := by
  obtain ⟨position, hfirst⟩ := hfirst
  obtain ⟨size, hrun⟩ := hfirst.run
  obtain ⟨c, text, hc, htext⟩ : ∃ c text, c ≠ feed ∧ lineText (raw :: raws) = c :: text := by
    rw [lineText_cons]
    cases raw with
    | cons c raw => exact ⟨c, _, fun hc => hfeed (hc ▸ List.mem_cons_self), rfl⟩
    | nil =>
      obtain ⟨next, raws, rfl⟩ := List.exists_cons_of_ne_nil (hsome.resolve_left fun hne => hne rfl)
      exact ⟨tab, _, by decide, rfl⟩
  rw [htext, List.cons_append, recordsFrom_lineStart hc, ← List.cons_append, ← htext, lineText_cons, List.append_assoc,
    List.append_assoc, hrun]
  exact (recordsFrom_cells h hfirst.onTab hfirst.onFeed _ _ _ _).trans (by rw [List.reverse_reverse]; rfl)

end AdventureKit.Sheet
