import AdventureKit.Lzss.Window

/-!
# Copies in the window

`copied w place count` are the bytes that a copy writes.  A copy reads what it wrote as soon as it
reaches the cell where it started to write, so that from there on it repeats itself: `lead w place` is
the length of the part that repeats (`getElem?_copied`).

The two sides start with different bytes in the last cells.  `Alike n w v` says that after `n` bytes
they differ at most in those of the last cells that are not written yet; it is kept as long as no copy
reads such a cell (`Alike.copied_eq`, `Alike.foldl_push`).
-/

namespace AdventureKit.Lzss.Window

/-! ### Cells and cursor -/

theorem push_cursor (w : Window) (b : UInt8) :
    ((w.push b).cursor : Nat) = (w.cursor + 1) % 4096 := by
  simp [push, Fin.val_add]

theorem byteAt_mod (w : Window) (place : Nat) : w.byteAt (place % 4096) = w.byteAt place := by
  simp [byteAt]

theorem byteAt_eq_getElem (w : Window) (place : Nat) :
    w.byteAt place = w.cells[place % 4096] := rfl

theorem byteAt_push (w : Window) (b : UInt8) (place : Nat) :
    (w.push b).byteAt place = if place % 4096 = w.cursor then b else w.byteAt place := by
  rw [byteAt_eq_getElem, byteAt_eq_getElem]
  by_cases h : place % 4096 = w.cursor
  · rw [if_pos h]
    simp [push, h]
  · rw [if_neg h]
    exact Vector.getElem_set_ne w.cursor.isLt _ (Ne.symm h)

theorem byteAt_foldl_push_of_ne {w : Window} {bs : Bytes} {b : UInt8} (hbs : b ∉ bs)
    (hw : ∀ place, w.byteAt place ≠ b) (place : Nat) : (bs.foldl push w).byteAt place ≠ b := by
  induction bs generalizing w with
  | nil => exact hw place
  | cons c bs ih =>
    rw [List.mem_cons, not_or] at hbs
    refine ih hbs.2 fun place => ?_
    rw [byteAt_push]
    split
    · exact Ne.symm hbs.1
    · exact hw place

/-! ### What a copy writes -/

/-- The bytes that a copy writes. -/
def copied (w : Window) (place : Nat) : (count : Nat) → Bytes
  | 0 => []
  | count + 1 => w.byteAt place :: (w.push (w.byteAt place)).copied (place + 1) count

theorem length_copied (w : Window) (place count : Nat) : (w.copied place count).length = count := by
  induction count generalizing w place with
  | zero => rfl
  | succ count ih => rw [copied, List.length_cons, ih]

theorem copy_eq_foldl (w : Window) (place count : Nat) :
    w.copy place count = (w.copied place count).foldl push w := by
  induction count generalizing w place with
  | zero => rfl
  | succ count ih => rw [copy, ih, copied, List.foldl_cons]

/-- How many cells the cursor is ahead of a place, from one cell up to a full turn. -/
def lead (w : Window) (place : Nat) : Nat :=
  4096 - (place + (4096 - w.cursor)) % 4096

theorem lead_pos (w : Window) (place : Nat) : 0 < w.lead place := by
  simp only [lead]
  omega

theorem lead_push (w : Window) (b : UInt8) (place : Nat) :
    (w.push b).lead (place + 1) = w.lead place := by
  have hc := w.cursor.isLt
  simp only [lead, push_cursor]
  omega

/-- **A copy repeats itself** after as many bytes as the cursor is ahead. -/
theorem getElem?_copied (w : Window) (place : Nat) {count i : Nat} (hi : i < count) :
    (w.copied place count)[i]? =
      if i < w.lead place then some (w.byteAt (place + i))
      else (w.copied place count)[i - w.lead place]? := by
  induction count generalizing w place i with
  | zero => omega
  | succ count ih =>
    have hc := w.cursor.isLt
    cases i with
    | zero => rw [if_pos (w.lead_pos place)]; rfl
    | succ i =>
      rw [copied, List.getElem?_cons_succ, ih _ _ (by omega), lead_push]
      by_cases hlt : i < w.lead place
      · rw [if_pos hlt, byteAt_push]
        -- the copy meets its own first byte exactly when `i + 1` cells are the whole lead
        have hmeet : (place + 1 + i) % 4096 = w.cursor ↔ i + 1 = w.lead place := by
          simp only [lead] at hlt ⊢
          omega
        by_cases he : i + 1 = w.lead place
        · rw [if_pos (hmeet.2 he), if_neg (by omega), he, Nat.sub_self, List.getElem?_cons_zero]
        · rw [if_neg (mt hmeet.1 he), if_pos (by omega)]
          congr 2
          omega
      · rw [if_neg hlt, if_neg (by omega), show i + 1 - w.lead place = i - w.lead place + 1 by omega,
          List.getElem?_cons_succ]

/-! ### The windows of the two sides -/

/-- After `n` bytes the windows `w` of the packing and `v` of the unpacking side stand at the same cell
and hold the same bytes, except in those of the last cells that are not written yet. -/
structure Alike (n : Nat) (w v : Window) : Prop where
  cursor_eq : (w.cursor : Nat) = (4078 + n) % 4096
  cursors : v.cursor = w.cursor
  bytes : ∀ cell, cell < 4096 → cell < 4078 + n → v.byteAt cell = w.byteAt cell

theorem byteAt_packing (place : Nat) : packing.byteAt place = 0x20 := by
  simp [byteAt_eq_getElem, packing]

theorem byteAt_unpacking {cell : Nat} (h : cell < 4078) : unpacking.byteAt cell = 0x20 := by
  have hs : (⟨cell % 4096, Nat.mod_lt _ (by decide)⟩ : Fin 4096) < start := by
    show cell % 4096 < 4078
    omega
  simp only [byteAt_eq_getElem, unpacking, Vector.getElem_ofFn, if_pos hs]

theorem alike_start : Alike 0 packing unpacking where
  cursor_eq := rfl
  cursors := rfl
  bytes := by
    intro cell _ h
    rw [byteAt_packing, byteAt_unpacking h]

theorem Alike.push {n : Nat} {w v : Window} (h : Alike n w v) (b : UInt8) :
    Alike (n + 1) (w.push b) (v.push b) where
  cursor_eq := by
    rw [push_cursor, h.cursor_eq]
    omega
  cursors := by
    simp only [Window.push, h.cursors]
  bytes := by
    intro cell hc hn
    rw [byteAt_push, byteAt_push, h.cursors]
    split
    · rfl
    · rename_i hne
      have := h.cursor_eq
      exact h.bytes cell hc (by omega)

theorem Alike.foldl_push {n : Nat} {w v : Window} (h : Alike n w v) (bs : Bytes) :
    Alike (n + bs.length) (bs.foldl Window.push w) (bs.foldl Window.push v) := by
  induction bs generalizing n w v with
  | nil => exact h
  | cons b bs ih =>
    rw [List.length_cons, show n + (bs.length + 1) = n + 1 + bs.length by omega]
    exact ih (h.push b)

/-- A copy that reads no cell in which the sides differ writes the same bytes on both. -/
theorem Alike.copied_eq {n : Nat} {w v : Window} (h : Alike n w v) {place count : Nat}
    (hr : ∀ i < count, (place + i) % 4096 < 4078 + n) : v.copied place count = w.copied place count := by
  induction count generalizing n w v place with
  | zero => rfl
  | succ count ih =>
    have hb : v.byteAt place = w.byteAt place := by
      rw [← byteAt_mod v, ← byteAt_mod w]
      exact h.bytes _ (Nat.mod_lt _ (by decide)) (hr 0 (by omega))
    rw [copied, copied, hb, ih (h.push _)]
    intro i hi
    have := hr (i + 1) (by omega)
    rw [show place + 1 + i = place + (i + 1) by omega]
    omega

/-! ### Cells that were never written -/

/-- After `n` bytes the cells that were not written hold spaces; cell `cell` is number
`(cell + 18) % 4096` in the order in which cells are written. -/
structure Blank (n : Nat) (w : Window) : Prop where
  cursor_eq : (w.cursor : Nat) = (4078 + n) % 4096
  spaces : ∀ cell, n ≤ (cell + 18) % 4096 → w.byteAt cell = 0x20

theorem blank_packing : Blank 0 packing where
  cursor_eq := rfl
  spaces := fun cell _ => byteAt_packing cell

theorem Blank.push {n : Nat} {w : Window} (h : Blank n w) (b : UInt8) : Blank (n + 1) (w.push b) where
  cursor_eq := by
    rw [push_cursor, h.cursor_eq]
    omega
  spaces := by
    intro cell hn
    have := h.cursor_eq
    rw [byteAt_push, if_neg (by omega)]
    exact h.spaces cell (by omega)

theorem Blank.foldl_push {n : Nat} {w : Window} (h : Blank n w) (bs : Bytes) :
    Blank (n + bs.length) (bs.foldl Window.push w) := by
  induction bs generalizing n w with
  | nil => exact h
  | cons b bs ih =>
    rw [List.length_cons, show n + (bs.length + 1) = n + 1 + bs.length by omega]
    exact ih (h.push b)

end AdventureKit.Lzss.Window
