import AdventureKit.Proofs.Lzss.Extent
import AdventureKit.Proofs.Lzss.Window

/-!
# Unpacking without a window

`History.decode` unpacks without a ring of cells.  It keeps what came out, and a copy takes from a cell the
byte that was the last one to be put there: cells are written in turn from number 4078 on, so that byte `q` of
the output went to cell `(4078 + q) % 4096`.

The ring of the reader holds these bytes at every step, also while a copy overwrites the cells that it reads
(`History.Holds.push`).  So the two readers agree on all data and all counts (`unpack_eq_decode`).
-/

namespace AdventureKit.Lzss

namespace History

/-- The last of `count` bytes that was put in a cell. -/
def lastIn (count cell : Nat) : Option Nat :=
  (List.range count).reverse.find? fun q => (4078 + q) % 4096 = cell

/-- The byte in a cell when `out` is out: the last one that was put there, or else what the cells hold at the
start, spaces in the first 4078 cells and zeros behind them. -/
def byteIn (out : Bytes) (cell : Nat) : UInt8 :=
  match lastIn out.length cell with
  | some q => out.getD q 0
  | none => if cell < 4078 then 0x20 else 0

/-- Appends bytes from the cells from `place` on, one at a time, until enough bytes are out. -/
def copy (wanted : Int) (out : Bytes) (place : Nat) : (count : Nat) → Bytes
  | 0 => out
  | count + 1 =>
    let out := out ++ [byteIn out (place % 4096)]
    if out.length = wanted then out else copy wanted out (place + 1) count

/-- Runs the commands that bit number `bit` of the flag byte and the later ones stand for, and reads a new flag
byte after the eighth. -/
def decodeFrom (wanted : Int) (flag : UInt8) (bit : Nat) (out : Bytes) : Bytes → Option (Bytes × Bytes)
  | [] => none
  | b :: rest =>
    if 8 ≤ bit then decodeFrom wanted b 0 out rest
    else if flag.toNat.testBit bit then
      let out := out ++ [b]
      if out.length = wanted then some (out, rest) else decodeFrom wanted flag (bit + 1) out rest
    else
      match rest with
      | [] => none
      | c :: rest =>
        let out := copy wanted out (copyPlace b c) (copyLength c)
        if out.length = wanted then some (out, rest) else decodeFrom wanted flag (bit + 1) out rest

/-- The first `wanted` bytes that the data stand for, and what is left of the data.  There is no flag byte at
the start. -/
def decode (wanted : Int) (data : Bytes) : Option (Bytes × Bytes) :=
  decodeFrom wanted 0 8 [] data

/-! ### Cells -/

theorem lastIn_succ (count cell : Nat) :
    lastIn (count + 1) cell = if (4078 + count) % 4096 = cell then some count else lastIn count cell := by
  rw [lastIn, List.range_succ, List.reverse_concat, List.find?_cons]
  by_cases h : (4078 + count) % 4096 = cell
  · simp [h]
  · simp [h, lastIn]

theorem lt_of_lastIn {count cell q : Nat} (h : lastIn count cell = some q) : q < count := by
  have hmem := List.mem_of_find?_eq_some h
  rwa [List.mem_reverse, List.mem_range] at hmem

/-- One more byte changes its own cell and no other one. -/
theorem byteIn_concat (out : Bytes) (b : UInt8) (cell : Nat) :
    byteIn (out ++ [b]) cell = if (4078 + out.length) % 4096 = cell then b else byteIn out cell := by
  rw [byteIn, List.length_append, List.length_singleton, lastIn_succ]
  by_cases h : (4078 + out.length) % 4096 = cell
  · simp [h]
  · rw [if_neg h, if_neg h, byteIn]
    cases hlast : lastIn out.length cell with
    | none => rfl
    | some q => simp [List.getD, List.getElem?_append_left (lt_of_lastIn hlast)]

/-- The ring when `out` is out. -/
structure Holds (out : Bytes) (w : Window) : Prop where
  cursor_eq : (w.cursor : Nat) = (4078 + out.length) % 4096
  byteAt_eq : ∀ place, w.byteAt place = byteIn out (place % 4096)

theorem holds_start : Holds [] Window.unpacking where
  cursor_eq := rfl
  byteAt_eq := by
    intro place
    rw [Window.byteAt_eq_getElem]
    simp only [Window.unpacking, Vector.getElem_ofFn]
    rfl

theorem Holds.push {out : Bytes} {w : Window} (h : Holds out w) (b : UInt8) : Holds (out ++ [b]) (w.push b) where
  cursor_eq := by
    rw [Window.push_cursor, h.cursor_eq, List.length_append, List.length_singleton]
    omega
  byteAt_eq := by
    intro place
    rw [Window.byteAt_push, byteIn_concat, h.byteAt_eq, h.cursor_eq]
    simp only [eq_comm]

/-! ### Commands -/

/-- The progress of the reader when `out` is out. -/
structure Follows (wanted : Int) (out : Bytes) (p : Progress) : Prop where
  output_eq : p.output = out.reverse
  wanted_eq : p.wanted = wanted - out.length
  holds : Holds out p.window

theorem follows_start (wanted : Int) : Follows wanted [] ⟨Window.unpacking, [], wanted⟩ where
  output_eq := rfl
  wanted_eq := (Int.sub_zero wanted).symm
  holds := holds_start

section Step

variable {wanted : Int} {out : Bytes} {p : Progress}

theorem Follows.done_iff (h : Follows wanted out p) : p.wanted = 0 ↔ (out.length : Int) = wanted := by
  rw [h.wanted_eq]
  omega

theorem Follows.emit (h : Follows wanted out p) (b : UInt8) : Follows wanted (out ++ [b]) (p.emit b) where
  output_eq := by
    rw [List.reverse_concat, ← h.output_eq]
    rfl
  wanted_eq := by
    rw [List.length_append, List.length_singleton]
    show p.wanted - 1 = _
    rw [h.wanted_eq]
    omega
  holds := h.holds.push b

theorem Follows.copy (h : Follows wanted out p) (place count : Nat) :
    Follows wanted (History.copy wanted out place count) (p.copy place count) := by
  induction count generalizing out p place with
  | zero => exact h
  | succ count ih =>
    rw [History.copy, Progress.copy, h.holds.byteAt_eq place]
    have hnext := h.emit (byteIn out (place % 4096))
    by_cases hdone : (p.emit (byteIn out (place % 4096))).wanted = 0
    · rw [if_pos hdone, if_pos (hnext.done_iff.1 hdone)]
      exact hnext
    · rw [if_neg hdone, if_neg (mt hnext.done_iff.2 hdone)]
      exact ih hnext (place + 1)

end Step

/-! ### Flags -/

theorem drop_flagsOf {flag : UInt8} {bit : Nat} (h : bit < 8) :
    (flagsOf flag).drop bit = flag.toNat.testBit bit :: (flagsOf flag).drop (bit + 1) := by
  have hlen : bit < (flagsOf flag).length := by
    rw [flagsOf, List.length_map, List.length_range]
    exact h
  rw [List.drop_eq_getElem_cons hlen]
  simp [flagsOf]

theorem drop_flagsOf_of_le {flag : UInt8} {bit : Nat} (h : 8 ≤ bit) : (flagsOf flag).drop bit = [] := by
  rw [List.drop_eq_nil_iff, flagsOf, List.length_map, List.length_range]
  exact h

/-- The reader with a ring follows the one without, command by command. -/
theorem unpackFrom_eq_decodeFrom (wanted : Int) (flag : UInt8) (bit : Nat) (out data : Bytes) :
    ∀ p, Follows wanted out p →
      (unpackFrom ((flagsOf flag).drop bit) p data).toOption = decodeFrom wanted flag bit out data := by
  fun_induction decodeFrom wanted flag bit out data with
  | case1 flag bit out =>
    intro p h
    cases (flagsOf flag).drop bit with
    | nil => rfl
    | cons kind flags => cases kind <;> rfl
  | case2 flag bit out b rest hbit ih =>
    intro p h
    rw [drop_flagsOf_of_le hbit, unpackFrom]
    exact ih p h
  | case3 flag bit out b rest hbit hkind out' hdone =>
    intro p h
    have hemit := h.emit b
    rw [drop_flagsOf (Nat.lt_of_not_le hbit), hkind, unpackFrom, if_pos (hemit.done_iff.2 hdone),
      hemit.output_eq, List.reverse_reverse]
    rfl
  | case4 flag bit out b rest hbit hkind out' hdone ih =>
    intro p h
    have hemit := h.emit b
    rw [drop_flagsOf (Nat.lt_of_not_le hbit), hkind, unpackFrom, if_neg (mt hemit.done_iff.1 hdone)]
    exact ih _ hemit
  | case5 flag bit out b hbit hkind =>
    intro p h
    rw [drop_flagsOf (Nat.lt_of_not_le hbit), Bool.eq_false_iff.2 hkind, unpackFrom]
    rfl
  | case6 flag bit out b hbit hkind c rest out' hdone =>
    intro p h
    have hcopy := h.copy (copyPlace b c) (copyLength c)
    rw [drop_flagsOf (Nat.lt_of_not_le hbit), Bool.eq_false_iff.2 hkind, unpackFrom,
      if_pos (hcopy.done_iff.2 hdone), hcopy.output_eq, List.reverse_reverse]
    rfl
  | case7 flag bit out b hbit hkind c rest out' hdone ih =>
    intro p h
    have hcopy := h.copy (copyPlace b c) (copyLength c)
    rw [drop_flagsOf (Nat.lt_of_not_le hbit), Bool.eq_false_iff.2 hkind, unpackFrom,
      if_neg (mt hcopy.done_iff.1 hdone)]
    exact ih _ hcopy

end History

/-- **The window is the history.**  Whatever the data and the count, the reader with a ring and the one that
looks back in what came out give the same bytes and leave the same data, or both find no end. -/
theorem unpack_eq_decode (wanted : Int) (data : Bytes) :
    (unpack wanted data).toOption = History.decode wanted data := by
  have hrun := History.unpackFrom_eq_decodeFrom wanted 0 8 [] data _ (History.follows_start wanted)
  rwa [History.drop_flagsOf_of_le (Nat.le_refl 8)] at hrun

/-- A byte, and a copy that reads what it writes. -/
example : History.decode 5 [1, 65, 0xEE, 0xF1] = some ([65, 65, 65, 65, 65], []) := by
  decide

end AdventureKit.Lzss
