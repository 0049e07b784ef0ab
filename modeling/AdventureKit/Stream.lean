import AdventureKit.Bytes

/-!
# Reading positions

`Cursor` reads a byte string from a position that may lie past its end, where reads give nothing.
Places and counts are signed numbers of 64 bits (`IsCount`), and a source refuses others.
`View` is a window of such a source with a position of its own: each read moves the source to the
place that the window means, so views of one source do not depend on where the others left it.
A view counts its own places without a bound, and meets the one of its source when it reads.

Readers are written once, over `Source`, and keep the position that they reached when they fail.
-/

namespace AdventureKit

/-- What a new position is counted from. -/
inductive Origin where
  | start
  | current
  | finish
  deriving DecidableEq, Repr

/-- A computation that reads from a source and may fail; the source is moved either way. -/
abbrev Reading (σ : Type) := ExceptT Fault (StateM σ)

/-- Something that bytes are read from. -/
class Source (σ : Type) where
  /-- The next `n` bytes, fewer at the end, all that is left if `n` is negative. -/
  read : (n : Int) → Reading σ Bytes
  /-- Moves to a position and gives it back. -/
  seek : (offset : Int) → Origin → Reading σ Int
  /-- The position. -/
  tell : σ → Int
  /-- At least as many bytes as can still be read one after the other. -/
  bound : σ → Nat

/-- A signed number of 64 bits. -/
def IsCount (n : Int) : Prop :=
  -0x8000000000000000 ≤ n ∧ n < 0x8000000000000000

-- Natural numbers are compared from below, so that the bound is not counted down where `n` is a variable.
instance (n : Int) : Decidable (IsCount n) :=
  decidable_of_iff (n.toNat < 0x8000000000000000 ∧ (-n).toNat ≤ 0x8000000000000000) (by unfold IsCount; omega)

/-- A byte string and a position in it or past its end. -/
structure Cursor where
  data : Array UInt8
  pos : Nat
  deriving DecidableEq, Repr

namespace Cursor

/-- The start of a byte string. -/
def ofBytes (data : Bytes) : Cursor :=
  ⟨data.toArray, 0⟩

/-- The `n` bytes from the cursor on, fewer at the end. -/
def next (n : Nat) (c : Cursor) : Bytes :=
  (c.data.extract c.pos (c.pos + n)).toList

/-- The number of bytes left. -/
def left (c : Cursor) : Nat :=
  c.data.size - c.pos

/-- All bytes from the cursor on. -/
def rest (c : Cursor) : Bytes :=
  c.next c.left

theorem next_eq_take (n : Nat) (c : Cursor) : c.next n = (c.data.toList.drop c.pos).take n := by
  simp [next, List.extract_eq_take_drop]

theorem rest_eq_drop (c : Cursor) : c.rest = c.data.toList.drop c.pos := by
  rw [rest, next_eq_take, List.take_of_length_le]
  simp [left]

/-- The next `n` bytes, or all if `n` is negative, and the cursor after them. -/
def read (n : Int) (c : Cursor) : Bytes × Cursor :=
  let got := if n < 0 then c.rest else c.next n.toNat
  (got, { c with pos := c.pos + got.length })

/-- Reads as many bytes as are asked for from outside, if that can be counted. -/
def fetch (n : Int) (c : Cursor) : Except Fault (Bytes × Cursor) :=
  if IsCount n then .ok (c.read n) else .error .tooWide

/-- Moves to a place.  One that is counted from the current position or the end stops at the start of
the data; a negative one counted from the start is refused. -/
def move (offset : Int) (origin : Origin) (c : Cursor) : Except Fault Cursor :=
  match origin with
  | .start => if offset < 0 then .error .beforeStart else .ok { c with pos := offset.toNat }
  | .current => .ok { c with pos := (c.pos + offset).toNat }
  | .finish => .ok { c with pos := (c.data.size + offset).toNat }

/-- Moves to a place that is asked for from outside: neither it nor the offset may be too far away to be
counted. -/
def seek (offset : Int) (origin : Origin) (c : Cursor) : Except Fault Cursor :=
  if IsCount offset then do
    let c ← c.move offset origin
    if IsCount c.pos then .ok c else .error .tooWide
  else .error .tooWide

instance : Source Cursor where
  read n := fun c =>
    match c.fetch n with
    | .ok (got, c) => (.ok got, c)
    | .error e => (.error e, c)
  seek offset origin := fun c =>
    match c.seek offset origin with
    | .ok c => (.ok c.pos, c)
    | .error e => (.error e, c)
  tell c := c.pos
  bound c := c.left

end Cursor

/-- A window of `size` bytes from `start` on, with its own position. -/
structure View where
  start : Nat
  size : Int
  pos : Int
  deriving DecidableEq, Repr

namespace View

/-- How many bytes are asked of the source for `n` bytes of the window: its end stops the read as the
end of the data does. -/
def granted (n : Int) (v : View) : Int :=
  let left := v.size - v.pos
  max 0 (min (if n < 0 then left else n) left)

/-- Reads from the window through the cursor of the source, which has moved even if the number of bytes
is then refused. -/
def read (n : Int) (v : View) (c : Cursor) : Except Fault (Bytes × View) × Cursor :=
  match c.seek (v.start + v.pos) .start with
  | .error e => (.error e, c)
  | .ok c =>
    match c.fetch (v.granted n) with
    | .error e => (.error e, c)
    | .ok (got, c) => (.ok (got, { v with pos := v.pos + got.length }), c)

/-- Any position is taken; places from the end are counted from the size of the window. -/
def seek (offset : Int) (origin : Origin) (v : View) : View :=
  match origin with
  | .start => { v with pos := offset }
  | .current => { v with pos := v.pos + offset }
  | .finish => { v with pos := v.size + offset }

end View

/-- A view together with the source that it reads. -/
structure Viewed where
  view : View
  base : Cursor
  deriving DecidableEq, Repr

instance : Source Viewed where
  read n := fun s =>
    match s.view.read n s.base with
    | (.ok (got, view), base) => (.ok got, ⟨view, base⟩)
    | (.error e, base) => (.error e, { s with base := base })
  seek offset origin := fun s =>
    let view := s.view.seek offset origin
    (.ok view.pos, { s with view := view })
  tell s := s.view.pos
  bound s := s.base.data.size

end AdventureKit
