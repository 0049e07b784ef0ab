import AdventureKit.Bytes

/-!
# The window of the packer

Both sides of the compression keep the last 4096 bytes in a ring of cells, from which repeated parts
are copied.  A place counts cells modulo 4096.  The unpacking side starts with zeros in the last cells
where the packing side has spaces.
-/

namespace AdventureKit.Lzss

/-- The cells of the ring and the one that is written next. -/
structure Window where
  cells : Vector UInt8 4096
  cursor : Fin 4096
  deriving DecidableEq, Repr

namespace Window

/-- The cell that is written first. -/
def start : Fin 4096 := 4078

/-- The window of the unpacking side. -/
def unpacking : Window where
  cells := Vector.ofFn fun i => if i < start then 0x20 else 0
  cursor := start

/-- The window of the packing side. -/
def packing : Window where
  cells := Vector.replicate 4096 0x20
  cursor := start

/-- The byte at a place. -/
def byteAt (w : Window) (place : Nat) : UInt8 :=
  w.cells.get ⟨place % 4096, Nat.mod_lt _ (by decide)⟩

/-- Writes a byte and moves on. -/
def push (w : Window) (b : UInt8) : Window where
  cells := w.cells.set w.cursor b
  cursor := w.cursor + 1

/-- Writes `count` bytes from `place` on, one at a time, so that a copy may read what it wrote. -/
def copy (w : Window) (place : Nat) : (count : Nat) → Window
  | 0 => w
  | count + 1 => copy (w.push (w.byteAt place)) (place + 1) count

end Window

end AdventureKit.Lzss
