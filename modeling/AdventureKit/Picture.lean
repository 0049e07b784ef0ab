import AdventureKit.Bytes
import AdventureKit.Sequence

/-!
# Pictures

A picture is rows of pixels, each pixel a number of the palette.  Pasting is clipped to the picture,
and what lies outside a picture is cut out as zeros.
-/

namespace AdventureKit

/-- Rows of pixels from the top; each row has `width` pixels. -/
structure Picture where
  width : Nat
  rows : List Bytes
  deriving DecidableEq, Repr

namespace Picture

/-- The number of rows. -/
def height (p : Picture) : Nat :=
  p.rows.length

/-- The pixels row by row. -/
def pixels (p : Picture) : Bytes :=
  p.rows.flatten

/-- The first `n` rows of `width` pixels each. -/
def rowsOf (width : Nat) : (n : Nat) → Bytes → List Bytes
  | 0, _ => []
  | n + 1, px => px.take width :: rowsOf width n (px.drop width)

/-- The picture of pixels that come row by row. -/
def ofPixels (width height : Nat) (px : Bytes) : Picture :=
  ⟨width, rowsOf width height px⟩

/-- The picture with a pixel for each column and row. -/
def tabulate (width height : Nat) (pixel : Nat → Nat → UInt8) : Picture :=
  ⟨width, (List.range height).map fun y => (List.range width).map fun x => pixel x y⟩

/-- Puts a picture over another one; its corner may lie outside. -/
def paste (p : Picture) (x y : Int) (q : Picture) : Picture :=
  { p with
    rows := Sequence.overlay (fun row piece => Sequence.overlay (fun _ v => v) x piece row)
      y q.rows p.rows }

/-- The part of `width` columns and `height` rows whose corner is at a column and row. -/
def crop (p : Picture) (x y width height : Nat) : Picture :=
  let rows := ((p.rows.drop y).take height).map fun row => Bytes.padTo width ((row.drop x).take width)
  ⟨width, rows ++ List.replicate (height - rows.length) (List.replicate width 0)⟩

/-- The picture with one bit for each pixel, which tells zero from all else. -/
def bilevel (p : Picture) : Picture :=
  { p with rows := p.rows.map fun row => row.map fun v => if v = 0 then 0 else 1 }

end Picture

end AdventureKit
