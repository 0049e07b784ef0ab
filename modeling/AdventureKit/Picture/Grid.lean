import AdventureKit.Fault
import AdventureKit.Picture

/-!
# Grids of glyphs

The glyphs of a font are edited in one picture, a square grid of tiles on a checkered ground.  Each
glyph lies a few pixels inside its tile.  Reading the grid cuts the tiles out and takes away the
ground, which is the colour of the last pixel of the tile.
-/

namespace AdventureKit

/-- The measures and colours of a grid. -/
structure Grid where
  tileWidth : Nat := 56
  tileHeight : Nat := 56
  /-- The number of tiles in a row, and of rows. -/
  size : Nat := 16
  /-- Where a glyph starts in its tile. -/
  left : Int := 8
  top : Int := 8
  /-- The colour of tiles beyond the last one. -/
  blank : Int := 0
  /-- The colours of the ground in turn. -/
  shades : Bytes := [48, 110]
  deriving DecidableEq, Repr

/-- Where a glyph lies in its tile, counted from where glyphs start. -/
structure Frame where
  x1 : Int
  y1 : Int
  x2 : Int
  y2 : Int
  deriving DecidableEq, Repr

namespace Grid

/-- The colour of the ground of a tile. -/
def shade (g : Grid) (tile : Nat) : UInt8 :=
  (g.shades[(tile + tile / g.size) % g.shades.length]?).getD 0

/-- The ground of the first `count` tiles.  A grid without rows is one pixel wide. -/
def ground (g : Grid) (count : Int) : Except Fault Picture := do
  if count > (g.size * g.size : Nat) then throw (.disagreement .gridSize)
  let width := g.tileWidth * g.size
  let height := g.tileHeight * g.size
  if width * height ≠ 0 ∧ ¬ (0 ≤ g.blank ∧ g.blank < 256) then throw .tooWide
  if 0 < count ∧ g.shades = [] then throw .noTurn
  return Picture.tabulate (if height = 0 then 1 else width) height fun x y =>
    let tile := y / g.tileHeight * g.size + x / g.tileWidth
    if tile < count then g.shade tile else UInt8.ofNat g.blank.toNat

/-- Puts a glyph in its tile.  Tiles with negative numbers lie above the first row. -/
def place (g : Grid) (p : Picture) (tile : Int) (glyph : Picture) : Picture :=
  p.paste (tile.fmod g.size * g.tileWidth + g.left) (tile.fdiv g.size * g.tileHeight + g.top) glyph

/-- The grid of numbered glyphs on the ground of `count` tiles. -/
def draw (g : Grid) (count : Int) (glyphs : List (Int × Picture)) : Except Fault Picture := do
  glyphs.foldlM (fun p (tile, glyph) => do
    if count ≤ tile then throw (.disagreement .gridSize)
    if g.size = 0 then throw .noTurn
    return g.place p tile glyph) (← g.ground count)

/-- The tiles of a picture, row by row. -/
def tiles (g : Grid) (p : Picture) : List Picture :=
  (List.range g.size).flatMap fun row => (List.range g.size).map fun column =>
    p.crop (column * g.tileWidth) (row * g.tileHeight) g.tileWidth g.tileHeight

/-- The length of the beginning that is all ground. -/
def groundLength {α : Type} (isGround : α → Bool) (xs : List α) : Nat :=
  (xs.takeWhile isGround).length

/-- The glyph of a tile and its frame.  A tile that is all ground has none, and neither has one whose
glyph reaches all four sides. -/
def glyph? (g : Grid) (tile : Picture) : Except Fault (Option (Frame × Picture)) := do
  match (tile.rows.getLast?).bind List.getLast? with
  | none => throw (.ended .byte)
  | some bg =>
    let isGround (v : UInt8) : Bool := v == bg
    if tile.rows.all (·.all isGround) then return none
    let least (ns : List Nat) : Nat := ns.min?.getD 0
    let x1 := least (tile.rows.map (groundLength isGround))
    let x2 := tile.width - least (tile.rows.map fun row => groundLength isGround row.reverse)
    let y1 := groundLength (fun row : Bytes => row.all isGround) tile.rows
    let y2 := tile.height - groundLength (fun row : Bytes => row.all isGround) tile.rows.reverse
    if x1 = 0 ∧ y1 = 0 ∧ x2 = tile.width ∧ y2 = tile.height then return none
    return some (⟨x1 - g.left, y1 - g.top, x2 - g.left, y2 - g.top⟩,
      tile.crop x1 y1 (x2 - x1) (y2 - y1))

/-- The glyphs of a grid, tile by tile. -/
def glyphs (g : Grid) (p : Picture) : Except Fault (List (Option (Frame × Picture))) :=
  (g.tiles p).mapM g.glyph?

end Grid

end AdventureKit
