import AdventureKit.Picture.Grid

/-!
# Fonts

A font file gives the width and height of its glyphs, the first and the last character, and then the
glyphs: for each row as many bytes as its bits need, highest bit first.  It is edited as a grid.
-/

namespace AdventureKit.Font

/-- The bits of a byte, highest first. -/
def bits (b : UInt8) : Bytes :=
  (List.range 8).map fun i => UInt8.ofNat ((b.toNat >>> (7 - i)) % 2)

/-- The bytes of the bits that tell which pixels are one, highest bit first; the last byte is filled up
with zeros. -/
def packBits : Bytes → Bytes
  | [] => []
  | v :: px =>
    let group := (v :: px.take 7).map fun v => if v = 1 then 1 else 0
    let byte := (Sequence.fill? 8 0 group).getD group |>.foldl (fun n bit => 2 * n + bit) 0
    UInt8.ofNat byte :: packBits (px.drop 7)
termination_by px => px.length
decreasing_by
  simp only [List.length_drop, List.length_cons]
  omega

/-- The bytes of a glyph: the bits of all its pixels one after the other. -/
def encodeGlyph (glyph : Picture) : Bytes :=
  packBits glyph.pixels

/-- How many bytes a row of a glyph takes. -/
def rowSize (width : Nat) : Nat :=
  (width + 7) / 8

/-- The glyph of `rowSize width * height` bytes. -/
def decodeGlyph (width height : Nat) (data : Bytes) : Picture :=
  ⟨width, (Picture.rowsOf (rowSize width) height data).map fun row => (row.flatMap bits).take width⟩

/-- The first `n` glyphs, which all have to be there. -/
def glyphsFrom (width height : Nat) : (n : Nat) → Bytes → Except Fault (List Picture)
  | 0, _ => .ok []
  | n + 1, data => do
    let size := rowSize width * height
    if data.length < size then throw (.ended .group)
    return decodeGlyph width height (data.take size) :: (← glyphsFrom width height n (data.drop size))

/-- The grid of a font. -/
def decode (font : Bytes) : Except Fault Picture :=
  match font with
  | flags :: height :: first :: last :: data => do
    let count := last.toNat + 1 - first.toNat
    let glyphs ← glyphsFrom (flags.toNat % 128) height.toNat count data
    let numbers : List Int := (List.range count).map fun i => ((first.toNat + i : Nat) : Int)
    ({} : Grid).draw (last.toNat + 1) (numbers.zip glyphs)
  | _ => .error (.ended .group)

/-- The numbers and glyphs of the tiles that have one. -/
def numbered (tiles : List (Option (Frame × Picture))) : List (Nat × Picture) :=
  (tiles.mapIdx fun i tile => tile.map fun found => (i, found.2)).filterMap id

/-- The font of a grid.  All glyphs are taken to be as large as the first one; a character without a
glyph is blank. -/
def encode (grid : Picture) : Except Fault Bytes := do
  let glyphs := numbered (← ({} : Grid).glyphs grid)
  match glyphs.head?, glyphs.getLast? with
  | some (first, glyph), some (last, _) =>
    let width := glyph.width
    let height := glyph.height
    let header ← Bytes.ofInts [width, height, first, last]
    let blank : Bytes := List.replicate (rowSize width * height) 0
    let body := (List.range (last + 1 - first)).flatMap fun i =>
      ((glyphs.lookup (first + i)).map encodeGlyph).getD blank
    return header ++ body
  | _, _ => throw (.ended .byte)

end AdventureKit.Font
