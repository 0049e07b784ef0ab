import AdventureKit.Bytes

/-!
# Palettes

A palette has 256 colours of three bytes each.
-/

namespace AdventureKit.Palette

/-- The palette of glyph grids, in which neighbouring numbers look different. -/
def glyphs : Bytes :=
  (List.range 768).map fun i => UInt8.ofNat ((53 + i) * (53 + i) * 13 / 5 % 256)

/-- A palette with six bits for each part of a colour, brought to eight bits. -/
def widen (sixBits : Bytes) : Bytes :=
  sixBits.map fun (v : UInt8) => v <<< (2 : UInt8)

/-- The sixteen colours of sprites with six bits for each part. -/
def basic : Bytes := [
  0x00, 0x00, 0x00, 0x00, 0x00, 0x2A, 0x00, 0x2A, 0x00, 0x00, 0x2A, 0x2A,
  0x2A, 0x00, 0x00, 0x2A, 0x00, 0x2A, 0x2A, 0x15, 0x00, 0x2A, 0x2A, 0x2A,
  0x15, 0x15, 0x15, 0x15, 0x15, 0x3F, 0x15, 0x3F, 0x15, 0x15, 0x3F, 0x3F,
  0x3F, 0x15, 0x15, 0x3F, 0x15, 0x3F, 0x3F, 0x3F, 0x15, 0x3F, 0x3F, 0x3F]

/-- The palette of sprites that come without one. -/
def sprites : Bytes :=
  widen (List.replicate 16 basic).flatten

end AdventureKit.Palette
