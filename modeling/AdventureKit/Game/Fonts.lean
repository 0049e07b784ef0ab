import AdventureKit.Game.Patch
import AdventureKit.Picture.Font
import AdventureKit.Picture.Palette

/-!
# Editing fonts

The fonts of a game are written as pictures of their grids, and edited grids are taken back.
-/

namespace AdventureKit.Game

/-- The folder of font pictures. -/
def fontFolder : String := "fonts"

/-- The names of fonts. -/
def fontPatterns : List String :=
  ["*.LET", "*.FNT"]

/-- The picture of a font. -/
def fontPicture (e : Entry) : String :=
  Path.under fontFolder (e.name ++ ".png")

/-- Writes the picture of a font. -/
def writeFont (e : Entry) : Work Unit := do
  let grid ← Work.ofExcept (Font.decode (← e.read))
  Work.write (fontPicture e) (.picture grid Palette.glyphs)

/-- Writes the pictures of all fonts; gives those that could not be written, with the cause. -/
def extractFonts (game : Game) : Work (List (String × Fault)) :=
  game.each fontPatterns (fun failed _ e => do
    try
      writeFont e
      return failed
    catch fault => return failed ++ [(e.name, fault)]) []

/-- Takes the picture of a font back, if there is one. -/
def injectFont (patching : Patching) (e : Entry) : Work Patching := do
  if ← Work.has (fontPicture e) then
    let font ← Work.ofExcept (Font.encode (← Work.readPicture (fontPicture e)))
    Work.ofExcept (patching.add e.name font)
  else return patching

/-- Takes the pictures of fonts back. -/
def injectFonts (game : Game) : Work Unit := do
  let patching ← game.each fontPatterns (fun patching _ e => injectFont patching e) {}
  game.rebuild patching outputFolder

/-- The tool for fonts; gives the fonts that could not be written. -/
def fonts (base : String) (rebuild : Bool) : Work (List (String × Fault)) := do
  Work.makeFolders fontFolder
  let game : Game := { base }
  if rebuild then
    game.injectFonts
    return []
  else game.extractFonts

end AdventureKit.Game
