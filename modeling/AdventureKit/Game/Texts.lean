import AdventureKit.Dialogue.Catalogue
import AdventureKit.Dialogue.Sheet
import AdventureKit.Game.Patch
import AdventureKit.Script.File

/-!
# Editing texts

The texts of all scripts go to one sheet, those of all catalogues to another.  The texts of a script
are its own ones and those of the language files that go with it.

Edited rows are taken back file by file.  A language that a script does not have yet is built on the
texts of another column of the sheet and becomes a new file.
-/

namespace AdventureKit.Game

/-- The folder of sheets. -/
def textFolder : String := "texts"

/-- The column of the texts of the script itself. -/
def ownTexts : String := "INT"

/-- The columns of a sheet. -/
def sheetLanguages : List String :=
  ownTexts :: Catalogue.languages

/-- The names of scripts. -/
def scriptPattern : String := "*.TOT"

/-- The names of catalogues. -/
def cataloguePattern : String := "*.CAT"

/-- The sheet of scripts. -/
def scriptSheet : String := textFolder ++ "/tot.tsv"

/-- The sheet of catalogues. -/
def catalogueSheet : String := textFolder ++ "/cat.tsv"

/-- The parts of a script. -/
def scriptFile (e : Entry) : Work ScriptFile := do
  let file ← e.read
  Work.ofExcept (match e with
    | .loose _ _ => ScriptFile.ofLooseFile file
    | .stored _ _ _ => ScriptFile.ofBytes file)

/-- The texts that go with a script, by language. -/
def scriptTexts (game : Game) (e : Entry) : Work (Table String (List Line)) := do
  let file ← scriptFile e
  let own : Table String Bytes := match file.texts with
    | some (b :: bs) => [(ownTexts, b :: bs)]
    | _ => []
  let patterns := Catalogue.languages.map fun language => e.stem ++ "." ++ language
  let sources ← game.each patterns
    (fun (found : Table String Bytes) _ e => return found.put e.extension (← e.read)) own
  return sources.map fun (language, block) => (language, TextBlock.read block)

/-- The rows of a script. -/
def scriptRows (game : Game) (e : Entry) : Work (List Row) := do
  Work.ofLogged (Row.extract true (← game.scriptTexts e))

/-- The rows of a catalogue. -/
def catalogueRows (e : Entry) : Work (List Row) := do
  let file ← e.read
  let rows ← Work.ofExcept (Catalogue.read file)
  return rows

/-- Writes the rows of an entry to its sheet, which is started anew if it is not in `started`. -/
def writeTexts (game : Game) (encodings : Encodings) (started : List String) (pattern : String)
    (e : Entry) : Work (List String) := do
  let sheet := if pattern == scriptPattern then scriptSheet else catalogueSheet
  unless started.contains sheet do
    Work.writeData sheet (Sheet.heading sheetLanguages)
  let rows ← if pattern == scriptPattern then game.scriptRows e else catalogueRows e
  let (lines, result) := Sheet.writeRows encodings sheetLanguages e.name rows
  Work.appendData sheet lines
  Work.ofExcept result
  return sheet :: started

/-- Writes the sheets of a game. -/
def extractTexts (game : Game) (encodings : Encodings) : Work Unit := do
  let _ ← game.each [scriptPattern, cataloguePattern] (game.writeTexts encodings) []

/-- The languages that have a cell in some row. -/
def filledLanguages (rows : List Row) : Except Fault (List String) :=
  (rows.headD []).keys.filterM fun language =>
    rows.anyM fun row => do return (← Row.cell row language).isSome

/-- The language whose texts a language is built on: itself if it is there, or else the first other
one. -/
def basis (there filled : List String) (language : String) : Except Fault String :=
  if there.contains language then .ok language
  else
    match filled.find? (· != language) with
    | some other => .ok other
    | none => .error .noCandidate

/-- The lines of a language of the game. -/
def linesOf (texts : Table String (List Line)) (language : String) : Except Fault (List Line) :=
  match texts.get? language with
  | some lines => .ok lines
  | none => .error (.unknownKey (Quoted.string language))

/-- Saves lines as a text block, which has to read back as they are then. -/
def savedLines (lines : List Line) : Except Fault Bytes := do
  let (block, lines) ← TextBlock.save lines
  if TextBlock.read block = lines then return block else throw (.disagreement .savedTexts)

/-- A script file with another text block in place of its own one.  The resources behind it move. -/
def replaceTexts (file old new : Bytes) : Except Fault Bytes := do
  if !Sequence.occursIn old file then throw (.disagreement .textPlace)
  let file := Sequence.replaceAll old new file
  let place := ScriptFile.placeIn ScriptFile.resourcesField file
  if place = 0 then return file
  let place ← Bytes.putLE 4 ((place : Int) + new.length - old.length)
  return file.take ScriptFile.resourcesField ++ place ++ file.drop (ScriptFile.resourcesField + 4)

/-- Takes the new lines of a language back. -/
def injectLanguage (e : Entry) (name : Path) (texts : Table String (List Line)) (patching : Patching)
    (language base : String) (lines : List Line) : Work Patching := do
  if language == ownTexts then
    if !texts.has ownTexts then return patching
    let new ← Work.ofExcept (savedLines lines)
    let file ← e.read
    let (old, _) ← Work.ofExcept (TextBlock.save (← Work.ofExcept (linesOf texts base)))
    let file ← Work.ofExcept (replaceTexts file old new)
    Work.ofExcept (patching.add name.name file)
  else
    let new ← Work.ofExcept (savedLines lines)
    Work.ofExcept (patching.addAs (name.stem ++ "." ++ base) (name.stem ++ "." ++ language) new)

/-- Takes the rows of a script back. -/
def injectScript (game : Game) (patching : Patching) (file : String) (rows : List Row) :
    Work Patching := do
  let name := Path.ofString file
  match ← game.first? name.name with
  | none => throw (.report ("entry " ++ name.name ++ " was not found"))
  | some e =>
    let texts ← game.scriptTexts e
    let filled ← Work.ofExcept (filledLanguages rows)
    let bases ← Work.ofExcept (filled.mapM fun language => do
      return (language, ← basis texts.keys filled language))
    let new ← Work.ofExcept (bases.mapM fun (language, base) => do
      return (language, base, ← Row.replaceLines language rows (← linesOf texts base)))
    new.foldlM (fun patching (language, base, lines) =>
      injectLanguage e name texts patching language base lines) patching

/-- Takes the rows of a catalogue back. -/
def injectCatalogue (game : Game) (patching : Patching) (file : String) (rows : List Row) :
    Work Patching :=
  game.each [(Path.components file).getLastD ""] (fun patching _ e => do
    let new ← Work.ofExcept (Catalogue.write (← e.read) rows)
    Work.ofExcept (patching.add e.name new)) patching

/-- Takes the rows of a sheet back, one file after the other. -/
def injectGroups (inject : Patching → String → List Row → Work Patching) (patching : Patching)
    (lines : List (Except Fault (String × Row))) : Work Patching :=
  match lines with
  | [] => return patching
  | .error e :: _ => throw e
  | .ok (file, row) :: rest =>
    match h : Sheet.group file [row] rest with
    | .error e => throw e
    | .ok (rows, rest') => do
      have := Sheet.length_group_le h
      let patching ← inject patching file rows
      injectGroups inject patching rest'
termination_by lines.length
decreasing_by
  simp only [List.length_cons]
  omega

/-- Takes a sheet back, if it is there. -/
def injectSheet (encodings : Encodings) (inject : Patching → String → List Row → Work Patching)
    (patching : Patching) (sheet : String) : Work Patching := do
  if ← Work.has sheet then
    let text ← Work.ofExcept (Utf8.decode (← Work.readData sheet))
    injectGroups inject patching (Sheet.rows encodings text)
  else return patching

/-- Takes the sheets of a game back.  No order of the two is laid down.  Here the scripts go first, so that where both
sheets patch one name, the patch of the catalogues stays. -/
def injectTexts (game : Game) (encodings : Encodings) (allowed : List String) : Work Unit := do
  let patching : Patching := { allowed }
  let patching ← injectSheet encodings game.injectScript patching scriptSheet
  let patching ← injectSheet encodings game.injectCatalogue patching catalogueSheet
  game.rebuild patching outputFolder

/-- The tool for texts. -/
def texts (base : String) (rebuild : Bool) (allowed : List String) (keys : Bool) : Work Unit := do
  Work.makeFolders textFolder
  let game : Game := { base }
  let encodings := Encodings.standard keys
  if rebuild then game.injectTexts encodings allowed else game.extractTexts encodings

end AdventureKit.Game
