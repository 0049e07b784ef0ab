import AdventureKit.Game.Texts
import AdventureKit.Script.Listing

/-!
# Decompiling the scripts of a game

Each script gets a listing, with its texts as hints.  What the decompiler learnt from one script stays
for the next: a script without resources sees those of the script before it.
-/

namespace AdventureKit.Game

/-- The folder of listings. -/
def listingFolder : String := "scripts"

/-- Changes what the decompiler knows. -/
def inform (f : Script.Surroundings → Script.Surroundings) : Work Unit :=
  modify fun session => { session with surroundings := f session.surroundings }

/-- Tells the decompiler of the resources that go with a script. -/
def informResources (game : Game) (e : Entry) : Work Unit := do
  let beside ← Work.ofExcept (e.nameWithSuffix ".EXT")
  game.each [beside] (fun _ _ e => do
    let (items, cursor) := Resource.readTable (Cursor.ofBytes (← e.read))
    let items ← Work.ofExcept items
    inform fun s => { s with items := some items, itemData := cursor.rest }) ()

/-- Tells the decompiler of the texts that go with a script. -/
def informTexts (game : Game) (encodings : Encodings) (e : Entry) : Work Unit := do
  let rows ← game.scriptRows e
  let texts ← Work.ofExcept (rows.mapM fun row => row.mapM fun (language, cell) => do
    return (language, ← encodings.read language cell))
  inform fun s => { s with texts := texts }

/-- The versions that have an instruction set. -/
def knownVersions : List Nat :=
  [48, 49, 50, 51, 52]

/-- Tells the decompiler of the version of a script, which has to be a known one. -/
def informVersion (file : Bytes) : Work Unit := do
  let byteAt (i : Nat) : Nat := ((file[i]?).getD 0).toNat
  let version := byteAt 41
  match (← get).surroundings.version with
  | some before =>
    if before ≠ version then
      Work.say ("warning: script version mismatch " ++ toString before ++ " " ++ toString version)
  | none => pure ()
  inform fun s => { s with version := some version }
  Work.say ("script version " ++ toString version ++ " " ++ toString (byteAt 61))
  if !knownVersions.contains version then throw (.unknownKey (toString version))

/-- Writes the listing of a script as far as it can be decompiled. -/
def writeListing (e : Entry) (file : ScriptFile) (exported : Bool) : Work Unit := do
  let path := Path.under listingFolder (e.name ++ ".txt")
  Work.writeData path []
  let session ← get
  let (result, machine) := Script.listing exported file.code.length
    (.start file.code session.surroundings session.progress)
  modify fun session => { session with progress := machine.progress }
  Work.writeData path (Utf8.ofString machine.listing)
  Work.ofExcept result

/-- Decompiles a script. -/
def decompile (game : Game) (encodings : Encodings) (language : Option String) (exported : Bool)
    (e : Entry) : Work Unit := do
  Work.say ("Decompiling " ++ e.name ++ "...")
  let data ← e.read
  let file ← Work.ofExcept (ScriptFile.ofBytes data)
  game.informResources e
  game.informTexts encodings e
  informVersion data
  inform fun s => { s with language := language }
  modify fun session =>
    { session with progress.calls := Script.exportedPlaces file.functions }
  writeListing e file exported

/-- The tool for scripts. -/
def scripts (base : String) (rebuild : Bool) (patterns : List String) (language : Option String)
    (keys exported : Bool) : Work Unit := do
  let game : Game := { base }
  if rebuild then throw (.report "Recompiler was not implemented yet")
  let shared ← game.contents "COMMUN.EX*"
  inform fun s => { s with shared := shared.getLast?.map Prod.snd }
  Work.makeFolders listingFolder
  game.each patterns (fun _ _ e => game.decompile (Encodings.standard keys) language exported e) ()

end AdventureKit.Game
