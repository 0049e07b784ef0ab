import AdventureKit.Game.Overlay
import AdventureKit.Game.Patch

/-!
# Extracting and rebuilding archives

The entries of an archive are extracted to a folder of its name.  Rebuilding takes the files of such a
folder as patches.
-/

namespace AdventureKit.Game

/-- The folder of extracted archives. -/
def extractFolder : String := "extracted"

/-- Extracts the entries of an archive.  An entry without a name has to be empty. -/
def extractEntries (archive : Archive) (file folder : String) : List String → Work Unit
  | [] => return ()
  | name :: names => do
    let content ← Work.ofExcept (archive.read name)
    if name == "" then
      unless content.isEmpty do
        throw (.report ("empty file " ++ name ++ " in " ++ file ++ ": " ++ Quoted.bytes content))
    else Work.writeData (Path.under folder name) content
    extractEntries archive file folder names

/-- Extracts the archives that match patterns. -/
def extractArchives (game : Game) (patterns : List String) : Work Unit :=
  game.each patterns (fun _ _ e => do
    let folder := Path.under extractFolder e.name
    Work.makeFolders folder
    let archive ← e.openArchive
    extractEntries archive e.name folder archive.names) ()

/-- The files of a folder as patches. -/
def overlayOf (folder : String) : Work Overlay := do
  let session ← get
  return Overlay.ofFolder session.disk session.here folder (← Work.namesIn folder)

/-- Rebuilds the archives that match patterns and have a folder. -/
def rebuildExtracted (game : Game) (patterns : List String) : Work Unit :=
  game.each patterns (fun _ _ e => do
    let folder := Path.under extractFolder e.name
    if ← Work.isFolder folder then
      let patches ← overlayOf folder
      let archive ← e.openArchive
      let (data, _) ← Work.ofExcept (Archive.rebuild archive (← get).now patches false)
      Work.writeData e.name data) ()

/-- The tool for archives. -/
def archives (base : String) (rebuild : Bool) (patterns : List String) : Work Unit := do
  Work.makeFolders extractFolder
  let game : Game := { base }
  if rebuild then game.rebuildExtracted patterns else game.extractArchives patterns

end AdventureKit.Game
