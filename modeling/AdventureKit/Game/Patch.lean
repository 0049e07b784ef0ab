import AdventureKit.Archive.Rebuild
import AdventureKit.Game.Search

/-!
# Patching a game

Patches are gathered under the name of an entry and the name that it is to have.  Rebuilding writes a
patch of a loose file as a file, and gathers the patches of an archive for a new archive file.
-/

namespace AdventureKit

/-- The patches so far, and which names may be patched: those that match an allowed pattern, if there
are any, and no restricted one. -/
structure Patching where
  allowed : List String := []
  restricted : List String := []
  items : Table (String × String) Bytes := []
  deriving DecidableEq, Repr

namespace Patching

/-- Whether a name matches one of the patterns. -/
def matchesAny (name : String) (patterns : List String) : Except Fault Bool :=
  patterns.anyM (Path.ofString name).matchesPattern

/-- Gathers a patch of an entry; an entry whose new name is empty keeps its own. -/
def addAs (p : Patching) (name newName : String) (data : Bytes) : Except Fault Patching := do
  let newName := if newName == "" then name else newName
  if !p.allowed.isEmpty then
    if !(← matchesAny newName p.allowed) then return p
  if ← matchesAny newName p.restricted then return p
  return { p with items := p.items.put (name, newName) data }

/-- Gathers a patch of an entry that keeps its name. -/
def add (p : Patching) (name : String) (data : Bytes) : Except Fault Patching :=
  p.addAs name "" data

end Patching

namespace Game

/-- The folder that patched files are written to. -/
def outputFolder : String := "."

/-- Writes the patches of loose files and gathers those of archives by the file of the archive. -/
def rebuildLoose (game : Game) (target : String) :
    List ((String × String) × Bytes) → Table String (Table String Bytes) →
      Work (Table String (Table String Bytes))
  | [], archives => return archives
  | ((name, newName), data) :: items, archives => do
    match ← game.first? name with
    | none => throw (.report ("entry " ++ name ++ " was not found in game"))
    | some e =>
      match e.archive? with
      | none =>
        Work.writeData (Path.under target newName) data
        rebuildLoose game target items archives
      | some file =>
        let patches := (archives.get? file).getD []
        rebuildLoose game target items (archives.put file (patches.put newName data))

/-- Rebuilds the archives that have patches. -/
def rebuildArchives (game : Game) (target : String) :
    List (String × Table String Bytes) → Work Unit
  | [] => return ()
  | (file, patches) :: rest => do
    match ← game.first? file with
    | none => throw (.report ("archive " ++ file ++ " was not found"))
    | some e =>
      let archive ← e.openArchive
      let (data, _) ← Work.ofExcept (Archive.rebuild archive (← get).now patches false)
      Work.writeData (Path.under target e.name) data
      rebuildArchives game target rest

/-- Writes all patches to a folder. -/
def rebuild (game : Game) (p : Patching) (target : String) : Work Unit := do
  Work.makeFolders target
  let archives ← game.rebuildLoose target p.items []
  game.rebuildArchives target archives

end Game

end AdventureKit
