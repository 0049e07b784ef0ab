import AdventureKit.Archive.Basic
import AdventureKit.Game.Session
import AdventureKit.Name.Pattern

/-!
# Searching a game

The files of a game lie loose in its folder, in folders of patches, and in archives.  A search goes
through the patch folders, the folder of the game, and then the archives; the first entry of a name
hides all others of that name.  Within each folder or archive the patterns are tried in order.

The search goes on only as far as its visitor wants, and looks at the disk as it then is.
-/

namespace AdventureKit

/-- A file of a game: a loose one at a path, or one in an archive at a path. -/
inductive Entry where
  | loose (folder name : String)
  | stored (archive : Archive) (file name : String)
  deriving DecidableEq, Repr

namespace Entry

/-- The name of an entry. -/
def name : Entry → String
  | .loose _ name => name
  | .stored _ _ name => name

/-- The file of the archive that an entry is in. -/
def archive? : Entry → Option String
  | .loose _ _ => none
  | .stored _ file _ => some file

/-- The name without its suffix. -/
def stem (e : Entry) : String :=
  (Path.ofString e.name).stem

/-- The suffix of the name without its dot. -/
def extension (e : Entry) : String :=
  String.ofList ((Path.ofString e.name).suffix.toList.drop 1)

/-- The name with another suffix. -/
def nameWithSuffix (e : Entry) (suffix : String) : Except Fault String :=
  (Path.ofString e.name).nameWithSuffix suffix

/-- The content of an entry. -/
def read : Entry → Work Bytes
  | .loose folder name => Work.readData (Path.under folder name)
  | .stored archive _ name => Work.ofExcept (archive.read name)

/-- The archive that an entry is.  An archive cannot lie in another one. -/
def openArchive (e : Entry) : Work Archive := do
  match e with
  | .loose _ _ => Work.ofExcept (Archive.ofBytes (← e.read))
  | .stored _ _ _ => throw .wrongKind

end Entry

/-- Whether a walk goes on. -/
inductive Walk (σ : Type) where
  | on (s : σ)
  | done (s : σ)

namespace Walk

/-- What the walk has gathered. -/
def result {σ : Type} : Walk σ → σ
  | .on s => s
  | .done s => s

/-- Changes what the walk has gathered. -/
def map {σ τ : Type} (f : σ → τ) : Walk σ → Walk τ
  | .on s => .on (f s)
  | .done s => .done (f s)

/-- Walks along a list until it is done. -/
def along {σ α : Type} (step : σ → α → Work (Walk σ)) : List α → σ → Work (Walk σ)
  | [], s => return .on s
  | a :: as, s => do
    match ← step s a with
    | .on s => along step as s
    | .done s => return .done s

end Walk

/-- A game: its folder and the folders of patches in it, which are not searched at all, and neither are
loose files, if they are not given. -/
structure Game where
  base : String
  patchFolders : Option (List String) := some []
  deriving DecidableEq, Repr

namespace Game

/-- The names of archives, in the order in which they are searched. -/
def archivePatterns : List String :=
  ["*.STK", "*.ITK", "*.LTK", "*.JTK"]

/-- The folders that are searched for loose files, in that order. -/
def folders (game : Game) : List String :=
  match game.patchFolders with
  | some folders => folders.map (Path.under game.base) ++ [game.base]
  | none => []

/-- The names in a folder that a pattern finds.  A pattern that looks for folders finds no names. -/
def glob (folder pattern : String) : Work (List String) := do
  let _ ← Work.ofExcept (Pattern.aim pattern)
  return (← Work.namesIn folder).filter (Pattern.finds pattern)

/-- The files in a folder that a pattern of archives finds.  A folder cannot be opened as an archive. -/
def globArchives (folder pattern : String) : Work (List String) := do
  let files ← glob folder pattern
  if (Pattern.aim pattern).toOption == some .folders then
    if ← Work.isFolder folder then throw .directory
  return files

variable {σ : Type}

/-- Visits an entry unless its name was seen. -/
def visitNew (visit : σ → String → Entry → Work (Walk σ)) (pattern : String)
    (s : List String × σ) (e : Entry) : Work (Walk (List String × σ)) := do
  if s.1.contains e.name then return .on s
  return (← visit s.2 pattern e).map ((e.name :: s.1), ·)

/-- Visits the loose files of a folder. -/
def searchFolder (patterns : List String) (visit : σ → String → Entry → Work (Walk σ))
    (s : List String × σ) (folder : String) : Work (Walk (List String × σ)) :=
  Walk.along (fun s pattern => do
    let names ← glob folder pattern
    Walk.along (fun s name => do
      if ← Work.isFolder (Path.under folder name) then return .on s
      visitNew visit pattern s (.loose folder name)) names s) patterns s

/-- Visits the entries of the archive at a path. -/
def searchArchive (base : String) (patterns : List String) (visit : σ → String → Entry → Work (Walk σ))
    (s : List String × σ) (file : String) : Work (Walk (List String × σ)) := do
  let archive ← Entry.openArchive (.loose base file)
  Walk.along (fun s pattern =>
    Walk.along (fun s name => visitNew visit pattern s (.stored archive file name))
      (Archive.glob archive.names pattern) s) patterns s

/-- Visits the entries of all archives, whose files match the patterns `archives`. -/
def searchArchives (base : String) (archives patterns : List String)
    (visit : σ → String → Entry → Work (Walk σ)) (s : List String × σ) :
    Work (Walk (List String × σ)) :=
  Walk.along (fun s archivePattern => do
    let files ← globArchives base archivePattern
    Walk.along (searchArchive base patterns visit) files s) archives s

/-- Visits the entries of a game that match patterns, each name once, and gathers what the visitor
makes of them.  The files of archives match the patterns `archives`. -/
def searchWith (game : Game) (archives patterns : List String)
    (visit : σ → String → Entry → Work (Walk σ)) (s : σ) : Work σ := do
  match ← Walk.along (searchFolder patterns visit) game.folders ([], s) with
  | .done s => return s.2
  | .on s => return (← searchArchives game.base archives patterns visit s).result.2

/-- Visits the entries of a game that match patterns; archives have their usual names. -/
def search (game : Game) (patterns : List String) (visit : σ → String → Entry → Work (Walk σ)) (s : σ) :
    Work σ :=
  game.searchWith archivePatterns patterns visit s

/-- All entries that match patterns, each with the first pattern that matches it. -/
def entriesWith (game : Game) (archives patterns : List String) : Work (List (String × Entry)) :=
  game.searchWith archives patterns (fun found pattern e => return .on (found ++ [(pattern, e)])) []

/-- All entries that match patterns; archives have their usual names. -/
def entries (game : Game) (patterns : List String) : Work (List (String × Entry)) :=
  game.entriesWith archivePatterns patterns

/-- The first entry that matches a pattern. -/
def first? (game : Game) (pattern : String) : Work (Option Entry) :=
  game.search [pattern] (fun _ _ e => return .done (some e)) none

/-- Does something with every entry that matches patterns. -/
def each (game : Game) (patterns : List String) (visit : σ → String → Entry → Work σ) (s : σ) : Work σ :=
  game.search patterns (fun s pattern e => return .on (← visit s pattern e)) s

/-- The contents of the entries that match a pattern, by name. -/
def contents (game : Game) (pattern : String) : Work (Table String Bytes) :=
  game.each [pattern] (fun found _ e => return found.put e.name (← e.read)) []

end Game

end AdventureKit
