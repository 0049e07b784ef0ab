import AdventureKit.Archive.Timestamp
import AdventureKit.Game.Disk
import AdventureKit.Logged
import AdventureKit.Script.Machine

/-!
# Sessions

The tools work on a disk from a folder on it.  What a tool did before it failed stays done.
-/

namespace AdventureKit

/-- What the tools work with. -/
structure Session where
  disk : Disk
  /-- The folder that paths start from. -/
  here : Place
  /-- The time. -/
  now : Archive.Timestamp
  /-- The remarks so far. -/
  log : String
  /-- What the decompiler knows, and where it was left. -/
  surroundings : Script.Surroundings
  progress : Script.Progress
  deriving DecidableEq, Repr

/-- A session before anything is done. -/
def Session.start (disk : Disk) (here : Place) (now : Archive.Timestamp) : Session where
  disk := disk
  here := here
  now := now
  log := ""
  surroundings := ⟨none, [], none, none, [], none⟩
  progress := ⟨0, 0, none, none, []⟩

/-- The place that a path leads to. -/
def Session.follow (session : Session) (path : String) : Except Fault Place :=
  session.disk.follow session.here path

/-- A step of a tool. -/
abbrev Work := ExceptT Fault (StateM Session)

namespace Work

/-- A result that has no effect. -/
def ofExcept {α : Type} : Except Fault α → Work α
  | .ok a => pure a
  | .error e => throw e

/-- A result with remarks. -/
def ofLogged {α : Type} (step : Logged α) : Work α := do
  let session ← get
  let (result, log) := step session.log
  set { session with log := log }
  ofExcept result

/-- Remarks on something. -/
def say (s : String) : Work Unit :=
  modify fun session => { session with log := session.log ++ s ++ "\n" }

/-- The place that a path leads to. -/
def locate (path : String) : Work Place := do
  let session ← get
  ofExcept (session.follow path)

/-- Whether there is something at a path; a name that is too long cannot be looked for. -/
def has (path : String) : Work Bool := do
  let session ← get
  match session.follow path with
  | .ok place => return session.disk.has place
  | .error .nameTooLong => throw .nameTooLong
  | .error _ => return false

/-- Whether a path leads to a folder. -/
def isFolder (path : String) : Work Bool := do
  let session ← get
  match session.follow path with
  | .ok place => return session.disk.isFolder place
  | .error .nameTooLong => throw .nameTooLong
  | .error _ => return false

/-- The names in a folder, none if it is not there. -/
def namesIn (path : String) : Work (List String) := do
  let session ← get
  match session.follow path with
  | .ok place => return if session.disk.isFolder place then session.disk.names place else []
  | .error .nameTooLong => throw .nameTooLong
  | .error _ => return []

/-- The bytes of a file. -/
def readData (path : String) : Work Bytes := do
  ofExcept (← ofExcept ((← get).disk.read (← locate path))).bytes

/-- The picture of a file. -/
def readPicture (path : String) : Work Picture := do
  match ← ofExcept ((← get).disk.read (← locate path)) with
  | .picture p _ => return p
  | .data _ => throw .notPicture

/-- Writes a file. -/
def write (path : String) (content : Content) : Work Unit := do
  let place ← locate path
  let disk ← ofExcept ((← get).disk.write place content)
  modify fun session => { session with disk := disk }

/-- Writes bytes to a file. -/
def writeData (path : String) (bytes : Bytes) : Work Unit :=
  write path (.data bytes)

/-- Writes bytes at the end of a file. -/
def appendData (path : String) (bytes : Bytes) : Work Unit := do
  writeData path ((← readData path) ++ bytes)

/-- Makes the folders of a path. -/
def makeFolders (path : String) : Work Unit := do
  let session ← get
  let disk ← ofExcept (session.disk.makeFolders session.here path)
  set { session with disk := disk }

end Work

end AdventureKit
