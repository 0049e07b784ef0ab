import AdventureKit.CommandLine.Tool
import AdventureKit.Picture.Png
import Std.Time.Zoned

/-!
# The command line

The folder of the game and the working folder are loaded, the kit works on them, and what it changed
is written back.
-/

namespace AdventureKit

/-- What a file of the given name holds; only a picture that can be read is taken for one. -/
def contentOf (name : String) (bytes : Bytes) : Content :=
  match Path.suffix (.ofString name), Png.decode bytes with
  | ".png", .ok (p, palette) => .picture p palette
  | _, _ => .data bytes

/-- The bytes of a file. -/
def bytesOf : Content → Bytes
  | .data bytes => bytes
  | .picture p palette => Png.encode p palette

/-- Loads a folder with the folders in it, `depth` of them deep. -/
def load (disk : Disk) (folder : String) : (depth : Nat) → IO Disk
  | 0 => return disk
  | depth + 1 => do
    let here ← IO.FS.realPath folder
    unless ← here.isDir do return disk
    let place := (Path.ofString here.toString).parts
    let mut disk := (disk.makeFolders [] here.toString).toOption.getD disk
    for entry in ← here.readDir do
      let path := here.toString ++ "/" ++ entry.fileName
      if ← entry.path.isDir then disk ← load disk path depth
      else
        let content := contentOf entry.fileName (← IO.FS.readBinFile path).toList
        disk := { disk with files := disk.files.put (place ++ [entry.fileName]) content }
    return disk

/-- Writes the folders and files in which a disk differs from what it was. -/
def store (before after : Disk) : IO Unit := do
  let path (place : Place) : String := "/" ++ String.intercalate "/" place
  for place in after.folders do
    unless before.folders.contains place do IO.FS.createDirAll (path place)
  for (place, content) in after.files do
    unless before.files.get? place == some content do
      IO.FS.writeBinFile (path place) ⟨(bytesOf content).toArray⟩

/-- The time on the clock. -/
def readClock : IO Archive.Timestamp := do
  let now ← Std.Time.PlainDateTime.now
  return ⟨now.day.val.toNat, now.month.val.toNat, now.year.toNat, now.hour.val.toNat,
    now.minute.val.toNat, now.second.val.toNat⟩

/-- Makes the plan of the kit; more is read as long as a question is open. -/
partial def readPlan (arguments : List String) (typed : String) : IO (Except Fault Plan) := do
  match Tool.kit.planFrom arguments (Key.ofChars typed.toList) with
  | (.error .noInput, talk) =>
    (← IO.getStdout).putStr talk.screen
    (← IO.getStdout).flush
    let more ← (← IO.getStdin).getLine
    if more.isEmpty then return .error .noInput else readPlan arguments (typed ++ more)
  | (result, _) => return result

/-- Shows a fault; gives the exit code. -/
def complain (fault : Fault) : IO UInt32 := do
  match fault with
  | .usage code =>
    let stream ← if code = 0 then IO.getStdout else IO.getStderr
    stream.putStrLn (String.intercalate "\n"
      ("options:" :: (Tool.kitRules true).options.map fun rule =>
        "  " ++ String.intercalate ", " rule.names))
    return UInt32.ofNat code
  | _ =>
    IO.eprintln (fault.message.getD (reprStr fault))
    return 1

/-- Runs a plan on the folders that it needs. -/
def execute (plan : Plan) : IO UInt32 := do
  let here ← IO.currentDir
  let depth := 4
  let before ← load Disk.empty here.toString depth
  let before ← try load before plan.base depth catch _ => pure before
  let (result, session) :=
    plan.run (.start before (Path.ofString here.toString).parts (← readClock))
  IO.print session.log
  store before session.disk
  match result with
  | .ok _ => return 0
  | .error fault => complain fault

end AdventureKit

open AdventureKit in
/-- Runs the kit. -/
def main (arguments : List String) : IO UInt32 := do
  match ← readPlan arguments "" with
  | .ok plan => execute plan
  | .error fault => complain fault
