import AdventureKit.CommandLine.Arguments
import AdventureKit.CommandLine.Interview

/-!
# Tools

The kit does all tasks; each kind of resource also has a tool of its own.  A tool makes a plan of its
arguments.
-/

namespace AdventureKit

namespace CommandLine

/-- Whether an option is there. -/
def isGiven (given : Table String Given) (key : String) : Bool :=
  given.has key

/-- The text of a key. -/
def text? (given : Table String Given) (key : String) : Option String :=
  match given.get? key with
  | some (.text value) => some value
  | _ => none

/-- The texts of a key. -/
def texts? (given : Table String Given) (key : String) : Option (List String) :=
  match given.get? key with
  | some (.texts values) => some values
  | _ => none

/-- The option that shows the help. -/
def helpOption : OptionRule := ⟨["-h", "--help"], "help", .help⟩

/-- The option to put resources back. -/
def rebuildOption : OptionRule := ⟨["-r", "--rebuild"], "rebuild", .nothing⟩

/-- The option for files that may be changed. -/
def allowedOption : OptionRule := ⟨["-i", "--allowed"], "allowed", .oneEach⟩

/-- The option by which keys stand for letters. -/
def keysOption : OptionRule := ⟨["-k", "--keys"], "keys", .nothing⟩

/-- The option for the language whose texts are shown first. -/
def languageOption : OptionRule := ⟨["-l", "--lang"], "lang", .one⟩

/-- The option for exported functions alone. -/
def exportedOption : OptionRule := ⟨["-e", "--exported"], "exported", .nothing⟩

/-- The folder of the game, which a tool of one kind of resource needs. -/
def folderValue : ValueRule := ⟨"directory", .one, none⟩

end CommandLine

/-- The tools. -/
inductive Tool where
  /-- All tasks. -/
  | kit
  | archives
  | texts
  | fonts
  | graphics
  | scripts
  deriving DecidableEq, Repr

namespace Tool

open CommandLine

/-- The option that adds what is still tried out. -/
def experimentalName : String := "--experimental"

/-- What the kit takes. -/
def kitRules (experimental : Bool) : Rules where
  options :=
    [helpOption,
      ⟨[experimentalName], "experimental", .nothing⟩,
      ⟨["-t", "--texts"], "texts", .nothing⟩,
      allowedOption,
      keysOption,
      ⟨["-g", "--graphics"], "graphics", .nothing⟩,
      ⟨["-a", "--archive"], "archive", .nothing⟩,
      ⟨["-p", "--patterns"], "patterns", .all⟩,
      ⟨["-f", "--fonts"], "fonts", .nothing⟩] ++
    (if experimental then
      [⟨["-s", "--scripts"], "scripts", .all⟩, languageOption, exportedOption] else []) ++
    [rebuildOption]
  values := [⟨"path", .atMostOne, none⟩]

/-- What the tool of one kind of resource takes.  The tool for scripts has no version to choose from. -/
def rules : Tool → Rules
  | .kit => kitRules false
  | .archives => ⟨[helpOption, rebuildOption], [folderValue, ⟨"patterns", .any, none⟩]⟩
  | .texts => ⟨[helpOption, rebuildOption, allowedOption, keysOption], [folderValue]⟩
  | .fonts | .graphics => ⟨[helpOption, rebuildOption], [folderValue]⟩
  | .scripts =>
    ⟨[helpOption, languageOption, keysOption, exportedOption],
      [folderValue, ⟨"patterns", .any, none⟩, ⟨"version", .one, some []⟩]⟩

/-- The patterns of scripts that the kit is told to list.  The bare option means all of them, wherever
it stands. -/
def scriptPatterns (arguments : List String) (given : Table String Given) : Option (List String) :=
  let bare := arguments.contains "-s" || arguments.contains "--scripts"
  match texts? given "scripts" with
  | some [] => some [Game.scriptPattern]
  | some patterns => some patterns
  | none => if bare then some [Game.scriptPattern] else none

/-- The tasks that the kit is told to do. -/
def kitTasks (experimental : Bool) (arguments : List String) (given : Table String Given) : List Task :=
  let keys := isGiven given "keys"
  let when (key : String) (task : Task) : List Task := if isGiven given key then [task] else []
  when "archive" (.archives (some ((texts? given "patterns").getD Game.archivePatterns))) ++
  when "texts" (.texts (some ⟨(texts? given "allowed").getD [], keys⟩)) ++
  when "fonts" .fonts ++
  when "graphics" .graphics ++
  match experimental, scriptPatterns arguments given with
  | true, some patterns =>
    [.scripts patterns (some ⟨text? given "lang", keys, isGiven given "exported"⟩)]
  | _, _ => []

/-- The plan of the kit.  Without tasks the user is asked. -/
def kitPlan (arguments : List String) : Asking Plan := do
  let experimental := arguments.contains experimentalName
  let given ← (kitRules experimental).read arguments
  let base := (Path.ofString ((text? given "path").getD ".")).toString
  match kitTasks experimental arguments given with
  | [] => Interview.plan base experimental
  | tasks => return ⟨base, tasks, isGiven given "rebuild"⟩

/-- The task of a tool of one kind of resource. -/
def task (given : Table String Given) : Tool → List Task
  | .kit => []
  | .archives => [.archives (some ((texts? given "patterns").getD Game.archivePatterns))]
  | .texts => [.texts (some ⟨(texts? given "allowed").getD [], isGiven given "keys"⟩)]
  | .fonts => [.fonts]
  | .graphics => [.graphics]
  | .scripts =>
    [.scripts ((texts? given "patterns").getD [Game.scriptPattern])
      (some ⟨text? given "lang", isGiven given "keys", isGiven given "exported"⟩)]

/-- The plan that a tool makes of its arguments. -/
def plan (tool : Tool) (arguments : List String) : Asking Plan :=
  match tool with
  | .kit => kitPlan arguments
  | tool => do
    let given ← tool.rules.read arguments
    return ⟨(text? given "directory").getD ".", tool.task given, isGiven given "rebuild"⟩

/-- The plan that a tool makes of its arguments and of what is typed, and the talk as it stands. -/
def planFrom (tool : Tool) (arguments : List String) (typed : List Key) : Except Fault Plan × Talk :=
  tool.plan arguments ⟨typed, ""⟩

/-- Runs a tool. -/
def run (tool : Tool) (arguments : List String) (typed : List Key) : Work Unit := do
  (← Work.ofExcept (tool.planFrom arguments typed).1).run

end Tool

end AdventureKit
