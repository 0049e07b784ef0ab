import AdventureKit.Game.Archives
import AdventureKit.Game.Fonts
import AdventureKit.Game.Graphics
import AdventureKit.Game.Scripts

/-!
# Plans

A plan says what is to be done with a game: which tasks, in order, and whether resources are taken out
of the game or put back into it.
-/

namespace AdventureKit

/-- How texts are treated: the files that may be changed, and whether keys stand for letters. -/
structure TextSettings where
  allowed : List String
  keys : Bool
  deriving DecidableEq, Repr

/-- How scripts are listed. -/
structure ScriptSettings where
  /-- The language whose texts are shown first. -/
  language : Option String
  keys : Bool
  /-- Whether only exported functions are listed. -/
  exported : Bool
  deriving DecidableEq, Repr

/-- A task; settings that were not given are the usual ones. -/
inductive Task where
  | archives (patterns : Option (List String))
  | texts (settings : Option TextSettings)
  | fonts
  | graphics
  | scripts (patterns : List String) (settings : Option ScriptSettings)
  deriving DecidableEq, Repr

/-- The name of the resources that a task works on. -/
def Task.name : Task → String
  | .archives _ => "archive"
  | .texts _ => "texts"
  | .fonts => "fonts"
  | .graphics => "graphics"
  | .scripts _ _ => "scripts"

/-- Does a task. -/
def Task.run (base : String) (rebuild : Bool) : Task → Work Unit
  | .archives patterns => Game.archives base rebuild (patterns.getD Game.archivePatterns)
  | .texts settings =>
    let settings := settings.getD ⟨[], false⟩
    Game.texts base rebuild settings.allowed settings.keys
  | .fonts => do
    for (name, _) in ← Game.fonts base rebuild do
      Work.say ("FAILED CONVERTING FILE: " ++ name)
  | .graphics => Game.graphics base rebuild
  | .scripts patterns settings =>
    let settings := settings.getD ⟨none, false, false⟩
    Game.scripts base rebuild patterns settings.language settings.keys settings.exported

/-- What is to be done with a game. -/
structure Plan where
  /-- The folder of the game. -/
  base : String
  tasks : List Task
  /-- Whether resources are put back. -/
  rebuild : Bool
  deriving DecidableEq, Repr

/-- Does tasks one after the other.  What is put back goes to the output folder, so the next task
starts from there. -/
def Plan.run (plan : Plan) : Work Unit := do
  let _ ← plan.tasks.foldlM (fun base task => do
    task.run base plan.rebuild
    return if plan.rebuild then Game.outputFolder else base) plan.base

end AdventureKit
