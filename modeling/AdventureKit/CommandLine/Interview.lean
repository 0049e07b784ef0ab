import AdventureKit.CommandLine.Plan
import AdventureKit.Prompt.Asking
import AdventureKit.Text.Blank

/-!
# Interviews

Without tasks on the command line the user is asked for them: first whether to take resources out or to
put them back, then which ones, then for the advanced settings of those that were marked so.
-/

namespace AdventureKit.Interview

/-- Asks for words; without an answer they are `usual`. -/
def askWords (message : String) (usual : List String) : Asking (List String) := do
  let answer ← Asking.line message
  return if answer == "" then usual else Text.words answer

/-- Asks whether keys stand for letters. -/
def askKeys : Asking Bool :=
  Asking.whether "keys" "Replace keys by keyboard position"

/-- A question for the settings of a task.  It is told whether keys stand for letters if that is known
already, and says so if it knows it afterwards. -/
abbrev Question := Option Bool → Asking (Task × Option Bool)

/-- Asks for the settings of archives. -/
def archives : Question := fun keys => do
  let patterns ← askWords
    "Enter patterns for files to extract separated by space (e.g. *.ITK *.STK): " Game.archivePatterns
  return (.archives (some patterns), keys)

/-- Asks for the settings of texts. -/
def texts : Question := fun keys => do
  let allowed ← askWords
    "Enter which patterns are allowed to be modified separated by space (e.g. *.ISR *.CAT): " []
  let keys ← keys.getDM askKeys
  return (.texts (some ⟨allowed, keys⟩), some keys)

/-- Asks for the settings of scripts. -/
def scripts : Question := fun keys => do
  let patterns ← askWords
    "Enter which scripts to decompile separated by space (e.g. *.TOT): " [Game.scriptPattern]
  let language ← Asking.line "Which language to focus on message hint: "
  let keys ← keys.getDM askKeys
  let exported ← Asking.whether "exported" "Only decompile exported functions"
  return (.scripts patterns (some ⟨if language == "" then none else some language, keys, exported⟩),
    some keys)

/-- An option of the interview. -/
def option (task : Task) (label : String) (selected : Bool) (advanced : Option Question) :
    Choice Question Task :=
  ⟨task.name, some label, selected, advanced, task⟩

/-- The key of taking resources out. -/
def extractKey : String := "extract"

/-- The key of putting resources back. -/
def injectKey : String := "inject"

/-- What can be done. -/
def actions : List (Choice Unit Unit) :=
  [⟨extractKey, some "Extract", false, none, ()⟩, ⟨injectKey, some "Inject", false, none, ()⟩]

/-- What can be taken out of a game. -/
def extractable (experimental : Bool) : List (Choice Question Task) :=
  [option (.archives none) "Archives*" false (some archives),
    option .fonts "Fonts" true none,
    option (.texts none) "Texts*" true (some texts),
    option .graphics "Graphics" false none] ++
  if experimental then [option (.scripts [Game.scriptPattern] none) "Scripts*" false (some scripts)]
  else []

/-- What can be put back into a game. -/
def injectable : List (Choice Question Task) :=
  [option (.archives none) "Archives*" false none,
    option .fonts "Fonts" true none,
    option (.texts none) "Texts*" true (some texts),
    option .graphics "Graphics" false none]

/-- The tasks of chosen options. -/
def tasksOf (keys : Option Bool) : List (Chosen Question Task) → Asking (List Task)
  | [] => pure []
  | chosen :: rest => do
    match chosen.advanced, chosen.settings with
    | some question, _ =>
      let (task, keys) ← question keys
      return task :: (← tasksOf keys rest)
    | none, some task => return task :: (← tasksOf keys rest)
    | none, none => tasksOf keys rest

/-- Asks for a plan. -/
def plan (base : String) (experimental : Bool) : Asking Plan := do
  let rebuild := (← Asking.oneOf "Would you like to extract or inject?" actions) == injectKey
  let chosen ← Asking.severalOf
    ("Select resources to " ++ (if rebuild then injectKey else extractKey)
      ++ ": (press A to select advanced options for entries with *)")
    (if rebuild then injectable else extractable experimental)
  return ⟨base, ← tasksOf none chosen, rebuild⟩

end AdventureKit.Interview
