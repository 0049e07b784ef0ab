import AdventureKit.Fault
import AdventureKit.Prompt.Key

/-!
# Selections

A selection is a list of options with a cursor that goes round.  In a selection of several options a
key marks the option at the cursor, and another one asks for its advanced settings, if it has any; the
choice is all marked options.  In a selection of one option the choice is the option at the cursor.

Marks belong to keys of options, so options with the same key are marked together.
-/

namespace AdventureKit

/-- An option: what it is called, whether it is marked at first, how its advanced settings are asked
for, and its settings otherwise. -/
structure Choice (α δ : Type) where
  key : String
  label : Option String
  selected : Bool
  advanced : Option α
  settings : δ

/-- An option that was chosen.  Its settings only come with a choice of several options. -/
structure Chosen (α δ : Type) where
  key : String
  advanced : Option α
  settings : Option δ

/-- What a key does. -/
inductive Response (α δ : Type) where
  /-- The key means nothing here. -/
  | ignored
  /-- The selection goes on. -/
  | moved
  /-- The selection is over. -/
  | chosen (choice : List (Chosen α δ))

/-- The state of a selection. -/
structure Selection (α δ : Type) where
  options : List (Choice α δ)
  /-- Whether several options can be chosen. -/
  multiple : Bool
  cursor : Nat
  /-- The keys of the marked options. -/
  selected : List String
  /-- The keys of the options whose advanced settings are asked for. -/
  advanced : List String

namespace Selection

variable {α δ : Type}

/-- A selection before any key is pressed. -/
def start (options : List (Choice α δ)) (multiple : Bool) : Selection α δ where
  options := options
  multiple := multiple
  cursor := 0
  selected := ((options.filter Choice.selected).map Choice.key).eraseDups
  advanced := []

/-- The option at the cursor. -/
def current (s : Selection α δ) : Except Fault (Choice α δ) :=
  match s.options[s.cursor]? with
  | some option => .ok option
  | none => .error .noOption

/-- Puts a key into a list of keys, or takes it out. -/
def toggle (key : String) (keys : List String) : List String :=
  if keys.contains key then keys.filter (· != key) else key :: keys

/-- Moves the cursor, round the ends. -/
def moveBy (s : Selection α δ) (step : Int) : Except Fault (Selection α δ) :=
  if s.options.isEmpty then .error .noTurn
  else .ok { s with cursor := (((s.cursor : Int) + step) % (s.options.length : Int)).toNat }

/-- Marks the option at the cursor, or takes its mark away. -/
def toggleCurrent (s : Selection α δ) : Except Fault (Selection α δ) := do
  let option ← s.current
  return { s with selected := toggle option.key s.selected }

/-- Asks for the advanced settings of the option at the cursor, or no longer asks for them.  The option
has to be marked and to have such settings. -/
def toggleAdvanced (s : Selection α δ) : Except Fault (Selection α δ) := do
  let option ← s.current
  if option.advanced.isSome && s.selected.contains option.key then
    return { s with advanced := toggle option.key s.advanced }
  else return s

/-- The marked options in their order.  A mark for advanced settings outlives the mark of its option. -/
def chosen (s : Selection α δ) : List (Chosen α δ) :=
  (s.options.filter fun option => s.selected.contains option.key).map fun option =>
    ⟨option.key, if s.advanced.contains option.key then option.advanced else none,
      some option.settings⟩

/-- What a key does. -/
def press (s : Selection α δ) (key : Key) : Except Fault (Response α δ × Selection α δ) := do
  match key with
  | .down => return (.moved, ← s.moveBy 1)
  | .up => return (.moved, ← s.moveBy (-1))
  | .enter =>
    if s.multiple then return (.chosen s.chosen, s)
    else
      let option ← s.current
      return (.chosen [⟨option.key, option.advanced, none⟩], s)
  | .stop => throw .interrupted
  | .char c =>
    if s.multiple && c == ' ' then return (.moved, ← s.toggleCurrent)
    else if s.multiple && c == 'a' then return (.moved, ← s.toggleAdvanced)
    else return (.ignored, s)
  | _ => return (.ignored, s)

/-- What is shown for an option. -/
def display (s : Selection α δ) (option : Choice α δ) : String :=
  let label := match option.label with
    | some label => if label == "" then option.key else label
    | none => option.key
  if s.multiple then
    if s.selected.contains option.key then
      "[+] " ++ label ++ if s.advanced.contains option.key then " (Advanced)" else ""
    else "[ ] " ++ label
  else label

/-- The lines of a selection; `mark` stands before the option at the cursor. -/
def lines (s : Selection α δ) (mark : String) : List String :=
  s.options.mapIdx fun i option =>
    (if i = s.cursor then mark else String.ofList (List.replicate mark.length ' ')) ++ " "
      ++ s.display option ++ "\n"

end Selection

end AdventureKit
