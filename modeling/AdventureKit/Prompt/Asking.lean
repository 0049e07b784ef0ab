import AdventureKit.Prompt.Selection

/-!
# Questions

A question takes the keys that answer it from what is typed and leaves the rest to the next one.  When
the keys run out, the question that is still open stays on the screen.
-/

namespace AdventureKit

/-- The keys that are typed but not used, and the open question. -/
structure Talk where
  keys : List Key
  screen : String
  deriving DecidableEq, Repr

/-- A computation that asks questions; the talk is kept when it fails. -/
abbrev Asking := ExceptT Fault (StateM Talk)

/-- A line of text from keys, and the keys behind it; nothing if its end is not typed.  `typed` are the
characters before the keys, the last one first. -/
def Key.lineFrom (typed : List Char) : List Key → Except Fault (Option (String × List Key))
  | [] => .ok none
  | .enter :: keys => .ok (some (String.ofList typed.reverse, keys))
  | .stop :: _ => .error .interrupted
  | .back :: keys => lineFrom typed.tail keys
  | .char c :: keys => lineFrom (c :: typed) keys
  | _ :: keys => lineFrom typed keys

/-- Presses keys up to a choice; gives the choice with the keys behind it, if there is one, and the
selection as it stands. -/
def Selection.pressAll {α δ : Type} (s : Selection α δ) :
    List Key → Except Fault (Option (List (Chosen α δ) × List Key) × Selection α δ)
  | [] => .ok (none, s)
  | key :: keys => do
    match ← s.press key with
    | (.chosen choice, s) => return (some (choice, keys), s)
    | (_, s) => pressAll s keys

namespace Asking

/-- Ends a question with its answer and the keys behind it, or leaves it open. -/
def settle {α : Type} (screen : String) (answer : Except Fault (Option (α × List Key))) : Asking α := do
  match answer with
  | .error fault => throw fault
  | .ok none =>
    set (⟨[], screen⟩ : Talk)
    throw .noInput
  | .ok (some (answer, keys)) =>
    set (⟨keys, ""⟩ : Talk)
    return answer

/-- Asks for a line of text. -/
def line (message : String) : Asking String := do
  settle message (Key.lineFrom [] (← get).keys)

variable {α δ : Type}

/-- Asks for a choice. -/
def choose (message : String) (s : Selection α δ) : Asking (List (Chosen α δ)) := do
  let (answer, s) ← s.pressAll (← get).keys
  settle (message ++ "\n" ++ String.join (s.lines ">")) (.ok answer)

/-- Asks which of some options are wanted. -/
def severalOf (message : String) (options : List (Choice α δ)) : Asking (List (Chosen α δ)) :=
  choose message (.start options true)

/-- Asks which one of some options is wanted; gives its key. -/
def oneOf (message : String) (options : List (Choice α δ)) : Asking String := do
  let choice ← choose message (.start options false)
  return (choice.map Chosen.key).headD ""

/-- Asks whether something is wanted. -/
def whether (key label : String) : Asking Bool := do
  let choice ← severalOf "Check to apply:" [(⟨key, some label, false, none, ()⟩ : Choice Unit Unit)]
  return !choice.isEmpty

end Asking

end AdventureKit
