import AdventureKit.Script.Machine
import AdventureKit.Sequence

/-!
# Expressions

An expression is a run of operands and operators up to a byte that ends it; which byte that is depends
on where the expression stands.  Operands may hold expressions: indices of arrays and arguments of
functions.  `expression` and `variableName` read one and give its text.

Every step of `expressionFrom` reads a byte, so a bound above the number of bytes that are left is
enough.
-/

namespace AdventureKit.Script

/-- The operators by their codes. -/
def operators : List (Nat × String) := [
  (9, "("), (11, "!"), (10, ")"), (1, "-"), (2, "+"), (3, "-"), (4, "|"), (5, "*"), (6, "/"), (7, "%"),
  (8, "&"), (30, "||"), (31, "&&"), (32, "<"), (33, "<="), (34, ">"), (35, ">="), (36, "=="),
  (37, "!=")]

/-- The name of a function. -/
def functionName (code : Nat) : String :=
  match code with
  | 5 => "sqr"
  | 10 => "rand"
  | 7 => "abs"
  | 0 => "sqrt"
  | 1 => "sqrt"
  | 6 => "sqrt"
  | _ => "id"

/-- The code that ends an expression on its own. -/
def endOfExpression : Nat := 99

/-- The code that ends an index. -/
def endOfIndex : Nat := 12

/-- The code that ends the argument of a function. -/
def endOfArgument : Nat := 10

/-- Variables with a name of their own. -/
def namedVariables : List (String × String) := [("var8_4931", "g_Language")]

/-- Puts the names of variables in. -/
def nameVariables (s : String) : String :=
  String.ofList
    (Sequence.replaceMany (namedVariables.map fun (v, name) => (v.toList, name.toList)) s.toList)

/-- Puts a text with blanks in parentheses. -/
def parenthesized (s : String) : String :=
  if s.toList.contains ' ' then "(" ++ s ++ ")" else s

/-- Reads on to the byte `stop`.  Fewer than `bound` bytes are left. -/
def skipTo (stop : Nat) : (bound : Nat) → Script Unit
  | 0 => throw .exhausted
  | bound + 1 => do
    if (← Reading.code) = stop then return () else skipTo stop bound

/-- Reads the next byte if it is `code`; tells whether it was. -/
def skipIf (code : Nat) : Script Bool := do
  if (← Reading.peek) = code then
    let _ ← Source.read 1
    return true
  else return false

/-- The text of the indices of an array: each index with the size of its dimension.  `sizes` are the
sizes of the dimensions, and `index` reads an index. -/
def indicesFrom (index : Script String) (sizes : Bytes) : (count : Nat) → Script (List String)
  | 0 => return []
  | count + 1 => do
    let text ← index
    let piece := text ++ " of " ++ toString sizes.word
    return piece :: (← indicesFrom index (sizes.drop 2) count)

/-- The indices of an array after its name, with a closing bracket. -/
def indices (index : Script String) : Script String := do
  let count ← Reading.byte
  let sizes ← Source.read count
  return String.intercalate "][" (← indicesFrom index sizes count) ++ "]"

/-- An offset that is added to a variable's place, if there is one. -/
def displacement (index : Script String) : Script String := do
  if ← skipIf 13 then return "+\x7b*" ++ (← index) else return ""

/-- The path to a member of a structure. -/
def memberPath (index : Script String) : Script String := do
  let base ← Reading.word
  let _ ← Source.read 2
  let count ← Reading.byte
  let _ ← Source.read count
  let steps ← times index count
  return "#" ++ toString (base * 4) ++ "->" ++ String.join (steps.map (· ++ "->")) ++ "#"

/-- The place of a structure. -/
def structureBase : Script String := do
  let base ← Reading.word
  let _ ← Source.read 2
  return "#" ++ toString (base * 4) ++ "#"

/-- The operand of a code from 16 to 29; `index` and `argument` read the expressions inside it. -/
def operand (index argument : Script String) (code : Nat) : Script String := do
  match code with
  | 17 => return "var16_" ++ toString ((← Reading.word) * 2)
  | 18 => return "var8_" ++ toString (← Reading.word)
  | 19 => return toString (← Reading.dword)
  | 20 => return toString (← Reading.word)
  | 21 => return toString (← Reading.byte)
  | 22 => return "\"" ++ (← Reading.asciiText) ++ "\""
  | 23 => return "var32_" ++ toString ((← Reading.word) * 4)
  | 24 => return "var32_" ++ toString ((← Reading.word) * 4)
  | 25 =>
    let name := "(&var8_" ++ toString ((← Reading.word) * 4) ++ ")"
    return name ++ (← displacement index)
  | 16 => return "var8_" ++ toString (← Reading.word) ++ "[" ++ (← indices index)
  | 26 => return "var32_" ++ toString ((← Reading.word) * 4) ++ "[" ++ (← indices index)
  | 27 => return "var16_" ++ toString ((← Reading.word) * 2) ++ "[" ++ (← indices index)
  | 28 =>
    let name := "(&var8_" ++ toString ((← Reading.word) * 4) ++ "[" ++ (← indices index) ++ ")"
    return name ++ (← displacement index)
  | _ =>
    let name := functionName (← Reading.code)
    return name ++ "( " ++ (← argument)

/-- Reads an expression that the byte `stop` ends, after the text `text`; `opened` parentheses are
open.  Only a closing parenthesis that was not opened ends an argument.  Fewer than `bound` bytes are
left. -/
def expressionFrom : (bound stop : Nat) → (opened : Int) → (text : String) → Script String
  | 0, _, _, _ => throw .exhausted
  | bound + 1, stop, opened, text => do
    let index : Script String := do
      return parenthesized (← expressionFrom bound endOfIndex 0 "")
    let argument : Script String := do
      return parenthesized (← expressionFrom bound endOfArgument 0 "")
    let finish (code : Nat) (opened : Int) (text : String) : Script String :=
      if code = stop ∧ (stop ≠ endOfArgument ∨ opened < 0) then return nameVariables text
      else expressionFrom bound stop opened text
    let code ← Reading.byte
    if code = 14 then
      let text := text ++ (← structureBase)
      let _ ← skipIf 97
      expressionFrom bound stop opened text
    else if code = 15 then
      let text := text ++ (← memberPath index)
      let _ ← skipIf 97
      expressionFrom bound stop opened text
    else if 16 ≤ code ∧ code ≤ 29 then
      let text := text ++ (← operand index argument code)
      finish code opened text
    else
      match operators.lookup code with
      | some sign =>
        let text := text ++ " " ++ sign ++ " "
        if code = 9 then expressionFrom bound stop (opened + 1) text
        else if code = 10 then finish code (opened - 1) text
        else expressionFrom bound stop opened text
      | none =>
        if code = 12 then
          if stop ≠ 12 then write "WARNING: closing paren without opening?\n"
          finish code opened (text ++ "\x7d")
        else if code = 99 then finish code opened text
        else
          skipTo stop bound
          return text ++ "<unknown operator " ++ toString code

/-- Reads an expression that the byte `stop` ends. -/
def expressionTo (stop : Nat) : Script String := do
  return parenthesized (← expressionFrom ((← left) + 1) stop 0 "")

/-- Reads an expression. -/
def expression : Script String :=
  expressionTo endOfExpression

/-- Reads an index. -/
def indexExpression : Script String :=
  expressionTo endOfIndex

/-- The code of a variable after the structures that it is a member of, with their text; nothing if
the variable stops there.  Fewer than `bound` bytes are left. -/
def variableCode : (bound : Nat) → (path : String) → (code : Nat) → Script (Option (Nat × String))
  | 0, _, _ => throw .exhausted
  | bound + 1, path, code => do
    if code = 14 ∨ code = 15 then
      let path := path ++ (← if code = 14 then structureBase else memberPath indexExpression)
      if ← skipIf 97 then variableCode bound path (← Reading.byte) else return none
    else return some (code, path)

/-- What the name of a variable starts with. -/
def variableKind (code : Nat) : String :=
  if code = 16 ∨ code = 18 ∨ code = 25 ∨ code = 28 then "var8_"
  else if code = 17 ∨ code = 24 ∨ code = 27 then "var16_"
  else if code = 23 ∨ code = 26 then "var32_"
  else ""

/-- The place of a variable in its name. -/
def variablePlace (code : Nat) : Script String := do
  match code with
  | 23 => return toString ((← Reading.word) * 4)
  | 24 => return toString ((← Reading.word) * 4)
  | 25 =>
    let base := toString ((← Reading.word) * 4)
    return base ++ (← displacement indexExpression)
  | 17 => return toString ((← Reading.word) * 2)
  | 18 => return toString (← Reading.word)
  | 16 => return toString (← Reading.word) ++ "[" ++ (← indices indexExpression)
  | 26 => return toString ((← Reading.word) * 4) ++ "[" ++ (← indices indexExpression)
  | 27 => return toString ((← Reading.word) * 2) ++ "[" ++ (← indices indexExpression)
  | 28 =>
    let base := toString ((← Reading.word) * 4) ++ "[" ++ (← indices indexExpression)
    return base ++ (← displacement indexExpression)
  | _ => return "var_0"

/-- Reads the name of a variable. -/
def variableName : Script String := do
  let code ← Reading.code
  match ← variableCode ((← left) + 1) "" code with
  | none => return ""
  | some (code, path) =>
    let place ← variablePlace code
    return parenthesized (nameVariables (variableKind code ++ path ++ place))

end AdventureKit.Script
