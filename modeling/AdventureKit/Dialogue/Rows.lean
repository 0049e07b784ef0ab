import AdventureKit.Dialogue.Markup
import AdventureKit.Dialogue.TextBlock
import AdventureKit.Logged
import AdventureKit.Table

/-!
# Rows of texts

The texts of a script in all its languages form rows: one row for each line number, one cell for each
language that has such a line.  `extract` writes the rows, `replaceLines` takes edited cells back into
the lines of one language.
-/

namespace AdventureKit

/-- The cells of a row by language; an empty cell stands for a line that has no text. -/
abbrev Row := Table String (Option Bytes)

namespace Line

/-- The length of what stands before the text of a line. -/
def prologueSize : Nat := 18

/-- Texts do not start with these bytes. -/
def isForeign (b : UInt8) : Bool :=
  b == 0 || b == 0x40 || b == 4

/-- The coded text of a line. -/
def text? (line : Line) : Option Bytes :=
  match line.body.drop prologueSize with
  | [] => none
  | b :: rest => if isForeign b then none else some (b :: rest)

/-- The written text of a line.  With `verify`, turning it back has to give a beginning of the coded
text. -/
def cell (verify : Bool) (line : Line) : Logged (Option Bytes) := do
  match line.text? with
  | none => return none
  | some body =>
    let ts ← Logged.ofExcept (Markup.tokens body)
    Logged.say (String.join (ts.map Markup.Token.remark))
    let written := Markup.render ts
    if verify then
      let back ← Logged.ofExcept (Markup.toBody written)
      unless back.isPrefixOf body do throw (.disagreement .textBody)
    return some written

/-- The line with an edited text; lines that have no text, and cells that have none, change nothing. -/
def replace (line : Line) (written : Option Bytes) : Except Fault Line :=
  match line.text?, written with
  | some _, some written => do
    let body ← Markup.toBody written
    return { line with body := line.body.take prologueSize ++ body ++ [1, 0] }
  | _, _ => .ok line

end Line

namespace Row

/-- The rows of columns; a column may be shorter than others. -/
def ofColumns (columns : List (String × List (Option Bytes))) : List Row :=
  let height := (columns.map fun column => column.2.length).foldl max 0
  (List.range height).map fun i =>
    columns.filterMap fun (language, cells) => cells[i]?.map fun cell => (language, cell)

/-- The rows of the texts of all languages. -/
def extract (verify : Bool) (sources : List (String × List Line)) : Logged (List Row) := do
  let columns ← sources.mapM fun (language, lines) => do
    return (language, ← lines.mapM (Line.cell verify))
  return ofColumns columns

/-- The cell of a language, which the row has to have. -/
def cell (row : Row) (language : String) : Except Fault (Option Bytes) :=
  match row.get? language with
  | some cell => .ok cell
  | none => .error (.unknownKey (Quoted.string language))

/-- The lines of a language with the cells of the rows; lines beyond the last row are left out. -/
def replaceLines (language : String) (rows : List Row) (lines : List Line) :
    Except Fault (List Line) :=
  (lines.zip rows).mapM fun (line, row) => do line.replace (← cell row language)

end Row

end AdventureKit
