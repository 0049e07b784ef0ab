import AdventureKit.Dialogue.Rows
import AdventureKit.Text.Encoding

/-!
# Text sheets

Texts are edited in sheets of tab-separated cells.  A cell in quotes may hold tabs and line feeds, and
a quote in it is written twice.  The first line names the columns: the file, then the languages.

`write` gives the lines of a sheet; when a text cannot be written, what goes before it is still there.
`records` reads cells as liberally as such sheets come: quotes only count at the start of a cell, and a
quote that is neither doubled nor at the end of its cell ends the quoted part.
-/

namespace AdventureKit.Sheet

/-- The column of the file. -/
def fileColumn : String := "FILE"

/-- The tab between cells. -/
def tab : Nat := 9

/-- The line feed after a line. -/
def feed : Nat := 10

/-- The quote around cells. -/
def quote : Nat := 34

/-- Doubles the quotes of a text, which must not have two quotes side by side. -/
def doubleQuotes (t : Text) : Except Fault Text :=
  if Sequence.occursIn [quote, quote] t then .error (.disagreement .quotes)
  else .ok (Sequence.replaceAll [quote] [quote, quote] t)

/-- The cell of a text. -/
def cellOf (t : Text) : Except Fault Text := do
  return quote :: (← doubleQuotes t) ++ [quote]

/-- Writes pieces one after the other, up to one that cannot be written. -/
def writePieces : List Text → Bytes × Except Fault Unit
  | [] => ([], .ok ())
  | piece :: pieces =>
    match Utf8.encode piece with
    | .error e => ([], .error e)
    | .ok bs =>
      let (rest, result) := writePieces pieces
      (bs ++ rest, result)

/-- The pieces of a line: its cells with tabs between them and a line feed. -/
def linePieces (cells : List Text) : List Text :=
  cells.intersperse [tab] ++ [[feed]]

/-- The cells of a row of a file. -/
def rowCells (encodings : Encodings) (languages : List String) (file : String) (row : Row) :
    Except Fault (List Text) := do
  let cells ← languages.mapM fun language => do
    cellOf (← encodings.read language (row.get? language).join)
  return Text.ofString file :: cells

/-- The lines of rows of a file, up to one that cannot be written. -/
def writeRows (encodings : Encodings) (languages : List String) (file : String) :
    List Row → Bytes × Except Fault Unit
  | [] => ([], .ok ())
  | row :: rows =>
    match rowCells encodings languages file row with
    | .error e => ([], .error e)
    | .ok cells =>
      match writePieces (linePieces cells) with
      | (bs, .error e) => (bs, .error e)
      | (bs, .ok ()) =>
        let (rest, result) := writeRows encodings languages file rows
        (bs ++ rest, result)

/-- The line that names the columns. -/
def heading (languages : List String) : Bytes :=
  (writePieces (linePieces ((fileColumn :: languages).map Text.ofString))).1

/-- Where in a cell the reader is. -/
inductive Position where
  /-- Before the first cell of a line. -/
  | lineStart
  /-- Before a cell. -/
  | cellStart
  /-- In a cell without quotes, or behind its quoted part. -/
  | plain
  /-- Between quotes. -/
  | quoted
  /-- After a quote that may end the quoted part. -/
  | quoteSeen
  deriving DecidableEq, Repr

/-- The longest cell that is read. -/
def longestCell : Nat := 131072

/-- What a character does to the cell that is read. -/
inductive Move where
  /-- It belongs to the cell. -/
  | add (after : Position)
  /-- It is left out. -/
  | drop (after : Position)
  /-- It ends the cell. -/
  | endCell
  /-- It ends the cell and the line. -/
  | endLine
  /-- It ends a line without cells. -/
  | endBlank
  deriving DecidableEq, Repr

/-- The reader's decision on a character. -/
def move (c : Nat) : Position → Move
  | .lineStart =>
    if c = feed then .endBlank
    else if c = quote then .drop .quoted
    else if c = tab then .endCell
    else .add .plain
  | .cellStart =>
    if c = feed then .endLine
    else if c = quote then .drop .quoted
    else if c = tab then .endCell
    else .add .plain
  | .plain =>
    if c = feed then .endLine else if c = tab then .endCell else .add .plain
  | .quoted => if c = quote then .drop .quoteSeen else .add .quoted
  | .quoteSeen =>
    if c = quote then .add .quoted
    else if c = tab then .endCell
    else if c = feed then .endLine
    else .add .plain

/-- Reads lines of cells.  `cell` has the characters of the current cell, last one first, and `cells`
the cells before it in the line, last one first.  A cell that grows too long ends the reading. -/
def recordsFrom (position : Position) (cell : Text) (size : Nat) (cells : List Text) :
    Text → List (Except Fault (List Text))
  | [] => if position = .lineStart then [] else [.ok (cell.reverse :: cells).reverse]
  | c :: t =>
    match move c position with
    | .add after =>
      if size < longestCell then recordsFrom after (c :: cell) (size + 1) cells t
      else [.error .cellTooLong]
    | .drop after => recordsFrom after cell size cells t
    | .endCell => recordsFrom .cellStart [] 0 (cell.reverse :: cells) t
    | .endLine => .ok (cell.reverse :: cells).reverse :: recordsFrom .lineStart [] 0 [] t
    | .endBlank => .ok [] :: recordsFrom .lineStart [] 0 [] t

/-- Turns returns, alone or before a line feed, into line feeds. -/
def unifyFeeds : Text → Text
  | [] => []
  | 13 :: 10 :: t => feed :: unifyFeeds t
  | 13 :: t => feed :: unifyFeeds t
  | c :: t => c :: unifyFeeds t

/-- The lines of a sheet, blank ones included. -/
def records (t : Text) : List (Except Fault (List Text)) :=
  recordsFrom .lineStart [] 0 [] (unifyFeeds t)

/-- A line by the names of its columns, and whether it has more cells than columns. -/
structure Record where
  cells : Table String (Option Text)
  surplus : Bool
  deriving DecidableEq, Repr

/-- Names the cells of a line.  Of columns with the same name the last one counts. -/
def Record.ofCells (columns : List String) (cells : List Text) : Record where
  cells := Table.ofItems (columns.mapIdx fun i column => (column, cells[i]?))
  surplus := columns.length < cells.length

/-- The lines behind the heading, without the blank ones. -/
def named (t : Text) : List (Except Fault Record) :=
  match records t with
  | [] => []
  | .error e :: _ => [.error e]
  | .ok heading :: lines =>
    let columns := heading.map fun name => String.ofList (name.map Char.ofNat)
    (lines.filter fun line => match line with
      | .ok [] => false
      | _ => true).map fun line => line.map (Record.ofCells columns)

/-- The file of a line and its row. -/
def Record.toRow (encodings : Encodings) (record : Record) : Except Fault (String × Row) := do
  match record.cells.get? fileColumn with
  | none => throw (.unknownKey (Quoted.string fileColumn))
  | some none => throw (.disagreement .fileName)
  | some (some file) =>
    let row ← (record.cells.erase fileColumn).mapM fun (language, cell) => do
      return (language, ← encodings.write language cell)
    if record.surplus then throw .surplusCells
    return (String.ofList (file.map Char.ofNat), row)

/-- The rows of a sheet with their files, up to one that cannot be read. -/
def rows (encodings : Encodings) (t : Text) : List (Except Fault (String × Row)) :=
  (named t).map fun record => do (← record).toRow encodings

/-- The next rows of one file: their file, the rows, and what follows them.  The line after them is
looked at too, and if it cannot be read there is no group. -/
def group (file : String) (rows : List Row) :
    List (Except Fault (String × Row)) → Except Fault (List Row × List (Except Fault (String × Row)))
  | [] => .ok (rows.reverse, [])
  | .error e :: _ => .error e
  | .ok (next, row) :: rest =>
    if next = file then group file (row :: rows) rest
    else .ok (rows.reverse, .ok (next, row) :: rest)

theorem length_group_le {file : String} {before : List Row} {lines : List (Except Fault (String × Row))}
    {got : List Row} {rest : List (Except Fault (String × Row))}
    (h : group file before lines = .ok (got, rest)) : rest.length ≤ lines.length := by
  induction lines generalizing before with
  | nil =>
    cases h
    simp
  | cons line lines ih =>
    match line with
    | .error e => simp [group] at h
    | .ok (next, row) =>
      unfold group at h
      split at h
      · exact Nat.le_succ_of_le (ih h)
      · cases h
        simp

end AdventureKit.Sheet
