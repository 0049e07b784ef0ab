import AdventureKit.Dialogue.Rows
import AdventureKit.Stream.Output

/-!
# Catalogues

A catalogue is a header of 18 bytes and messages of 40 bytes each: all messages of the first language,
then all of the second, and so on.  The header has the number of messages.  When it is edited, the
zeros that fill a message are written as waves.
-/

namespace AdventureKit.Catalogue

/-- The languages, in their order in a catalogue. -/
def languages : List String :=
  ["DAT", "ALL", "ANG", "ESP", "ITA", "USA", "NDL", "KOR", "ISR", "IDE"]

/-- The length of the header. -/
def headerSize : Nat := 18

/-- The length of a message. -/
def messageSize : Nat := 40

/-- What is written for a zero. -/
def filler : UInt8 := 0x7E

/-- The number of messages. -/
def messageCount (header : Bytes) : Except Fault Nat :=
  match header[4]? with
  | some n => .ok n.toNat
  | none => .error (.ended .byte)

/-- The first `n` messages; those that are cut off are not there. -/
def messages : (n : Nat) → Bytes → List (Option Bytes)
  | 0, _ => []
  | n + 1, data =>
    let message := data.take messageSize
    (if message.isEmpty then none else some message) :: messages n (data.drop messageSize)

/-- A message in its edited form. -/
def show? (message : Bytes) : Except Fault Bytes :=
  if message.contains filler then .error (.disagreement .filler)
  else .ok (message.map fun b => if b = 0 then filler else b)

/-- The row of a message out of `count`: the cells of the languages that have it. -/
def rowOf (count : Nat) (cells : List (Option Bytes)) (i : Nat) : Row :=
  (languages.mapIdx fun k language => (cells[k * count + i]?).join.map fun cell =>
    (language, some cell)).filterMap id

/-- The rows of a catalogue: one for each message, with the languages that have it. -/
def read (file : Bytes) : Except Fault (List Row) := do
  let count ← messageCount (file.take headerSize)
  let all := messages (languages.length * count) (file.drop headerSize)
  let cells ← all.mapM fun message => message.mapM show?
  return (List.range count).map (rowOf count cells)

/-- The message of an edited cell, filled up with zeros; beyond its length only zeros are left out. -/
def message? (cell : Bytes) : Except Fault Bytes :=
  let message := Bytes.padTo messageSize (cell.map fun b => if b = filler then 0 else b)
  if (message.drop messageSize).any (· != 0) then
    .error (.report "Non-null characters after 40 characters limit")
  else .ok (message.take messageSize)

/-- Writes a cell; the place of an empty one is passed over. -/
def writeCell (out : Output) : Option Bytes → Except Fault Output
  | none => .ok (out.skip messageSize)
  | some cell => do return out.write (← message? cell)

/-- Writes the messages of a language, which starts at its place. -/
def writeLanguage (place : Nat) (rows : List Row) (language : String) (out : Output) : Except Fault Output := do
  if out.pos ≠ place then throw (.disagreement .languagePlace)
  rows.foldlM (fun out row => do writeCell out (← Row.cell row language)) out

/-- Writes the languages that follow the first `done` ones.  The number of messages says where each of them starts
behind the header. -/
def writeLanguages (start count : Nat) (rows : List Row) :
    (done : Nat) → List String → Output → Except Fault Output
  | _, [], out => .ok out
  | done, language :: rest, out => do
    writeLanguages start count rows (done + 1) rest
      (← writeLanguage (start + done * count * messageSize) rows language out)

/-- The catalogue with the messages of the rows.  A last byte, which is taken away again, makes sure that empty cells
at the end are there. -/
def write (file : Bytes) (rows : List Row) : Except Fault Bytes := do
  let header := file.take headerSize
  let count ← messageCount header
  let out ← writeLanguages header.length count rows 0 languages (Output.empty.write header)
  return (out.write [0]).bytes.dropLast

end AdventureKit.Catalogue
