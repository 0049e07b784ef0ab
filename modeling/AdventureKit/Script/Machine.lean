import AdventureKit.Resource.Item
import AdventureKit.Table
import AdventureKit.Text.CodePage

/-!
# The state of the decompiler

The decompiler reads a script through a cursor and writes a listing.  It keeps the offset of the
current instruction, the depth of blocks, the count of commands in the current block, and the places
that the script calls.  State and listing stay as they are when a script turns out to be faulty.
-/

namespace AdventureKit.Script

/-- What the decompiler knows about the script besides its bytes.  A field without a value was never
set. -/
structure Surroundings where
  /-- The version of the instruction set. -/
  version : Option Nat
  /-- The texts of the script by number, with their languages. -/
  texts : List (Table String Text)
  /-- The language that hints are given in. -/
  language : Option String
  /-- The resource table that goes with the script. -/
  items : Option (List Resource.Item)
  /-- What follows that table. -/
  itemData : Bytes
  /-- The file that resources with a negative place are in. -/
  shared : Option Bytes
  deriving DecidableEq, Repr

/-- The state that instructions change. -/
structure Progress where
  offset : Nat
  depth : Int
  /-- How many commands of the block were started, if a block was. -/
  counter : Option Nat
  /-- How many commands the block has. -/
  commandCount : Option Nat
  /-- The places that were called, in order. -/
  calls : List Nat
  deriving DecidableEq, Repr

/-- A decompiler at work. -/
structure Machine where
  cursor : Cursor
  listing : String
  surroundings : Surroundings
  progress : Progress
  deriving DecidableEq, Repr

-- A script moves over a few bytes and to addresses of 16 bits, which need no check.
instance : Source Machine where
  read n := fun m => let (got, c) := m.cursor.read n; (.ok got, { m with cursor := c })
  seek offset origin := fun m =>
    match m.cursor.move offset origin with
    | .ok c => (.ok c.pos, { m with cursor := c })
    | .error e => (.error e, m)
  tell m := m.cursor.pos
  bound m := m.cursor.left

end AdventureKit.Script

/-- A step of the decompiler. -/
abbrev AdventureKit.Script := AdventureKit.Reading AdventureKit.Script.Machine

namespace AdventureKit.Script

/-- The number of bytes that are left. -/
def left : Script Nat := do
  return (← get).cursor.left

/-- The place of the cursor. -/
def place : Script Nat := do
  return (← get).cursor.pos

/-- Changes the state of the instructions. -/
def update (f : Progress → Progress) : Script Unit :=
  modify fun m => { m with progress := f m.progress }

/-- Notes the place of the cursor as that of the instruction. -/
def mark : Script Unit := do
  let here ← place
  update fun p => { p with offset := here }

/-- Writes to the listing. -/
def write (s : String) : Script Unit :=
  modify fun m => { m with listing := m.listing ++ s }

/-- Writes the pieces that follow the first one of a line, each after a blank.  A piece that is no
string cannot be written, but what goes before it is. -/
def writePieces : List (Option String) → Script Unit
  | [] => write "\n"
  | none :: _ => do
    write " "
    throw .unencodable
  | some piece :: pieces => do
    write " "
    write piece
    writePieces pieces

/-- Writes pieces as a line. -/
def say (first : String) (pieces : List String) : Script Unit := do
  write first
  writePieces (pieces.map some)

/-- A number in eight digits or more. -/
def eightDigits (n : Nat) : String :=
  let digits := toString n
  String.ofList (List.replicate (8 - digits.length) '0') ++ digits

/-- Where code starts in a script file. -/
def headerSize : Nat := 128

/-- What a line of the listing starts with: the place of the instruction and the indentation of its
block. -/
def margin (p : Progress) : String :=
  "[" ++ eightDigits (headerSize + p.offset) ++ "]:"
    ++ String.ofList (List.replicate (4 * p.depth).toNat ' ')

/-- Writes pieces as a line of the listing. -/
def linePieces (pieces : List (Option String)) : Script Unit := do
  write (margin (← get).progress)
  writePieces pieces

/-- Writes strings as a line of the listing. -/
def line (pieces : List String) : Script Unit :=
  linePieces (pieces.map some)

/-- Does something `n` times. -/
def times {α : Type} (step : Script α) (n : Nat) : Script (List α) :=
  Resource.readTimes step n

end AdventureKit.Script
