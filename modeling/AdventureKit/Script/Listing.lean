import AdventureKit.Script.Block

/-!
# Listings

The listing of a script is the list of its exported places and the blocks that were decompiled: either
all blocks one after the other, or the exported ones and those that they call, each once and in the
order in which they were first named.
-/

namespace AdventureKit.Script

/-- Decompiles the block at the cursor as a subroutine. -/
def subroutine : Script Unit := do
  mark
  line ["sub_" ++ toString ((← place) + headerSize) ++ " \x7b"]
  block
  line ["\x7d"]
  write "\n"

/-- Decompiles one place after the other: `next` tells the place to visit after those that were seen,
and `visit` decompiles it.  Fewer than `bound` places are to be visited. -/
def tourFrom (next : (seen : List Nat) → Machine → Option Nat) (visit : Nat → Script Unit) :
    (bound : Nat) → (seen : List Nat) → Script Unit
  | 0, _ => throw .exhausted
  | bound + 1, seen => do
    match next seen (← get) with
    | none => return ()
    | some place =>
      visit place
      tourFrom next visit bound (place :: seen)

/-- The place of the cursor, while more than the last byte of `length` is left. -/
def nextBlock (length : Nat) (_seen : List Nat) (m : Machine) : Option Nat :=
  if m.cursor.pos + 1 < length then some m.cursor.pos else none

/-- The first called place that was not seen. -/
def nextCall (seen : List Nat) (m : Machine) : Option Nat :=
  m.progress.calls.find? fun target => !seen.contains target

/-- Decompiles the block of a called place. -/
def visitCall (target : Nat) : Script Unit := do
  let _ ← Source.seek ((target : Int) - headerSize) .start
  subroutine

/-- How many places there are that a call can name. -/
def placeLimit : Nat := 65536

/-- The exported places of a script file that lie in its code. -/
def exportedPlaces (functions : List Nat) : List Nat :=
  functions.filter fun place => headerSize ≤ place && place != 0xFFFF

/-- What stands after the code of a script while it is decompiled. -/
def closing : Bytes := [0x24]

/-- A decompiler at the start of a script. -/
def Machine.start (code : Bytes) (s : Surroundings) (p : Progress) : Machine where
  cursor := .ofBytes (code ++ closing)
  listing := ""
  surroundings := s
  progress := p

/-- The line that a listing starts with: the exported places. -/
def opening (places : List Nat) : String :=
  Quoted.list (places.map toString) ++ "\n"

/-- Writes the listing of a script of `length` bytes.  A block that is there takes at least a byte, and
calls name places below `placeLimit`. -/
def listing (exported : Bool) (length : Nat) : Script Unit := do
  write (opening (← get).progress.calls)
  if exported then tourFrom nextCall visitCall (placeLimit + 1) []
  else tourFrom (nextBlock length) (fun _ => subroutine) (length + 1) []

end AdventureKit.Script
