import AdventureKit.Lzss.Unpack
import AdventureKit.Lzss.Writer

/-!
# Packing

The packer goes through the data once and takes at each place the longest part that the window
already holds, and of several such parts the first one.  A part that the write cursor would run
through is cut before the cursor.  Parts of fewer than three bytes are not worth a copy.
-/

namespace AdventureKit.Lzss

/-- How far `ahead` agrees with a ring from `place` on, up to `limit`.  If nothing of `ahead` is left to
compare, they agree up to the limit. -/
def agreement (ring : Array UInt8) : (limit place : Nat) → (ahead : Bytes) → Nat
  | 0, _, _ => 0
  | limit + 1, _, [] => limit + 1
  | limit + 1, place, b :: ahead =>
    if h : place < ring.size then
      if ring[place] = b then agreement ring limit (place + 1) ahead + 1 else 0
    else 0

/-- A part of the window. -/
structure Match where
  place : Nat
  length : Nat
  deriving DecidableEq, Repr

/-- The length of the longest part that starts at `place` and ends before the cursor unless it starts
at or after it. -/
def lengthAt (ring : Array UInt8) (limit cursor : Nat) (ahead : Bytes) (place : Nat) : Nat :=
  let length := agreement ring limit place ahead
  if place < cursor then min length (cursor - place) else length

/-- The first of the longest parts among `best` and those that start at one of `count` places from
`place` on.  A part of full length ends the search. -/
def longestFrom (ring : Array UInt8) (limit cursor : Nat) (ahead : Bytes) (best : Match) (place : Nat) :
    (count : Nat) → Match
  | 0 => best
  | count + 1 =>
    let length := lengthAt ring limit cursor ahead place
    if length ≤ best.length then longestFrom ring limit cursor ahead best (place + 1) count
    else if length = limit then ⟨place, length⟩
    else longestFrom ring limit cursor ahead ⟨place, length⟩ (place + 1) count

/-- The longest copy. -/
def maxCopy : Nat := 18

/-- What a look into the window gives. -/
inductive Finding where
  /-- Too few bytes are left for a copy, and nothing was looked for. -/
  | tooFew
  /-- No part is worth a copy. -/
  | nothing
  /-- A part to copy. -/
  | part (m : Match)
  deriving DecidableEq, Repr

/-- The part to copy, if there is one. -/
def Finding.part? : Finding → Option Match
  | .part m => some m
  | _ => none

/-- Looks for the next bytes in the cells of a ring, where the first cells follow the last ones.  Of
`left` bytes that are still to be packed, `ahead` gives the next ones. -/
def lookUp (cells : Array UInt8) (cursor : Nat) (left : Int) (ahead : Bytes) : Except Fault Finding :=
  if left < 3 then .ok .tooFew
  else
    let ring := cells.extract 0 4096 ++ cells.extract 0 maxCopy
    let best := longestFrom ring (min maxCopy left.toNat) cursor ahead ⟨0, 2⟩ 0 (ring.size + 1)
    if best.length < 3 then .ok .nothing
    else if best.place < 4096 then .ok (.part best)
    else .error (.disagreement .matchPosition)

/-- The part of the cells that is copied for the next bytes, if one is. -/
def findMatch (cells : Array UInt8) (cursor left : Nat) (ahead : Bytes) : Except Fault (Option Match) :=
  (lookUp cells cursor left ahead).map Finding.part?

/-- Leaves out `skip` bytes, then gives the commands for the data. -/
def commandsFrom (w : Window) : (skip : Nat) → Bytes → Except Fault (List Command)
  | _, [] => .ok []
  | skip + 1, _ :: rest => commandsFrom w skip rest
  | 0, b :: rest => do
    let ahead := b :: rest.take (maxCopy - 1)
    match ← findMatch w.cells.toArray w.cursor ahead.length ahead with
    | none => return .literal b :: (← commandsFrom (w.push b) 0 rest)
    | some m =>
      return .copy m.place m.length :: (← commandsFrom (w.copy m.place m.length) (m.length - 1) rest)

/-- The commands for data of more than three bytes: three literals, then copies where they help. -/
def commands (data : Bytes) : Except Fault (List Command) := do
  let first := data.take 3
  let window := first.foldl Window.push Window.packing
  return first.map Command.literal ++ (← commandsFrom window 0 (data.drop 3))

/-- The commands for the data as they are written.  For data of up to three bytes nothing is written. -/
def packedCommands (data : Bytes) : Except Fault Bytes :=
  if data.length ≤ 3 then .ok []
  else do (Writer.behind (data.take 3)).write ((← commands data).drop 3)

/-- Packs data behind their length, and makes sure that they unpack again.  Data of up to three bytes
have no packed form. -/
def pack (data : Bytes) : Except Fault Bytes := do
  let header ← Bytes.putLE 4 data.length
  if data.length < 2 then throw (.ended .byte)
  let body ← packedCommands data
  let (again, _) ← unpack data.length body
  if again = data then return header ++ body else throw (.disagreement .packedContent)

end AdventureKit.Lzss
