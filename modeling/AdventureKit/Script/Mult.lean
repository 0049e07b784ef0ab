import AdventureKit.Script.Machine

/-!
# Animation collections

A collection is a resource that the script goes on after: how many static layers and animations it
has, whether it comes with films, and which commands its keys hold decide how much of the script
belongs to the instruction that loads it.
-/

namespace AdventureKit.Script

/-- What the script needs to know of a collection. -/
structure Mult where
  statics : Nat
  animations : Nat
  films : Bool
  /-- The commands of the keys. -/
  keys : List Int
  deriving DecidableEq, Repr

namespace Mult

/-- Skips records of `size` bytes behind their count; a negative count skips all that is left. -/
def skipRecords (size : Nat) : Reading Cursor Unit := do
  let count ← Reading.signedWord
  let _ ← Source.read (count * size)

/-- The command of a key of `size` bytes. -/
def readKey (size : Nat) : Reading Cursor Int := do
  let _ ← Source.seek 2 .current
  let command ← Reading.signedWord
  let _ ← Source.seek (-4) .current
  let _ ← Source.read size
  return command

/-- Reads a collection. -/
def read : Reading Cursor Mult := do
  let statics := (← Reading.code) + 1
  let films := statics / 128 % 2 == 1
  let statics := statics % 128
  let animations := ((← Reading.code) + 1) % 256
  let _ ← Resource.readTimes (Source.read 14) (statics + animations)
  let _ ← Source.read 2
  skipRecords 4
  let _ ← Resource.readTimes (skipRecords 10) 4
  let _ ← Source.read 240
  skipRecords 7
  skipRecords 80
  let extra := if films then 0 else 24
  skipRecords (4 + extra)
  let count ← Reading.signedWord
  let keys ← Resource.readTimes (readKey (12 + extra)) count.toNat
  return { statics, animations, films, keys }

/-- The collection in the content of a resource. -/
def ofBytes (data : Bytes) : Except Fault Mult :=
  (read (Cursor.ofBytes data)).1

end Mult

end AdventureKit.Script
