import AdventureKit.Bytes

/-!
# Text blocks

A text block is the number of its lines, a record of place and size for each line, and the bodies that
the records point at.  A line with the place `0xFFFF` or the size zero has no body.

Saving puts the bodies one after the other in the order of their old places and moves the records
there; lines without a body keep their record.
-/

namespace AdventureKit

/-- A line of a text block with its record. -/
structure Line where
  place : Int
  size : Int
  body : Bytes
  deriving DecidableEq, Repr

namespace TextBlock

/-- The place of a line that has no body. -/
def nowhere : Nat := 0xFFFF

/-- The first `n` records; those that are cut off are zero. -/
def records : (n : Nat) → Bytes → List (Nat × Nat)
  | 0, _ => []
  | n + 1, bs => (Bytes.word bs, Bytes.word (bs.drop 2)) :: records n (bs.drop 4)

/-- The line of a record. -/
def lineAt (block : Bytes) (place size : Nat) : Line :=
  ⟨place, size, if place = nowhere ∨ size = 0 then [] else (block.drop place).take size⟩

/-- The lines of a text block.  Its number of lines has ten bits. -/
def read (block : Bytes) : List Line :=
  (records (block.word % 1024) (block.drop 2)).map fun (place, size) => lineAt block place size

/-- The record of a line. -/
def recordBytes (line : Line) : Except Fault Bytes :=
  if 0 ≤ line.place ∧ line.place < 65536 ∧ 0 ≤ line.size ∧ line.size < 65536 then
    .ok (Bytes.ofNatLE 2 line.place.toNat ++ Bytes.ofNatLE 2 line.size.toNat)
  else .error .recordField

/-- Gives the numbered lines, in the order of their old places, their new places from `next` on;
`firsts` has the new place of the first line of each old place.  After a body, `next` is counted from
that first line. -/
def placeFrom (firsts : List (Int × Nat)) (next : Nat) : List (Nat × Line) → List (Nat × Line)
  | [] => []
  | (i, line) :: rest =>
    let firsts :=
      if (firsts.lookup line.place).isSome then firsts else (line.place, next) :: firsts
    if line.body.isEmpty then (i, line) :: placeFrom firsts next rest
    else
      let first := (firsts.lookup line.place).getD next
      (i, ⟨next, line.body.length, line.body⟩) :: placeFrom firsts (first + line.body.length) rest

/-- The numbered lines in the order of their places. -/
def ordered (lines : List Line) : List (Nat × Line) :=
  (lines.mapIdx fun i line => (i, line)).mergeSort fun a b => a.2.place ≤ b.2.place

/-- The lines with the records that saving gives them. -/
def replaced (lines : List Line) : List Line :=
  let moved := placeFrom [] (2 + 4 * lines.length) (ordered lines)
  lines.mapIdx fun i line => (moved.lookup i).getD line

/-- The text block of lines, and the lines with their new records. -/
def save (lines : List Line) : Except Fault (Bytes × List Line) := do
  let count ← Bytes.putLE 2 lines.length
  let new := replaced lines
  let index ← new.mapM recordBytes
  return (count ++ index.flatten ++ (ordered lines).flatMap fun item => item.2.body, new)

end TextBlock

end AdventureKit
