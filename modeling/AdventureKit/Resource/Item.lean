import AdventureKit.Lzss.Unpack
import AdventureKit.Stream.Readers

/-!
# Resource tables

A table of resources starts with their number and gives ten bytes to each: its place after the table,
its size and the frame of its picture.  The highest bit of the width tells that the resource is
packed.  A negative place leads to a file that several scripts share.
-/

namespace AdventureKit.Resource

/-- A record of a resource table. -/
structure Item where
  offset : Int
  size : Nat
  width : Nat
  height : Nat
  packed : Bool
  deriving DecidableEq, Repr

namespace Item

/-- The bit of the width that tells a packed resource. -/
def packedBit : Nat := 0x8000

/-- Reads a record. -/
def read : Reading Cursor Item := do
  let offset := (← Source.read 4).toIntLE
  let size ← Reading.word
  let width ← Reading.word
  let height ← Reading.word
  return ⟨offset, size, width % packedBit, height, packedBit ≤ width⟩

/-- The bytes of a record. -/
def bytes (item : Item) : Except Fault Bytes := do
  let offset ← Bytes.putSignedLE 4 item.offset
  let size ← Bytes.putLE 2 item.size
  let width ← Bytes.putLE 2 (item.width + if item.packed then packedBit else 0)
  let height ← Bytes.putLE 2 item.height
  return offset ++ size ++ width ++ height

/-- The place in the shared file that a negative offset stands for. -/
def sharedPlace (item : Item) : Nat :=
  (-(item.offset + 1)).toNat

end Item

/-- Reads the same thing `n` times. -/
def readTimes {σ α : Type} (step : Reading σ α) : (n : Nat) → Reading σ (List α)
  | 0 => return []
  | n + 1 => do
    let a ← step
    return a :: (← readTimes step n)

/-- Reads a table, which has to have records. -/
def readTable : Reading Cursor (List Item) := do
  let count ← Reading.signedWord
  let _ ← Reading.byte
  if count ≤ 0 then throw (.disagreement .resourceCount)
  readTimes Item.read count.toNat

/-- The content of a resource that starts at a place of a file. -/
def contentAt (file : Bytes) (place : Nat) (item : Item) : Except Fault Bytes :=
  let rest : Bytes := file.drop place
  if item.packed then (Lzss.unpackSized rest).map Prod.fst else .ok (rest.take item.size)

/-- The item of an index; a negative index counts from the end. -/
def itemAt (items : List Item) (index : Int) : Except Fault Item :=
  let place := if index < 0 then index + items.length else index
  match if place < 0 then none else items[place.toNat]? with
  | some item => .ok item
  | none => .error (.ended .byte)

end AdventureKit.Resource
