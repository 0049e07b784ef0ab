import AdventureKit.Stream
import AdventureKit.Text.Utf8

/-!
# Script files

A script file is a header of 128 bytes, the code, and then the texts and the resources of its own, if
it has them.  The header gives the places of the two parts; a place of all ones stands for a part that
is not there, and so does zero.  The parts lie back to back, texts before resources, up to the end of
the file.
-/

namespace AdventureKit

/-- The parts of a script file. -/
structure ScriptFile where
  /-- The code, without the header. -/
  code : Bytes
  /-- The places of the exported functions. -/
  functions : List Nat
  /-- The texts of its own. -/
  texts : Option Bytes
  /-- The resources of its own. -/
  resources : Option Bytes
  imNumber : Nat
  exNumber : Nat
  deriving DecidableEq, Repr

namespace ScriptFile

/-- The length of the header, where the code starts. -/
def headerSize : Nat := 128

/-- The field of the header with the place of the texts. -/
def textsField : Nat := 48

/-- The field of the header with the place of the resources. -/
def resourcesField : Nat := 52

/-- A value, with `instead` in place of `mark`. -/
def unmark {α : Type} [DecidableEq α] (mark instead value : α) : α :=
  if value = mark then instead else value

/-- The place in a field of the header, zero for a part that is not there. -/
def placeIn (field : Nat) (file : Bytes) : Nat :=
  unmark 0xFFFFFFFF 0 (Bytes.dword (file.drop field))

/-- A part of `size` bytes, which has to start where the part before it ended. -/
def part (place : Nat) (size : Int) (c : Cursor) : Except Fault (Option Bytes × Cursor) :=
  if place = 0 then .ok (none, c)
  else if c.pos = place then
    let (got, c) := c.read size
    .ok (some got, c)
  else .error (.disagreement .layout)

/-- Where the code ends: at the first part, or at the end of a file of `size` bytes. -/
def codeEnd (size texts resources : Nat) : Nat :=
  ([texts, resources].filter (0 < ·)).foldl min size

/-- What the header says. -/
structure Header where
  /-- The place of the texts, zero if there are none. -/
  texts : Nat
  /-- The place of the resources, zero if there are none. -/
  resources : Nat
  functions : List Nat
  imNumber : Nat
  exNumber : Nat
  deriving DecidableEq, Repr

/-- Reads the header of a file. -/
def Header.ofBytes (file : Bytes) : Except Fault Header := do
  let header := file.take headerSize
  let _ ← Utf8.decode (Bytes.slice 39 42 header)
  match Bytes.slice 59 62 header with
  | [im, ex, _] =>
    return {
      texts := placeIn textsField header
      resources := placeIn resourcesField header
      functions := (List.range 14).map fun i => Bytes.word (header.drop (100 + 2 * i))
      imNumber := im.toNat
      exNumber := ex.toNat }
  | _ => throw .wrongCount

/-- Takes a file apart as its header says. -/
def ofHeader (h : Header) (file : Bytes) : Except Fault ScriptFile := do
  let first := codeEnd file.length h.texts h.resources
  let last := max h.texts h.resources
  let before : Int := (last : Int) - first
  let after : Int := (file.length : Int) - last
  let (textSize, resourceSize) := if h.texts > h.resources then (after, before) else (before, after)
  let (code, c) := ({ Cursor.ofBytes file with pos := headerSize }).read ((first : Int) - headerSize)
  let (texts, c) ← part h.texts textSize c
  let (resources, c) ← part h.resources resourceSize c
  if h.resources ≠ 0 ∧ c.rest ≠ [] then throw (.disagreement .layout)
  return ⟨code, h.functions, texts, resources, h.imNumber, h.exNumber⟩

/-- Takes a script file apart. -/
def ofBytes (file : Bytes) : Except Fault ScriptFile := do
  ofHeader (← Header.ofBytes file) file

/-- Takes a script file that lies loose on a disk apart.  Its code must not end inside the header, but
for the last byte of it. -/
def ofLooseFile (file : Bytes) : Except Fault ScriptFile := do
  let h ← Header.ofBytes file
  if codeEnd file.length h.texts h.resources + 1 < headerSize then throw .wrongSize
  ofHeader h file

end ScriptFile

end AdventureKit
