import AdventureKit.Archive.Basic
import AdventureKit.Lzss.Pack

/-!
# Rebuilding archives

A rebuilt archive holds the entries of an archive in their order, with the content of a patch where
there is one, and the other patches as new entries after them.  Entries whose content stays the same
keep their stored bytes.  Names that share an entry go on to share the one that is stored first.
-/

namespace AdventureKit.Archive

/-- New contents by name.  `take` gives the content of a name out of the patches, `items` lists what is
left, and either may fail to read a content. -/
class Patches (π : Type) where
  take : π → String → Except Fault (Option Bytes × π)
  items : π → List (String × Except Fault Bytes)

instance : Patches (Table String Bytes) where
  take patches name := .ok (patches.get? name, patches.erase name)
  items patches := patches.map fun (name, content) => (name, .ok content)

/-- A record of an index of the first format before its place in the file is known. -/
structure HeaderRecord where
  name : String
  offset : Int
  size : Int
  compression : Int
  deriving DecidableEq, Repr

/-- The bytes of a text that has to be ASCII. -/
def asciiBytes (s : String) : Except Fault Bytes :=
  if s.toList.all fun c => c.toNat < 128 then .ok (Bytes.ofAscii s) else .error .unencodable

/-- A text filled up with zeros. -/
def paddedAscii (width : Nat) (s : String) : Except Fault Bytes := do
  return (← asciiBytes s).padTo width

/-- The bytes of a record; offsets are counted from the end of the index. -/
def HeaderRecord.bytes (base : Nat) (r : HeaderRecord) : Except Fault Bytes := do
  let name ← paddedAscii nameField r.name
  let size ← Bytes.putLE 4 r.size
  let offset ← Bytes.putLE 4 (r.offset + base)
  let compression ← Bytes.single r.compression
  return name ++ size ++ offset ++ [compression]

/-- The index of the first format. -/
def headerBytes (records : List HeaderRecord) : Except Fault Bytes := do
  let count ← Bytes.putLE 2 records.length
  let base := recordSize * records.length + 2
  return count ++ (← records.mapM (HeaderRecord.bytes base)).flatten

/-- The name that new entries of the later format have as their creator. -/
def newCreator : String := "Boozook"

/-- The length of what the later format puts before its contents. -/
def datedHeaderSize : Nat := 32

/-- The record of an entry of the later format whose name is stored at `namePlace`. -/
def datedRecord (namePlace : Nat) (e : Entry) (d : Details) : Except Fault Bytes := do
  let place ← Bytes.putLE 4 namePlace
  let creator ← paddedAscii 8 d.creator
  let size ← Bytes.putLE 4 e.size
  let contentSize ← Bytes.putLE 4 d.contentSize
  let offset ← Bytes.putLE 4 (e.offset + datedHeaderSize)
  let compression ← Bytes.putLE 4 e.compression
  return place ++ Bytes.ofAscii d.modified.toString ++ Bytes.ofAscii d.created.toString
    ++ creator.take 8 ++ size ++ contentSize ++ d.unknown ++ offset ++ compression

/-- The names and the records of the later format, when the first name is stored at `namePlace`. -/
def datedIndex (namePlace : Nat) : List (String × Entry) → Except Fault (Bytes × Bytes)
  | [] => .ok ([], [])
  | (name, e) :: index => do
    let _ ← Bytes.putLE 4 namePlace
    let written ← asciiBytes name
    let record ← match e.details with
      | some d => datedRecord namePlace e d
      | none => throw .notYetKnown
    let (names, records) ← datedIndex (namePlace + name.length + 1) index
    return (written ++ 0 :: names, record ++ records)

/-- A file of the later format with these contents. -/
def datedFile (now : Timestamp) (index : List (String × Entry)) (contents : Bytes) :
    Except Fault Bytes := do
  let place := contents.length + datedHeaderSize
  let indexPlace ← Bytes.putLE 4 place
  let creator ← paddedAscii 8 newCreator
  let (names, records) ← datedIndex (place + 8) index
  let count ← Bytes.putLE 4 index.length
  let recordsPlace ← Bytes.putLE 4 (place + 8 + names.length)
  return datedMark ++ Bytes.ofAscii now.toString ++ creator.take 8 ++ indexPlace ++ contents ++ count
    ++ recordsPlace ++ names ++ records

/-- A file of the first format with these contents. -/
def firstFile (index : List (String × Entry)) (contents : Bytes) : Except Fault Bytes := do
  let records := index.map fun (name, e) =>
    (⟨name, e.offset, e.size, e.compression⟩ : HeaderRecord)
  return (← headerBytes records) ++ contents

/-- A rebuild under way: the new index, the contents so far, and which entries are stored already and
how. -/
structure Draft where
  index : Table String Entry
  contents : Bytes
  stored : Table Entry Entry

/-- The stored bytes as they are put into the file: the first format keeps places even. -/
def padded (version : Version) (stored : Bytes) : Bytes :=
  if version = .first ∧ stored.length % 2 = 1 then stored ++ [0] else stored

/-- Puts stored bytes into the file under a name. -/
def Draft.add (draft : Draft) (version : Version) (name : String) (e : Entry) (stored : Bytes) : Draft :=
  { draft with
    index := draft.index.put name e
    contents := draft.contents ++ padded version stored }

/-- The entry for stored bytes at a place, with the details of an old entry. -/
def Entry.moved (e : Entry) (place : Nat) (stored : Bytes) (compression contentSize : Nat) : Entry where
  offset := place
  size := stored.length
  compression := compression
  details := e.details.map fun d => { d with contentSize }

/-- The bytes to store for an entry whose content becomes `content`. -/
def storedFor (a : Archive) (force : Bool) (e : Entry) (old content : Bytes) : Except Fault Bytes :=
  if old = content ∧ force = false then .ok (e.stored a.data)
  else if e.compression = 0 then .ok content
  else Lzss.pack content

/-- The name under which an entry is written. -/
def writtenName (name : String) (e : Entry) : Except Fault String :=
  if e.compression = chunked then (Path.ofString name).nameWithSuffix (String.ofList chunkedEnding)
  else .ok name

/-- Stores one entry; gives also the length of its content. -/
def Draft.addEntry {π : Type} [Patches π] (a : Archive) (force : Bool) (draft : Draft) (patches : π)
    (name : String) (e : Entry) : Except Fault (Draft × π × Nat) := do
  let old ← e.content a.data
  let (patch, patches) ← Patches.take patches name
  let content := patch.getD old
  let stored ← storedFor a force e old content
  match draft.stored.get? e with
  | some shared =>
    return ({ draft with index := draft.index.put name shared }, patches, content.length)
  | none =>
    let written ← writtenName name e
    let moved := e.moved draft.contents.length stored e.compression content.length
    let draft := draft.add a.version written moved stored
    return ({ draft with stored := draft.stored.put e moved }, patches, content.length)

/-- Stores the entries of an archive; gives also the last entry and the length of its content. -/
def Draft.addEntries {π : Type} [Patches π] (a : Archive) (force : Bool) (draft : Draft) (patches : π)
    (last : Option (Entry × Nat)) :
    List (String × Entry) → Except Fault (Draft × π × Option (Entry × Nat))
  | [] => .ok (draft, patches, last)
  | (name, e) :: items => do
    let (draft, patches, length) ← draft.addEntry a force patches name e
    draft.addEntries a force patches (some (e, length)) items

/-- The entry of a new file.  The later format takes what it does not know from the last entry, also
the length of its content. -/
def newEntry (a : Archive) (now : Timestamp) (last : Option (Entry × Nat)) (place : Nat)
    (content : Bytes) : Except Fault Entry :=
  match a.version, last with
  | .first, _ => .ok ⟨place, content.length, 0, none⟩
  | .dated, none => .error .notYetKnown
  | .dated, some (e, length) =>
    .ok ⟨place, content.length, 0, e.details.map fun d =>
      { d with contentSize := length, modified := now, creator := newCreator }⟩

/-- Stores new files. -/
def Draft.addNew (a : Archive) (now : Timestamp) (last : Option (Entry × Nat)) (draft : Draft) :
    List (String × Except Fault Bytes) → Except Fault Draft
  | [] => .ok draft
  | (name, content) :: items => do
    let content ← content
    if draft.index.has name then throw (.disagreement .freshName)
    let e ← newEntry a now last draft.contents.length content
    (draft.add a.version name e content).addNew a now last items

/-- Rebuilds an archive; gives its file and the patches that were no entry of it.  With `force` every
entry is packed anew. -/
def rebuild {π : Type} [Patches π] (a : Archive) (now : Timestamp) (patches : π) (force : Bool) :
    Except Fault (Bytes × π) := do
  let (draft, patches, last) ← Draft.addEntries a force ⟨[], [], []⟩ patches none a.index
  let draft ← draft.addNew a now last (Patches.items patches)
  let file ← match a.version with
    | .first => firstFile draft.index draft.contents
    | .dated => datedFile now draft.index draft.contents
  return (file, patches)

end AdventureKit.Archive
