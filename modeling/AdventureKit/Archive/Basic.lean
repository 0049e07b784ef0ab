import AdventureKit.Archive.Timestamp
import AdventureKit.Lzss.Unpack
import AdventureKit.Name.Pattern
import AdventureKit.Stream.Readers
import AdventureKit.Table
import AdventureKit.Text.Encoding

/-!
# Archives

An archive is a file with an index of named entries.  The first format puts the index at the start,
in records of 22 bytes; the later one puts it at the end and records dates, a creator and the length
of the content.  A name that occurs twice keeps its first place and its last entry.

The stored bytes of an entry are its content, or packed content, or packed chunks.
-/

namespace AdventureKit.Archive

/-- The two formats. -/
inductive Version where
  | first
  | dated
  deriving DecidableEq, Repr

/-- What the later format records besides the place of an entry. -/
structure Details where
  contentSize : Nat
  modified : Timestamp
  created : Timestamp
  creator : String
  unknown : Bytes
  deriving DecidableEq, Repr

/-- An entry of the index.  The stored bytes are content if `compression` is zero, packed chunks if
it is two, and packed content otherwise. -/
structure Entry where
  offset : Nat
  size : Nat
  compression : Nat
  details : Option Details
  deriving DecidableEq, Repr

/-- The code of entries that are stored as packed chunks. -/
def chunked : Nat := 2

/-- The bytes that are stored for an entry, as far as they are there. -/
def Entry.stored (data : Bytes) (e : Entry) : Bytes :=
  data.slice e.offset (e.offset + e.size)

/-- The content that stored bytes stand for. -/
def unpackStored (compression : Nat) (stored : Bytes) : Except Fault Bytes :=
  if compression = 0 then .ok stored
  else if compression = chunked then (Lzss.unpackChunks stored).map Prod.fst
  else (Lzss.unpackSized stored).map Prod.fst

/-- The content of an entry, whose length has to be the recorded one.  For an entry that is not packed
this is the size of the entry, also where the data end before it. -/
def Entry.content (data : Bytes) (e : Entry) : Except Fault Bytes := do
  let content ← unpackStored e.compression (e.stored data)
  match e.details with
  | some d =>
    let length := if e.compression = 0 then e.size else content.length
    if length = d.contentSize then return content else throw (.disagreement .entryLength)
  | none => return content

/-- The ending of names whose entries are packed chunks. -/
def chunkedEnding : List Char := ".0OT".toList

/-- The ending under which such entries are listed. -/
def scriptEnding : List Char := ".TOT".toList

/-- Capitals for the control characters that stand for the Cyrillic letters of their shape. -/
def lookAlikes : List (List Char × List Char) :=
  [(0x85, 'E'), (0x8A, 'K'), (0x8E, 'O'), (0x91, 'C'), (0x92, 'T')].map
    fun (code, letter) => ([Char.ofNat code], [letter])

/-- Whether an entry of this written name is packed chunks. -/
def isChunkedName (name : List Char) : Bool :=
  chunkedEnding.reverse.isPrefixOf (upperCase (String.ofList name)).toList.reverse

/-- The name under which an entry of this written name is listed. -/
def listedName (name : List Char) : String :=
  let name := if isChunkedName name then Sequence.replaceAll chunkedEnding scriptEnding name else name
  String.ofList (Sequence.replaceMany lookAlikes name)

/-- The length of the name field of a record of the first format. -/
def nameField : Nat := 13

/-- The length of a record of the first format. -/
def recordSize : Nat := 22

/-- The name and entry of a record of the first format. -/
def readRecord (record : Bytes) : Except Fault (String × Entry) := do
  let raw := (record.take nameField).takeWhile (· != 0)
  let name := (← CodePage.dosLatin.decode raw).map Char.ofNat
  let compression :=
    if isChunkedName name then chunked else if record.drop 21 == [0] then 0 else 1
  return (listedName name,
    { offset := Bytes.dword (record.drop 17), size := Bytes.dword (record.drop 13), compression,
      details := none })

/-- Reads records one after the other: `read` gives the one at a place, and `next` goes behind it. -/
def readEach {Place : Type} (read : Place → Except Fault (String × Entry)) (next : Place → Place) :
    (count : Nat) → Place → Except Fault (List (String × Entry))
  | 0, _ => .ok []
  | count + 1, place => do
    let item ← read place
    return item :: (← readEach read next count (next place))

/-- The records of the first format. -/
def readRecords (count : Nat) (data : Bytes) : Except Fault (List (String × Entry)) :=
  readEach (fun rest => readRecord (rest.take recordSize)) (fun rest => rest.drop recordSize) count data

/-- The mark of the later format. -/
def datedMark : Bytes := Bytes.ofAscii "STK2.1"

/-- The length of a record of the later format. -/
def datedRecordSize : Nat := 61

/-- The name and entry of the record of the later format at a place of the file. -/
def readDatedRecord (data : Bytes) (place : Nat) : Except Fault (String × Entry) := do
  let record : Bytes := data.drop place
  let field (start length : Nat) : Bytes := record.slice start (start + length)
  let modified ← Timestamp.ofText (← Utf8.decode (field 4 14))
  let created ← Timestamp.ofText (← Utf8.decode (field 18 14))
  let creator ← Utf8.decodeString ((field 32 8).takeWhile (· != 0))
  let name ← Utf8.decodeString ((data.drop (field 0 4).dword).takeWhile (· != 0))
  return (name,
    { offset := (field 53 4).dword
      size := (field 40 4).dword
      compression := (field 57 4).dword
      details := some
        { contentSize := (field 44 4).dword, modified, created, creator, unknown := field 48 5 } })

/-- The records of the later format from a place on. -/
def readDatedRecords (data : Bytes) (count place : Nat) : Except Fault (List (String × Entry)) :=
  readEach (readDatedRecord data) (fun place => place + datedRecordSize) count place

end AdventureKit.Archive

namespace AdventureKit

/-- An archive: the bytes of its file, its format and its index. -/
structure Archive where
  data : Bytes
  version : Archive.Version
  index : Table String Archive.Entry
  deriving DecidableEq, Repr

end AdventureKit

namespace AdventureKit.Archive

/-- Reads the index of an archive. -/
def ofBytes (data : Bytes) : Except Fault Archive := do
  if data.take 6 = datedMark then
    let names : Bytes := data.drop (Bytes.dword (data.drop 28))
    let items ← readDatedRecords data names.dword (Bytes.dword (names.drop 4))
    return ⟨data, .dated, Table.ofItems items⟩
  else
    let items ← readRecords data.word (data.drop 2)
    return ⟨data, .first, Table.ofItems items⟩

/-- The names of the archive in order. -/
def names (a : Archive) : List String :=
  a.index.keys

/-- The content of a name. -/
def read (a : Archive) (name : String) : Except Fault Bytes :=
  match a.index.get? name with
  | some e => e.content a.data
  | none => .error (.unknownKey name)

/-- The names that a pattern matches, as they are or in capitals. -/
def glob (names : List String) (pattern : String) : List String :=
  names.filter fun name => Pattern.accepts pattern name || Pattern.acceptsCapitals pattern name

end AdventureKit.Archive
