import AdventureKit.Archive.Rebuild
import AdventureKit.Game.Disk
import AdventureKit.Text.Quoted

/-!
# A folder as patches

The files of a folder stand for new contents of the entries of an archive.  Only listed names count.  A
content that was set is remembered and also written to a file of its name, which is not in the folder
but where paths start from; a name that was taken is no longer listed, though its file can still be
read.
-/

namespace AdventureKit

/-- The files of a folder as patches. -/
structure Overlay where
  disk : Disk
  /-- The folder that paths start from. -/
  here : Place
  /-- The path of the folder of patches. -/
  folder : String
  /-- The names that count. -/
  listed : List String
  /-- The names that were taken. -/
  taken : List String := []
  /-- The contents that were set. -/
  contents : Table String Bytes := []
  deriving DecidableEq, Repr

namespace Overlay

/-- The files of a folder; names are listed in the order of their characters. -/
def ofFolder (disk : Disk) (here : Place) (folder : String) (listed : List String) : Overlay where
  disk := disk
  here := here
  folder := folder
  listed := (Sequence.distinct listed).mergeSort fun a b => decide (a ≤ b)

/-- The names that are left. -/
def keys (o : Overlay) : List String :=
  o.listed.filter fun name => !o.taken.contains name

/-- The number of names that are left. -/
def size (o : Overlay) : Nat :=
  o.keys.length

/-- The fault of a name that is not listed. -/
def unknown (name : String) : Fault :=
  .unknownKey (Quoted.string name)

/-- The content of the file of a name. -/
def file (o : Overlay) (name : String) : Except Fault Bytes := do
  (← o.disk.read (← o.disk.follow o.here (Path.under o.folder name))).bytes

/-- The content of a name. -/
def get (o : Overlay) (name : String) : Except Fault Bytes :=
  match o.contents.get? name with
  | some content => .ok content
  | none => if o.listed.contains name then o.file name else .error (unknown name)

/-- Gives a name a content. -/
def set (o : Overlay) (name : String) (content : Bytes) : Except Fault Overlay := do
  if !o.listed.contains name then throw (unknown name)
  let disk ← o.disk.write (← o.disk.follow o.here name) (.data content)
  return { o with disk := disk, contents := o.contents.put name content }

/-- Takes a name out of the list. -/
def erase (o : Overlay) (name : String) : Overlay :=
  { o with contents := o.contents.erase name, taken := name :: o.taken }

/-- The content of a name, if there is one. -/
def find? (o : Overlay) (name : String) : Except Fault (Option Bytes) :=
  match o.get name with
  | .ok content => .ok (some content)
  | .error (.unknownKey _) => .ok none
  | .error e => .error e

/-- Whether a name has a content. -/
def contains (o : Overlay) (name : String) : Except Fault Bool :=
  return (← o.find? name).isSome

/-- The content of a name, which is taken out. -/
def pop (o : Overlay) (name : String) : Except Fault (Bytes × Overlay) := do
  let content ← o.get name
  return (content, o.erase name)

/-- The content of a name, which is taken out, or a content in its place. -/
def popOr (o : Overlay) (name : String) (content : Bytes) : Except Fault (Bytes × Overlay) := do
  match ← o.find? name with
  | some content => return (content, o.erase name)
  | none => return (content, o)

/-- The first name and its content, which are taken out. -/
def popFirst (o : Overlay) : Except Fault ((String × Bytes) × Overlay) :=
  match o.keys with
  | [] => .error .nothingLeft
  | name :: _ => do
    let (content, o) ← o.pop name
    return ((name, content), o)

/-- The content of a name, which is set if there is none. -/
def getOrSet (o : Overlay) (name : String) (content : Bytes) : Except Fault (Bytes × Overlay) := do
  match ← o.find? name with
  | some content => return (content, o)
  | none => return (content, ← o.set name content)

/-- Takes out the names `left` one after the other; stops at one that cannot be read. -/
def clearFrom (o : Overlay) : List String → Except Fault Unit × Overlay
  | [] => (.ok (), o)
  | name :: left =>
    match o.get name with
    | .ok _ => (o.erase name).clearFrom left
    | .error e => (.error e, o)

/-- Takes out all names. -/
def clear (o : Overlay) : Except Fault Unit × Overlay :=
  o.clearFrom o.keys

/-- The names that are left with their contents. -/
def items (o : Overlay) : List (String × Except Fault Bytes) :=
  o.keys.map fun name => (name, o.get name)

instance : Archive.Patches Overlay where
  take o name := do
    match ← o.find? name with
    | some content => return (some content, o.erase name)
    | none => return (none, o)
  items := items

end Overlay

end AdventureKit
