import AdventureKit.Name
import AdventureKit.Picture
import AdventureKit.Table

/-!
# Disks

A disk has folders and files; a file holds bytes or a picture with its palette.  Places are lists of
names from the top.  Walking along a path checks that every part but the last is a folder, and that no
name is too long.
-/

namespace AdventureKit

/-- Names from the top of a disk. -/
abbrev Place := List String

/-- What a file holds. -/
inductive Content where
  | data (bytes : Bytes)
  | picture (p : Picture) (palette : Bytes)
  deriving DecidableEq, Repr

/-- The bytes of a file; a picture is not read as bytes. -/
def Content.bytes : Content → Except Fault Bytes
  | .data bytes => .ok bytes
  | .picture _ _ => .error .wrongKind

/-- Folders and files. -/
structure Disk where
  folders : List Place
  files : Table Place Content
  deriving DecidableEq, Repr

namespace Disk

/-- The disk without anything on it. -/
def empty : Disk :=
  ⟨[], []⟩

/-- Whether a place is a folder; the top is one. -/
def isFolder (d : Disk) (place : Place) : Bool :=
  place.isEmpty || d.folders.contains place

/-- Whether there is something at a place. -/
def has (d : Disk) (place : Place) : Bool :=
  d.isFolder place || d.files.has place

/-- The most bytes that a name has. -/
def maxName : Nat := 255

/-- Follows parts of a path from a folder on.  The last part need not be there. -/
def walk (d : Disk) (place : Place) : List String → Except Fault Place
  | [] => .ok place
  | part :: parts =>
    if d.files.has place then .error .notDirectory
    else if !d.isFolder place then .error .noFile
    else if part == ".." then d.walk place.dropLast parts
    else if maxName < part.utf8ByteSize then .error .nameTooLong
    else d.walk (place ++ [part]) parts

/-- The folder that a path starts from, seen from a folder. -/
def origin (here : Place) (path : Path) : Place :=
  if path.root == "" then here else []

/-- The path that a text writes; no name has a zero in it. -/
def pathOf (s : String) : Except Fault Path :=
  if s.toList.contains '\x00' then .error .badName else .ok (Path.ofString s)

/-- The place that a path leads to, seen from a folder. -/
def follow (d : Disk) (here : Place) (path : String) : Except Fault Place := do
  let path ← pathOf path
  d.walk (origin here path) path.parts

/-- The names in a folder, in the order of their characters. -/
def names (d : Disk) (folder : Place) : List String :=
  let inside (place : Place) : Option String :=
    if place.dropLast == folder then place.getLast? else none
  (Sequence.distinct ((d.folders ++ d.files.keys).filterMap inside)).mergeSort fun a b => decide (a ≤ b)

/-- What a file holds. -/
def read (d : Disk) (place : Place) : Except Fault Content :=
  if d.isFolder place then .error .directory
  else
    match d.files.get? place with
    | some content => .ok content
    | none => .error .noFile

/-- Writes a file, whose folder is there. -/
def write (d : Disk) (place : Place) (content : Content) : Except Fault Disk :=
  if d.isFolder place then .error .directory
  else .ok { d with files := d.files.put place content }

/-- Makes the folders on the way along parts of a path. -/
def makeFoldersFrom (d : Disk) (place : Place) : List String → Except Fault Disk
  | [] => .ok d
  | part :: parts =>
    let next := if part == ".." then place.dropLast else place ++ [part]
    if maxName < part.utf8ByteSize then .error .nameTooLong
    else if d.files.has next then .error (if parts.isEmpty then .fileExists else .notDirectory)
    else
      let d := if d.isFolder next then d else { d with folders := d.folders ++ [next] }
      d.makeFoldersFrom next parts

/-- Makes the folders of a path, seen from a folder. -/
def makeFolders (d : Disk) (here : Place) (path : String) : Except Fault Disk := do
  let path ← pathOf path
  d.makeFoldersFrom (origin here path) path.parts

/-- Puts a file on the disk together with its folders. -/
def put (d : Disk) (place : Place) (content : Content) : Except Fault Disk := do
  (← d.makeFoldersFrom [] place.dropLast).write place content

end Disk

end AdventureKit
