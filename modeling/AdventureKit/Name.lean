import AdventureKit.Fault
import AdventureKit.Sequence

/-!
# Names and paths

A path is an optional root and the parts between its slashes; empty parts and `.` are left out.  The
name of a path is its last part, and its suffix is what follows the last dot of the name, unless the
dot starts or ends it.
-/

namespace AdventureKit

/-- A path: its root, which is empty, `/` or `//`, and its parts. -/
structure Path where
  root : String
  parts : List String
  deriving DecidableEq, Repr

namespace Path

/-- Cuts a text at every slash. -/
def components (s : String) : List String :=
  (Sequence.splitAll ['/'] s.toList).map String.ofList

/-- The path that a text writes. -/
def ofString (s : String) : Path where
  root :=
    if s.startsWith "///" then "/"
    else if s.startsWith "//" then "//"
    else if s.startsWith "/" then "/"
    else ""
  parts := (components s).filter fun part => part != "" && part != "."

/-- The path as a text. -/
def toString (p : Path) : String :=
  if p.root == "" && p.parts.isEmpty then "." else p.root ++ String.intercalate "/" p.parts

/-- The last part; a path without parts has no name. -/
def name (p : Path) : String :=
  p.parts.getLastD ""

/-- The second path seen from the first. -/
def join (p q : Path) : Path :=
  if q.root != "" then q else { p with parts := p.parts ++ q.parts }

/-- The path of a name in a folder. -/
def under (folder name : String) : String :=
  ((ofString folder).join (ofString name)).toString

end Path

/-- Cuts a name before its suffix. -/
def splitSuffix (name : String) : String × String :=
  let chars := name.toList
  let after := (chars.reverse.takeWhile (· != '.')).length
  let stem := chars.length - after - 1
  if after < chars.length && 0 < stem && 0 < after then
    (String.ofList (chars.take stem), String.ofList (chars.drop stem))
  else (name, "")

namespace Path

/-- The name without its suffix. -/
def stem (p : Path) : String :=
  (splitSuffix p.name).1

/-- The suffix of the name, with its dot. -/
def suffix (p : Path) : String :=
  (splitSuffix p.name).2

/-- The name with another suffix. -/
def nameWithSuffix (p : Path) (suffix : String) : Except Fault String :=
  if suffix.toList.contains '/' || (suffix != "" && !suffix.startsWith ".") || suffix == "." then
    .error .badName
  else if p.name == "" then .error .badName
  else .ok (p.stem ++ suffix)

end Path

end AdventureKit
