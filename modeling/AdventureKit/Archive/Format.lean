import AdventureKit.Archive.Basic

/-!
# Kinds of archives

A kind of archives says how the names of an archive are found and how an entry is read.  One that leaves
a part out cannot do it.  An archive that was opened can be read until it is closed.
-/

namespace AdventureKit.Archive

/-- How archives of a kind are read. -/
structure Format where
  names? : Option (Bytes → Except Fault (List String))
  read? : Option (Bytes → String → Except Fault Bytes)

namespace Format

/-- The fault of a part that a kind leaves out. -/
def missing : Fault :=
  .notThere ""

/-- The names of the entries. -/
def names (f : Format) (data : Bytes) : Except Fault (List String) :=
  match f.names? with
  | some names => names data
  | none => .error missing

/-- The content of an entry. -/
def read (f : Format) (data : Bytes) (name : String) : Except Fault Bytes :=
  match f.read? with
  | some read => read data name
  | none => .error missing

/-- The archives of the games. -/
def standard : Format where
  names? := some fun data => (ofBytes data).map Archive.names
  read? := some fun data name => do (← ofBytes data).read name

end Format

/-- An archive that was opened. -/
structure Handle where
  archive : Archive
  isOpen : Bool
  deriving DecidableEq, Repr

namespace Handle

/-- Opens an archive. -/
def ofFile (data : Bytes) : Except Fault Handle := do
  return ⟨← ofBytes data, true⟩

/-- Closes an archive. -/
def close (h : Handle) : Handle :=
  { h with isOpen := false }

/-- The content of an entry. -/
def read (h : Handle) (name : String) : Except Fault Bytes :=
  if h.isOpen then h.archive.read name else .error .closed

end Handle

end AdventureKit.Archive
