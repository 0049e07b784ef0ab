import AdventureKit.Bytes

/-!
# Writing positions

An `Output` collects bytes at a position that may lie past their end.  Moving on leaves a gap, and the gap counts only
once something is written behind it: it is filled with zeros then, and a gap at the end is lost.
-/

namespace AdventureKit

/-- The bytes written so far, and the position that the next ones go to. -/
structure Output where
  data : Array UInt8
  pos : Nat
  deriving DecidableEq, Repr

namespace Output

/-- The start of an output without bytes. -/
def empty : Output :=
  ⟨#[], 0⟩

/-- All bytes written so far. -/
def bytes (o : Output) : Bytes :=
  o.data.toList

/-- Writes bytes over what stands at the position, behind zeros if it lies past the end.  Without bytes nothing
happens. -/
def write (bs : Bytes) (o : Output) : Output :=
  if bs.isEmpty then o
  else if o.data.size ≤ o.pos then
    ⟨o.data ++ Array.replicate (o.pos - o.data.size) 0 ++ bs.toArray, o.pos + bs.length⟩
  else
    ⟨o.data.extract 0 o.pos ++ bs.toArray ++ o.data.extract (o.pos + bs.length) o.data.size, o.pos + bs.length⟩

/-- Moves on by `n` bytes. -/
def skip (n : Nat) (o : Output) : Output :=
  { o with pos := o.pos + n }

end Output

end AdventureKit
