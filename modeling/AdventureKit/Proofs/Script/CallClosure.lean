import Mathlib.Order.Bounds.Defs
import AdventureKit.Proofs.Script.Discipline
import AdventureKit.Proofs.Script.Tour
import AdventureKit.Proofs.Sequence

/-!
# Tours along calls

A tour along the calls of a script visits a place as if nothing had been visited before: what it notes and writes there
are the calls (`callsAt`) and the text (`sectionAt`) of that place alone.  So the places that it visits are the calls
that were noted in the end, each once and in the order in which they were first noted, and they are the least set of
places that has the first calls in it and, with a place, all that is called there.
-/

namespace AdventureKit

namespace Sequence

variable {α : Type} [BEq α] [LawfulBEq α] {seen xs : List α} {x : α}

end Sequence

namespace Script

variable {m n : Machine} {code : Bytes} {s : Surroundings} {seen xs : List Nat} {x : Nat}

/-! ## The order of a tour -/

/-- A decompiler at a place of a script that has done nothing yet. -/
def Machine.fresh (code : Bytes) (s : Surroundings) (depth : Int) (x : Nat) : Machine :=
  (Machine.start code s ⟨0, depth, none, none, []⟩).called x

/-- The targets of the calls in the block at a place. -/
def callsAt (code : Bytes) (s : Surroundings) (x : Nat) : List Nat :=
  (block.run.run (Machine.fresh code s 0 x)).2.progress.calls

/-- The text of the subroutine at a place. -/
def sectionAt (code : Bytes) (s : Surroundings) (depth : Int) (x : Nat) : String :=
  (subroutine.run.run (Machine.fresh code s depth x)).2.listing

/-- A machine that decompiles a script. -/
structure Machine.Decompiles (code : Bytes) (s : Surroundings) (m : Machine) : Prop where
  data : m.cursor.data = (code ++ closing).toArray
  surroundings : m.surroundings = s

/-- What a visit does. -/
structure Visited (code : Bytes) (s : Surroundings) (x : Nat) (m n : Machine) : Prop where
  decompiles : n.Decompiles code s
  depth : n.progress.depth = m.progress.depth
  calls : n.progress.calls = m.progress.calls ++ callsAt code s x
  listing : n.listing = m.listing ++ sectionAt code s m.progress.depth x
  headed : ∃ body, sectionAt code s m.progress.depth x = heading x m.progress.depth ++ body

end Script

end AdventureKit
