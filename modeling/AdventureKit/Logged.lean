import AdventureKit.Fault

/-!
# Results with remarks

Some conversions remark on what they meet while they go on.  The remarks made before a failure are
kept.
-/

namespace AdventureKit

/-- A computation that may fail and writes remarks on the way. -/
abbrev Logged := ExceptT Fault (StateM String)

namespace Logged

/-- Writes a remark. -/
def say (s : String) : Logged Unit :=
  modify (· ++ s)

/-- A result without remarks. -/
def ofExcept {α : Type} : Except Fault α → Logged α
  | .ok a => pure a
  | .error e => throw e

end Logged

end AdventureKit
