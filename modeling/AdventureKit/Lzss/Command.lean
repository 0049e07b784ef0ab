import AdventureKit.Bytes

/-!
# Commands

Packed data are commands in groups of eight.  A byte before a group tells the kinds of its commands, lowest bit first.
-/

namespace AdventureKit.Lzss

/-- A step of unpacking. -/
inductive Command where
  /-- A byte that stands for itself. -/
  | literal (b : UInt8)
  /-- A part of the window. -/
  | copy (place length : Nat)
  deriving DecidableEq, Repr

namespace Command

/-- Whether the command has its flag set. -/
def isLiteral : Command → Bool
  | .literal _ => true
  | .copy _ _ => false

/-- The bytes of a command. -/
def bytes : Command → Bytes
  | .literal b => [b]
  | .copy place length => [UInt8.ofNat (place % 256), UInt8.ofNat (place / 256 * 16 + (length - 3))]

end Command

/-- The flag byte of up to eight commands. -/
def flagByte (group : List Command) : UInt8 :=
  UInt8.ofNat (group.foldr (fun c n => 2 * n + if c.isLiteral then 1 else 0) 0)

/-- The commands in groups of eight, each after its flag byte. -/
def encodeCommands : List Command → Bytes
  | [] => []
  | c :: commands =>
    let group := c :: commands.take 7
    flagByte group :: group.flatMap Command.bytes ++ encodeCommands (commands.drop 7)
termination_by commands => commands.length
decreasing_by simp only [List.length_drop, List.length_cons]; omega

end AdventureKit.Lzss
