/-!
# Keys

What is typed is a row of keys.  The arrow keys arrive as three characters each.
-/

namespace AdventureKit

/-- A key that is pressed. -/
inductive Key where
  | up
  | down
  | enter
  /-- Takes the last character back. -/
  | back
  /-- Stops the program. -/
  | stop
  | char (c : Char)
  /-- Any other key. -/
  | other
  deriving DecidableEq, Repr

namespace Key

/-- The key that one character stands for. -/
def ofChar (c : Char) : Key :=
  if c == '\r' || c == '\n' then .enter
  else if c == '\x08' || c == '\x7f' then .back
  else if c == '\x03' || c == '\x11' then .stop
  else if c < ' ' then .other
  else .char c

/-- The keys of typed characters. -/
def ofChars : List Char → List Key
  | '\x1b' :: '[' :: c :: s => (if c == 'A' then .up else if c == 'B' then .down else .other) :: ofChars s
  | c :: s => ofChar c :: ofChars s
  | [] => []

/-- The key of a name; a character is its own name. -/
def ofName (name : String) : Key :=
  match name with
  | "up" => .up
  | "down" => .down
  | "enter" => .enter
  | "c-c" | "c-q" => .stop
  | "space" => .char ' '
  | _ =>
    match name.toList with
    | [c] => .char c
    | _ => .other

end Key

end AdventureKit
