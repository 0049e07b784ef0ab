import AdventureKit.Text.CodePage
import AdventureKit.Text.Printable

/-!
# Quoted values

How values are shown inside a line: texts and byte strings in quotes with escapes, lists in brackets,
tables in braces.  The quote is `'` unless the text holds that one and not `"`.
-/

namespace AdventureKit.Quoted

/-- A number in `width` hexadecimal digits or more. -/
def hex (width n : Nat) : String :=
  let digits := Nat.toDigits 16 n
  String.ofList (List.replicate (width - digits.length) '0' ++ digits)

/-- The quote that a value with these code points is put in. -/
def quoteFor (codes : List Nat) : Char :=
  if codes.contains 39 && !codes.contains 34 then '"' else '\''

/-- The escape that all values share. -/
def shortEscape? (quote : Char) (c : Nat) : Option String :=
  if c == quote.toNat then some (String.ofList ['\\', quote])
  else if c == 92 then some "\\\\"
  else if c == 9 then some "\\t"
  else if c == 10 then some "\\n"
  else if c == 13 then some "\\r"
  else none

/-- A code point of a quoted text. -/
def textCode (quote : Char) (c : Nat) : String :=
  match shortEscape? quote c with
  | some s => s
  | none =>
    if Text.isPrintable c then String.singleton (Char.ofNat c)
    else if c < 0x100 then "\\x" ++ hex 2 c
    else if c < 0x10000 then "\\u" ++ hex 4 c
    else "\\U" ++ hex 8 c

/-- A byte of a quoted byte string. -/
def byteCode (quote : Char) (b : UInt8) : String :=
  match shortEscape? quote b.toNat with
  | some s => s
  | none => if 0x20 ≤ b && b ≤ 0x7E then String.singleton (Char.ofNat b.toNat) else "\\x" ++ hex 2 b.toNat

/-- A text in quotes. -/
def text (t : Text) : String :=
  let quote := quoteFor t
  String.singleton quote ++ String.join (t.map (textCode quote)) ++ String.singleton quote

/-- A string in quotes. -/
def string (s : String) : String :=
  text (Text.ofString s)

/-- A byte string in quotes. -/
def bytes (bs : Bytes) : String :=
  let quote := quoteFor (bs.map UInt8.toNat)
  "b" ++ String.singleton quote ++ String.join (bs.map (byteCode quote)) ++ String.singleton quote

/-- Values in brackets. -/
def list (items : List String) : String :=
  "[" ++ String.intercalate ", " items ++ "]"

/-- Values in parentheses; a single one keeps its comma. -/
def tuple (items : List String) : String :=
  match items with
  | [item] => "(" ++ item ++ ",)"
  | _ => "(" ++ String.intercalate ", " items ++ ")"

/-- Keys with their values in braces. -/
def table (items : List (String × String)) : String :=
  "\x7b" ++ String.intercalate ", " (items.map fun (key, value) => key ++ ": " ++ value) ++ "\x7d"

end AdventureKit.Quoted
