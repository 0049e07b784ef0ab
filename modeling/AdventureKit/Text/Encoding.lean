import AdventureKit.Sequence
import AdventureKit.Text.Quoted
import AdventureKit.Text.Utf8

/-!
# The encodings of the game texts

Most languages are written in a code page, Korean in UTF-8 with escapes.  Hebrew texts may also be
kept by the key of the keyboard that types each letter; then `keyboard` turns keys into letters.
-/

namespace AdventureKit

/-- The Hebrew letters by the key that types them, in the order in which they are replaced. -/
def keyboard : List (Nat × Nat) := [
  (0x74, 0x5D0), (0x63, 0x5D1), (0x64, 0x5D2), (0x73, 0x5D3), (0x76, 0x5D4), (0x75, 0x5D5),
  (0x7A, 0x5D6), (0x6A, 0x5D7), (0x79, 0x5D8), (0x68, 0x5D9), (0x6C, 0x5DA), (0x66, 0x5DB),
  (0x6B, 0x5DC), (0x6F, 0x5DD), (0x6E, 0x5DE), (0x69, 0x5DF), (0x62, 0x5E0), (0x78, 0x5E1),
  (0x67, 0x5E2), (0x3B, 0x5E3), (0x70, 0x5E4), (0x2E, 0x5E5), (0x6D, 0x5E6), (0x65, 0x5E7),
  (0x72, 0x5E8), (0x61, 0x5E9), (0x2C, 0x5EA), (0x27, 0x2C), (0x2F, 0x2E), (0x77, 0x27)]

/-- How a language writes its texts. -/
inductive Encoding where
  | page (table : CodePage)
  | utf8
  | escapedUtf8
  | keys
  deriving DecidableEq, Repr

namespace Encoding

/-- Reads bytes. -/
def decode : Encoding → Bytes → Except Fault Text
  | .page p, bs => p.decode bs
  | .utf8, bs => Utf8.decode bs
  | .escapedUtf8, bs => Utf8.decodeEscaped bs
  | .keys, bs => do
    let t ← CodePage.dosHebrew.decode bs
    return Sequence.replaceMany (keyboard.map fun (key, letter) => ([key], [letter])) t

/-- Writes a text. -/
def encode : Encoding → Text → Except Fault Bytes
  | .page p, t => p.encode t
  | .utf8, t => Utf8.encode t
  | .escapedUtf8, t => Utf8.encodeEscaped t
  | .keys, t =>
    CodePage.dosHebrew.encode
      (Sequence.replaceMany (keyboard.map fun (key, letter) => ([letter], [key])) t)

end Encoding

/-- The encodings of languages. -/
structure Encodings where
  listed : List (String × Encoding)
  /-- The encoding of languages that are not listed. -/
  otherwise : Option Encoding
  deriving DecidableEq, Repr

namespace Encodings

/-- The encoding of a language. -/
def of (encodings : Encodings) (language : String) : Except Fault Encoding :=
  match encodings.listed.lookup language <|> encodings.otherwise with
  | some encoding => .ok encoding
  | none => .error (.unknownKey (Quoted.string language))

/-- The encodings of the games, the western page for most languages; `keys` keeps Hebrew by its
keys. -/
def standard (keys : Bool) : Encodings :=
  ⟨[("ISR", if keys then .keys else .page .windowsHebrew), ("KOR", .escapedUtf8)],
    some (.page .dosWestern)⟩

/-- What stands for a text that is not there. -/
def absent : String := "---"

/-- The text of a language's line, or the mark of a line that is not there. -/
def read (encodings : Encodings) (language : String) : Option Bytes → Except Fault Text
  | none => .ok (Text.ofString absent)
  | some line => do (← encodings.of language).decode line

/-- The line of a language's text; the mark gives no line. -/
def write (encodings : Encodings) (language : String) : Option Text → Except Fault (Option Bytes)
  | none => .ok none
  | some t =>
    if t == Text.ofString absent then .ok none
    else do return some (← (← encodings.of language).encode t)

end Encodings

end AdventureKit
