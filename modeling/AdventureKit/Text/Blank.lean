/-!
# Blanks

The characters that part words: the spaces of all widths, the line and paragraph ends, and the control
characters that move the pen.
-/

namespace AdventureKit.Text

/-- The code points of the blanks, as first and last of each run. -/
def blanks : List (Nat × Nat) := [
    (0x09, 0x0D), (0x1C, 0x20), (0x85, 0x85), (0xA0, 0xA0), (0x1680, 0x1680), (0x2000, 0x200A),
    (0x2028, 0x2029), (0x202F, 0x202F), (0x205F, 0x205F), (0x3000, 0x3000)]

/-- Whether a character is a blank. -/
def isBlank (c : Char) : Bool :=
  blanks.any fun (first, last) => first ≤ c.toNat && c.toNat ≤ last

/-- The words of a text; `word` are the characters of the first word so far, the last one first. -/
def wordsFrom (word : List Char) : List Char → List String
  | [] => if word.isEmpty then [] else [String.ofList word.reverse]
  | c :: s =>
    if !isBlank c then wordsFrom (c :: word) s
    else if word.isEmpty then wordsFrom [] s
    else String.ofList word.reverse :: wordsFrom [] s

/-- The words between blanks. -/
def words (s : String) : List String :=
  wordsFrom [] s.toList

end AdventureKit.Text
