import AdventureKit.Text.Capital

/-!
# Letters

Two characters are forms of one letter if they have the same capital form.  A few capitals are signs of
their own, and are read as the small letter that they stand for.
-/

namespace AdventureKit.Text

/-- Capitals that are read as a small letter. -/
def signs : List (Nat × Nat) := [
  (0x130, 0x69), (0x3F4, 0x3B8), (0x1E9E, 0xDF), (0x2126, 0x3C9), (0x212A, 0x6B), (0x212B, 0xE5)]

/-- The letter of a character, by its capital form. -/
def letter (c : Nat) : List Nat :=
  capital ((signs.lookup c).getD c)

/-- The small letter with a given capital. -/
def SmallLetters.ofCapital? (r : SmallLetters) (c : Nat) : Option Nat :=
  if r.capital ≤ c ∧ r.first + (c - r.capital) ≤ r.last ∧ (c - r.capital) % r.step = 0 then
    some (r.first + (c - r.capital))
  else none

/-- All forms of the letter of a character. -/
def forms (c : Nat) : List Nat :=
  let l := letter c
  let others := match l with
    | [d] => d :: smallLetters.filterMap (·.ofCapital? d)
    | _ => (capitalSequences.filter (·.2 == l)).map Prod.fst
  (c :: others ++ signs.map Prod.fst).filter (letter · == l)

/-- Whether a character is the capital of another one. -/
def isCapital (c : Nat) : Bool :=
  capital c == [c] && (forms c).any (· != c)

end AdventureKit.Text
