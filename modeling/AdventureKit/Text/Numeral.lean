import AdventureKit.Bytes

/-!
# Written numbers

Numbers in byte strings: digits with single underscores between them, blanks around them, and for
decimal numbers a sign.  A decimal number has at most `maxDigits` digits.
-/

namespace AdventureKit.Numeral

/-- The longest decimal number that is read. -/
def maxDigits : Nat := 4300

/-- A blank. -/
def isBlank (b : UInt8) : Bool :=
  b == 32 || (9 ≤ b && b ≤ 13)

/-- The value of a digit in a base up to 16. -/
def digit? (base : Nat) (b : UInt8) : Option Nat :=
  let n := b.toNat
  let value :=
    if 48 ≤ n && n ≤ 57 then n - 48
    else if 97 ≤ n && n ≤ 102 then n - 87
    else if 65 ≤ n && n ≤ 70 then n - 55
    else base
  if value < base then some value else none

/-- Digits with single underscores between them, then blanks only; `digits` are those read so far,
last one first. -/
def digitsFrom (base : Nat) (digits : List Nat) : Bytes → Option (List Nat)
  | [] => if digits.isEmpty then none else some digits.reverse
  | b :: rest =>
    match digit? base b with
    | some d => digitsFrom base (d :: digits) rest
    | none =>
      if digits.isEmpty then none
      else if b == 95 then
        match rest with
        | c :: rest =>
          match digit? base c with
          | some d => digitsFrom base (d :: digits) rest
          | none => none
        | [] => none
      else if (b :: rest).all isBlank then some digits.reverse
      else none

/-- The number of digits in a base. -/
def value (base : Nat) (digits : List Nat) : Nat :=
  digits.foldl (fun n d => n * base + d) 0

/-- The decimal number that a byte string is. -/
def decimal? (bs : Bytes) : Option Int :=
  let bs := bs.dropWhile isBlank
  let (negative, bs) :=
    match bs with
    | 45 :: rest => (true, rest)
    | 43 :: rest => (false, rest)
    | _ => (false, bs)
  match digitsFrom 10 [] bs with
  | some digits =>
    if digits.length ≤ maxDigits then
      let n : Int := value 10 digits
      some (if negative then -n else n)
    else none
  | none => none

/-- The hexadecimal number that a byte string is after the mark of its base. -/
def hexadecimal? (bs : Bytes) : Option Nat :=
  let bs :=
    match bs with
    | 95 :: rest => rest
    | _ => bs
  (digitsFrom 16 [] bs).map (value 16)

end AdventureKit.Numeral
