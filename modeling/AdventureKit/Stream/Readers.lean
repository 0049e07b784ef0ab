import AdventureKit.Stream

/-!
# Readers

Numbers, texts that a zero byte closes, and length-prefixed blocks, read from any `Source`.
-/

namespace AdventureKit.Reading

variable {σ : Type} [Source σ]

/-- A 16-bit number. -/
def word : Reading σ Nat := do
  return (← Source.read 2).toNatLE

/-- A 16-bit number, most significant byte first. -/
def wordBE : Reading σ Nat := do
  return (← Source.read 2).toNatBE

/-- A 16-bit number in two's complement. -/
def signedWord : Reading σ Int := do
  return (← Source.read 2).toIntLE

/-- A 32-bit number. -/
def dword : Reading σ Nat := do
  return (← Source.read 4).toNatLE

/-- One byte, which has to be there. -/
def byteOr (wanted : Missing) : Reading σ UInt8 := do
  match ← Source.read 1 with
  | [] => throw (.ended wanted)
  | b :: _ => return b

/-- The next byte of a record. -/
def byte : Reading σ Nat := do
  return (← byteOr .byte).toNat

/-- The next byte, as one that decides what follows. -/
def code : Reading σ Nat := do
  return (← byteOr .code).toNat

/-- The next byte, which stays to be read. -/
def peek : Reading σ Nat := do
  let b ← code
  let _ ← Source.seek (-1) .current
  return b

/-- Bytes up to the next zero, and whether there was one.  Fewer than `bound` bytes are left. -/
def upToZero : (bound : Nat) → Reading σ (Bytes × Bool)
  | 0 => throw .exhausted
  | bound + 1 => do
    match ← Source.read 1 with
    | [] => return ([], false)
    | b :: _ =>
      if b = 0 then return ([], true)
      else
        let (bs, closed) ← upToZero bound
        return (b :: bs, closed)

/-- A text that a zero byte or the end of the data closes. -/
def openText : Reading σ Bytes := do
  return (← upToZero (Source.bound (← get) + 1)).1

/-- A text that a zero byte closes. -/
def closedText : Reading σ Bytes := do
  let (bs, closed) ← upToZero (Source.bound (← get) + 1)
  if closed then return bs else throw .notTerminated

/-- The ASCII characters of a text that a zero byte closes; other bytes are left out. -/
def asciiText : Reading σ String := do
  let bs ← closedText
  return String.ofList ((bs.filter (· < 128)).map fun b => Char.ofNat b.toNat)

/-- A block of two bytes, its length, and what the length announces; the length counts itself. -/
def block : Reading σ Bytes := do
  let head ← Source.read 2
  let length ← Source.read 2
  let more : Int := (length.toNatLE : Int) - 2
  let body ← Source.read more
  if (body.length : Int) = more then return head ++ length ++ body
  else throw (.disagreement .blockLength)

end AdventureKit.Reading
