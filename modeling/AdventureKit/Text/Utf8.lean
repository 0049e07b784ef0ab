import AdventureKit.Text.CodePage

/-!
# UTF-8, strict and with escapes

The strict form refuses bytes that are no UTF-8 and code points that are no characters.  The escaping
form keeps such a byte `b` as the code point `0xDC00 + b` and writes it back as that byte, so it reads
every byte string.
-/

namespace AdventureKit.Utf8

/-- A byte that continues a character. -/
def isTail (b : UInt8) : Bool :=
  0x80 ≤ b && b ≤ 0xBF

/-- The six bits that a continuing byte carries. -/
def tailBits (b : UInt8) : Nat :=
  b.toNat % 64

/-- The character that starts with the byte `a`, and how many bytes of `rest` belong to it. -/
def character? (a : UInt8) (rest : Bytes) : Option (Nat × Nat) :=
  if a < 0x80 then some (a.toNat, 0)
  else if 0xC2 ≤ a && a ≤ 0xDF then
    match rest with
    | b :: _ => if isTail b then some (a.toNat % 32 * 64 + tailBits b, 1) else none
    | _ => none
  else if 0xE0 ≤ a && a ≤ 0xEF then
    match rest with
    | b :: c :: _ =>
      let code := a.toNat % 16 * 4096 + tailBits b * 64 + tailBits c
      if isTail b && isTail c && 0x800 ≤ code && !Text.isSurrogate code then some (code, 2) else none
    | _ => none
  else if 0xF0 ≤ a && a ≤ 0xF4 then
    match rest with
    | b :: c :: d :: _ =>
      let code := a.toNat % 8 * 262144 + tailBits b * 4096 + tailBits c * 64 + tailBits d
      if isTail b && isTail c && isTail d && 0x10000 ≤ code && code ≤ 0x10FFFF then some (code, 3)
      else none
    | _ => none
  else none

/-- Leaves out `skip` bytes, then reads characters; `other` says what a byte that starts none is. -/
def decodeFrom (other : UInt8 → Except Fault Nat) : (skip : Nat) → Bytes → Except Fault Text
  | _, [] => .ok []
  | skip + 1, _ :: rest => decodeFrom other skip rest
  | 0, a :: rest =>
    match character? a rest with
    | some (code, skip) => return code :: (← decodeFrom other skip rest)
    | none => do
      let code ← other a
      return code :: (← decodeFrom other 0 rest)

/-- Reads UTF-8 and refuses all else. -/
def decode (bs : Bytes) : Except Fault Text :=
  decodeFrom (fun _ => .error .undecodable) 0 bs

/-- Reads UTF-8 and keeps other bytes as escapes. -/
def decodeEscaped (bs : Bytes) : Except Fault Text :=
  decodeFrom (fun b => .ok (0xDC00 + b.toNat)) 0 bs

/-- The bytes of a character. -/
def characterBytes (c : Nat) : Bytes :=
  if c < 0x80 then [UInt8.ofNat c]
  else if c < 0x800 then [UInt8.ofNat (0xC0 + c / 64), UInt8.ofNat (0x80 + c % 64)]
  else if c < 0x10000 then
    [UInt8.ofNat (0xE0 + c / 4096), UInt8.ofNat (0x80 + c / 64 % 64), UInt8.ofNat (0x80 + c % 64)]
  else
    [UInt8.ofNat (0xF0 + c / 262144), UInt8.ofNat (0x80 + c / 4096 % 64),
      UInt8.ofNat (0x80 + c / 64 % 64), UInt8.ofNat (0x80 + c % 64)]

/-- Writes characters; `other` says what a code point that is none becomes. -/
def encodeWith (other : Nat → Except Fault Bytes) : Text → Except Fault Bytes
  | [] => .ok []
  | c :: t => do
    let bytes ← if Text.isSurrogate c then other c else .ok (characterBytes c)
    return bytes ++ (← encodeWith other t)

/-- Writes UTF-8. -/
def encode (t : Text) : Except Fault Bytes :=
  encodeWith (fun _ => .error .unencodable) t

/-- Writes UTF-8 and turns escapes back into their bytes. -/
def encodeEscaped (t : Text) : Except Fault Bytes :=
  encodeWith
    (fun c => if 0xDC80 ≤ c && c ≤ 0xDCFF then .ok [UInt8.ofNat (c - 0xDC00)] else .error .unencodable) t

/-- Reads UTF-8 as a string. -/
def decodeString (bs : Bytes) : Except Fault String := do
  return String.ofList ((← decode bs).map Char.ofNat)

/-- The bytes of a string. -/
def ofString (s : String) : Bytes :=
  s.toList.flatMap fun c => characterBytes c.toNat

end AdventureKit.Utf8
