import AdventureKit.Lzss.Window

/-!
# Unpacking

Packed data are commands: a byte that stands for itself, or a copy from the window.  A flag byte goes
before eight commands and tells their kinds, lowest bit first.  Unpacking stops as soon as the wanted
number of bytes is out, even in the middle of a copy; what follows the last command is left.

A long file is cut into chunks with a header each; `unpackChunks` joins them.
-/

namespace AdventureKit.Lzss

/-- The kinds of the next eight commands: `true` for a byte that stands for itself. -/
def flagsOf (b : UInt8) : List Bool :=
  (List.range 8).map fun i => b.toNat.testBit i

/-- The place that the two bytes of a copy name. -/
def copyPlace (first second : UInt8) : Nat :=
  first.toNat + second.toNat / 16 * 256

/-- The length that the second byte of a copy names. -/
def copyLength (second : UInt8) : Nat :=
  second.toNat % 16 + 3

/-- What is unpacked so far, last byte first, and how many bytes are still wanted. -/
structure Progress where
  window : Window
  output : Bytes
  wanted : Int

namespace Progress

/-- One more byte. -/
def emit (p : Progress) (b : UInt8) : Progress where
  window := p.window.push b
  output := b :: p.output
  wanted := p.wanted - 1

/-- Copies until enough bytes are out. -/
def copy (p : Progress) (place : Nat) : (count : Nat) → Progress
  | 0 => p
  | count + 1 =>
    let p := p.emit (p.window.byteAt place)
    if p.wanted = 0 then p else copy p (place + 1) count

end Progress

/-- Runs commands of the kinds `flags`, then reads more flags; gives what is unpacked and what is left
of the data. -/
def unpackFrom (flags : List Bool) (p : Progress) : Bytes → Except Fault (Bytes × Bytes)
  | [] =>
    match flags with
    | false :: _ => .error (.ended .group)
    | _ => .error (.ended .code)
  | b :: rest =>
    match flags with
    | [] => unpackFrom (flagsOf b) p rest
    | true :: flags =>
      let p := p.emit b
      if p.wanted = 0 then .ok (p.output.reverse, rest) else unpackFrom flags p rest
    | false :: flags =>
      match rest with
      | [] => .error (.ended .group)
      | c :: rest =>
        let p := p.copy (copyPlace b c) (copyLength c)
        if p.wanted = 0 then .ok (p.output.reverse, rest) else unpackFrom flags p rest

/-- Unpacks `wanted` bytes; gives them and what is left of the data.  A count that is not positive is
never reached, so it ends where the data end. -/
def unpack (wanted : Int) (data : Bytes) : Except Fault (Bytes × Bytes) :=
  unpackFrom [] ⟨Window.unpacking, [], wanted⟩ data

/-- Unpacks data that start with the number of bytes that they hold. -/
def unpackSized (data : Bytes) : Except Fault (Bytes × Bytes) :=
  unpack data.dword (data.drop 4)

/-- The length of a chunk that runs to the end. -/
def lastChunk : Nat := 0xFFFF

/-- Joins at most `bound` chunks; gives their content, the length of it that their headers announce, and
what is left of the data. -/
def chunksFrom : (bound : Nat) → Bytes → Except Fault (Bytes × Nat × Bytes)
  | 0, _ => .error .exhausted
  | bound + 1, data => do
    let length := data.word
    let size := Bytes.word (data.drop 2)
    if length < 4 then throw (.disagreement .chunkHeader)
    let (content, rest) ← unpack size (data.drop 6)
    if length = lastChunk then return (content, size, rest)
    if data.length - rest.length ≠ length + 2 then throw (.disagreement .chunkEnd)
    let (more, announced, rest) ← chunksFrom bound rest
    return (content ++ more, size + announced, rest)

/-- Unpacks a file of chunks: each has its length, the length of its content, two bytes that are not
used, and packed data.  The last one gives no length.  A chunk takes at least a byte, so there are no
more chunks than bytes. -/
def unpackChunks (data : Bytes) : Except Fault (Bytes × Bytes) := do
  let (content, announced, rest) ← chunksFrom (data.length + 1) data
  if content.length = announced then return (content, rest) else throw (.disagreement .contentLength)

end AdventureKit.Lzss
