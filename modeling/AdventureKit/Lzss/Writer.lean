import AdventureKit.Lzss.Command

/-!
# Writing commands

The bytes of a group of commands are collected in a buffer, behind the cell of the flag byte.  The group goes out when
it has eight commands, or with the last one.  The first group is begun with the bytes that packed data start with.
-/

namespace AdventureKit.Lzss

/-- The group that is collected: its bytes, the cell that is written next, the flags and the number of the
commands. -/
structure Writer where
  buffer : Vector UInt8 17
  next : Nat
  flags : Nat
  count : Nat
  deriving DecidableEq, Repr

namespace Writer

/-- The writer behind literals that go before all other commands. -/
def behind (first : Bytes) : Writer where
  buffer := Vector.ofFn fun i => if (i : Nat) = 0 then 0 else first.getD (i - 1) 0
  next := first.length + 1
  flags := 1 <<< first.length - 1
  count := first.length

/-- Writes a number to a cell. -/
def store (w : Writer) (cell value : Nat) : Except Fault Writer :=
  if h : cell < 17 then
    if value < 256 then .ok { w with buffer := w.buffer.set cell (UInt8.ofNat value) } else .error .notByte
  else .error .outside

/-- Adds the bytes and the flag of a command. -/
def put (w : Writer) : Command → Except Fault Writer
  | .literal b => do
    let w ← w.store w.next b.toNat
    return { w with next := w.next + 1, flags := w.flags ||| 1 <<< w.count }
  | .copy place length => do
    let w ← w.store w.next (place % 256)
    let w ← w.store (w.next + 1) (place / 256 % 16 * 16 + (length - 3))
    return { w with next := w.next + 2 }

/-- The group behind its flag byte. -/
def flush (w : Writer) : Except Fault Bytes := do
  let w ← w.store 0 w.flags
  return w.buffer.toList.take w.next

/-- Writes commands; the last one ends its group. -/
def write (w : Writer) : List Command → Except Fault Bytes
  | [] => .ok []
  | c :: commands => do
    let w ← w.put c
    if w.count = 7 ∨ commands = [] then
      let group ← w.flush
      return group ++ (← write { w with next := 1, flags := 0, count := 0 } commands)
    else write { w with count := w.count + 1 } commands

end Writer

end AdventureKit.Lzss
