import AdventureKit.Script.Arguments

/-!
# Blocks of commands

A block announces its length and the number of its commands.  Some commands hold blocks, and so do
the areas of the screen that a block of the second kind describes.  `block` decompiles one.

Every block and every command reads a byte, so a bound above the number of bytes that are left is
enough both for the depth of blocks and for the number of commands.
-/

namespace AdventureKit.Script

/-- The hint for a text: the text in the chosen language, or all languages. -/
def textHint (number : Nat) : Script (Option String) := do
  let s := (← get).surroundings
  match s.texts[number]? with
  | none => throw (.unknownKey (toString number))
  | some text =>
    match s.language with
    | none => return some (Quoted.table (text.map fun (k, v) => (Quoted.string k, Quoted.text v)))
    | some language =>
      match text.get? language with
      | some t => return t.toString?
      | none => throw (.unknownKey (Quoted.string language))

/-- The codes that start a variable inside a printed text. -/
def variableCodes : List Nat := [16, 17, 18, 23, 24, 25, 26, 27, 28]

/-- The byte that marks a variable inside a printed text. -/
def variableMark : Nat := 46

/-- The byte that ends a printed text. -/
def endOfText : Nat := 200

/-- Characters up to a variable or the end of the text.  Fewer than `bound` bytes are left. -/
def plainText : (bound : Nat) → Script String
  | 0 => throw .exhausted
  | bound + 1 => do
    let b ← Reading.peek
    if b = variableMark ∨ b = endOfText then return ""
    else
      let t ← CodePage.dosLatin.decode (← Source.read 1)
      return String.ofList (t.map Char.ofNat) ++ (← plainText bound)

/-- The variable at the cursor, if one starts there. -/
def variableHere : Script String := do
  if variableCodes.contains (← Reading.peek) then variableName else return ""

/-- The variable behind its mark, and the byte that closes it. -/
def markedVariable : Script String := do
  let _ ← Source.read 1
  let name ← variableHere
  let _ ← Source.read 1
  return name

/-- Characters and the variable after them, if the text does not end before. -/
def textPart : Script String := do
  let text ← plainText ((← left) + 1)
  if (← Reading.peek) = endOfText then return text ++ "\""
  else return text ++ "\" " ++ (← markedVariable)

/-- The parts of a printed text up to its end.  Fewer than `bound` bytes are left. -/
def textPartsFrom : (bound : Nat) → Script (List String)
  | 0 => throw .exhausted
  | bound + 1 => do
    if (← Reading.peek) = endOfText then return []
    else
      let part ← textPart
      return ("\"" ++ part) :: (← textPartsFrom bound)

/-- The parts of a printed text that has at least one, joined.  Fewer than `bound` bytes are left. -/
def joinedPartsFrom : (bound : Nat) → Script String
  | 0 => throw .exhausted
  | bound + 1 => do
    let part ← textPart
    if (← Reading.peek) = endOfText then return part
    else return part ++ (← joinedPartsFrom bound)

/-- The fault of an operation that is not in its table. -/
def missingOperation (kind : String) (code : Nat) : Fault :=
  .report ("Missing " ++ kind ++ " op 0x" ++ Quoted.hex 1 code ++ " = " ++ toString code)

/-- Runs an operation of a table. -/
def runFrom (kind : String) (table : List (Nat × Operation)) (code : Nat) : Script Unit :=
  match table.lookup code with
  | some op => op.run
  | none => throw (missingOperation kind code)

/-- Runs a goblin operation of the first instruction set.  Some commands name an object first, and
commands from 91 on are the ones from 1 on with one. -/
def runFirstGoblin : Script Unit := do
  let command ← Reading.word
  let _ ← Source.read 2
  let (command, named) ←
    if 0 < command ∧ command < 17 then do
      let _ ← Source.read 4
      pure (command, true)
    else if 90 < command ∧ command < 107 then do
      let _ ← Source.read 4
      pure (command - 90, true)
    else if 110 < command ∧ command < 128 then do
      let _ ← Source.read 2
      pure (command - 90, true)
    else if 20 < command ∧ command < 38 then do
      let _ ← Source.read 2
      pure (command, true)
    else pure (command, false)
  if command < 40 ∧ named = false then line ["o1_goblinFunc", toString command]
  else runFrom "goblin" firstGoblinOperations command

/-- The goblin command that does nothing. -/
def idleCommand : Nat := 101

/-- Runs a goblin operation of later instruction sets. -/
def runGoblin : Script Unit := do
  let command ← Reading.word
  let _ ← Source.read 2
  if command ≠ idleCommand then
    match goblinNumbers.lookup command with
    | none => throw (.unknownKey (toString command))
    | some number =>
      match goblinOperations.lookup number with
      | some op => op.run
      | none => throw (missingOperation "goblin" command)

/-- The texts between zero bytes of a name field. -/
def readFileField : Script String := do
  let field ← Source.read 9
  if field.all (· < 128) then
    return Quoted.list ((Sequence.splitAll [0] field).map fun part =>
      Quoted.text (part.map UInt8.toNat))
  else throw .undecodable

/-- How many bytes of colours follow an instruction that loads a palette. -/
def paletteSizes : List (Nat × Nat) :=
  [(48, 48), (49, 18), (50, 16), (51, 2), (52, 48), (53, 2), (55, 2), (54, 0), (61, 4)]

/-- Shows the cases of a choice with their blocks.  Fewer than `bound` bytes are left. -/
def casesFrom (block : Script Unit) : (bound : Nat) → Script Unit
  | 0 => throw .exhausted
  | bound + 1 => do
    let count ← Reading.code
    if count = 251 then return ()
    let _ ← times (do line ["case " ++ (← expression) ++ ":"]) count
    block
    line ["    break"]
    casesFrom block bound

/-- Runs an instruction; `block` decompiles a block inside it. -/
def Instruction.run (block : Script Unit) : Instruction → Script Unit
  | .display op => op.run
  | .unsupported name => throw (.notThere name)
  | .call => do
    let target ← Reading.word
    line ["o1_callSub", toString target]
    update fun p => { p with calls := p.calls ++ [target] }
  | .showText => do
    let number ← Reading.word
    let hint ← textHint number
    linePieces [some "o1_printTotText", some (toString number), some "//", hint]
  | .textPart => do
    let number ← Reading.word
    let name ← variableName
    let part ← expression
    let hint ← textHint number
    linePieces [some (name ++ " = o2_getTotTextItemPart"), some (toString number), some part,
      some "//", hint]
  | .choose => do
    line ["switch (" ++ (← variableName) ++ ") \x7b"]
    casesFrom block ((← left) + 1)
    if (← Reading.peek) / 16 = 4 then
      line ["default:"]
      let _ ← Source.read 1
      block
      line ["    break"]
    line ["\x7d"]
  | .repeatUntil => do
    line ["repeat \x7b"]
    block
    let _ ← Source.read 1
    let condition ← expression
    line ["\x7d until (" ++ condition ++ ")"]
  | .whileDo => do
    line ["while (" ++ (← expression) ++ ") \x7b"]
    block
    line ["\x7d"]
  | .ifElse => do
    line ["if (" ++ (← expression) ++ ") \x7b"]
    block
    if (← Reading.byte) / 16 = 12 then
      line ["\x7d else \x7b"]
      block
    line ["\x7d"]
  | .assign => do
    let name ← variableName
    let value ← expression
    line [name ++ " = " ++ value]
  | .assignMany => do
    let _ ← Reading.peek
    let name ← variableName
    if ← skipIf endOfExpression then
      let count ← Reading.byte
      let values ← times expression count
      line [name ++ " = [" ++ String.intercalate ", " values ++ "]"]
    else
      let value ← expression
      line [name ++ " = " ++ value]
  | .loadSprite => do
    let pieces ← [Param.word, .expr, .expr, .byte].mapM Param.read
    line ("o1_loadSpriteToPos" :: pieces)
    let _ ← Source.read 1
  | .printText => do
    let params ← times expression 5
    let parts ← textPartsFrom ((← left) + 1)
    let _ ← Source.read 1
    line ("o1_printText" :: params ++ parts)
  | .printTextParts => do
    let params ← times expression 5
    let text ← joinedPartsFrom ((← left) + 1)
    let _ ← Source.read 1
    line ["o2_printText", String.intercalate " " params ++ " \"" ++ text]
  | .loadScript => do
    let length ← Reading.code
    if length < 128 then
      let name ← Source.read length
      if name.all (· < 128) then
        line ["o1_loadTot", String.ofList (name.map fun b => Char.ofNat b.toNat)]
      else throw .undecodable
    else line ["o1_loadTot", ← expression]
  | .loadPalette => do
    let code ← Reading.code
    line ["o1_palLoad", toString (code / 128), toString (code % 128)]
    match paletteSizes.lookup (code % 128) with
    | some size =>
      let _ ← Source.read size
    | none => throw (.unknownKey (toString (code % 128)))
  | .draw => do runFrom "video" drawOperations (← Reading.code)
  | .setCommandCount => do
    let count ← Reading.code
    update fun p => { p with commandCount := some count, counter := some 0 }
    line ["o1_setcmdCount", toString count]
  | .goblin => runFirstGoblin
  | .goblinCommand => runGoblin
  | .geisha => do
    let command ← Reading.word
    let _ ← Source.read 2
    runFrom "goblin" geishaOperations command
  | .loadSound => do
    let slot ← expression
    let number ← Reading.word
    if number = 0xFFFF then line ["o1_loadSound", slot, toString number, ← readFileField]
    else line ["o1_loadSound", slot, toString number]
  | .loadSoundFile => do
    let slot ← expression
    let number ← Reading.word
    if number = 0xFFFF then line ["o2_loadSound", slot, ← readFileField]
    else line ["o2_loadSound", slot, toString number]
  | .textLength => do
    let _ ← skipIf 0x80
    let first ← variableName
    let second ← variableName
    line ["o5_istrlen", first, second]

/-- The code of a command.  The high four bits tell the instruction, unless they tell one of four
further groups of sixteen. -/
def commandCode (b : Nat) : Nat :=
  if 12 ≤ b / 16 then (16 - b / 16) * 16 + b % 16 else b / 16

/-- The instruction of a code in the instruction set of the script. -/
def Surroundings.instruction? (s : Surroundings) (code : Nat) : Option Instruction :=
  ((s.version.bind instructionSet?).getD []).lookup code

/-- Runs the instruction of a code as one more command of the block. -/
def perform (block : Script Unit) (code : Nat) : Script Unit := do
  update fun p => { p with counter := some (p.counter.getD 0 + 1) }
  mark
  match (← get).surroundings.instruction? code with
  | none => throw (.unknownKey (toString code))
  | some instruction =>
    instruction.run block
    mark

/-- Runs a command of a block. -/
def command (block : Script Unit) : Script Unit := do
  perform block (commandCode (← Reading.code))

/-- Runs commands until as many were started as the block has; an instruction may change both counts.
Fewer than `bound` bytes are left. -/
def commandsFrom (block : Script Unit) : (bound : Nat) → Script Unit
  | 0 => throw .exhausted
  | bound + 1 => do
    let p := (← get).progress
    if p.counter.getD 0 < p.commandCount.getD 0 then
      command block
      commandsFrom block bound

/-- The corners of an area: numbers, or expressions if the area moves. -/
def corners (moves : Bool) : Script (List String) :=
  times (if moves then expression else Param.read .word) 4

/-- The kind of an area, without the mark of a byte behind it. -/
def areaKind : Script Nat := do
  let kind ← Reading.byte
  say "TYP" [toString kind]
  if kind / 64 % 2 = 1 then
    let _ ← Reading.byte
    return kind - 64
  else return kind

/-- Reads the variable of an area that is an input field. -/
def areaField (kind : Nat) : Script Unit := do
  let _ ← variableName
  let _ ← Reading.word
  if (← Source.read 2).length ≠ 2 then throw (.ended .group)
  if 5 ≤ kind ∧ kind ≤ 8 then skipCounted 1

/-- Decompiles the blocks of an area. -/
def areaBlocks (block : Script Unit) (kind : Nat) : Script Unit := do
  if kind = 11 ∨ kind = 12 then
    let _ ← Source.read 6
    block
  else if kind = 0 ∨ kind = 1 then
    let _ ← Source.read 6
    block
    block
  else if 3 ≤ kind ∧ kind ≤ 10 then
    areaField kind
    if kind % 2 = 0 then block
  else if kind = 20 ∨ kind = 2 ∨ kind = 21 then
    let _ ← Source.read 2
    let _ ← Source.read 2
    let _ ← Source.read 2
    block

/-- Decompiles an area of the screen; `block` decompiles its blocks. -/
def area (block : Script Unit) : Script Unit := do
  let kind ← areaKind
  let sides ← corners (128 ≤ kind)
  say "HOTSPOT" (toString (kind % 128) :: sides)
  areaBlocks block (kind % 128)

/-- Decompiles `count` areas behind their heading. -/
def areaList (block : Script Unit) (count : Nat) : Script Unit := do
  line ["hotspot \x7b"]
  if (← Source.read 6).length ≠ 6 then throw (.ended .group)
  say (toString count) []
  let _ ← times (area block) count

/-- Decompiles the areas of a block of the second kind. -/
def areas (block : Script Unit) (count : Nat) : Script Unit := do
  update fun p => { p with depth := p.depth + 1 }
  areaList block count
  update fun p => { p with depth := p.depth - 1 }

/-- The progress at the start of a block of `count` commands. -/
def Progress.enter (count : Nat) (p : Progress) : Progress :=
  { p with commandCount := some count, counter := some 0, depth := p.depth + 1 }

/-- The progress behind a block that was entered from `outer`. -/
def Progress.leave (outer p : Progress) : Progress :=
  { p with
    depth := p.depth - 1
    counter := some (outer.counter.getD 0)
    commandCount := some (outer.commandCount.getD 0) }

/-- Skips what is left of a block of `size` bytes that starts at `start`. -/
def skipRest (start size : Nat) : Script Unit := do
  let used := (← place) - start
  if used < size + 2 then
    let rest ← Source.read ((size + 2 - used : Nat) : Int)
    say "WARNING: Skipped" [Quoted.bytes rest]
  else if size + 2 < used then throw (.blockOverrun used (size + 2))

/-- Decompiles the commands of a block of `size` bytes that starts at `start`. -/
def commands (block : Script Unit) (start size count : Nat) : Script Unit := do
  let outer := (← get).progress
  update (Progress.enter count)
  commandsFrom block ((← left) + 1)
  skipRest start size
  update outer.leave

/-- Decompiles a block of a kind behind its first byte. -/
def blockOf (inner : Script Unit) (start kind : Nat) : Script Unit := do
  let count ← Reading.byte
  if kind = 2 then areas inner count
  else if kind ≠ 1 then throw (.disagreement .blockTag)
  else
    let size ← Reading.word
    if count ≠ 0 then commands inner start size count

/-- Decompiles a block; `inner` decompiles the blocks inside it. -/
def blockWith (inner : Script Unit) : Script Unit := do
  let start ← place
  if (← left) = 0 then say "WARNING: EOF" []
  else blockOf inner start (← Reading.byte)

/-- Decompiles a block.  Fewer than `bound` bytes are left. -/
def blockFrom : (bound : Nat) → Script Unit
  | 0 => throw .exhausted
  | bound + 1 => blockWith (blockFrom bound)

/-- Decompiles the block at the cursor. -/
def block : Script Unit := do
  blockFrom ((← left) + 1)

end AdventureKit.Script
