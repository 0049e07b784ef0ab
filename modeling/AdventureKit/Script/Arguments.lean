import AdventureKit.Script.Instruction
import AdventureKit.Script.Mult
import AdventureKit.Text.Quoted

/-!
# Arguments of instructions

Arguments are read in order and shown as words of a line.
-/

namespace AdventureKit.Script

/-- The arguments of an instruction that runs another script. -/
def readTotSub : Script String := do
  let length ← Reading.code
  let name ← if 128 ≤ length then Quoted.string <$> expression else Quoted.bytes <$> Source.read length
  let flags ← Reading.code
  return Quoted.tuple [name, toString flags]

/-- Reads an argument and gives its text. -/
def Param.read : Param → Script String
  | .word => do return toString (← Reading.word)
  | .byte => do return toString (← Reading.code)
  | .expr => expression
  | .var => variableName
  | .totSub => readTotSub
  | .poppedVars => do
    let count ← Reading.code
    return Quoted.list ((← times variableName count).map Quoted.string)

/-- Reads the content of a resource of the script; a negative index counts from the end. -/
def readResource (items : List Resource.Item) (index : Int) (data : Bytes) (shared : Option Bytes) :
    Script Bytes := do
  let item ← Resource.itemAt items index
  if item.offset < 0 then
    say "NEGATIVE OFFSET" []
    match shared with
    | none => throw (.report "No commun data")
    | some file => Resource.contentAt file item.sharedPlace item
  else Resource.contentAt data item.offset.toNat item

/-- The number of the first resource of a script. -/
def firstResource : Nat := 30000

/-- Skips records of `size` bytes behind their count. -/
def skipCounted (size : Nat) : Script Unit := do
  let count ← Reading.word
  let _ ← Source.read (count * size)

/-- Skips an expression and records of eight bytes behind their count and two more bytes. -/
def skipLayer : Script Unit := do
  let count ← Reading.word
  let _ ← Source.read (2 + count * 8)

/-- Skips what belongs to a key with this command. -/
def skipKey (command : Int) : Script Unit := do
  if command = 1 ∨ command = 4 then
    let _ ← Source.read 2
  else if command = 3 then
    let _ ← Source.read 4

/-- Skips what belongs to the keys. -/
def skipKeys : List Int → Script Unit
  | [] => return ()
  | command :: commands => do
    skipKey command
    skipKeys commands

/-- Skips what belongs to a collection. -/
def skipMult (mult : Mult) (version : Nat) : Script Unit := do
  let _ ← times (do
    let _ ← expression
    skipCounted 2
    skipLayer) mult.statics
  let _ ← times (do
    let _ ← expression
    skipLayer) mult.animations
  skipKeys mult.keys
  if mult.films then
    skipCounted 2
    if 51 ≤ version then skipCounted 14

/-- Skips what the collection with a number says is there; gives the number. -/
def passMult (number : Nat) : Script (List String) := do
  let s := (← get).surroundings
  let items ← match s.items with
    | some items => pure items
    | none => throw (.unknownKey "'ext_items'")
  let data ← readResource items ((number : Int) - firstResource) s.itemData s.shared
  let mult ← Mult.ofBytes data
  skipMult mult (s.version.getD 0)
  return [toString number]

/-- The arguments that load a collection: its number, and what the collection says is there. -/
def readMult : Script (List String) := do
  let number ← Reading.word
  if 0x8000 ≤ number then
    let _ ← Source.read 1
  passMult (number % 0x8000)

/-- The properties of an object of a collection. -/
def multProperties : List String :=
  ["animation", "layer", "frame", "animType", "order", "isPaused", "isStatic", "maxTick", "maxFrame",
    "newLayer", "newAnimation"]

/-- A variable that is pushed, with its size. -/
def readPushed : Script String := do
  let code ← Reading.peek
  if code = 25 ∨ code = 28 then
    let name ← variableName
    let _ ← Source.read 1
    return Quoted.tuple [Quoted.string name, Quoted.string "animDataSize"]
  else return Quoted.tuple [Quoted.string (← expression), "4"]

/-- Reads arguments and gives their texts. -/
def Arguments.read : Arguments → Script (List String)
  | .each params => params.mapM Param.read
  | .mult => readMult
  | .playedMult => do
    let data ← Reading.word
    return [toString (data / 2), toString (data % 2)]
  | .animation => do
    let layer ← expression
    let count ← Reading.word
    let number ← Reading.word
    let frames ← Source.read (count * 8)
    return [layer, toString count, toString number, Quoted.bytes frames]
  | .multObject => do
    let first ← times expression 3
    let values ← times expression multProperties.length
    let properties := multProperties.zip values
    return first ++ [Quoted.table (properties.map fun (k, v) => (Quoted.string k, Quoted.string v))]
  | .staticLayer => do
    let layer ← expression
    let first ← Reading.word
    let _ ← Source.read (first * 2)
    let second ← Reading.word
    let number ← Reading.word
    let _ ← Source.read (second * 8)
    return [layer, toString first, toString second, toString number]
  | .pushedVars => do
    let count ← Reading.code
    times readPushed count
  | .mapObjects => do
    let name ← variableName
    let number ← Reading.word
    let more ← if number < 65520 then do
        let count ← Reading.word
        times Reading.word count
      else pure []
    return [name, toString number, Quoted.tuple (more.map toString)]
  | .music => do return ["var8_" ++ toString ((← Reading.word) * 4)]
  | .goblins => times (do return "var32_" ++ toString ((← Reading.word) * 4)) 6
  | .repeated => do
    let _ ← Source.seek (-2) .current
    let count ← Reading.word
    return (← Source.read (count * 2)).map fun b => toString b.toNat

/-- Reads the arguments of an operation and shows it. -/
def Operation.run (op : Operation) : Script Unit := do
  let pieces ← op.arguments.read
  line (op.title :: pieces)

end AdventureKit.Script
