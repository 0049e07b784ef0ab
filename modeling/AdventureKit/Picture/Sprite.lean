import AdventureKit.Logged
import AdventureKit.Lzss.Pack
import AdventureKit.Sequence

/-!
# Sprites

The pixels of a sprite are stored in one of two forms.  The run form has a code for each run of equal
pixels, whose values have four bits: one byte for runs of up to eight pixels, two bytes for runs of up
to 2048.  The packed form starts with a mark and holds any bytes, compressed or as they are.

A sprite in run form is accepted only if it is written as `packRuns` writes it, and one that ends too
early is filled up with zeros.
-/

namespace AdventureKit.Sprite

/-- The longest run that one code holds. -/
def longestRun : Nat := 2048

/-- The first byte of a run code. -/
def runByte (v : UInt8) (low : Nat) : UInt8 :=
  UInt8.ofNat (v.toNat * 16 + low)

/-- The codes of a run.  Values of more than four bits are refused: by the range of a byte where a code
of full length is written, by the range of a pixel otherwise. -/
def packRun (v : UInt8) (count : Nat) : Except Fault Bytes :=
  if count > longestRun then
    if v.toNat < 16 then do
      return runByte v 7 :: 0xFF :: (← packRun v (count - longestRun))
    else .error .notByte
  else if v.toNat < 16 then
    let repeats := count - 1
    if repeats > 7 then .ok [runByte v (repeats / 256), UInt8.ofNat (repeats % 256)]
    else .ok [runByte v (8 + repeats)]
  else .error (.disagreement .pixelRange)
termination_by count
decreasing_by
  unfold longestRun at *
  omega

/-- The run form of pixels. -/
def packRuns (px : Bytes) : Except Fault Bytes := do
  return (← (Sequence.runs px).mapM fun (v, count) => packRun v count).flatten

/-- The run form of the pixels of a picture, all of which have to be in range. -/
def packPixels (px : Bytes) : Except Fault Bytes :=
  if px.all (· < 16) then packRuns px else .error (.disagreement .pixelRange)

/-- The pixels of run codes until `wanted` of them are out, and whether all of them were there. -/
def unpackRunsFrom (wanted : Nat) : Bytes → Except Fault (Bytes × Bool)
  | [] => .ok ([], wanted == 0)
  | b :: rest =>
    if wanted = 0 then .ok ([], true)
    else
      let v := b >>> 4
      let low := b.toNat % 8
      if b.toNat / 8 % 2 = 1 then
        if low + 1 > wanted then .error (.disagreement .pixelCount)
        else do
          let (px, complete) ← unpackRunsFrom (wanted - (low + 1)) rest
          return (List.replicate (low + 1) v ++ px, complete)
      else
        match rest with
        | [] => .error (.ended .byte)
        | c :: rest =>
          let repeats := low * 256 + c.toNat
          if repeats ≤ 7 then .error (.disagreement .runForm)
          else if repeats + 1 > wanted then .error (.disagreement .pixelCount)
          else do
            let (px, complete) ← unpackRunsFrom (wanted - (repeats + 1)) rest
            return (List.replicate (repeats + 1) v ++ px, complete)

/-- The pixels of a sprite in run form. -/
def unpackRuns (data : Bytes) (width height : Nat) : Logged Bytes := do
  let wanted := width * height
  let (px, complete) ← Logged.ofExcept (unpackRunsFrom wanted data)
  if complete then
    unless px.isEmpty do
      let back ← Logged.ofExcept (packRuns px)
      unless back == data do throw (.disagreement .canonical)
    return px
  else
    Logged.say ("WARNING: incomplete sprite - " ++ toString px.length ++ " of " ++ toString wanted
      ++ "\n")
    return px ++ List.replicate (wanted - px.length) 0

/-- The mark of the packed form. -/
def packedMark : Bytes := [1, 2]

/-- The pixels of a sprite in packed form, without its mark. -/
def unpack (data : Bytes) (width height : Nat) : Except Fault Bytes :=
  match data with
  | [] => .error (.ended .byte)
  | codec :: rest =>
    if codec = 1 then
      if Bytes.dword rest = width * height then (Lzss.unpackSized rest).map Prod.fst
      else .error (.disagreement .pixelCount)
    else if codec = 2 then
      if rest.length = width * height then .ok rest else .error (.disagreement .pixelCount)
    else .error (.notThere (toString codec.toNat))

/-- The packed form of pixels, with its mark. -/
def pack (px : Bytes) : Except Fault Bytes := do
  return packedMark ++ 1 :: (← Lzss.pack px)

/-- Whether a sprite is in packed form. -/
def isPacked (data : Bytes) : Bool :=
  packedMark.isPrefixOf data

/-- The pixels of a sprite. -/
def decode (data : Bytes) (width height : Nat) : Logged Bytes :=
  if isPacked data then Logged.ofExcept (unpack (data.drop 2) width height)
  else unpackRuns data width height

end AdventureKit.Sprite
