import AdventureKit.Picture

/-!
# Picture files

Pictures with a palette as PNG files.  The pixels are stored without compression, one byte each, and
only such files are read back.
-/

namespace AdventureKit.Png

/-- The bytes that start a file. -/
def signature : Bytes :=
  [0x89, 0x50, 0x4E, 0x47, 0x0D, 0x0A, 0x1A, 0x0A]

/-- One bit of the checksum of a part. -/
def checkBit (c : UInt32) : UInt32 :=
  if c &&& 1 = 1 then (c >>> 1) ^^^ 0xEDB88320 else c >>> 1

/-- One byte of the checksum of a part. -/
def checkByte (c : UInt32) (b : UInt8) : UInt32 :=
  Nat.repeat checkBit 8 (c ^^^ b.toUInt32)

/-- The checksum of a part. -/
def checksum (bs : Bytes) : UInt32 :=
  bs.foldl checkByte 0xFFFFFFFF ^^^ 0xFFFFFFFF

/-- The two running sums over the pixels, in one number. -/
def pixelSum (bs : Bytes) : Nat :=
  let (a, b) := bs.foldl (fun (a, b) (v : UInt8) =>
    let a := (a + v.toNat) % 65521
    (a, (b + a) % 65521)) (1, 0)
  b * 65536 + a

/-- A number in four bytes, most significant first. -/
def number (n : Nat) : Bytes :=
  (Bytes.ofNatLE 4 n).reverse

/-- A part of a file. -/
def part (name : String) (body : Bytes) : Bytes :=
  let named := Bytes.ofAscii name ++ body
  number body.length ++ named ++ number (checksum named).toNat

/-- The length of a full block. -/
def blockSize : Nat := 65535

/-- Bytes in stored blocks, of which the last one is marked. -/
def blocks (bs : Bytes) : Bytes :=
  let body := bs.take blockSize
  let rest := bs.drop blockSize
  let header (mark : UInt8) : Bytes :=
    mark :: Bytes.ofNatLE 2 body.length ++ Bytes.ofNatLE 2 (blockSize - body.length)
  if _h : rest = [] then header 1 ++ body
  else header 0 ++ body ++ blocks rest
termination_by bs.length
decreasing_by
  simp only [rest, List.drop_eq_nil_iff, Nat.not_le, List.length_drop, blockSize] at *
  omega

/-- The file of a picture.  Without a palette the pixels are shades of grey. -/
def encode (p : Picture) (palette : Bytes) : Bytes :=
  let colours : UInt8 := if palette.isEmpty then 0 else 3
  let lines := p.rows.flatMap fun row => 0 :: row
  signature
    ++ part "IHDR" (number p.width ++ number p.height ++ [8, colours, 0, 0, 0])
    ++ (if palette.isEmpty then [] else part "PLTE" palette)
    ++ part "IDAT" ([0x78, 0x01] ++ blocks lines ++ number (pixelSum lines))
    ++ part "IEND" []

/-- The bytes in stored blocks. -/
def unblock (bs : Bytes) : Except Fault Bytes :=
  match bs with
  | mark :: a :: b :: _ :: _ :: rest =>
    let size := Bytes.word [a, b]
    if mark = 1 then .ok (rest.take size)
    else if mark = 0 then (unblock (rest.drop size)).map (rest.take size ++ ·)
    else .error .notPicture
  | _ => .error .notPicture
termination_by bs.length
decreasing_by
  simp only [List.length_drop, List.length_cons]
  omega

/-- The parts of a file with their names. -/
def parts (bs : Bytes) : List (Bytes × Bytes) :=
  match bs with
  | a :: b :: c :: d :: rest =>
    let size := Bytes.toNatBE [a, b, c, d]
    (rest.take 4, (rest.drop 4).take size) :: parts (rest.drop (size + 8))
  | _ => []
termination_by bs.length
decreasing_by
  simp only [List.length_drop, List.length_cons]
  omega

/-- The rows of `width` pixels, each behind a zero. -/
def unline (width : Nat) : (n : Nat) → Bytes → Except Fault (List Bytes)
  | 0, _ => .ok []
  | n + 1, 0 :: bs => do
    if bs.length < width then throw .notPicture
    return bs.take width :: (← unline width n (bs.drop width))
  | _ + 1, _ => .error .notPicture

/-- The picture and the palette of a file. -/
def decode (bs : Bytes) : Except Fault (Picture × Bytes) := do
  unless bs.take 8 == signature do throw .notPicture
  let parts := parts (bs.drop 8)
  let body (name : String) : Bytes :=
    (parts.filter fun item => item.1 == Bytes.ofAscii name).flatMap Prod.snd
  let header := body "IHDR"
  unless header.drop 8 == [8, 0, 0, 0, 0] || header.drop 8 == [8, 3, 0, 0, 0] do throw .notPicture
  let width := Bytes.toNatBE (header.take 4)
  let height := Bytes.toNatBE ((header.drop 4).take 4)
  let lines ← unblock ((body "IDAT").drop 2)
  return (⟨width, ← unline width height lines⟩, body "PLTE")

end AdventureKit.Png
