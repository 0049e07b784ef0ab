import AdventureKit.Fault

/-!
# Byte strings and the numbers in them

Numbers are stored least significant byte first, with a big-endian form for the few fields that need
it.  Reading a number takes the bytes that are there: fewer bytes than the field has give the number
of those bytes, and none give zero.  Writing refuses a number that its field cannot hold.
-/

namespace AdventureKit

/-- A byte string. -/
abbrev Bytes := List UInt8

namespace Bytes

/-- The number of the bytes, least significant first. -/
def toNatLE : Bytes → Nat
  | [] => 0
  | b :: bs => b.toNat + 256 * toNatLE bs

/-- The number of the bytes, most significant first. -/
def toNatBE (bs : Bytes) : Nat :=
  toNatLE bs.reverse

/-- How many numbers there are for `width` bytes. -/
def limit : (width : Nat) → Nat
  | 0 => 1
  | width + 1 => 256 * limit width

/-- The number of the bytes in two's complement, least significant first. -/
def toIntLE (bs : Bytes) : Int :=
  let n := toNatLE bs
  if 2 * n < limit bs.length then n else (n : Int) - limit bs.length

/-- The `width` low bytes of `n`, least significant first. -/
def ofNatLE : (width : Nat) → (n : Nat) → Bytes
  | 0, _ => []
  | width + 1, n => UInt8.ofNat (n % 256) :: ofNatLE width (n / 256)

/-- A number in a field of `width` bytes. -/
def putLE (width : Nat) (n : Int) : Except Fault Bytes :=
  if 0 ≤ n ∧ n < limit width then .ok (ofNatLE width n.toNat) else .error .tooWide

/-- A number in a field of `width` bytes, most significant byte first. -/
def putBE (width : Nat) (n : Int) : Except Fault Bytes :=
  (putLE width n).map List.reverse

/-- A number in a field of `width` bytes, in two's complement. -/
def putSignedLE (width : Nat) (n : Int) : Except Fault Bytes :=
  let bound : Int := limit width
  if -bound ≤ 2 * n ∧ 2 * n < bound then
    .ok (ofNatLE width (if n < 0 then n + bound else n).toNat)
  else .error .tooWide

/-- The byte of a number below 256. -/
def single (n : Int) : Except Fault UInt8 :=
  if 0 ≤ n ∧ n < 256 then .ok (UInt8.ofNat n.toNat) else .error .notByte

/-- The bytes of numbers below 256. -/
def ofInts (ns : List Int) : Except Fault Bytes :=
  ns.mapM single

/-- The first 16-bit number. -/
def word (bs : Bytes) : Nat :=
  toNatLE (bs.take 2)

/-- The first 32-bit number. -/
def dword (bs : Bytes) : Nat :=
  toNatLE (bs.take 4)

/-- The first 16-bit number in two's complement. -/
def signedWord (bs : Bytes) : Int :=
  toIntLE (bs.take 2)

/-- The first 32-bit number in two's complement. -/
def signedDword (bs : Bytes) : Int :=
  toIntLE (bs.take 4)

/-- The bytes from `start` up to `stop`, as far as they are there. -/
def slice (start stop : Nat) (bs : Bytes) : Bytes :=
  (bs.drop start).take (stop - start)

/-- The bytes, filled up with zeros to `width` bytes. -/
def padTo (width : Nat) (bs : Bytes) : Bytes :=
  bs ++ List.replicate (width - bs.length) 0

/-- The bytes of a text whose characters are all ASCII. -/
def ofAscii (s : String) : Bytes :=
  s.toList.map fun c => UInt8.ofNat c.toNat

theorem length_ofNatLE (width n : Nat) : (ofNatLE width n).length = width := by
  induction width generalizing n with
  | zero => rfl
  | succ width ih => simp [ofNatLE, ih]

theorem toNatLE_lt (bs : Bytes) : toNatLE bs < limit bs.length := by
  induction bs with
  | nil => simp [toNatLE, limit]
  | cons b bs ih =>
    have hb : b.toNat < 256 := b.toNat_lt
    simp only [toNatLE, List.length_cons, limit]
    omega

theorem toNatLE_ofNatLE {width n : Nat} (h : n < limit width) : toNatLE (ofNatLE width n) = n := by
  induction width generalizing n with
  | zero => simp only [limit, Nat.lt_one_iff] at h; simp [ofNatLE, toNatLE, h]
  | succ width ih =>
    have hq : n / 256 < limit width := Nat.div_lt_of_lt_mul h
    simp only [ofNatLE, toNatLE, ih hq]
    have hb : (UInt8.ofNat (n % 256)).toNat = n % 256 := by
      simp
    omega

end Bytes

end AdventureKit
