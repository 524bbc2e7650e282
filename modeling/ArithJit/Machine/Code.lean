/-!
# Machine code as bytes

Encoded instructions, and the way 32-bit constants lie in them: lowest byte first.
-/

namespace ArithJit.Machine

/-- The byte with a given number, which is taken modulo 256. -/
def byte (n : Nat) : UInt8 :=
  UInt8.ofNat n

/-- The four bytes of a 32-bit integer, the lowest first. -/
def littleEndian (n : Int32) : List UInt8 :=
  let w := n.toUInt32.toNat
  [byte w, byte (w / 0x100), byte (w / 0x10000), byte (w / 0x1000000)]

/-- The 32-bit integer at the start of some bytes, and the bytes after it. -/
def readInt32 : List UInt8 → Option (Int32 × List UInt8)
  | a :: b :: c :: d :: rest =>
    some (Int32.ofNat (a.toNat + 0x100 * b.toNat + 0x10000 * c.toNat + 0x1000000 * d.toNat), rest)
  | _ => none

/-- The encoded instructions of a function. -/
structure Code where
  /-- The bytes. -/
  bytes : List UInt8 := []
deriving DecidableEq, Repr

namespace Code

/-- The code without instructions. -/
def empty : Code := {}

/-- The number of bytes. -/
def size (c : Code) : Nat :=
  c.bytes.length

/-- Whether there are no bytes. -/
def isEmpty (c : Code) : Bool :=
  c.bytes.isEmpty

/-- Appends bytes. -/
def append (c : Code) (bytes : List UInt8) : Code :=
  ⟨c.bytes ++ bytes⟩

/-- Appends a 32-bit integer. -/
def appendInt32 (c : Code) (n : Int32) : Code :=
  c.append (littleEndian n)

/-- The digits of hexadecimal numbers. -/
def hexDigit (n : Nat) : Char :=
  if n < 10 then Char.ofNat ('0'.toNat + n) else Char.ofNat ('A'.toNat + (n - 10))

/-- A byte as two hexadecimal digits. -/
def hexByte (b : UInt8) : String :=
  String.ofList [hexDigit (b.toNat / 16), hexDigit (b.toNat % 16)]

/-- The number of bytes in a line of a listing. -/
def lineLength : Nat := 16

/-- The lines of a listing, at most `count` of them. -/
def lines : (count : Nat) → List UInt8 → List String
  | 0, _ => []
  | _, [] => []
  | count + 1, bytes =>
    " ".intercalate ((bytes.take lineLength).map hexByte) :: lines count (bytes.drop lineLength)

/-- The bytes as hexadecimal numbers, sixteen a line. -/
def listing (c : Code) : String :=
  "\n".intercalate (lines c.size c.bytes)

end Code

end ArithJit.Machine
