/-
# Checksums

CRC-32C is the checksum of the log's records and of the record format, bit by
bit over the reflected Castagnoli polynomial. The models take it as a parameter;
this is the function the program links, for running them.

CRC-32 is that of the files the program writes itself: table driven, over the
reflected polynomial `0xEDB88320`.
-/
import Mathlib.Logic.Function.Iterate

namespace Amind

/-! ### CRC-32C -/

/-- One bit shifted out. -/
def crc32cBit (c : UInt32) : UInt32 := if c &&& 1 = 1 then (c >>> 1) ^^^ 0x82F63B78 else c >>> 1

/-- One byte taken in. -/
def crc32cByte (c : UInt32) (b : UInt8) : UInt32 := crc32cBit^[8] (c ^^^ b.toUInt32)

/-- CRC-32C of the bytes. -/
def crc32c (bs : List UInt8) : UInt32 := bs.foldl crc32cByte 0xFFFFFFFF ^^^ 0xFFFFFFFF

-- the check value of the standard: "123456789"
example : crc32c [0x31, 0x32, 0x33, 0x34, 0x35, 0x36, 0x37, 0x38, 0x39] = 0xE3069283 := by decide +kernel

/-! ### CRC-32 -/

namespace Core

/-- One bit shifted out. -/
def crc32Bit (crc : UInt32) : UInt32 := if crc &&& 1 = 1 then (crc >>> 1) ^^^ 0xEDB88320 else crc >>> 1

/-- The entry of the table at `i`. -/
def crc32Table (i : UInt32) : UInt32 := crc32Bit^[8] i

/-- Take the bytes in. -/
def crc32Update (crc : UInt32) (bs : List UInt8) : UInt32 :=
  bs.foldl (fun crc b => crc32Table ((crc ^^^ b.toUInt32) &&& 0xFF) ^^^ (crc >>> 8)) crc

/-- CRC-32 of the bytes. -/
def crc32 (bs : List UInt8) : UInt32 := crc32Update 0xFFFFFFFF bs ^^^ 0xFFFFFFFF

-- the check value of the standard: "123456789"
example : crc32 [0x31, 0x32, 0x33, 0x34, 0x35, 0x36, 0x37, 0x38, 0x39] = 0xCBF43926 := by decide +kernel

end Core
end Amind
