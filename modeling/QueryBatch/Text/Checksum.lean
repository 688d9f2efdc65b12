/-!
# CRC-32

The checksum of ISO 3309: reflected polynomial `0xEDB88320`, initial value and final mask all ones.
-/

namespace QueryBatch.Text

/-- Divides out one bit. -/
def crcBit (crc : UInt32) : UInt32 :=
  if crc &&& 1 = 1 then (crc >>> 1) ^^^ 0xEDB88320 else crc >>> 1

/-- Takes in one byte. -/
def crcByte (crc : UInt32) (byte : UInt8) : UInt32 :=
  Nat.repeat crcBit 8 (crc ^^^ byte.toUInt32)

/-- The CRC-32 of a list of bytes. -/
def crc32 (bytes : List UInt8) : UInt32 :=
  bytes.foldl crcByte 0xFFFFFFFF ^^^ 0xFFFFFFFF

/-- The CRC-32 of the UTF-8 form of a text, as a number. -/
def contentHash (text : String) : Nat := (crc32 text.toUTF8.data.toList).toNat

end QueryBatch.Text
