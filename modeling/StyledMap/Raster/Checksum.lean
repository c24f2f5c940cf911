/-! Checksums of byte strings: the cyclic redundancy code of 32 bits with the reflected polynomial
`EDB88320`, and Adler's pair of sums. -/
namespace StyledMap.Checksum

def crcShift (c : UInt32) : UInt32 :=
  if (c &&& 1) == 1 then (0xEDB88320 : UInt32) ^^^ (c >>> 1) else c >>> 1

/-- The code of one byte, eight shifts. -/
def crcByte (c : UInt32) : UInt32 :=
  crcShift (crcShift (crcShift (crcShift (crcShift (crcShift (crcShift (crcShift c)))))))

def crcTable : Array UInt32 := (Array.range 256).map (fun n => crcByte n.toUInt32)

def crcStep (c : UInt32) (b : UInt8) : UInt32 :=
  crcTable.getD ((c ^^^ b.toUInt32) &&& 0xFF).toNat 0 ^^^ (c >>> 8)

def crc32 (bytes : ByteArray) : UInt32 := bytes.foldl crcStep 0xFFFFFFFF ^^^ 0xFFFFFFFF

/-- The sum of the bytes is in the low half, the sum of the sums in the high half. -/
def adlerStep (s : UInt32) (b : UInt8) : UInt32 :=
  let low := ((s &&& 0xFFFF) + b.toUInt32) % 65521
  let high := ((s >>> 16) + low) % 65521
  (high <<< 16) ||| low

def adler32 (bytes : ByteArray) : UInt32 := bytes.foldl adlerStep 1

end StyledMap.Checksum
