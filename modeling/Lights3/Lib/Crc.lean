import Lights3.Lib.ByteString

/-!
# Reflected table-driven 32-bit checksums
-/
namespace Crc

/-- One shift of the remainder. -/
def bitStep (poly c : UInt32) : UInt32 :=
  if c &&& 1 ≠ 0 then poly ^^^ (c >>> 1) else c >>> 1

/-- The table word of an index below 256. -/
def tableEntry (poly i : UInt32) : UInt32 := (bitStep poly)^[8] i

/-- The remainder after one more byte. -/
def step (poly c : UInt32) (b : UInt8) : UInt32 :=
  tableEntry poly ((c ^^^ b.toUInt32) &&& 0xff) ^^^ (c >>> 8)

/-- Chained update: `update (update crc a) b = update crc (a ++ b)`. -/
def update (poly crc : UInt32) (data : Bytes) : UInt32 :=
  ~~~ data.foldl (step poly) (~~~ crc)

end Crc
