import Mathlib.Init

namespace Xv6

abbrev maxOpBlocks : Nat := 10

abbrev logBlocks : Nat := maxOpBlocks * 3

abbrev nBuf : Nat := maxOpBlocks * 3

/-- BSIZE. -/
abbrev blockSize : Nat := 1024

/-- NDIRECT. -/
abbrev nDirect : Nat := 11

/-- NINDIRECT. -/
abbrev nIndirect : Nat := blockSize / 4

/-- MAXFILE. -/
abbrev maxFile : Nat := nDirect + nIndirect + nIndirect * nIndirect

end Xv6
