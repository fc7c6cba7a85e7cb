import ShieldTv.Lib.Text

/-!
# Byte counts in `updater/blockimg.c`

A number of blocks becomes a number of bytes by a product of `int`s, which wraps, and a conversion
to the 64 bits of a `size_t` or `ssize_t`.
-/

namespace ShieldTv.Updater.ByteCounts

open Lib.Text

abbrev Range := Nat × Nat

/-- `n * BLOCKSIZE` in an `int`. -/
def intBytes (n : Int) : Int := toInt (n * 4096)

/-- `n * BLOCKSIZE` as a `size_t`. -/
def byteSize (n : Int) : Nat := (intBytes n % 2 ^ 64).toNat

def rangeBytes (range : Range) : Nat := byteSize (range.2 - range.1)

/-- The `size` of each round of `ReadBlocks`. -/
def readBlocksSizes (src : List Range) : List Nat := src.map rangeBytes

/-- The `size` of each round of `WriteBlocks`. -/
def writeBlocksSizes (tgt : List Range) : List Nat := tgt.map rangeBytes

/-- `p_remain` when `p_block` gets to the first of these ranges, in `PerformCommandNew`,
`PerformCommandDiff` and `RangeSinkWrite`. -/
def sinkRemain : List Range → Nat
  | [] => 0
  | range :: _ => rangeBytes range

def blockCount (src : List Range) : Nat := (src.map fun range => range.2 - range.1).sum

/-- The `size` that `parse_range` adds up in an `int`. -/
def parsedSize (src : List Range) : Int := toInt (blockCount src)

/-- The size of a buffer for these ranges. -/
def bufferSize (src : List Range) : Nat := byteSize (parsedSize src)

/-- The size of the source that `PerformCommandDiff` gives to the patcher, an `ssize_t`. -/
def patchSourceSize (src : List Range) : Int := intBytes (parsedSize src)

end ShieldTv.Updater.ByteCounts
