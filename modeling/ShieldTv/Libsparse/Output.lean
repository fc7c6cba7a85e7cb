import ShieldTv.Libsparse.SparseFile

/-!
# `libsparse/output_file.c` and the writing half of `sparse.c`

An output file is the bytes written to it so far and its position.
-/

namespace ShieldTv.Libsparse

open Lib.Bytes

structure OutputFile where
  blockSize : Nat
  len : Nat
  sparse : Bool
  useCrc : Bool
  crc32 : UInt32
  chunkCnt : Nat
  contents : Bytes
  pos : Nat
deriving DecidableEq, Repr

/-! ## File operations -/

/-- Bytes written at a position, over a hole of zeros if the file is shorter. -/
def overwrite (contents : Bytes) (pos : Nat) (bytes : Bytes) : Bytes :=
  if bytes.isEmpty then contents
  else (contents ++ List.replicate (pos - contents.length) 0).take pos ++ bytes ++
    contents.drop (pos + bytes.length)

/-- The most that one call of `write` takes. -/
def maxWrite : Nat := 0x7ffff000

variable (out : OutputFile)

/-- A write that `write` does not take whole is incomplete, and one whose length is no `int` has a
negative length. -/
def fileWrite (bytes : Bytes) : Except Err OutputFile :=
  if bytes.length ≤ maxWrite then
    .ok { out with
      contents := overwrite out.contents out.pos bytes
      pos := out.pos + bytes.length }
  else .error .failed

def fileSkip (cnt : Nat) : OutputFile := { out with pos := out.pos + cnt }

def filePad (len : Nat) : OutputFile :=
  { out with contents := out.contents.take len ++ List.replicate (len - out.contents.length) 0 }

/-! ## The sparse format -/

def writeSparseSkipChunk (skipLen : Nat) : Except Err OutputFile := do
  if skipLen % out.blockSize ≠ 0 then .error .failed
  else
    let header : ChunkHeader :=
      { chunkType := chunkTypeDontCare, reserved1 := 0, chunkSz := skipLen / out.blockSize
        totalSz := chunkHeaderLen }
    let out ← fileWrite out header.bytes
    pure { out with chunkCnt := out.chunkCnt + 1 }

/-- The checksum of a fill chunk is that of a single block. -/
def writeSparseFillChunk (len : Nat) (fillVal : UInt32) : Except Err OutputFile := do
  let rndUpLen := align len out.blockSize
  let header : ChunkHeader :=
    { chunkType := chunkTypeFill, reserved1 := 0, chunkSz := rndUpLen / out.blockSize
      totalSz := chunkHeaderLen + 4 }
  let out ← fileWrite out header.bytes
  let out ← fileWrite out (leBytes 4 fillVal.toNat)
  let crc32 :=
    if out.useCrc then
      (fun crc => sparseCrc32 crc (leBytes 4 fillVal.toNat))^[out.blockSize / 4] out.crc32
    else out.crc32
  pure { out with crc32, chunkCnt := out.chunkCnt + 1 }

def fileWriteZeros (zeroLen : Nat) : Except Err OutputFile :=
  if zeroLen = 0 then .ok out else fileWrite out (List.replicate zeroLen 0)

def writeSparseDataChunk (data : Bytes) : Except Err OutputFile := do
  let rndUpLen := align data.length out.blockSize
  let zeroLen := subUInt rndUpLen data.length
  let header : ChunkHeader :=
    { chunkType := chunkTypeRaw, reserved1 := 0, chunkSz := rndUpLen / out.blockSize
      totalSz := chunkHeaderLen + rndUpLen }
  let out ← fileWrite out header.bytes
  let out ← fileWrite out data
  let out ← fileWriteZeros out zeroLen
  let crc32 :=
    if out.useCrc then sparseCrc32 (sparseCrc32 out.crc32 data) (List.replicate zeroLen 0)
    else out.crc32
  pure { out with crc32, chunkCnt := out.chunkCnt + 1 }

def writeSparseEndChunk : Except Err OutputFile := do
  if out.useCrc then
    let header : ChunkHeader :=
      { chunkType := chunkTypeCrc32, reserved1 := 0, chunkSz := 0, totalSz := chunkHeaderLen + 4 }
    let out ← fileWrite out header.bytes
    let out ← fileWrite out (leBytes 4 out.crc32.toNat)
    pure { out with chunkCnt := out.chunkCnt + 1 }
  else pure out

/-! ## The plain format -/

def writeNormalDataChunk (data : Bytes) : Except Err OutputFile := do
  let rndUpLen := align data.length out.blockSize
  let out ← fileWrite out data
  pure (if data.length < rndUpLen then fileSkip out (rndUpLen - data.length) else out)

/-- The buffer for fills: as many whole words as there are in a block. -/
def fillBuf (blockSize : Nat) (fillVal : UInt32) : Bytes :=
  fillBytes fillVal (blockSize / 4 * 4) ++ List.replicate (blockSize % 4) 0

/-- `while (len)`; each turn writes at least one byte, so `len` turns are
enough. -/
def writeFillLoop (buf : Bytes) (blockSize : Nat) : Nat → Nat → OutputFile → Except Err OutputFile
  | 0, _, out => .ok out
  | fuel + 1, len, out =>
    if len = 0 then .ok out
    else do
      let writeLen := min len blockSize
      let out ← fileWrite out (buf.take writeLen)
      writeFillLoop buf blockSize fuel (len - writeLen) out

def writeNormalFillChunk (len : Nat) (fillVal : UInt32) : Except Err OutputFile :=
  writeFillLoop (fillBuf out.blockSize fillVal) out.blockSize len len out

def writeNormalSkipChunk (len : Nat) : Except Err OutputFile :=
  .ok (fileSkip out len)

def writeNormalEndChunk : Except Err OutputFile := .ok (filePad out out.len)

/-! ## Either format -/

def writeDataChunk (data : Bytes) : Except Err OutputFile :=
  if out.sparse then writeSparseDataChunk out data else writeNormalDataChunk out data

def writeFillChunk (len : Nat) (fillVal : UInt32) : Except Err OutputFile :=
  if out.sparse then writeSparseFillChunk out len fillVal else writeNormalFillChunk out len fillVal

def writeSkipChunk (len : Nat) : Except Err OutputFile :=
  if out.sparse then writeSparseSkipChunk out len else writeNormalSkipChunk out len

def writeEndChunk : Except Err OutputFile :=
  if out.sparse then writeSparseEndChunk out else writeNormalEndChunk out

/-- The part of the file that a chunk is in is mapped from a page boundary on; an
empty mapping and one whose size is no positive `int` fail.  The page that the file
ends in has zeros behind the end; nothing can be written from a page after it. -/
def writeFdChunk (len : Nat) (contents : Bytes) (offset : Nat) : Except Err OutputFile :=
  let bufferSize := (len + offset % 4096) % 2 ^ 32
  if ¬(0 < bufferSize ∧ bufferSize < 2 ^ 31) then .error .failed
  else if 0 < len ∧ (contents.length + 4095) / 4096 * 4096 < offset + len then .error .failed
  else writeDataChunk out (bytesAt contents offset len)

def outputFileInit (blockSize len : Nat) (sparse : Bool) (chunks : Nat) (crc : Bool) :
    Except Err OutputFile :=
  let out : OutputFile :=
    { blockSize, len, sparse, useCrc := crc, crc32 := 0, chunkCnt := 0, contents := [], pos := 0 }
  if 2 ^ 31 ≤ blockSize then .error .failed
  else if sparse then
    let header : SparseHeader :=
      { magic := sparseHeaderMagic, majorVersion := sparseHeaderMajorVer
        minorVersion := sparseHeaderMinorVer, fileHdrSz := sparseHeaderLen
        chunkHdrSz := chunkHeaderLen, blkSz := blockSize, totalBlks := len / blockSize
        totalChunks := if crc then chunks + 1 else chunks, imageChecksum := 0 }
    fileWrite out header.bytes
  else .ok out

/-! ## `sparse.c` -/

def countChunksLoop (blockSize : Nat) : Nat → Nat → List BackedBlock → Nat × Nat
  | lastBlock, chunks, [] => (lastBlock, chunks)
  | lastBlock, chunks, bb :: rest =>
    let chunks := if lastBlock < bb.block then chunks + 1 else chunks
    countChunksLoop blockSize ((bb.block + divRoundUp bb.len blockSize) % 2 ^ 32) (chunks + 1) rest

def sparseCountChunks (s : SparseFile) : Nat :=
  let (lastBlock, chunks) := countChunksLoop s.blockSize 0 0 s.dataBlocks
  if lastBlock < (s.len + s.blockSize - 1) / s.blockSize then chunks + 1 else chunks

def sparseFileWriteBlock (files : Files) (out : OutputFile) (bb : BackedBlock) :
    Except Err OutputFile :=
  match bb.backing with
  | .data bytes =>
    if bytes.length < bb.len then .error .dead else writeDataChunk out (bytesAt bytes 0 bb.len)
  | .file filename offset => writeFdChunk out bb.len (files.byName filename) offset
  | .fd fd offset => writeFdChunk out bb.len (files.byFd fd) offset
  | .fill val => writeFillChunk out bb.len val

/-- The loop of `write_all_blocks`; the result of a skip is not checked. -/
def writeBlocksLoop (files : Files) (blockSize : Nat) :
    Nat → OutputFile → List BackedBlock → Except Err (Nat × OutputFile)
  | lastBlock, out, [] => .ok (lastBlock, out)
  | lastBlock, out, bb :: rest => do
    let out :=
      if lastBlock < bb.block then
        (writeSkipChunk out ((bb.block - lastBlock) * blockSize)).toOption.getD out
      else out
    let out ← sparseFileWriteBlock files out bb
    writeBlocksLoop files blockSize ((bb.block + divRoundUp bb.len blockSize) % 2 ^ 32) out rest

def writeAllBlocks (files : Files) (s : SparseFile) (out : OutputFile) : Except Err OutputFile := do
  let (lastBlock, out) ← writeBlocksLoop files s.blockSize 0 out s.dataBlocks
  if s.len < lastBlock * s.blockSize then .error .dead
  else if lastBlock * s.blockSize < s.len then
    pure ((writeSkipChunk out (s.len - lastBlock * s.blockSize)).toOption.getD out)
  else pure out

/-- `sparse_file_write` to an empty file, uncompressed.  The result of closing is
not checked. -/
def sparseFileWrite (files : Files) (s : SparseFile) (sparse crc : Bool) :
    Except Err OutputFile := do
  let out ← outputFileInit s.blockSize s.len sparse (sparseCountChunks s) crc
  let out ← writeAllBlocks files s out
  pure ((writeEndChunk out).toOption.getD out)

end ShieldTv.Libsparse
