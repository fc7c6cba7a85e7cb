import ShieldTv.Libsparse.SparseFile

/-!
# `libsparse/sparse_read.c`

Importing a sparse image from a file, given by its contents.  The blocks of the
imported file refer to descriptor 0, which is that file.
-/

namespace ShieldTv.Libsparse

open Lib.Bytes

/-- The variables of `sparse_file_read_sparse`; without a checksum `crc_ptr` is
`NULL`. -/
structure Reader where
  file : SparseFile
  pos : Nat
  curBlock : Nat
  crcPtr : Option UInt32
deriving DecidableEq, Repr

def readAll (contents : Bytes) (pos len : Nat) : Except Err Bytes :=
  if pos + len ≤ contents.length then .ok (slice contents pos len) else .error .failed

def copyBufSize : Nat := 2 ^ 20

/-- The checksum of `len` bytes of an endless buffer that is `copybuf` over and
over: `while (len)`, for which `len` turns are enough. -/
def crcLoop (copybuf : Nat → UInt8) : Nat → Nat → UInt32 → UInt32
  | 0, _, crc => crc
  | fuel + 1, len, crc =>
    if len = 0 then crc
    else
      let chunk := min len copyBufSize
      crcLoop copybuf fuel (len - chunk) (sparseCrc32 crc ((List.range chunk).map copybuf))

def rawCrcLoop (contents : Bytes) : Nat → Nat → Nat → UInt32 → Except Err (Nat × UInt32)
  | 0, pos, _, crc => .ok (pos, crc)
  | fuel + 1, pos, len, crc =>
    if len = 0 then .ok (pos, crc)
    else do
      let chunk := min len copyBufSize
      let copybuf ← readAll contents pos chunk
      rawCrcLoop contents fuel (pos + chunk) (len - chunk) (sparseCrc32 crc copybuf)

def processRawChunk (contents : Bytes) (r : Reader) (chunkSize blocks : Nat) :
    Except Err Reader := do
  let len := blocks * r.file.blockSize % 2 ^ 32
  if r.file.blockSize = 0 then .error .dead
  else if chunkSize % r.file.blockSize ≠ 0 then .error .failed
  else if chunkSize / r.file.blockSize ≠ blocks then .error .failed
  else
    let file ← sparseFileAddFd r.file 0 r.pos len r.curBlock
    match r.crcPtr with
    | some crc =>
      let (pos, crc) ← rawCrcLoop contents len r.pos len crc
      pure { r with file, pos, crcPtr := some crc }
    | none => pure { r with file, pos := r.pos + len }

def processFillChunk (contents : Bytes) (r : Reader) (chunkSize blocks : Nat) :
    Except Err Reader := do
  let len := blocks * r.file.blockSize
  if chunkSize ≠ 4 then .error .failed
  else
    let word ← readAll contents r.pos 4
    let fillVal := UInt32.ofNat (leValue word)
    let file ← sparseFileAddFill r.file fillVal len r.curBlock
    pure { r with
      file
      pos := r.pos + 4
      crcPtr := r.crcPtr.map (crcLoop (fillByte fillVal) len len) }

def processSkipChunk (r : Reader) (chunkSize blocks : Nat) : Except Err Reader :=
  let len := blocks * r.file.blockSize
  if chunkSize ≠ 0 then .error .failed
  else .ok { r with crcPtr := r.crcPtr.map (crcLoop (fun _ => 0) len len) }

/-- The caller passes `*crc_ptr`, whether or not there is one. -/
def processCrc32Chunk (contents : Bytes) (r : Reader) (chunkSize : Nat) :
    Except Err Reader := do
  match r.crcPtr with
  | none => .error .dead
  | some crc =>
    if chunkSize ≠ 4 then .error .failed
    else
      let word ← readAll contents r.pos 4
      if leValue word ≠ crc.toNat then .error .failed
      else pure { r with pos := r.pos + 4 }

/-- The return value is a number of blocks as an `int`, so from `2 ^ 31` on it is
an error.  An unknown chunk is reported but is no error. -/
def processChunk (contents : Bytes) (r : Reader) (chunkHdrSz : Nat) (header : ChunkHeader) :
    Except Err Reader := do
  let chunkDataSize := subUInt header.totalSz chunkHdrSz
  let advance := fun (r : Reader) =>
    if header.chunkSz < 2 ^ 31 then
      .ok { r with curBlock := (r.curBlock + header.chunkSz) % 2 ^ 32 }
    else .error .failed
  if header.chunkType = chunkTypeRaw then
    advance (← processRawChunk contents r chunkDataSize header.chunkSz)
  else if header.chunkType = chunkTypeFill then
    advance (← processFillChunk contents r chunkDataSize header.chunkSz)
  else if header.chunkType = chunkTypeDontCare then
    advance (← processSkipChunk r chunkDataSize header.chunkSz)
  else if header.chunkType = chunkTypeCrc32 then processCrc32Chunk contents r chunkDataSize
  else pure r

def readChunks (contents : Bytes) (chunkHdrSz : Nat) : Nat → Reader → Except Err Reader
  | 0, r => .ok r
  | total + 1, r => do
    let bytes ← readAll contents r.pos chunkHeaderLen
    let r ← processChunk contents { r with pos := r.pos + chunkHdrSz } chunkHdrSz
      (ChunkHeader.ofBytes bytes)
    readChunks contents chunkHdrSz total r

/-- The checks that both readers make. -/
def SparseHeader.accepted (h : SparseHeader) : Bool :=
  h.magic = sparseHeaderMagic && h.majorVersion = sparseHeaderMajorVer &&
    sparseHeaderLen ≤ h.fileHdrSz && chunkHeaderLen ≤ h.chunkHdrSz

def sparseFileReadSparse (s : SparseFile) (contents : Bytes) (crc : Bool) :
    Except Err SparseFile := do
  let header := SparseHeader.ofBytes (← readAll contents 0 sparseHeaderLen)
  if !header.accepted then .error .failed
  else
    let r ← readChunks contents header.chunkHdrSz header.totalChunks
      { file := s, pos := header.fileHdrSz, curBlock := 0, crcPtr := if crc then some 0 else none }
    if header.totalBlks ≠ r.curBlock then .error .failed else pure r.file

def sparseFileImport (contents : Bytes) (crc : Bool) : Except Err SparseFile := do
  let header := SparseHeader.ofBytes (← readAll contents 0 sparseHeaderLen)
  if !header.accepted then .error .failed
  else
    sparseFileReadSparse (sparseFileNew header.blkSz (header.totalBlks * header.blkSz)) contents crc

end ShieldTv.Libsparse
