import ShieldTv.Lib.Memory

/-!
# `applypatch/bspatch.c`

The patcher for `BSDIFF40` patches, over the bzip2 library as a parameter. Patch and
old data are regions of memory, since neither the header nor a control triple is
checked against their sizes. Sizes are those of a 64-bit build: `off_t` and `ssize_t`
have 64 bits and `int` has 32. The loops get a number of rounds, as a stream that
makes no progress keeps `FillBuffer` going for ever.
-/

namespace ShieldTv.Applypatch

open Lib.Bytes
open Lib.Memory (Region)

/-- Why there is no result: an error code is returned, an `int` or `off_t` overflows, or
the rounds are used up. -/
inductive Stop
  | failed
  | overflow
  | running
deriving DecidableEq, Repr

/-! ## bzip2 -/

inductive BzCode
  | ok
  | streamEnd
  | error
deriving DecidableEq, Repr

/-- The library: `decompress` is one call of `BZ2_bzDecompress` with room for a number of
bytes, `compress` what `BZ2_bzWriteOpen`, `BZ2_bzWrite` and `BZ2_bzWriteClose` append to
the file. -/
structure Bzip2 where
  Stream : Type
  decompressInit : Bytes → Stream
  decompress : Stream → Nat → Bytes × BzCode × Stream
  compress : Bytes → Bytes

def fillLoop (bz : Bzip2) : Nat → Nat → bz.Stream → Except Stop (Bytes × bz.Stream)
  | _, 0, stream => .ok ([], stream)
  | 0, _ + 1, _ => .error .running
  | fuel + 1, availOut + 1, stream =>
    match bz.decompress stream (availOut + 1) with
    | (_, .error, _) => .error .failed
    | (out, _, stream) => do
      let (rest, stream) ← fillLoop bz fuel (availOut + 1 - out.length) stream
      .ok (out ++ rest, stream)

/-- `FillBuffer`: `size` is an `int` and `avail_out` an `unsigned int`. -/
def fillBuffer (bz : Bzip2) (fuel : Nat) (size : Int) (stream : bz.Stream) :
    Except Stop (Bytes × bz.Stream) :=
  fillLoop bz fuel (size % 2 ^ 32).toNat stream

/-! ## The patch -/

def offtin (buf : Bytes) : Int :=
  let y : Int := leValue (buf.take 7) + 256 ^ 7 * ((buf.getD 7 0) &&& 0x7F).toNat
  if (buf.getD 7 0) &&& 0x80 ≠ 0 then -y else y

def offT (x : Int) : Except Stop Int :=
  if -2 ^ 63 ≤ x ∧ x < 2 ^ 63 then .ok x else .error .overflow

def addOld (old : Region) (oldSize oldpos : Int) (diff : Bytes) : Bytes :=
  diff.mapIdx fun i byte =>
    if 0 ≤ oldpos + (i : Int) ∧ oldpos + (i : Int) < oldSize then byte + old (oldpos + (i : Int))
    else byte

structure Streams (bz : Bzip2) where
  cstream : bz.Stream
  dstream : bz.Stream
  estream : bz.Stream

section

variable (bz : Bzip2) (fuel : Nat) (fresh : Nat → UInt8) (old : Region) (oldSize newSize : Int)

/-- The diff string of a triple, behind `newData`. The counter of the loop that adds the
old data is an `int`. -/
def readDiff (newData : Bytes) (oldpos ctrl0 : Int) (dstream : bz.Stream) :
    Except Stop (Bytes × bz.Stream) := do
  let newpos ← offT ((newData.length : Int) + ctrl0)
  if newSize < newpos then .error .failed
  else do
    let (diff, dstream) ← fillBuffer bz fuel ctrl0 dstream
    if 2 ^ 31 ≤ ctrl0 then .error .overflow
    else .ok (newData ++ addOld old oldSize oldpos diff, dstream)

/-- The extra string of a triple, behind `newData`. What `FillBuffer` leaves out keeps the
contents of fresh memory. -/
def readExtra (newData : Bytes) (ctrl1 : Int) (estream : bz.Stream) :
    Except Stop (Bytes × bz.Stream) := do
  let newpos ← offT ((newData.length : Int) + ctrl1)
  if newSize < newpos then .error .failed
  else do
    let (extra, estream) ← fillBuffer bz fuel ctrl1 estream
    let filled := newData ++ extra
    let unfilled := (List.range' filled.length (newpos.toNat - filled.length)).map fresh
    .ok (filled ++ unfilled, estream)

def applyLoop : Nat → Bytes → Int → Streams bz → Except Stop Bytes
  | 0, _, _, _ => .error .running
  | rounds + 1, newData, oldpos, streams =>
    if (newData.length : Int) < newSize then do
      let (buf, cstream) ← fillBuffer bz fuel 24 streams.cstream
      let ctrl0 := offtin (slice buf 0 8)
      let ctrl1 := offtin (slice buf 8 8)
      let ctrl2 := offtin (slice buf 16 8)
      if ctrl0 < 0 ∨ ctrl1 < 0 then .error .failed
      else do
        let (newData, dstream) ← readDiff bz fuel old oldSize newSize newData oldpos ctrl0
          streams.dstream
        let oldpos ← offT (oldpos + ctrl0)
        let (newData, estream) ← readExtra bz fuel fresh newSize newData ctrl1 streams.estream
        let oldpos ← offT (oldpos + ctrl2)
        applyLoop rounds newData oldpos { cstream, dstream, estream }
    else .ok newData

end

structure Blob where
  data : Region
  size : Int

/-- "BSDIFF40". -/
def bsdiffMagic : Bytes := [0x42, 0x53, 0x44, 0x49, 0x46, 0x46, 0x34, 0x30]

/-- `ApplyBSDiffPatchMem`; there is memory for the new data. -/
def applyBSDiffPatchMem (bz : Bzip2) (fuel : Nat) (fresh : Nat → UInt8) (old : Region)
    (oldSize : Int) (patch : Blob) (patchOffset : Int) : Except Stop Bytes :=
  let header := patch.data.bytes patchOffset 32
  if slice header 0 8 ≠ bsdiffMagic then .error .failed
  else
    let ctrlLen := offtin (slice header 8 8)
    let dataLen := offtin (slice header 16 8)
    let newSize := offtin (slice header 24 8)
    if ctrlLen < 0 ∨ dataLen < 0 ∨ newSize < 0 then .error .failed
    else
      -- `avail_in` is an `unsigned int`
      let input (start len : Int) := patch.data.bytes start (len % 2 ^ 32).toNat
      let extraStart := patchOffset + 32 + ctrlLen + dataLen
      applyLoop bz fuel fresh old oldSize newSize fuel [] 0
        { cstream := bz.decompressInit (input (patchOffset + 32) ctrlLen)
          dstream := bz.decompressInit (input (patchOffset + 32 + ctrlLen) dataLen)
          estream := bz.decompressInit (input extraStart (patch.size - extraStart)) }

end ShieldTv.Applypatch
