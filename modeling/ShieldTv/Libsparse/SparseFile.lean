import ShieldTv.Libsparse.Format

/-!
# `libsparse/backed_block.c`

A sparse file is a list of blocks with contents, sorted by their place.  A
pointer to a list node is modelled by the block number of the node; one that is
not in the list any more points to freed memory.
-/

namespace ShieldTv.Libsparse

open Lib.Bytes

/-- Why a call ends early: it returns an error, or the process is gone (a failed
assertion, a division by zero, a `NULL` or freed pointer). -/
inductive Err
  | failed
  | dead
deriving DecidableEq, Repr

/-! ## Sizes in an `unsigned int` -/

def divRoundUp (x y : Nat) : Nat := (x + y - 1) % 2 ^ 32 / y

def align (x y : Nat) : Nat := y * divRoundUp x y % 2 ^ 32

def subUInt (x y : Nat) : Nat := (x + 2 ^ 32 - y) % 2 ^ 32

/-! ## Blocks -/

inductive Backing
  | data (bytes : Bytes)
  | file (filename : Nat) (offset : Nat)
  | fd (fd : Nat) (offset : Nat)
  | fill (val : UInt32)
deriving DecidableEq, Repr

structure BackedBlock where
  block : Nat
  len : Nat
  backing : Backing
deriving DecidableEq, Repr

structure SparseFile where
  blockSize : Nat
  len : Nat
  dataBlocks : List BackedBlock
  lastUsed : Option Nat
deriving DecidableEq, Repr

def sparseFileNew (blockSize len : Nat) : SparseFile :=
  { blockSize, len, dataBlocks := [], lastUsed := none }

/-- `merge_bb`: the two blocks as one, or `none` if they stay apart.  The name of
a file is copied for each block, so two pointers to it are never equal. -/
def mergeBb (blockSize : Nat) (a b : BackedBlock) : Except Err (Option BackedBlock) :=
  if ¬a.block < b.block then .error .dead
  else if (a.block + a.len / blockSize) % 2 ^ 32 ≠ b.block then .ok none
  else
    let merged := some { a with len := (a.len + b.len) % 2 ^ 32 }
    match a.backing, b.backing with
    | .fill val, .fill val' => .ok (if val = val' then merged else none)
    | .fd fd offset, .fd fd' offset' =>
      .ok (if fd = fd' ∧ offset + a.len = offset' then merged else none)
    | _, _ => .ok none

/-- Link a new block between `bb` and the blocks after it. -/
def linkBb (blockSize : Nat) (bb new : BackedBlock) (rest : List BackedBlock) :
    Except Err (List BackedBlock) := do
  let (new, rest) ←
    match rest with
    | [] => pure (new, rest)
    | next :: after => do
      match ← mergeBb blockSize new next with
      | some merged => pure (merged, after)
      | none => pure (new, rest)
  match ← mergeBb blockSize bb new with
  | some merged => pure (merged :: rest)
  | none => pure (bb :: new :: rest)

/-- The search for the place of a new block, from the node `bb` on. -/
def insertBb (blockSize : Nat) (new : BackedBlock) :
    BackedBlock → List BackedBlock → Except Err (List BackedBlock)
  | bb, [] => linkBb blockSize bb new []
  | bb, next :: rest =>
    if next.block < new.block then do
      let rest ← insertBb blockSize new next rest
      pure (bb :: rest)
    else linkBb blockSize bb new (next :: rest)

def insertFrom (blockSize start : Nat) (new : BackedBlock) :
    List BackedBlock → Except Err (List BackedBlock)
  | [] => .error .dead
  | bb :: rest =>
    if bb.block = start then insertBb blockSize new bb rest
    else do
      let rest ← insertFrom blockSize start new rest
      pure (bb :: rest)

def queueBb (s : SparseFile) (new : BackedBlock) : Except Err SparseFile :=
  match s.dataBlocks with
  | [] => .ok { s with dataBlocks := [new] }
  | first :: rest =>
    if new.block < first.block then .ok { s with dataBlocks := new :: first :: rest }
    else do
      let start ←
        match s.lastUsed with
        | none => pure first.block
        | some last =>
          -- the node that `last_used` points to may have been merged and freed
          if last ∈ (first :: rest).map BackedBlock.block then
            pure (if last < new.block then last else first.block)
          else .error .dead
      let dataBlocks ← insertFrom s.blockSize start new (first :: rest)
      .ok { s with dataBlocks, lastUsed := some new.block }

def sparseFileAddFill (s : SparseFile) (fillVal : UInt32) (len block : Nat) :
    Except Err SparseFile :=
  queueBb s { block, len := len % 2 ^ 32, backing := .fill fillVal }

def sparseFileAddFd (s : SparseFile) (fd offset len block : Nat) : Except Err SparseFile :=
  queueBb s { block, len := len % 2 ^ 32, backing := .fd fd offset }

def sparseFileAddData (s : SparseFile) (data : Bytes) (len block : Nat) :
    Except Err SparseFile :=
  queueBb s { block, len := len % 2 ^ 32, backing := .data data }

def sparseFileAddFile (s : SparseFile) (filename offset len block : Nat) :
    Except Err SparseFile :=
  queueBb s { block, len := len % 2 ^ 32, backing := .file filename offset }

/-! ## What a sparse file stands for -/

structure Files where
  byName : Nat → Bytes
  byFd : Nat → Bytes

def bytesAt (contents : Bytes) (offset len : Nat) : Bytes :=
  (List.range len).map fun i => contents.getD (offset + i) 0

/-- A byte of a memory area filled with a 32-bit value. -/
def fillByte (val : UInt32) (i : Nat) : UInt8 := (leBytes 4 val.toNat).getD (i % 4) 0

def fillBytes (val : UInt32) (len : Nat) : Bytes := (List.range len).map (fillByte val)

def BackedBlock.bytes (files : Files) (bb : BackedBlock) : Bytes :=
  match bb.backing with
  | .data bytes => bytesAt bytes 0 bb.len
  | .file filename offset => bytesAt (files.byName filename) offset bb.len
  | .fd fd offset => bytesAt (files.byFd fd) offset bb.len
  | .fill val => fillBytes val bb.len

/-- The number of image blocks that a block takes. -/
def BackedBlock.blocks (blockSize : Nat) (bb : BackedBlock) : Nat :=
  (bb.len + blockSize - 1) / blockSize

def BackedBlock.padded (files : Files) (blockSize : Nat) (bb : BackedBlock) : Bytes :=
  bb.bytes files ++ List.replicate (bb.blocks blockSize * blockSize - bb.len) 0

/-- The image from block `last` on: the blocks at their places, nothing between
them. -/
def imageFrom (files : Files) (blockSize total : Nat) : Nat → List BackedBlock → List (Option UInt8)
  | last, [] => List.replicate ((total - last) * blockSize) none
  | last, bb :: rest =>
    List.replicate ((bb.block - last) * blockSize) none ++
      ((bb.padded files blockSize).map some ++
        imageFrom files blockSize total (bb.block + bb.blocks blockSize) rest)

def SparseFile.image (files : Files) (s : SparseFile) : List (Option UInt8) :=
  imageFrom files s.blockSize (s.len / s.blockSize) 0 s.dataBlocks

end ShieldTv.Libsparse
