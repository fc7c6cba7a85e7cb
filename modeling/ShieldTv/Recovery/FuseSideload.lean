import ShieldTv.Lib.Bytes

/-!
# `recovery/fuse_sideload.c`

A host sends the package block by block, as the reads of it need them.  The block
that was read last is cached, and the hash of each block is kept, so that a host
cannot send a block twice with different contents.
-/

namespace ShieldTv.Recovery.FuseSideload

/-- SHA-256, without collisions. -/
structure Sha256 (D : Type) where
  hash : Bytes → D
  zero : D
  injective : Function.Injective hash
  ne_zero : ∀ data, hash data ≠ zero

def fileBlocks (fileSize blockSize : Nat) : Nat :=
  (if fileSize = 0 then 0 else (fileSize - 1) / blockSize + 1) % 2 ^ 32

/-- The sizes with which `run_fuse_sideload` goes on. -/
structure Package where
  fileSize : Nat
  blockSize : Nat
  fileSize_lt : fileSize < 2 ^ 64
  blockSize_ge : 1024 ≤ blockSize
  blockSize_le : blockSize ≤ 2 ^ 22
  fileBlocks_le : fileBlocks fileSize blockSize ≤ 2 ^ 18

/-- The blocks of the package have different numbers in a `uint32_t`. -/
def Package.Addressable (pkg : Package) : Prop := pkg.fileSize ≤ (2 ^ 32 - 1) * pkg.blockSize

/-- `block_data` points to `block_size` bytes; what is read behind them is whatever the memory
holds there. -/
structure FuseData (D : Type) where
  currBlock : Nat
  blockData : Nat → UInt8
  hashes : Nat → D

/-- What a call of `read_block` does: it returns `result`, and if that is an error
it has written some of the bytes. -/
structure Answer where
  result : Int
  written : Nat
  bytes : Nat → UInt8

/-- A read of the package, with what the host does if it is asked for the block and
for the block after it. -/
structure Request where
  offset : Nat
  size : Nat
  first : Answer
  second : Answer
  offset_lt : offset < 2 ^ 64
  size_lt : size < 2 ^ 32

structure Reply where
  offset : Nat
  data : Bytes
deriving DecidableEq

def readBlock (answer : Answer) (fetchSize : Nat) (data : Nat → UInt8) : Nat → UInt8 :=
  let written := if answer.result < 0 then min answer.written fetchSize else fetchSize
  fun i => if i < written then answer.bytes i else data i

def slice (data : Nat → UInt8) (start len : Nat) : Bytes :=
  (List.range len).map fun i => data (start + i)

/-- `memset` with zeros. -/
def clear (data : Nat → UInt8) (start stop : Nat) : Nat → UInt8 :=
  fun i => if start ≤ i ∧ i < stop then 0 else data i

section

variable {D : Type} [DecidableEq D] (sha : Sha256 D) (pkg : Package)

/-- The block after `read_block`.  The rest of a short last block is cleared before
the call. -/
def received (fd : FuseData D) (block : Nat) (answer : Answer) : Nat → UInt8 :=
  let start := block * pkg.blockSize % 2 ^ 32
  if start + pkg.blockSize > pkg.fileSize then
    let fetchSize := pkg.fileSize - start
    readBlock answer fetchSize (clear fd.blockData fetchSize pkg.blockSize)
  else readBlock answer pkg.blockSize fd.blockData

def fetchBlock (fd : FuseData D) (block : Nat) (answer : Answer) : FuseData D × Int :=
  if block = fd.currBlock then (fd, 0)
  else if fileBlocks pkg.fileSize pkg.blockSize ≤ block then
    ({ fd with blockData := clear fd.blockData 0 pkg.blockSize, currBlock := block }, 0)
  else
    let blockData := received pkg fd block answer
    if answer.result < 0 then ({ fd with blockData }, answer.result)
    else
      let hash := sha.hash (slice blockData 0 pkg.blockSize)
      if hash = fd.hashes block then ({ fd with currBlock := block, blockData }, 0)
      else if fd.hashes block ≠ sha.zero then
        -- `EIO`, and no block is cached
        ({ fd with currBlock := 2 ^ 32 - 1, blockData }, -5)
      else ({ currBlock := block, blockData, hashes := Function.update fd.hashes block hash }, 0)

def handleRead (fd : FuseData D) (req : Request) : FuseData D × Except Int Reply :=
  let block := req.offset / pkg.blockSize % 2 ^ 32
  let (fd, result) := fetchBlock sha pkg fd block req.first
  if result ≠ 0 then (fd, .error result)
  else
    let blockOffset := (req.offset + 2 ^ 64 - block * pkg.blockSize % 2 ^ 32) % 2 ^ 32
    if (req.size + blockOffset) % 2 ^ 32 ≤ pkg.blockSize then
      (fd, .ok { offset := req.offset, data := slice fd.blockData blockOffset req.size })
    else
      let extraBlock := slice fd.blockData blockOffset (pkg.blockSize - blockOffset)
      let (fd, result) := fetchBlock sha pkg fd ((block + 1) % 2 ^ 32) req.second
      if result ≠ 0 then (fd, .error result)
      else
        let spilled := slice fd.blockData 0 (req.size - (pkg.blockSize - blockOffset))
        (fd, .ok { offset := req.offset, data := extraBlock ++ spilled })

/-- The state before the first request; nothing has been written to the block. -/
def initial (memory : Nat → UInt8) : FuseData D :=
  { currBlock := 2 ^ 32 - 1, blockData := memory, hashes := fun _ => sha.zero }

def replies (fd : FuseData D) : List Request → List Reply
  | [] => []
  | req :: rest =>
    match handleRead sha pkg fd req with
    | (fd, .ok reply) => reply :: replies fd rest
    | (fd, .error _) => replies fd rest

end

end ShieldTv.Recovery.FuseSideload
