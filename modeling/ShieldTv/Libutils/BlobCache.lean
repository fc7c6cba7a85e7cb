import ShieldTv.Lib.Memory
import ShieldTv.Lib.SortedVector

/-!
# `libutils/BlobCache.cpp`

A cache of key/value pairs.  Its entries are in a `SortedVector`; its clients
call `set`, `get`, `flatten` and `unflatten`.  Random choices are a parameter: the
results of the calls of `blob_random`.
-/

namespace ShieldTv.Libutils.BlobCache

open Lib.Bytes Lib.Memory Lib

/-! ## Layout -/

/-- The two data models that the library is built for. -/
inductive Abi
  | ilp32
  | lp64
deriving DecidableEq, Repr

/-- `sizeof(size_t)`. -/
def Abi.word : Abi → Nat
  | .ilp32 => 4
  | .lp64 => 8

/-- The number of values of a `size_t`. -/
def Abi.range (abi : Abi) : Nat := 256 ^ abi.word

/-- The offsets of the fields of `Header` and its size. -/
def Abi.numEntriesAt : Abi → Nat
  | .ilp32 => 12
  | .lp64 => 16

def Abi.buildIdLengthAt (abi : Abi) : Nat := abi.numEntriesAt + abi.word

def Abi.buildIdAt (abi : Abi) : Nat := abi.buildIdLengthAt + 4

def Abi.headerSize : Abi → Nat
  | .ilp32 => 20
  | .lp64 => 32

/-- `sizeof(EntryHeader)`, where the data of an entry starts. -/
def Abi.entryHeaderSize (abi : Abi) : Nat := 2 * abi.word

def blobCacheMagic : Nat := 0x5F426224

def blobCacheVersion : Nat := 3

def blobCacheDeviceVersion : Nat := 1

def propertyValueMax : Nat := 92

def BuildId : Type := { bytes : Bytes // bytes.length < propertyValueMax }

/-! ## The cache -/

/-- The order of `Blob`: by size, then as `memcmp` has it. -/
def blobKey (blob : Bytes) : ℕ ×ₗ List ℕ := toLex (blob.length, blob.map UInt8.toNat)

structure CacheEntry where
  key : Bytes
  value : Bytes
deriving DecidableEq, Repr

def CacheEntry.order (e : CacheEntry) : ℕ ×ₗ List ℕ := blobKey e.key

def CacheEntry.size (e : CacheEntry) : Nat := e.key.length + e.value.length

structure Limits where
  maxKeySize : Nat
  maxValueSize : Nat
  maxTotalSize : Nat
deriving DecidableEq, Repr

structure Cache where
  totalSize : Nat
  cacheEntries : List CacheEntry
deriving DecidableEq, Repr

def Cache.new : Cache := { totalSize := 0, cacheEntries := [] }

inductive Fault
  | divisionByZero
deriving DecidableEq, Repr

inductive Status
  | ok
  | badValue
deriving DecidableEq, Repr

section

variable (abi : Abi) (lim : Limits)

def isCleanable (c : Cache) : Bool := lim.maxTotalSize / 2 < c.totalSize

/-- The loop of `clean`.  Each turn removes an entry, so there is one turn more
than there are entries at most. -/
def cleanLoop (rand : Nat → Nat) : Nat → Nat → Cache → Except Fault Cache
  | 0, _, c => .ok c
  | fuel + 1, turn, c =>
    if lim.maxTotalSize / 2 < c.totalSize then
      match c.cacheEntries[rand turn % c.cacheEntries.length]? with
      | none => .error .divisionByZero
      | some entry =>
        cleanLoop rand fuel (turn + 1)
          { totalSize := (c.totalSize + abi.range - entry.size % abi.range) % abi.range
            cacheEntries :=
              c.cacheEntries.eraseIdx (rand turn % c.cacheEntries.length) }
    else .ok c

def clean (rand : Nat → Nat) (c : Cache) : Except Fault Cache :=
  cleanLoop abi lim rand (c.cacheEntries.length + 1) 0 c

/-- The loop of `set`.  After `clean` the cache is not cleanable, so there are at
most two turns. -/
def setLoop (rand : Nat → Nat) (key value : Bytes) : Nat → Cache → Except Fault Cache
  | 0, c => .ok c
  | fuel + 1, c =>
    match SortedVector.indexOf CacheEntry.order c.cacheEntries (blobKey key) with
    | none =>
      let newTotalSize := (c.totalSize + key.length + value.length) % abi.range
      if lim.maxTotalSize < newTotalSize then
        if isCleanable lim c then do
          let c ← clean abi lim rand c
          setLoop rand key value fuel c
        else .ok c
      else
        .ok { totalSize := newTotalSize
              cacheEntries := SortedVector.add CacheEntry.order c.cacheEntries ⟨key, value⟩ }
    | some index =>
      let oldSize := ((c.cacheEntries[index]?).map fun e => e.value.length).getD 0
      let newTotalSize := (c.totalSize + value.length + abi.range - oldSize) % abi.range
      if lim.maxTotalSize < newTotalSize then
        if isCleanable lim c then do
          let c ← clean abi lim rand c
          setLoop rand key value fuel c
        else .ok c
      else
        .ok { totalSize := newTotalSize
              cacheEntries := c.cacheEntries.modify index fun e => { e with value } }

def set (rand : Nat → Nat) (key value : Bytes) (c : Cache) : Except Fault Cache :=
  if lim.maxKeySize < key.length then .ok c
  else if lim.maxValueSize < value.length then .ok c
  else if lim.maxTotalSize < (key.length + value.length) % abi.range then .ok c
  else if key.length = 0 then .ok c
  else if value.length = 0 then .ok c
  else setLoop abi lim rand key value 2 c

/-- The size of the value that is returned, and what is copied to the caller's
buffer. -/
def get (key : Bytes) (valueSize : Nat) (c : Cache) : Nat × Bytes :=
  if lim.maxKeySize < key.length then (0, [])
  else
    match SortedVector.indexOf CacheEntry.order c.cacheEntries (blobKey key) with
    | none => (0, [])
    | some index =>
      let valueBlob := ((c.cacheEntries[index]?).map CacheEntry.value).getD []
      (valueBlob.length, if valueBlob.length ≤ valueSize then valueBlob else [])

/-! ## Serialization -/

def align4 (size : Nat) : Nat := (size + 3) % abi.range / 4 * 4

def getFlattenedSize (c : Cache) : Nat :=
  c.cacheEntries.foldl
    (fun size e =>
      (size + align4 abi (abi.entryHeaderSize + e.key.length + e.value.length)) % abi.range)
    (align4 abi (abi.headerSize + propertyValueMax))

def flattenHeader (buildId : BuildId) (numEntries : Nat) (buffer : Mem) : Mem :=
  let buffer := write buffer 0 (leBytes 4 blobCacheMagic)
  let buffer := write buffer 4 (leBytes 4 blobCacheVersion)
  let buffer := write buffer 8 (leBytes 4 blobCacheDeviceVersion)
  let buffer := write buffer abi.numEntriesAt (leBytes abi.word numEntries)
  let buffer := write buffer abi.buildIdLengthAt (leBytes 4 buildId.1.length)
  write buffer abi.buildIdAt buildId.1

/-- The loop over the entries, with the padding of each set to zero. -/
def flattenLoop (size : Nat) : Nat → List CacheEntry → Mem → Status × Mem
  | _, [], buffer => (.ok, buffer)
  | byteOffset, e :: entries, buffer =>
    let entrySize := (abi.entryHeaderSize + e.key.length + e.value.length) % abi.range
    let totalSize := align4 abi entrySize
    if size < (byteOffset + totalSize) % abi.range then (.badValue, buffer)
    else
      let buffer := write buffer byteOffset (leBytes abi.word e.key.length)
      let buffer := write buffer (byteOffset + abi.word) (leBytes abi.word e.value.length)
      let buffer := write buffer (byteOffset + abi.entryHeaderSize) e.key
      let buffer := write buffer (byteOffset + abi.entryHeaderSize + e.key.length) e.value
      let buffer :=
        write buffer (byteOffset + abi.entryHeaderSize + e.key.length + e.value.length)
          (List.replicate (totalSize - entrySize) 0)
      flattenLoop size ((byteOffset + totalSize) % abi.range) entries buffer

def flatten (buildId : BuildId) (buffer : Mem) (size : Nat) (c : Cache) : Status × Mem :=
  if size < abi.headerSize then (.badValue, buffer)
  else
    flattenLoop abi size (align4 abi (abi.headerSize + buildId.1.length)) c.cacheEntries
      (flattenHeader abi buildId c.cacheEntries.length buffer)

/-- `strncmp` of two strings of one length is zero. -/
def strncmpEq : Bytes → Bytes → Bool
  | a :: as, b :: bs => a = b && (a = 0 || strncmpEq as bs)
  | _, _ => true

/-- The loop over the entries that are left; an error leaves the cache empty. -/
def unflattenLoop (rand : Nat → Nat → Nat) (buffer : Mem) (size : Nat) :
    Nat → Nat → Cache → Except Fault (Status × Cache)
  | 0, _, c => .ok (.ok, c)
  | left + 1, byteOffset, c =>
    if size < (byteOffset + abi.entryHeaderSize) % abi.range then
      .ok (.badValue, { c with cacheEntries := [] })
    else
      let keySize := leValue (read buffer byteOffset abi.word)
      let valueSize := leValue (read buffer (byteOffset + abi.word) abi.word)
      let entrySize := (abi.entryHeaderSize + keySize + valueSize) % abi.range
      let totalSize := align4 abi entrySize
      if size < (byteOffset + totalSize) % abi.range then
        .ok (.badValue, { c with cacheEntries := [] })
      else do
        let data := byteOffset + abi.entryHeaderSize
        let c ← set abi lim (rand left) (read buffer data keySize)
          (read buffer (data + keySize) valueSize) c
        unflattenLoop rand buffer size left ((byteOffset + totalSize) % abi.range) c

def unflatten (rand : Nat → Nat → Nat) (buildId : BuildId) (buffer : Mem) (size : Nat) (c : Cache) :
    Except Fault (Status × Cache) :=
  let c := { c with cacheEntries := [] }
  if size < abi.headerSize then .ok (.badValue, c)
  else if leValue (read buffer 0 4) ≠ blobCacheMagic then .ok (.badValue, c)
  else if leValue (read buffer 4 4) ≠ blobCacheVersion ∨
      leValue (read buffer 8 4) ≠ blobCacheDeviceVersion ∨
      buildId.1.length ≠ leValue (read buffer abi.buildIdLengthAt 4) ∨
      ¬strncmpEq buildId.1 (read buffer abi.buildIdAt buildId.1.length) then .ok (.ok, c)
  else
    unflattenLoop abi lim rand buffer size (leValue (read buffer abi.numEntriesAt abi.word))
      (align4 abi (abi.headerSize + buildId.1.length)) c

/-! ## Clients -/

inductive Call
  | set (rand : Nat → Nat) (key value : Bytes)
  | get (key : Bytes) (valueSize : Nat)
  | flatten (buffer : Mem) (size : Nat)
  | unflatten (rand : Nat → Nat → Nat) (buffer : Mem) (size : Nat)

def step (buildId : BuildId) (c : Cache) : Call → Except Fault Cache
  | .set rand key value => set abi lim rand key value c
  | .get _ _ | .flatten _ _ => .ok c
  | .unflatten rand buffer size => (unflatten abi lim rand buildId buffer size c).map (·.2)

end

end ShieldTv.Libutils.BlobCache
