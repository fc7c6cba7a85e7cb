import ShieldTv.Lib.Tracked

/-!
# The archive reader of recovery

`minzip/Zip.c`: `mzOpenZipArchive` finds the end-of-central-directory record by a
backward scan and reads the entries of the central directory into an array sorted by
name. The archive occupies the addresses from `0` below `length`; the addresses that
are read are recorded. Sizes are those of a 64-bit build, where `long` holds every
`unsigned int` and no sum with an address of the archive overflows.
-/

namespace ShieldTv.Minzip

open Lib

abbrev Mem := Int → UInt8

def cenSig : Nat := 0x02014b50
def cenHdr : Nat := 46
def cenVem : Nat := 4
def cenHow : Nat := 10
def cenTim : Nat := 12
def cenCrc : Nat := 16
def cenSiz : Nat := 20
def cenLen : Nat := 24
def cenNam : Nat := 28
def cenExt : Nat := 30
def cenCom : Nat := 32
def cenAtx : Nat := 38
def cenOff : Nat := 42
def endSig : Nat := 0x06054b50
def endHdr : Nat := 22
def endSub : Nat := 8
def endOff : Nat := 16
def locSig : Nat := 0x04034b50
def locHdr : Nat := 30
def locNam : Nat := 26
def locExt : Nat := 28
def cenvemUnix : Nat := 3 * 2 ^ 8
def pathMax : Nat := 4096

/-- `ZipEntry`; the name stays in the archive, at `fileName`. -/
structure ZipEntry where
  fileNameLen : Nat
  fileName : Int
  offset : Nat
  compLen : Nat
  uncompLen : Nat
  compression : Nat
  modTime : Nat
  crc32 : Nat
  versionMadeBy : Nat
  externalFileAttributes : Nat
deriving DecidableEq, Repr

/-- `ZipArchive` without its hash table. -/
structure ZipArchive where
  numEntries : Nat
  entries : List ZipEntry
deriving DecidableEq, Repr

section

variable (mem : Mem)

def byteAt (p : Int) : Tracked Int Nat := Tracked.load p (mem p).toNat

def get2LE (p : Int) : Tracked Int Nat := do
  let b0 ← byteAt mem p
  let b1 ← byteAt mem (p + 1)
  pure (b0 + b1 * 2 ^ 8)

def get4LE (p : Int) : Tracked Int Nat := do
  let b0 ← byteAt mem p
  let b1 ← byteAt mem (p + 1)
  let b2 ← byteAt mem (p + 2)
  let b3 ← byteAt mem (p + 3)
  pure (b0 + b1 * 2 ^ 8 + b2 * 2 ^ 16 + b3 * 2 ^ 24)

/-! ## The end-of-central-directory record -/

def isEnd (p : Int) : Tracked Int Bool := do
  let b ← byteAt mem p
  if b = endSig % 256 then do
    let val ← get4LE mem p
    pure (val == endSig)
  else pure false

def scanBack : Nat → Tracked Int Int
  | 0 => do
    if ← isEnd mem 0 then pure 0 else Tracked.fail
  | p + 1 => do
    if ← isEnd mem ((p + 1 : Nat) : Int) then pure ((p + 1 : Nat) : Int) else scanBack p

def findEndRecord (length : Nat) : Tracked Int Int := scanBack mem (length - endHdr)

/-- The number of entries and the offset of the central directory. -/
def endFields (ptr : Int) : Tracked Int (Nat × Nat) := do
  let numEntries ← get2LE mem (ptr + endSub)
  let cdOffset ← get4LE mem (ptr + endOff)
  pure (numEntries, cdOffset)

/-! ## Names -/

def validCharacters (fileName : Int) : Nat → Tracked Int Unit
  | 0 => pure ()
  | n + 1 => do
    let c ← byteAt mem fileName
    if c < 32 ∨ 127 ≤ c then Tracked.fail else validCharacters (fileName + 1) n

def validFilename (fileName : Int) (fileNameLen : Nat) : Tracked Int Unit :=
  if pathMax ≤ fileNameLen then Tracked.fail else validCharacters mem fileName fileNameLen

def strncmp (p q : Int) : Nat → Tracked Int Int
  | 0 => pure 0
  | n + 1 => do
    let a ← byteAt mem p
    let b ← byteAt mem q
    if a ≠ b then pure ((a : Int) - b)
    else if a = 0 then pure 0
    else strncmp (p + 1) (q + 1) n

def compareNames (entry : ZipEntry) (fileName : Int) (fileNameLen : Nat) : Tracked Int Int := do
  let diffLen := if entry.fileNameLen < fileNameLen then entry.fileNameLen else fileNameLen
  let diff ← strncmp mem entry.fileName fileName diffLen
  if diff = 0 then pure ((entry.fileNameLen : Int) - fileNameLen) else pure diff

/-- The binary search for the place of a new entry, between `low` and `high`; the window
shrinks in every round. -/
def searchLoop (entries : List ZipEntry) (fileName : Int) (fileNameLen : Nat) :
    Nat → Int → Int → Tracked Int Int
  | 0, _, high => pure high
  | fuel + 1, low, high =>
    if low ≤ high then do
      let mid := low + (high - low) / 2
      match entries[mid.toNat]? with
      | none => Tracked.fail
      | some entry => do
        let diff ← compareNames mem entry fileName fileNameLen
        if diff < 0 then searchLoop entries fileName fileNameLen fuel (mid + 1) high
        else if 0 < diff then searchLoop entries fileName fileNameLen fuel low (mid - 1)
        else pure mid
    else pure high

def targetOf (entries : List ZipEntry) (fileName : Int) (fileNameLen : Nat) : Tracked Int Nat := do
  let high ← searchLoop mem entries fileName fileNameLen entries.length 0 (entries.length - 1)
  pure (high + 1).toNat

/-! ## The central directory -/

/-- A round of the loop over the central directory, at `ptr`: the entries with the new one
and the address of the next record. -/
def readEntry (length : Nat) (ptr : Int) (entries : List ZipEntry) :
    Tracked Int (List ZipEntry × Int) := do
  if (length : Int) < ptr + cenHdr then Tracked.fail
  else do
  let sig ← get4LE mem ptr
  if sig ≠ cenSig then Tracked.fail
  else do
  let localHdrOffset ← get4LE mem (ptr + cenOff)
  let fileNameLen ← get2LE mem (ptr + cenNam)
  let extraLen ← get2LE mem (ptr + cenExt)
  let commentLen ← get2LE mem (ptr + cenCom)
  let fileName := ptr + cenHdr
  if (length : Int) < fileName + fileNameLen then Tracked.fail
  else do
  validFilename mem fileName fileNameLen
  let target ← targetOf mem entries fileName fileNameLen
  let compLen ← get4LE mem (ptr + cenSiz)
  let uncompLen ← get4LE mem (ptr + cenLen)
  let compression ← get2LE mem (ptr + cenHow)
  let modTime ← get4LE mem (ptr + cenTim)
  let crc32 ← get4LE mem (ptr + cenCrc)
  let versionMadeBy ← get2LE mem (ptr + cenVem)
  if versionMadeBy / 2 ^ 8 * 2 ^ 8 ≠ 0 ∧ versionMadeBy / 2 ^ 8 * 2 ^ 8 ≠ cenvemUnix then
    Tracked.fail
  else do
  let externalFileAttributes ← get4LE mem (ptr + cenAtx)
  let localHdr : Int := localHdrOffset
  if (length : Int) < localHdr + locHdr then Tracked.fail
  else do
  let sig ← get4LE mem localHdr
  if sig ≠ locSig then Tracked.fail
  else do
  let nameLen ← get2LE mem (localHdr + locNam)
  let extLen ← get2LE mem (localHdr + locExt)
  -- a sum of `unsigned int`s
  let offset := (localHdrOffset + locHdr + nameLen + extLen) % 2 ^ 32
  if length < offset + compLen then Tracked.fail
  else
    let entry : ZipEntry :=
      { fileNameLen, fileName, offset, compLen, uncompLen, compression, modTime, crc32,
        versionMadeBy, externalFileAttributes }
    pure (entries.insertIdx target entry, ptr + cenHdr + fileNameLen + extraLen + commentLen)

def readEntries (length : Nat) : Nat → Int → List ZipEntry → Tracked Int (List ZipEntry)
  | 0, _, entries => pure entries
  | n + 1, ptr, entries => do
    let (entries, ptr) ← readEntry mem length ptr entries
    readEntries length n ptr entries

def parseZipArchive (length : Nat) : Tracked Int ZipArchive := do
  let val ← get4LE mem 0
  if val = endSig then Tracked.fail
  else if val ≠ locSig then Tracked.fail
  else do
  let ptr ← findEndRecord mem length
  let (numEntries, cdOffset) ← endFields mem ptr
  if numEntries = 0 ∨ length ≤ cdOffset then Tracked.fail
  else do
  let entries ← readEntries mem length numEntries cdOffset []
  pure { numEntries, entries }

def mzOpenZipArchive (length : Nat) : Tracked Int ZipArchive :=
  if length < endHdr then Tracked.fail else parseZipArchive mem length

end

end ShieldTv.Minzip
