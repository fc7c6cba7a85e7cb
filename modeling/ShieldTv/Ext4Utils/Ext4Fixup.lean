import ShieldTv.Lib.Bytes
import ShieldTv.Lib.Device

/-!
# ext4fixup

`ext4fixup.c`: the number of inodes in each group of a file system is rounded up to whole blocks of
the inode table, and every directory entry gets the number that its inode has then. The file system
is changed in place, and a word at the start of the device says how far a run has come.
-/

namespace ShieldTv.Ext4Utils

open Lib.Device

def divRoundUp (x y : Nat) : Nat := (x + y - 1) / y

def ext4Align (x y : Nat) : Nat := y * divRoundUp x y

/-! ## The file system -/

/-- What the superblock says about the layout, and `aux_info` derives from it. -/
structure Geometry where
  blockSize : Nat
  inodeSize : Nat
  blocksPerGroup : Nat
  lenBlocks : Nat
  firstDataBlock : Nat
  groups : Nat
  sparseSuper : Bool

structure SuperBlock where
  inodesCount : Nat
  freeInodesCount : Nat
  inodesPerGroup : Nat
  descSize : Nat
  blockGroupNr : Nat
  needsRecovery : Bool
  hasFiletype : Bool
  deriving Repr, DecidableEq

structure GroupDesc where
  freeInodesCount : Nat
  deriving Repr, DecidableEq

structure Extent where
  eeBlock : Nat
  eeLen : Nat
  start : Nat
  deriving Repr, DecidableEq

/-- The blocks of a directory: extents in the inode itself, or the numbers of direct blocks. -/
inductive BlockMap where
  | extents (entries : List Extent)
  | direct (iBlock : List Nat)
  deriving Repr, DecidableEq

structure Inode where
  isDir : Bool
  blocksLo : Nat
  map : BlockMap
  deriving Repr, DecidableEq

inductive FileType where
  | unknown
  | directory
  | other
  deriving Repr, DecidableEq

structure DirEntry where
  inode : Nat
  recLen : Nat
  fileType : FileType
  name : Bytes
  deriving Repr, DecidableEq

inductive Block where
  | directory (entries : List DirEntry)
  | superblock (sb : SuperBlock)
  | other
  deriving Repr, DecidableEq

/-- The device. The bitmap and the inode table of a group stand where its descriptor says, which
nothing changes. -/
structure Image where
  fixupWord : UInt64
  superblock : SuperBlock
  block : Nat → Block
  descTable : Nat → List GroupDesc
  inodeBitmap : Nat → Nat → Bool
  inodeTable : Nat → Nat → Inode

/-- The records of a block when it is read as part of a directory. -/
def Image.entriesAt (img : Image) (b : Nat) : List DirEntry :=
  match img.block b with
  | .directory entries => entries
  | _ => []

/-! ## Device writes -/

inductive Write where
  | fixupWord (word : UInt64)
  | superblock (sb : SuperBlock)
  | block (b : Nat) (content : Block)
  | descTable (group : Nat) (table : List GroupDesc)
  | inodeBitmap (group : Nat) (bits : Nat → Bool)

def Image.apply (img : Image) : Write → Image
  | .fixupWord word => { img with fixupWord := word }
  | .superblock sb => { img with superblock := sb }
  | .block b content => { img with block := Function.update img.block b content }
  | .descTable group table => { img with descTable := Function.update img.descTable group table }
  | .inodeBitmap group bits =>
    { img with inodeBitmap := Function.update img.inodeBitmap group bits }

instance : Effects Image Write := ⟨Image.apply⟩

abbrev Fixup (α : Type) : Type := Prog Image Write α

/-- Nothing is written while `no_write` is set. -/
def write (noWrite : Bool) (w : Write) : Fixup Unit :=
  if noWrite then pure () else Prog.emit w

/-! ## Progress -/

inductive State where
  | unset
  | markingInums
  | updatingInums
  | updatingSb
  deriving Repr, DecidableEq

def State.magic : State → UInt64
  | .unset => 0
  | .markingInums => 0x7000151515565512
  | .updatingInums => 0x6121131211735123
  | .updatingSb => 0x15e1715151558477

def fixupState (word : UInt64) : State :=
  if word = State.markingInums.magic then .markingInums
  else if word = State.updatingInums.magic then .updatingInums
  else if word = State.updatingSb.magic then .updatingSb
  else .unset

def getFsFixupState : Fixup State := do
  let img ← Prog.store
  pure (fixupState img.fixupWord)

def setLowBit (x : Nat) : Nat := x / 2 * 2 + 1

def clearLowBit (x : Nat) : Nat := x / 2 * 2

/-- The word is written first. The low bit of the descriptor size keeps the file system from being
mounted. -/
def setFsFixupState (state : State) : Fixup Unit := do
  Prog.emit (.fixupWord state.magic)
  let img ← Prog.store
  let sb := img.superblock
  if state.magic ≠ 0 then
    Prog.emit (.superblock { sb with descSize := setLowBit sb.descSize })
  else
    Prog.emit (.superblock { sb with descSize := clearLowBit sb.descSize })

/-! ## Inode numbers -/

def setHighBit (inum : Nat) : Nat := inum % 2 ^ 31 + 2 ^ 31

def clearHighBit (inum : Nat) : Nat := inum % 2 ^ 31

def highBit (inum : Nat) : Bool := 2 ^ 31 ≤ inum

/-- What a run has read at its start, and the number of inodes in a group that it aims at. The
blocks that `malloc` returns hold `junk`. -/
structure Env where
  geometry : Geometry
  junk : Nat → Nat
  inodesPerGroup : Nat
  newInodesPerGroup : Nat
  bgDesc : List GroupDesc

namespace Env

variable (env : Env)

def computeNewInum (oldInum : Nat) : Nat :=
  let group := (oldInum - 1) / env.inodesPerGroup
  let offset := (oldInum - 1) % env.inodesPerGroup
  (group * env.newInodesPerGroup + offset + 1) % 2 ^ 32

def readInode (inum : Nat) : Fixup Inode := do
  let img ← Prog.store
  pure (img.inodeTable ((inum - 1) / env.inodesPerGroup) ((inum - 1) % env.inodesPerGroup))

/-! ## Directories -/

def inodeBlockSize : Nat := 512

def ndirBlocks : Nat := 12

/-- The entries of `block_list` after `get_extent_ents`. -/
def extentBlock (entries : List Extent) : Nat → Nat :=
  entries.foldl (fun list e i =>
    if e.eeBlock ≤ i ∧ i < e.eeBlock + e.eeLen then e.start + (i - e.eeBlock) else list i) env.junk

/-- The blocks of a directory, or nothing if the list does not hold them: it has room for one more
block than the directory has. Directories with an indirect block are not covered. -/
def blockList (inode : Inode) : Option (List Nat) :=
  let numBlocks := inode.blocksLo * inodeBlockSize / env.geometry.blockSize
  match inode.map with
  | .extents entries =>
    if entries.all fun e => e.eeBlock + e.eeLen ≤ numBlocks + 1 then
      some ((List.range numBlocks).map (env.extentBlock entries))
    else
      none
  | .direct iBlock =>
    if numBlocks ≤ ndirBlocks then
      some ((List.range numBlocks).map fun i => iBlock.getD i 0)
    else
      none

inductive Mode where
  | sanityCheckPass
  | markInodeNums
  | updateInodeNums
  deriving Repr, DecidableEq

def isEntryDir (mode : Mode) (dirp : DirEntry) : Fixup Bool :=
  match dirp.fileType with
  | .directory => pure true
  | .unknown =>
    if mode = .updateInodeNums ∧ ¬ highBit dirp.inode then
      pure false
    else do
      let inode ← env.readInode (clearHighBit dirp.inode)
      pure inode.isDir
  | .other => pure false

/-- Neither `.` nor `..`. -/
def isProperName (name : Bytes) : Bool :=
  let text := name.takeWhile (· ≠ 0)
  text ≠ [0x2e] ∧ text ≠ [0x2e, 0x2e]

def newEntry (mode : Mode) (dirp : DirEntry) : DirEntry :=
  match mode with
  | .sanityCheckPass => dirp
  | .markInodeNums => { dirp with inode := setHighBit dirp.inode }
  | .updateInodeNums =>
    if highBit dirp.inode then
      { dirp with inode := env.computeNewInum (clearHighBit dirp.inode) }
    else
      dirp

def visit (mode : Mode) (recurse : Inode → Fixup Unit) (dirp : DirEntry) : Fixup DirEntry := do
  let isDir ← env.isEntryDir mode dirp
  if isDir ∧ isProperName dirp.name ∧ (mode = .updateInodeNums → highBit dirp.inode) then do
    let inode ← env.readInode (clearHighBit dirp.inode)
    if inode.isDir then do
      recurse inode
      pure (env.newEntry mode dirp)
    else
      Prog.fail
  else
    pure (env.newEntry mode dirp)

/-- The bytes from an entry to the end of the directory. -/
def leftoverSpace (entries : List DirEntry) : Nat := (entries.map (·.recLen)).sum

/-- The loop over the entries. It ends at the first entry without an inode. A rest of at most eight
bytes is what an older `make_ext4fs` left out of the length of the last entry. -/
def scan (mode : Mode) (recurse : Inode → Fixup Unit) : List DirEntry → Fixup (List DirEntry)
  | [] => pure []
  | dirp :: rest =>
    if dirp.inode = 0 then
      pure (dirp :: rest)
    else do
      let dirp' ← env.visit mode recurse dirp
      if mode ≠ .markInodeNums ∧ rest ≠ [] ∧ leftoverSpace rest ≤ 8 then
        pure [{ dirp' with recLen := dirp'.recLen + leftoverSpace rest }]
      else do
        let rest' ← scan mode recurse rest
        pure (dirp' :: rest')

/-- The entries cut into blocks where the blocks were cut before. -/
def splitLike : List (List DirEntry) → List DirEntry → List (List DirEntry)
  | [], _ => []
  | block :: blocks, entries =>
    entries.take block.length :: splitLike blocks (entries.drop block.length)

/-- The directory is read as a whole, then its subdirectories are visited, then it is written. -/
def recurseDir (mode : Mode) (noWrite : Bool) : Nat → Inode → Fixup Unit
  | 0, _ => Prog.fail
  | depth + 1, inode =>
    if inode.blocksLo * inodeBlockSize % env.geometry.blockSize ≠ 0 then
      Prog.fail
    else
      match env.blockList inode with
      | none => Prog.fail
      | some blocks => do
        let img ← Prog.store
        let dirbuf := blocks.map img.entriesAt
        let entries ← env.scan mode (recurseDir mode noWrite depth) dirbuf.flatten
        Prog.forEach (blocks.zip (splitLike dirbuf entries)) fun (b, content) =>
          write noWrite (.block b (.directory content))

/-! ## Superblocks and descriptors -/

def isPowerOf (b : Nat) : Nat → Nat → Bool
  | 0, a => a == b
  | fuel + 1, a =>
    if b < a then
      if a % b ≠ 0 then false else isPowerOf b fuel (a / b)
    else
      a == b

def ext4BgHasSuperBlock (bg : Nat) : Bool :=
  if ¬ env.geometry.sparseSuper then true
  else if bg = 0 ∨ bg = 1 then true
  else isPowerOf 3 bg bg || isPowerOf 5 bg bg || isPowerOf 7 bg bg

def maxExt4BlockSize : Nat := 4096

/-- The bitmap without the bits between the old and the new number of inodes. -/
def clearedBits (bits : Nat → Bool) (i : Nat) : Bool :=
  bits i && !(env.inodesPerGroup ≤ i && i < env.newInodesPerGroup)

def checkInodeBitmap (noWrite : Bool) (bgNum : Nat) : Fixup Unit :=
  if maxExt4BlockSize < env.geometry.blockSize then
    Prog.fail
  else do
    let img ← Prog.store
    let bits := img.inodeBitmap bgNum
    if (List.range' env.inodesPerGroup (env.newInodesPerGroup - env.inodesPerGroup)).any bits then
      write noWrite (.inodeBitmap bgNum (env.clearedBits bits))
    else
      pure ()

def numBlockGroups : Nat := divRoundUp env.geometry.lenBlocks env.geometry.blocksPerGroup

/-- The descriptors with so many more free inodes in each group. -/
def addFreeInodes (table : List GroupDesc) (more : Nat) : List GroupDesc :=
  table.mapIdx fun i desc =>
    if i < env.numBlockGroups then
      { desc with freeInodesCount := (desc.freeInodesCount + more) % 2 ^ 16 }
    else
      desc

/-- The superblock is written at the first byte of the group, except for the first group. -/
def writeSb (noWrite : Bool) (group : Nat) (sb : SuperBlock) : Fixup Unit :=
  if group = 0 then
    write noWrite (.superblock { sb with blockGroupNr := 0 })
  else
    write noWrite (.block (group * env.geometry.blocksPerGroup)
      (.superblock { sb with blockGroupNr := group, descSize := clearLowBit sb.descSize }))

def updateSuperblocksAndBgDesc (noWrite : Bool) (state : State) : Fixup Unit := do
  let img ← Prog.store
  let sb := img.superblock
  let moreInodes := env.newInodesPerGroup - sb.inodesPerGroup
  let totalNewInodes := env.numBlockGroups * moreInodes
  let bgDesc :=
    if state = .updatingSb then env.addFreeInodes env.bgDesc moreInodes else env.bgDesc
  Prog.forEach (List.range env.numBlockGroups) (env.checkInodeBitmap noWrite)
  if (sb.inodesCount + totalNewInodes) % 2 ^ 32 ≠
      env.newInodesPerGroup * env.numBlockGroups % 2 ^ 32 then
    Prog.fail
  else if env.newInodesPerGroup % (env.geometry.blockSize / env.geometry.inodeSize) ≠ 0 then
    Prog.fail
  else do
    let sb := { sb with
      inodesCount := (sb.inodesCount + totalNewInodes) % 2 ^ 32
      freeInodesCount := (sb.freeInodesCount + totalNewInodes) % 2 ^ 32
      inodesPerGroup := env.newInodesPerGroup }
    Prog.forEach ((List.range env.geometry.groups).filter env.ext4BgHasSuperBlock) fun i => do
      env.writeSb noWrite i sb
      write noWrite (.descTable i bgDesc)

/-! ## The run -/

def rootIno : Nat := 2

def sanityCheck (depth : Nat) (root : Inode) : Fixup Unit := do
  let state ← getFsFixupState
  if state = .unset then do
    env.recurseDir .sanityCheckPass true depth root
    env.updateSuperblocksAndBgDesc true .unset
    setFsFixupState .markingInums
  else
    pure ()

def markInums (depth : Nat) (root : Inode) : Fixup Unit := do
  let state ← getFsFixupState
  if state = .markingInums then do
    env.recurseDir .markInodeNums false depth root
    setFsFixupState .updatingInums
  else
    pure ()

def updateInums (depth : Nat) (root : Inode) : Fixup Unit := do
  let state ← getFsFixupState
  if state = .updatingInums then do
    env.recurseDir .updateInodeNums false depth root
    setFsFixupState .updatingSb
  else
    pure ()

def updateSb : Fixup Unit := do
  let state ← getFsFixupState
  if state = .updatingSb then do
    env.updateSuperblocksAndBgDesc false .updatingSb
    setFsFixupState .unset
  else
    pure ()

end Env

def Image.env (img : Image) (geometry : Geometry) (junk : Nat → Nat) : Env where
  geometry
  junk
  inodesPerGroup := img.superblock.inodesPerGroup
  newInodesPerGroup :=
    ext4Align img.superblock.inodesPerGroup (geometry.blockSize / geometry.inodeSize)
  bgDesc := img.descTable 0

/-- The size of a group descriptor in the format that the tool knows. -/
def ext2GroupDescSize : Nat := 32

/-- A run with room for `depth` nested calls of `recurse_dir`. -/
def ext4fixup (geometry : Geometry) (junk : Nat → Nat) (depth : Nat) : Fixup Unit := do
  let img ← Prog.store
  let env := img.env geometry junk
  if img.superblock.needsRecovery then
    Prog.fail
  else if clearLowBit img.superblock.descSize ≠ ext2GroupDescSize ∧
      clearLowBit img.superblock.descSize ≠ 0 then
    Prog.fail
  else if ¬ img.superblock.hasFiletype then
    Prog.fail
  else do
    let root ← env.readInode Env.rootIno
    if root.isDir then do
      env.sanityCheck depth root
      env.markInums depth root
      env.updateInums depth root
      env.updateSb
    else
      Prog.fail

end ShieldTv.Ext4Utils
