import ShieldTv.Ext4Utils.Proofs.Directories

/-!
# Where a run can be stopped

The images that a sequence of stopped runs goes through, from an image as it was found to the image
with new inode numbers, and the passes over the directories between them.
-/

namespace ShieldTv.Ext4Utils

open Lib.Device List

variable (geometry : Geometry) (junk : Nat → Nat) (depth : Nat) (base : Image) {mode : Env.Mode}
  {b : Nat} {d : Inode}

/-! ## The images that are found -/

def Env.root (env : Env) (img : Image) : Inode := env.inodeAt img Env.rootIno

def Env.allDirs (env : Env) (img : Image) : List Inode := env.directories img depth (env.root img)

def Env.allBlocks (env : Env) (img : Image) : List Nat := env.treeBlocks img depth (env.root img)

def Env.supers (env : Env) : List Nat :=
  (List.range env.geometry.groups).filter env.ext4BgHasSuperBlock

def Env.backupBlocks (env : Env) : List Nat :=
  (env.supers.filter (· ≠ 0)).map (· * env.geometry.blocksPerGroup)

/-- A consistent file system on which no run is under way. -/
structure Consistent : Prop where
  word : fixupState base.fixupWord = .unset
  groups : 0 < geometry.groups
  blocksPerGroup : 0 < geometry.blocksPerGroup
  inodeSize : geometry.inodeSize ∣ geometry.blockSize
  blockSize : 0 < geometry.blockSize
  inodesPerGroup : 2 ≤ base.superblock.inodesPerGroup
  inodeBitmap : base.superblock.inodesPerGroup ≤ 8 * geometry.blockSize
  inodesCount : base.superblock.inodesCount = base.superblock.inodesPerGroup * geometry.groups
  blockGroupNr : base.superblock.blockGroupNr = 0
  descTable : (base.descTable 0).length = geometry.groups
  freeInodes : ∀ desc ∈ base.descTable 0,
    desc.freeInodesCount ≤ base.superblock.inodesPerGroup
  freeInodesCount : base.superblock.freeInodesCount =
    ((base.descTable 0).map (·.freeInodesCount)).sum
  directories : ∀ d ∈ (base.env geometry junk).allDirs depth base, d.isDir = true ∧
    ∀ e ∈ (base.env geometry junk).entriesOf base d, 12 ≤ e.recLen ∧
      e.inode ≤ base.superblock.inodesPerGroup * geometry.groups
  nodup : ((base.env geometry junk).allBlocks depth base).Nodup
  stored : ∀ b ∈ (base.env geometry junk).allBlocks depth base,
    ∃ entries, base.block b = .directory entries
  apart : ∀ b ∈ (base.env geometry junk).allBlocks depth base,
    b ∉ (base.env geometry junk).backupBlocks

/-- A directory inode counts the blocks of its entries only, and its map gives all of them. -/
def Env.Mapped (env : Env) (d : Inode) : Prop :=
  match d.map with
  | .extents entries => ∀ i < d.blocksLo * Env.inodeBlockSize / env.geometry.blockSize,
      ∃ e ∈ entries, e.eeBlock ≤ i ∧ i < e.eeBlock + e.eeLen
  | .direct iBlock =>
    d.blocksLo * Env.inodeBlockSize / env.geometry.blockSize ≤ iBlock.length

/-- What the tool takes for granted, or refuses to go on without. -/
structure Supported : Prop where
  recovery : base.superblock.needsRecovery = false
  filetype : base.superblock.hasFiletype = true
  descSize : clearLowBit base.superblock.descSize = ext2GroupDescSize ∨
    clearLowBit base.superblock.descSize = 0
  blockSize : geometry.blockSize ≤ Env.maxExt4BlockSize
  firstDataBlock : geometry.firstDataBlock = 0
  groups : geometry.groups = (base.env geometry junk).numBlockGroups
  inodes : (base.env geometry junk).newInodesPerGroup * geometry.groups < 2 ^ 31
  bounded : (base.env geometry junk).Bounded base depth ((base.env geometry junk).root base)
  whole : ∀ d ∈ (base.env geometry junk).allDirs depth base,
    d.blocksLo * Env.inodeBlockSize % geometry.blockSize = 0 ∧
      ((base.env geometry junk).blockList d).isSome ∧ (base.env geometry junk).Mapped d
  usedFirst : ∀ d ∈ (base.env geometry junk).allDirs depth base,
    ((base.env geometry junk).entriesOf base d).Pairwise fun a b => a.inode = 0 → b.inode = 0

/-- A file system on which the tool is started. -/
structure Found (geometry : Geometry) (junk : Nat → Nat) (depth : Nat) where
  image : Image
  consistent : Consistent geometry junk depth image
  supported : Supported geometry junk depth image

namespace Found

variable {geometry : Geometry} {junk : Nat → Nat} {depth : Nat} (F : Found geometry junk depth)

def env : Env := F.image.env geometry junk

def allDirs : List Inode := F.env.allDirs depth F.image

def allBlocks : List Nat := F.env.allBlocks depth F.image

/-- The descriptor size that was found, but for the low bit. -/
def SameSize (descSize : Nat) : Prop :=
  clearLowBit descSize = clearLowBit F.image.superblock.descSize

/-- Blocks that a pass has been through, where it has to go through subdirectories first. -/
def Closed (mode : Env.Mode) (done : List Nat) : Prop :=
  ∀ b ∈ done, F.env.Ready F.image F.allDirs mode done b

end Found

/-! ## Numbers -/

theorem le_ext4Align {x y : Nat} (hy : 0 < y) : x ≤ ext4Align x y := by
  unfold ext4Align divRoundUp
  have hdiv := Nat.div_add_mod (x + y - 1) y
  have hlt := Nat.mod_lt (x + y - 1) hy
  omega

theorem ext4Align_le {x y z : Nat} (hy : 0 < y) (hz : y ∣ z) (hxz : x ≤ z) : ext4Align x y ≤ z := by
  obtain ⟨k, rfl⟩ := hz
  unfold ext4Align divRoundUp
  apply Nat.mul_le_mul_left
  rw [← Nat.lt_succ_iff, Nat.div_lt_iff_lt_mul hy, Nat.succ_mul, mul_comm k y]
  omega

theorem ext4Align_of_dvd {x y : Nat} (hy : 0 < y) (h : y ∣ x) : ext4Align x y = x :=
  Nat.le_antisymm (ext4Align_le hy h (Nat.le_refl x)) (le_ext4Align hy)

theorem dvd_ext4Align (x y : Nat) : y ∣ ext4Align x y := Nat.dvd_mul_right _ _

namespace Found

variable {geometry : Geometry} {junk : Nat → Nat} {depth : Nat} (F : Found geometry junk depth)

include F in
theorem inodesPerBlock_pos : 0 < geometry.blockSize / geometry.inodeSize :=
  Nat.div_pos (Nat.le_of_dvd F.consistent.blockSize F.consistent.inodeSize)
    (Nat.pos_of_dvd_of_pos F.consistent.inodeSize F.consistent.blockSize)

theorem inodesPerGroup_le_new : F.image.superblock.inodesPerGroup ≤ F.env.newInodesPerGroup :=
  le_ext4Align (F.inodesPerBlock_pos)

theorem inodes_lt : F.env.newInodesPerGroup * geometry.groups < 2 ^ 31 := F.supported.inodes

theorem groups_eq : geometry.groups = F.env.numBlockGroups := F.supported.groups

theorem newInodesPerGroup_le : F.env.newInodesPerGroup ≤ 8 * geometry.blockSize := by
  refine ext4Align_le (F.inodesPerBlock_pos) ?_ F.consistent.inodeBitmap
  exact (Nat.div_dvd_of_dvd F.consistent.inodeSize).trans (Nat.dvd_mul_left _ _)

theorem newInodesPerGroup_dvd : geometry.blockSize / geometry.inodeSize ∣ F.env.newInodesPerGroup :=
  dvd_ext4Align _ _

theorem computeNewInum_eq {inum : Nat} (hpos : inum ≠ 0)
    (hle : inum ≤ F.image.superblock.inodesPerGroup * geometry.groups) :
    F.env.computeNewInum inum =
      (inum - 1) / F.image.superblock.inodesPerGroup * F.env.newInodesPerGroup +
        (inum - 1) % F.image.superblock.inodesPerGroup + 1 ∧
    F.env.computeNewInum inum ≤ F.env.newInodesPerGroup * geometry.groups := by
  have hnew := F.inodesPerGroup_le_new
  have htwo := F.consistent.inodesPerGroup
  have hgroup : (inum - 1) / F.image.superblock.inodesPerGroup < geometry.groups := by
    rw [Nat.div_lt_iff_lt_mul (by omega), mul_comm]
    omega
  have hoffset := Nat.mod_lt (inum - 1) (show F.image.superblock.inodesPerGroup > 0 by omega)
  have hbound : (inum - 1) / F.image.superblock.inodesPerGroup * F.env.newInodesPerGroup +
      (inum - 1) % F.image.superblock.inodesPerGroup + 1 ≤
        F.env.newInodesPerGroup * geometry.groups := by
    have hmul := Nat.mul_le_mul_right F.env.newInodesPerGroup (Nat.succ_le_of_lt hgroup)
    rw [Nat.succ_mul] at hmul
    rw [mul_comm _ geometry.groups]
    omega
  have heq : F.env.computeNewInum inum =
      (inum - 1) / F.image.superblock.inodesPerGroup * F.env.newInodesPerGroup +
        (inum - 1) % F.image.superblock.inodesPerGroup + 1 :=
    Nat.mod_eq_of_lt (hbound.trans_lt (F.inodes_lt.trans (by decide)))
  exact ⟨heq, heq ▸ hbound⟩

theorem dirValid (hd : d ∈ F.allDirs) : F.env.DirValid F.image d := by
  obtain ⟨hdir, hentries⟩ := F.consistent.directories d hd
  obtain ⟨hwhole, hblocks, -⟩ := F.supported.whole d hd
  refine ⟨hdir, hwhole, hblocks, ?_, F.supported.usedFirst d hd⟩
  intro e he
  obtain ⟨hrec, hle⟩ := hentries e he
  have hnew := F.inodesPerGroup_le_new
  have hmul := Nat.mul_le_mul_right geometry.groups hnew
  have hsmall := F.inodes_lt
  refine ⟨hrec, by omega, fun hused => ?_⟩
  obtain ⟨heq, hbound⟩ := F.computeNewInum_eq hused hle
  exact ⟨by omega, by omega⟩

end Found

/-! ## Images on the way -/

/-- The superblock that is written to the groups, with the number of the group still open. -/
def Env.grownSuperblock (env : Env) (sb : SuperBlock) : SuperBlock :=
  { sb with
    inodesCount := (sb.inodesCount + env.numBlockGroups *
      (env.newInodesPerGroup - sb.inodesPerGroup)) % 2 ^ 32
    freeInodesCount := (sb.freeInodesCount + env.numBlockGroups *
      (env.newInodesPerGroup - sb.inodesPerGroup)) % 2 ^ 32
    inodesPerGroup := env.newInodesPerGroup }

def Env.newSuperblock (env : Env) (sb : SuperBlock) : SuperBlock :=
  { env.grownSuperblock sb with blockGroupNr := 0 }

def Env.backup (env : Env) (sb : SuperBlock) (group : Nat) : SuperBlock :=
  { env.newSuperblock sb with
    blockGroupNr := group
    descSize := clearLowBit sb.descSize }

def Env.newDescTable (env : Env) (img : Image) : List GroupDesc :=
  env.addFreeInodes (img.descTable 0) (env.newInodesPerGroup - img.superblock.inodesPerGroup)

/-- The phases when a pass has been through some blocks. -/
def Env.Mode.phase (mode : Env.Mode) (done : List Nat) (b : Nat) : Phase :=
  if b ∈ done then mode.after else mode.before

theorem Env.Mode.phase_cons (mode : Env.Mode) (done : List Nat) (b : Nat) :
    mode.phase (b :: done) = Function.update (mode.phase done) b mode.after := by
  refine (Function.update_eq_iff.mpr ⟨(if_pos mem_cons_self).symm, fun x hx => ?_⟩).symm
  simp only [Env.Mode.phase, mem_cons, hx, false_or]

theorem Env.Ready.mono {env : Env} {base : Image} {dirs : List Inode} {done done' : List Nat}
    (h : env.Ready base dirs mode done b) (hsub : done ⊆ done') :
    env.Ready base dirs mode done' b :=
  fun hmode d hd hb c hc b' hb' => hsub (h hmode d hd hb c hc b' hb')

namespace Found

variable {geometry : Geometry} {junk : Nat → Nat} {depth : Nat} (F : Found geometry junk depth)

/-- The image with a state word, a descriptor size, directories in some phases, and the bitmaps, the
primary superblock, the descriptor tables and the backup superblocks that are new. -/
def lapImage (word : UInt64) (descSize : Nat) (phase : Nat → Phase) (bitmaps : List Nat)
    (newSb : Bool) (descs backups : List Nat) : Image where
  fixupWord := word
  superblock := {
    (if newSb then F.env.newSuperblock F.image.superblock else F.image.superblock) with
    descSize }
  block b :=
    if b ∈ F.allBlocks then
      .directory ((F.image.entriesAt b).map (F.env.setPhase (phase b)))
    else if b ∈ backups then
      .superblock (F.env.backup F.image.superblock (b / geometry.blocksPerGroup))
    else
      F.image.block b
  descTable i := if i ∈ descs then F.env.newDescTable F.image else F.image.descTable i
  inodeBitmap g :=
    if g ∈ bitmaps then F.env.clearedBits (F.image.inodeBitmap g)
    else F.image.inodeBitmap g
  inodeTable := F.image.inodeTable

/-- A pass has been through some blocks. -/
def passImage (mode : Env.Mode) (state : State) (descSize : Nat) (done : List Nat) : Image :=
  F.lapImage state.magic descSize (mode.phase done) [] false [] []

def bitmapsImage (descSize : Nat) (bitmaps : List Nat) : Image :=
  F.lapImage State.updatingSb.magic descSize (fun _ => .updated) bitmaps false [] []

def backupsImage (descSize : Nat) (descs backups : List Nat) : Image :=
  F.lapImage State.updatingSb.magic descSize (fun _ => .updated)
    (List.range geometry.groups) true descs backups

def finishedImage (descSize : Nat) : Image :=
  F.lapImage State.unset.magic descSize (fun _ => .updated)
    (List.range geometry.groups) true F.env.supers F.env.backupBlocks

def finalImage : Image := F.finishedImage (clearLowBit F.image.superblock.descSize)

/-- The groups and the blocks of backups that are named exist. -/
structure BackupsValid (descs backups : List Nat) : Prop where
  first : 0 ∈ descs
  descs : ∀ i ∈ descs, i ∈ F.env.supers
  backups : ∀ b ∈ backups, b ∈ F.env.backupBlocks

/-- The image is one that stopped runs leave with the old superblock, in the given state. -/
inductive OldLap : State → Image → Prop where
  | marking (descSize : Nat) (done : List Nat) (hdesc : F.SameSize descSize)
      (hclosed : F.Closed .markInodeNums done) :
      OldLap .markingInums (F.passImage .markInodeNums .markingInums descSize done)
  | updating (descSize : Nat) (done : List Nat) (hdesc : F.SameSize descSize)
      (hclosed : F.Closed .updateInodeNums done) :
      OldLap .updatingInums (F.passImage .updateInodeNums .updatingInums descSize done)
  | bitmaps (descSize : Nat) (bitmaps : List Nat) (hdesc : F.SameSize descSize)
      (hbitmaps : ∀ g ∈ bitmaps, g < geometry.groups) :
      OldLap .updatingSb (F.bitmapsImage descSize bitmaps)

/-- The image is one that stopped runs can leave, with stops in the middle of the two writes for
the first group apart. -/
inductive InLap : Image → Prop where
  | start : InLap F.image
  | old {state : State} {img : Image} (h : F.OldLap state img) : InLap img
  | backups (descSize : Nat) (descs backups : List Nat) (hdesc : F.SameSize descSize)
      (hvalid : F.BackupsValid descs backups) : InLap (F.backupsImage descSize descs backups)
  | finished (descSize : Nat) (hdesc : F.SameSize descSize) : InLap (F.finishedImage descSize)

section ImageLemmas

variable {F} {word : UInt64} {descSize : Nat} {phase phase' : Nat → Phase}
  {bitmaps descs backups : List Nat} {newSb : Bool}

/-- Phases matter for blocks of directories only, and lists for their elements. -/
theorem lapImage_congr {bitmaps' descs' backups' : List Nat}
    (hphase : ∀ b ∈ F.allBlocks, phase b = phase' b)
    (hbitmaps : ∀ g, g ∈ bitmaps ↔ g ∈ bitmaps') (hdescs : ∀ i, i ∈ descs ↔ i ∈ descs')
    (hbackups : ∀ b, b ∈ backups ↔ b ∈ backups') :
    F.lapImage word descSize phase bitmaps newSb descs backups =
      F.lapImage word descSize phase' bitmaps' newSb descs' backups' := by
  unfold lapImage
  simp only [hbitmaps, hdescs, hbackups]
  congr 1
  funext b
  by_cases hb : b ∈ F.allBlocks
  · rw [if_pos hb, if_pos hb, hphase b hb]
  · rw [if_neg hb, if_neg hb]

theorem lapImage_start (word : UInt64) :
    F.lapImage word F.image.superblock.descSize (fun _ => .original) [] false [] [] =
      F.image.apply (.fixupWord word) := by
  have hid : F.env.setPhase .original = id := rfl
  simp only [lapImage, Image.apply, not_mem_nil, if_false, hid, map_id, Bool.false_eq_true]
  congr 1
  funext b
  by_cases hb : b ∈ F.allBlocks
  · obtain ⟨entries, hentries⟩ := F.consistent.stored b hb
    rw [if_pos hb, Image.entriesAt, hentries]
  · rw [if_neg hb]

theorem entriesAt_lapImage (hb : b ∈ F.allBlocks) :
    (F.lapImage word descSize phase bitmaps newSb descs backups).entriesAt b =
      (F.image.entriesAt b).map (F.env.setPhase (phase b)) := by
  unfold Image.entriesAt lapImage
  simp only [if_pos hb]
  rfl

theorem apply_block_lapImage (hb : b ∈ F.allBlocks) (p : Phase) :
    (F.lapImage word descSize phase bitmaps newSb descs backups).apply
        (.block b (.directory ((F.image.entriesAt b).map (F.env.setPhase p)))) =
      F.lapImage word descSize (Function.update phase b p) bitmaps newSb descs backups := by
  simp only [Image.apply, lapImage]
  congr 1
  funext x
  by_cases hx : x = b
  · subst hx
    rw [Function.update_self, if_pos hb, Function.update_self]
  · rw [Function.update_of_ne hx, Function.update_of_ne hx]

end ImageLemmas

/-! ## The passes between the images -/

section Passes

variable {I : Image → Prop}

theorem mem_allBlocks (hd : d ∈ F.allDirs) (hb : b ∈ F.env.blocksOf d) : b ∈ F.allBlocks :=
  mem_flatMap.mpr ⟨d, hd, hb⟩

/-- The checks before the first pass read the image that was found. -/
theorem sanity_pass (hI : I F.image) :
    F.env.Pass F.image F.allDirs .sanityCheckPass true I fun done img =>
      done = [] ∧ img = F.image where
  inv := by
    rintro done img ⟨-, rfl⟩
    exact hI
  table := by
    rintro done img ⟨-, rfl⟩
    rfl
  shows := by
    rintro done img ⟨-, himg⟩ d - b -
    rw [himg]
    have hid : F.env.setPhase .original = id := rfl
    simp only [Env.Mode.before, Env.Mode.after, ite_self, hid, map_id]
  closed := by
    rintro done img ⟨rfl, -⟩ b hb
    exact absurd hb not_mem_nil
  step h := Bool.noConfusion h

theorem renumber_pass {state : State} {descSize : Nat}
    (hI : ∀ done, F.Closed mode done → I (F.passImage mode state descSize done)) :
    F.env.Pass F.image F.allDirs mode false I fun done img =>
      F.Closed mode done ∧ img = F.passImage mode state descSize done where
  inv := by
    rintro done img ⟨hclosed, rfl⟩
    exact hI done hclosed
  table := by
    rintro done img ⟨-, rfl⟩
    rfl
  shows := by
    rintro done img ⟨-, rfl⟩ d hd b hb
    exact entriesAt_lapImage (F.mem_allBlocks hd hb)
  closed := fun h => h.1
  step := by
    rintro - done img ⟨hclosed, rfl⟩ d hd b hb hready
    constructor
    · intro b' hb'
      rcases mem_cons.mp hb' with rfl | hb'
      · exact hready.mono (subset_cons_self _ _)
      · exact (hclosed b' hb').mono (subset_cons_self _ _)
    · rw [passImage, apply_block_lapImage (F.mem_allBlocks hd hb), passImage, Env.Mode.phase_cons]

theorem pass_spec {noWrite : Bool} {J : List Nat → Image → Prop}
    (hpass : F.env.Pass F.image F.allDirs mode noWrite I J) {done : List Nat} {img : Image}
    (hJ : J done img) :
    Spec I (F.env.recurseDir mode noWrite depth (F.env.root F.image)) img fun _ img' =>
      ∃ done', J done' img' ∧ done ⊆ done' ∧ (noWrite = false → ∀ b ∈ F.allBlocks, b ∈ done') :=
  recurseDir_spec hpass (fun _ hd => F.dirValid hd)
    (fun _ hx _ hy _ => directory_unique F.consistent.nodup hx hy) (fun _ h => h)
    F.supported.bounded hJ

end Passes

end Found

end ShieldTv.Ext4Utils
