import ShieldTv.Ext4Utils.Proofs.Superblocks

/-!
# A finished run as a start

The image that a run leaves is consistent again. A run that is started on it finds the same
directories and has nothing left to do.
-/

namespace ShieldTv.Ext4Utils

open List Env

attribute [ext] Image

namespace Found

variable {geometry : Geometry} {junk : Nat → Nat} {depth inum n : Nat}
  (F : Found geometry junk depth) (descSize : Nat) {d : Inode} {e : DirEntry}

def finishedEnv : Env := (F.finishedImage descSize).env geometry junk

/-! ## Inode numbers -/

theorem newInodesPerGroup_finished : (F.finishedEnv descSize).newInodesPerGroup =
      F.env.newInodesPerGroup :=
  newInodesPerGroup_later rfl

/-- A new number stands for the inode that the old one stood for. -/
theorem inodeAt_finished (hpos : inum ≠ 0)
    (hle : inum ≤ F.image.superblock.inodesPerGroup * geometry.groups) :
    (F.finishedEnv descSize).inodeAt (F.finishedImage descSize) (F.env.computeNewInum inum) =
      F.env.inodeAt F.image inum := by
  obtain ⟨heq, -⟩ := F.computeNewInum_eq hpos hle
  have htwo := F.consistent.inodesPerGroup
  have hoffset := Nat.mod_lt (inum - 1) (show F.image.superblock.inodesPerGroup > 0 by omega)
  have hlt := hoffset.trans_le F.inodesPerGroup_le_new
  have hnew : 0 < F.env.newInodesPerGroup := by omega
  change F.image.inodeTable ((F.env.computeNewInum inum - 1) / F.env.newInodesPerGroup)
    ((F.env.computeNewInum inum - 1) % F.env.newInodesPerGroup) = F.image.inodeTable _ _
  rw [heq, Nat.add_sub_cancel, add_comm, Nat.add_mul_div_right _ _ hnew,
    Nat.div_eq_of_lt hlt, zero_add, Nat.add_mul_mod_self_right, Nat.mod_eq_of_lt hlt]
  rfl

theorem computeNewInum_finished (hpos : inum ≠ 0)
    (hle : inum ≤ F.env.newInodesPerGroup * geometry.groups) :
    (F.finishedEnv descSize).computeNewInum inum = inum := by
  unfold Env.computeNewInum
  rw [F.newInodesPerGroup_finished descSize]
  change ((inum - 1) / F.env.newInodesPerGroup * F.env.newInodesPerGroup +
      (inum - 1) % F.env.newInodesPerGroup + 1) % 2 ^ 32 = inum
  rw [Nat.div_add_mod', Nat.sub_add_cancel (Nat.pos_of_ne_zero hpos)]
  exact Nat.mod_eq_of_lt (hle.trans_lt (F.inodes_lt.trans (by decide)))

theorem root_finished : (F.finishedEnv descSize).root (F.finishedImage descSize) =
      F.env.root F.image := by
  have htwo := F.consistent.inodesPerGroup
  have hnew := F.inodesPerGroup_le_new
  change F.image.inodeTable (1 / F.env.newInodesPerGroup) (1 % F.env.newInodesPerGroup) =
    F.image.inodeTable (1 / F.image.superblock.inodesPerGroup)
      (1 % F.image.superblock.inodesPerGroup)
  rw [Nat.div_eq_of_lt (by omega), Nat.mod_eq_of_lt (by omega), Nat.div_eq_of_lt (by omega),
    Nat.mod_eq_of_lt (by omega)]

/-! ## Directories -/

theorem childOf_finished (hd : d ∈ F.allDirs) (he : e ∈ F.env.entriesOf F.image d) :
    (F.finishedEnv descSize).childOf (F.finishedImage descSize) (F.env.setPhase .updated e) =
      F.env.childOf F.image e := by
  by_cases hused : e.inode = 0
  · rw [setPhase_unused hused, Env.childOf, Env.childOf, if_neg (not_and_of_not_left _
      (not_not_intro hused)), if_neg (not_and_of_not_left _ (not_not_intro hused))]
  · have hvalid := (F.dirValid hd).entries e he
    have hle := ((F.consistent.directories d hd).2 e he).2
    have hinode := F.inodeAt_finished descSize hused hle
    have hnumber : (F.env.setPhase .updated e).inode = F.env.computeNewInum e.inode := by
      rw [setPhase_updated hused]
    have hdir : (F.finishedEnv descSize).entryIsDir (F.finishedImage descSize)
        (F.env.setPhase .updated e) = F.env.entryIsDir F.image e := by
      unfold Env.entryIsDir
      rw [setPhase_fileType, hnumber, hinode]
    unfold Env.childOf
    rw [hdir, setPhase_name, hnumber, hinode]
    simp only [hused, Nat.ne_of_gt (hvalid.newInode hused).1, ne_eq, not_false_eq_true]

theorem entriesOf_finished (hd : d ∈ F.allDirs) : (F.finishedEnv descSize).entriesOf
        (F.finishedImage descSize) d =
      (F.env.entriesOf F.image d).map (F.env.setPhase .updated) := by
  unfold Env.entriesOf
  rw [map_flatMap]
  exact flatMap_congr fun b hb => entriesAt_lapImage (F.mem_allBlocks hd hb)

theorem subdirs_finished (hd : d ∈ F.allDirs) : (F.finishedEnv descSize).subdirs
        (F.finishedImage descSize) d =
      F.env.subdirs F.image d := by
  unfold Env.subdirs
  rw [F.entriesOf_finished descSize hd, filterMap_map]
  exact filterMap_congr fun e he => F.childOf_finished descSize hd he

theorem directories_finished (h : ∀ x ∈ F.env.directories F.image n d, x ∈ F.allDirs) :
    (F.finishedEnv descSize).directories (F.finishedImage descSize) n d =
      F.env.directories F.image n d := by
  induction n generalizing d with
  | zero => rfl
  | succ n ih =>
    have hd : d ∈ F.allDirs :=
      h d (mem_append_right _ mem_cons_self)
    unfold Env.directories
    rw [F.subdirs_finished descSize hd]
    congr 1
    exact flatMap_congr fun c hchild => ih fun x hx => h x (directories_child hchild hx)

theorem bounded_finished (h : ∀ x ∈ F.env.directories F.image n d, x ∈ F.allDirs)
    (hbounded : F.env.Bounded F.image n d) :
    (F.finishedEnv descSize).Bounded (F.finishedImage descSize) n d := by
  induction n generalizing d with
  | zero => exact hbounded.elim
  | succ n ih =>
    intro c hchild
    rw [F.subdirs_finished descSize (h d (mem_directories_self hbounded))] at hchild
    exact ih (fun x hx => h x (directories_child hchild hx)) (hbounded c hchild)

theorem allDirs_finished : (F.finishedEnv descSize).allDirs depth (F.finishedImage descSize) =
      F.allDirs := by
  unfold Env.allDirs
  rw [F.root_finished descSize]
  exact F.directories_finished descSize fun _ h => h

theorem allBlocks_finished : (F.finishedEnv descSize).allBlocks depth (F.finishedImage descSize) =
      F.allBlocks := by
  change (Env.allDirs depth _ _).flatMap _ = (Env.allDirs depth _ _).flatMap _
  rw [F.allDirs_finished descSize]
  rfl

/-! ## Counts -/

theorem inodesCount_new : (F.env.newSuperblock F.image.superblock).inodesCount =
    F.env.newInodesPerGroup * geometry.groups := by
  have hsmall := F.inodes_lt
  change (F.image.superblock.inodesCount + _ * (_ - F.image.superblock.inodesPerGroup)) % _ = _
  rw [count_eq, ← F.groups_eq]
  apply Nat.mod_eq_of_lt
  omega

theorem newDescTable_eq : F.env.newDescTable F.image =
    (F.image.descTable 0).map fun desc => { desc with freeInodesCount := desc.freeInodesCount +
      (F.env.newInodesPerGroup - F.image.superblock.inodesPerGroup) } := by
  have hnew := F.newInodesPerGroup_le
  have hle := F.inodesPerGroup_le_new
  have hblock : geometry.blockSize ≤ 4096 := F.supported.blockSize
  unfold Env.newDescTable Env.addFreeInodes
  apply ext_getElem
  · rw [length_mapIdx, length_map]
  · intro i hi _
    rw [length_mapIdx] at hi
    have hgroup : i < F.env.numBlockGroups := by
      rw [← F.groups_eq, ← F.consistent.descTable]
      exact hi
    have hfree := F.consistent.freeInodes _ (getElem_mem hi)
    rw [getElem_mapIdx, getElem_map, if_pos hgroup, Nat.mod_eq_of_lt (by omega)]

theorem freeInodesCount_new : (F.env.newSuperblock F.image.superblock).freeInodesCount =
      ((F.env.newDescTable F.image).map (·.freeInodesCount)).sum := by
  have hle := F.inodesPerGroup_le_new
  have hsum : ((F.env.newDescTable F.image).map (·.freeInodesCount)).sum =
      F.image.superblock.freeInodesCount + geometry.groups *
        (F.env.newInodesPerGroup - F.image.superblock.inodesPerGroup) := by
    rw [F.newDescTable_eq, map_map, F.consistent.freeInodesCount, ← F.consistent.descTable]
    generalize F.image.descTable 0 = table
    induction table with
    | nil => simp
    | cons desc table ih =>
      rw [map_cons, sum_cons, ih, map_cons, sum_cons, length_cons, Nat.succ_mul]
      simp only [Function.comp_apply]
      omega
  have hbound : F.image.superblock.freeInodesCount ≤
      geometry.groups * F.image.superblock.inodesPerGroup := by
    rw [F.consistent.freeInodesCount, ← F.consistent.descTable,
      ← length_map (fun desc => desc.freeInodesCount), ← smul_eq_mul]
    apply sum_le_card_nsmul
    intro n hn
    obtain ⟨desc, hdesc, rfl⟩ := mem_map.mp hn
    exact F.consistent.freeInodes desc hdesc
  have htotal : F.image.superblock.freeInodesCount + geometry.groups *
      (F.env.newInodesPerGroup - F.image.superblock.inodesPerGroup) < 2 ^ 31 := by
    refine Nat.lt_of_le_of_lt ?_ F.supported.inodes
    calc F.image.superblock.freeInodesCount + geometry.groups *
          (F.env.newInodesPerGroup - F.image.superblock.inodesPerGroup)
        ≤ geometry.groups * F.image.superblock.inodesPerGroup + geometry.groups *
          (F.env.newInodesPerGroup - F.image.superblock.inodesPerGroup) :=
            Nat.add_le_add_right hbound _
      _ = F.env.newInodesPerGroup * geometry.groups := by
            rw [← mul_add, Nat.add_sub_cancel' hle, mul_comm]
  change (F.image.superblock.freeInodesCount + F.env.numBlockGroups *
    (_ - F.image.superblock.inodesPerGroup)) % _ = _
  rw [hsum, ← F.groups_eq]
  apply Nat.mod_eq_of_lt
  omega

theorem descTable_finished {i : Nat} (hi : i ∈ F.env.supers) :
    (F.finishedImage descSize).descTable i = F.env.newDescTable F.image := if_pos hi

/-! ## The finished image is a start -/

theorem consistent_finished :
    Consistent geometry junk depth (F.finishedImage descSize) where
  word := fixupState_magic .unset
  groups := F.consistent.groups
  blocksPerGroup := F.consistent.blocksPerGroup
  inodeSize := F.consistent.inodeSize
  blockSize := F.consistent.blockSize
  inodesPerGroup := F.consistent.inodesPerGroup.trans F.inodesPerGroup_le_new
  inodeBitmap := F.newInodesPerGroup_le
  inodesCount := F.inodesCount_new
  blockGroupNr := rfl
  descTable := by
    rw [F.descTable_finished descSize zero_mem_supers, F.newDescTable_eq,
      length_map, F.consistent.descTable]
  freeInodes := by
    rw [F.descTable_finished descSize zero_mem_supers, F.newDescTable_eq]
    intro desc hdesc
    obtain ⟨desc, hmem, rfl⟩ := mem_map.mp hdesc
    have hfree := F.consistent.freeInodes desc hmem
    have hle := F.inodesPerGroup_le_new
    change desc.freeInodesCount + (_ - F.image.superblock.inodesPerGroup) ≤ F.env.newInodesPerGroup
    omega
  freeInodesCount := by
    rw [F.descTable_finished descSize zero_mem_supers]
    exact F.freeInodesCount_new
  directories := by
    rw [← finishedEnv, F.allDirs_finished descSize]
    intro d hd
    refine ⟨(F.consistent.directories d hd).1, ?_⟩
    rw [F.entriesOf_finished descSize hd]
    intro e' he'
    obtain ⟨e, he, rfl⟩ := mem_map.mp he'
    obtain ⟨hrec, hle⟩ := (F.consistent.directories d hd).2 e he
    refine ⟨by rw [setPhase_recLen]; exact hrec, ?_⟩
    by_cases hused : e.inode = 0
    · rw [setPhase_unused hused, hused]
      exact Nat.zero_le _
    · rw [setPhase_updated hused]
      exact (F.computeNewInum_eq hused hle).2
  nodup := by
    rw [← finishedEnv, F.allBlocks_finished descSize]
    exact F.consistent.nodup
  stored := by
    rw [← finishedEnv, F.allBlocks_finished descSize]
    intro b hb
    exact ⟨_, if_pos hb⟩
  apart := by
    rw [← finishedEnv, F.allBlocks_finished descSize]
    exact F.consistent.apart

theorem supported_finished (hdesc : F.SameSize descSize) :
    Supported geometry junk depth (F.finishedImage descSize) where
  recovery := F.supported.recovery
  filetype := F.supported.filetype
  descSize := by
    change clearLowBit descSize = _ ∨ clearLowBit descSize = 0
    rw [hdesc]
    exact F.supported.descSize
  blockSize := F.supported.blockSize
  firstDataBlock := F.supported.firstDataBlock
  groups := F.supported.groups
  inodes := by
    rw [← finishedEnv, F.newInodesPerGroup_finished descSize]
    exact F.supported.inodes
  bounded := by
    rw [← finishedEnv, F.root_finished descSize]
    exact F.bounded_finished descSize (fun _ h => h) F.supported.bounded
  whole := by
    rw [← finishedEnv, F.allDirs_finished descSize]
    exact F.supported.whole
  usedFirst := by
    rw [← finishedEnv, F.allDirs_finished descSize]
    intro d hd
    rw [F.entriesOf_finished descSize hd, pairwise_map]
    refine (F.supported.usedFirst d hd).imp_of_mem fun {a b} ha hb hab hzero => ?_
    have hunused : a.inode = 0 := by
      by_contra hused
      exact setPhase_used ((F.dirValid hd).entries a ha) hused .updated hzero
    rw [setPhase_unused (hab hunused)]
    exact hab hunused

theorem setPhase_finished (hd : d ∈ F.allDirs) (he : e ∈ F.env.entriesOf F.image d) :
    (F.finishedEnv descSize).setPhase .updated (F.env.setPhase .updated e) =
      F.env.setPhase .updated e := by
  by_cases hused : e.inode = 0
  · rw [setPhase_unused hused, setPhase_unused hused]
  · have hle := ((F.consistent.directories d hd).2 e he).2
    have hpos := ((F.dirValid hd).entries e he).newInode hused
    have hsame := F.computeNewInum_finished descSize (Nat.ne_of_gt hpos.1)
      (F.computeNewInum_eq hused hle).2
    rw [setPhase_updated hused, setPhase_updated (Nat.ne_of_gt hpos.1)]
    rw [hsame]

theorem newSuperblock_finished : (F.finishedEnv descSize).newSuperblock
        (F.finishedImage descSize).superblock =
      { F.env.newSuperblock F.image.superblock with descSize } := by
  have hgrown := grownSuperblock_later (F := F) (F.finishedImage descSize) rfl
  exact congrArg (fun sb : SuperBlock => { sb with blockGroupNr := 0 }) hgrown

theorem newDescTable_finished : (F.finishedEnv descSize).newDescTable (F.finishedImage descSize) =
      F.env.newDescTable F.image := by
  unfold Env.newDescTable
  rw [newInodesPerGroup_finished, F.descTable_finished descSize zero_mem_supers]
  change Env.addFreeInodes _ _ (F.env.newInodesPerGroup - F.env.newInodesPerGroup) = _
  rw [Nat.sub_self, addFreeInodes_zero newDescTable_lt]
  rfl

def finished (hdesc : F.SameSize descSize) : Found geometry junk depth :=
  ⟨F.finishedImage descSize, F.consistent_finished descSize, F.supported_finished descSize hdesc⟩

/-- Another run changes the state word and the descriptor size at most. -/
theorem finalImage_finished (hdesc : F.SameSize descSize) :
    (F.finished descSize hdesc).finalImage = F.finalImage := by
  have hbackup : ∀ i,
      (F.finishedEnv descSize).backup
          (F.finishedImage descSize).superblock i =
        F.env.backup F.image.superblock i := by
    intro i
    unfold Env.backup
    rw [F.newSuperblock_finished descSize, ← hdesc]
    rfl
  have hsuper : ∀ sb, sb = { F.env.newSuperblock F.image.superblock with descSize } →
      ({ sb with descSize := clearLowBit descSize } : SuperBlock) =
        { F.env.newSuperblock F.image.superblock with
          descSize := clearLowBit F.image.superblock.descSize } := by
    rintro sb rfl
    rw [hdesc]
  refine Image.ext rfl (hsuper _ (F.newSuperblock_finished descSize)) ?_ ?_ ?_ rfl
  · funext b
    change (if b ∈ Env.allBlocks depth (F.finishedEnv descSize) (F.finishedImage descSize) then _
      else _) = if b ∈ _ then _ else if b ∈ _ then _ else _
    rw [F.allBlocks_finished descSize]
    by_cases hb : b ∈ F.allBlocks
    · obtain ⟨d, hd, hbd⟩ := mem_flatMap.mp hb
      rw [if_pos hb, if_pos hb]
      change Block.directory (((F.finishedImage descSize).entriesAt b).map
        _) = _
      rw [finishedImage, entriesAt_lapImage hb, map_map]
      congr 1
      refine map_congr_left fun e he => ?_
      exact F.setPhase_finished descSize hd (mem_flatMap.mpr ⟨b, hbd, he⟩)
    · rw [if_neg hb, if_neg hb]
      by_cases hbackups : b ∈ F.env.backupBlocks
      · rw [if_pos hbackups]
        refine (if_pos hbackups).trans ?_
        exact congrArg Block.superblock (hbackup _)
      · rw [if_neg hbackups]
        exact (if_neg hbackups).trans ((if_neg hb).trans (if_neg hbackups))
  · funext i
    by_cases hi : i ∈ F.env.supers
    · exact (if_pos hi).trans ((F.newDescTable_finished descSize).trans (if_pos hi).symm)
    · exact (if_neg hi).trans ((if_neg hi).trans (if_neg hi).symm)
  · funext g
    by_cases hg : g ∈ List.range geometry.groups
    · exact (if_pos hg).trans (clearedBits_later rfl _)
    · exact if_neg hg

end Found

end ShieldTv.Ext4Utils
