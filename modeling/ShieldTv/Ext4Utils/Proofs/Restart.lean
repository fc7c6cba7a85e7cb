import ShieldTv.Ext4Utils.Proofs.Finished

/-!
# Stopped and restarted runs

A run from any image that stopped runs leave ends in the image that one run without a stop leaves.
-/

namespace ShieldTv.Ext4Utils

open Lib.Device Lib.Trace

attribute [ext] SuperBlock

variable {geometry : Geometry} {junk : Nat → Nat} {depth : Nat} {I : Image → Prop}

/-! ## The steps of a run -/

section

variable {state : State} {img : Image} {m : Fixup Unit} {Q : Unit → Image → Prop} (hI : I img)
include hI

theorem skip_spec (hstate : fixupState img.fixupWord ≠ state) (hQ : Q () img) :
    Spec I (do
      let s ← getFsFixupState
      if s = state then m else pure ()) img Q := by
  refine Spec.bind (getFsFixupState_spec hI) ?_
  rintro s s' ⟨rfl, rfl⟩
  rw [if_neg hstate]
  exact Spec.pure hI hQ

theorem due_spec (hstate : fixupState img.fixupWord = state) (hm : Spec I m img Q) :
    Spec I (do
      let s ← getFsFixupState
      if s = state then m else pure ()) img Q := by
  refine Spec.bind (getFsFixupState_spec hI) ?_
  rintro s s' ⟨rfl, rfl⟩
  rw [if_pos hstate]
  exact hm

end

variable {img : Image} {descSize : Nat}

theorem noWrite_spec (w : Write) (hI : I img) :
    Spec I (write true w) img fun _ s => s = img := Spec.pure hI rfl

namespace Found

variable {F : Found geometry junk depth}

/-- The images on the way are allowed, also the one between the two writes for the first group. -/
structure Allowed (F : Found geometry junk depth) (I : Image → Prop) : Prop where
  lap : ∀ img, F.InLap img → I img
  between : ∀ descSize, F.SameSize descSize → I (F.backupsImage descSize [] [])

theorem OldLap.state {state : State} (h : F.OldLap state img) :
    fixupState img.fixupWord = state := by
  cases h with
  | marking => exact fixupState_magic .markingInums
  | updating => exact fixupState_magic .updatingInums
  | bitmaps => exact fixupState_magic .updatingSb

theorem OldLap.old {state : State} (h : F.OldLap state img) :
    (∃ descSize, F.SameSize descSize ∧ img.superblock = { F.image.superblock with descSize }) ∧
      img.descTable 0 = F.image.descTable 0 ∧ img.inodeTable = F.image.inodeTable := by
  cases h with
  | marking descSize _ hdesc | updating descSize _ hdesc | bitmaps descSize _ hdesc =>
    exact ⟨⟨descSize, hdesc, rfl⟩, rfl, rfl⟩

/-- The superblocks and descriptors are checked and not written. -/
theorem checkSuperblocks_spec (hI : I F.image) :
    Spec I (F.env.updateSuperblocksAndBgDesc true .unset) F.image fun _ s => s = F.image := by
  refine updateSuperblocks_spec hI (Spec.forEach_same hI fun g _ => ?_) ?_ ?_
    (Spec.forEach_same hI fun i _ => ?_)
  · have hsize : ¬ Env.maxExt4BlockSize < F.env.geometry.blockSize :=
      Nat.not_lt.mpr F.supported.blockSize
    unfold Env.checkInodeBitmap
    rw [if_neg hsize]
    refine Spec.store_bind hI ?_
    dsimp only
    split_ifs
    · exact noWrite_spec _ hI
    · exact Spec.pure hI rfl
  · rw [count_eq]
  · exact Nat.mod_eq_zero_of_dvd F.newInodesPerGroup_dvd
  · refine Spec.seq F.image ?_ fun _ => noWrite_spec _ hI
    unfold Env.writeSb
    split_ifs <;> exact noWrite_spec _ hI

theorem sanityCheck_spec (hI : F.Allowed I) :
    Spec I (F.env.sanityCheck depth (F.env.root F.image)) F.image fun _ img =>
      F.OldLap .markingInums img := by
  have hbase := hI.lap F.image InLap.start
  refine due_spec hbase F.consistent.word ?_
  refine Spec.bind (F.pass_spec (F.sanity_pass hbase) ⟨rfl, rfl⟩) ?_
  rintro _ s ⟨done, ⟨-, hs₁⟩, -⟩
  rw [hs₁]
  refine Spec.seq F.image (checkSuperblocks_spec hbase) fun _ => ?_
  have hword : F.image.apply (.fixupWord State.markingInums.magic) =
      F.passImage .markInodeNums .markingInums F.image.superblock.descSize [] :=
    (lapImage_start _).symm
  have hdesc := clearLowBit_stateDescSize .markingInums F.image.superblock.descSize
  have hlast : (F.image.apply (.fixupWord State.markingInums.magic)).withDescSize
      (State.markingInums.descSize F.image.superblock.descSize) =
        F.passImage .markInodeNums .markingInums
          (State.markingInums.descSize F.image.superblock.descSize) [] := by
    rw [hword]
    rfl
  refine Spec.mono (setFsFixupState_spec .markingInums hbase ?_ ?_) ?_
  · rw [hword]
    exact hI.lap _ (.old (.marking _ _ rfl nofun))
  · rw [hlast]
    exact hI.lap _ (.old (.marking _ _ hdesc nofun))
  · rintro _ s rfl
    rw [hlast]
    exact .marking _ _ hdesc nofun

/-- What a pass has left is what the next step starts from. -/
theorem renumber_spec (hI : F.Allowed I) {mode : Env.Mode} {state next : State} {done : List Nat}
    (hdesc : F.SameSize descSize) (hclosed : F.Closed mode done)
    (hpass : ∀ done, F.Closed mode done → F.OldLap state (F.passImage mode state descSize done))
    (hnext : ∀ ds, F.SameSize ds →
      F.OldLap next (F.lapImage next.magic ds (fun _ => mode.after) [] false [] [])) :
    Spec I (do
      F.env.recurseDir mode false depth (F.env.root F.image)
      setFsFixupState next) (F.passImage mode state descSize done) fun _ img' =>
        F.OldLap next img' := by
  refine Spec.bind (F.pass_spec (F.renumber_pass fun _ h => hI.lap _ (.old (hpass _ h)))
    ⟨hclosed, rfl⟩) ?_
  rintro _ s ⟨done', ⟨hclosed', rfl⟩, -, hall⟩
  have hpassed : ∀ ds, F.lapImage next.magic ds (mode.phase done') [] false [] [] =
      F.lapImage next.magic ds (fun _ => mode.after) [] false [] [] := fun ds =>
    lapImage_congr (fun b hb => if_pos (hall rfl b hb)) (fun _ => Iff.rfl) (fun _ => Iff.rfl)
      fun _ => Iff.rfl
  refine Spec.mono (enterState_spec next (hI.lap _ (.old (hpass _ hclosed'))) ?_) ?_
  · intro ds hds
    rw [hpassed]
    exact hI.lap _ (.old (hnext ds (hds.trans hdesc)))
  · rintro _ s rfl
    rw [hpassed]
    exact hnext _ ((clearLowBit_stateDescSize _ _).trans hdesc)

theorem markInums_spec (hI : F.Allowed I) {state : State} (h : F.OldLap state img) :
    Spec I (F.env.markInums depth (F.env.root F.image)) img fun _ img' =>
      ∃ state', state' ≠ .markingInums ∧ F.OldLap state' img' := by
  have hIimg := hI.lap img (.old h)
  by_cases hstate : state = .markingInums
  · subst hstate
    refine due_spec hIimg h.state ?_
    cases h with
    | marking descSize done hdesc hclosed =>
      refine Spec.mono (renumber_spec hI hdesc hclosed
        (fun done hclosed => .marking descSize done hdesc hclosed)
        fun ds hds => .updating ds [] hds nofun) ?_
      exact fun _ _ h => ⟨.updatingInums, nofun, h⟩
  · exact skip_spec hIimg (h.state ▸ hstate) ⟨state, hstate, h⟩

theorem updateInums_spec (hI : F.Allowed I) {state : State} (hstate : state ≠ .markingInums)
    (h : F.OldLap state img) :
    Spec I (F.env.updateInums depth (F.env.root F.image)) img fun _ img' =>
      F.OldLap .updatingSb img' := by
  have hIimg := hI.lap img (.old h)
  have hword := h.state
  cases h with
  | marking => exact absurd rfl hstate
  | updating descSize done hdesc hclosed =>
    exact due_spec hIimg hword (renumber_spec hI hdesc hclosed
      (fun done hclosed => .updating descSize done hdesc hclosed)
      fun ds hds => .bitmaps ds [] hds nofun)
  | bitmaps descSize bitmaps hdesc hlist =>
    refine skip_spec hIimg ?_ (.bitmaps descSize bitmaps hdesc hlist)
    rw [hword]
    exact nofun

theorem finish_spec (hI : ∀ img, F.InLap img → I img) (hdesc : F.SameSize descSize) :
    Spec I (setFsFixupState .unset) (F.backupsImage descSize F.env.supers F.env.backupBlocks)
      fun _ img' => img' = F.finalImage := by
  have hvalid : F.BackupsValid F.env.supers F.env.backupBlocks :=
    ⟨zero_mem_supers, fun _ h => h, fun _ h => h⟩
  refine Spec.mono (enterState_spec .unset (hI _ (.backups _ _ _ hdesc hvalid)) ?_) ?_
  · intro ds hds
    exact hI _ (InLap.finished ds (hds.trans hdesc))
  · rintro _ s rfl
    rw [finalImage, finishedImage, ← hdesc]
    rfl

theorem updateSb_spec (hI : F.Allowed I) (h : F.OldLap .updatingSb img) :
    Spec I F.env.updateSb img fun _ img' => img' = F.finalImage := by
  refine due_spec (hI.lap img (.old h)) h.state ?_
  cases h with
  | bitmaps descSize bitmaps hdesc hlist =>
    refine Spec.bind (updateSb_from_bitmaps hI.lap hdesc (hI.between _ hdesc) hlist) ?_
    rintro _ s rfl
    exact finish_spec hI.lap hdesc

end Found

/-! ## One run -/

/-- A run gets to its steps on an image that it accepts. -/
theorem ext4fixup_spec (hI : I img) (hrecovery : img.superblock.needsRecovery = false)
    (hdesc : clearLowBit img.superblock.descSize = ext2GroupDescSize ∨
      clearLowBit img.superblock.descSize = 0) (hfiletype : img.superblock.hasFiletype = true)
    {root : Inode} (hroot : (img.env geometry junk).root img = root) (hdir : root.isDir = true)
    {Q : Unit → Image → Prop} (hsteps : Spec I (do
      (img.env geometry junk).sanityCheck depth root
      (img.env geometry junk).markInums depth root
      (img.env geometry junk).updateInums depth root
      (img.env geometry junk).updateSb) img Q) : Spec I (ext4fixup geometry junk depth) img Q := by
  refine Spec.store_bind hI ?_
  have hknown : ¬ (clearLowBit img.superblock.descSize ≠ ext2GroupDescSize ∧
      clearLowBit img.superblock.descSize ≠ 0) := by
    rintro ⟨h₁, h₂⟩
    exact hdesc.elim h₁ h₂
  rw [if_neg (by rw [hrecovery]; exact Bool.false_ne_true), if_neg hknown,
    if_neg (not_not_intro hfiletype)]
  refine Spec.bind (readInode_spec hI rfl Env.rootIno) ?_
  rintro inode s ⟨hinode, rfl⟩
  rw [hinode.trans hroot, if_pos hdir]
  exact hsteps

/-- The superblock has a new number of inodes in a group, and the descriptors have not got their
part of them. -/
def Torn (before after : Image) : Prop :=
  after.superblock.inodesPerGroup ≠ before.superblock.inodesPerGroup ∧
    after.descTable 0 = before.descTable 0

namespace Found

variable {F : Found geometry junk depth}

theorem root_isDir : (F.env.root F.image).isDir = true :=
  (F.consistent.directories _ (mem_directories_self F.supported.bounded)).1

section

variable (h : F.env.newInodesPerGroup = F.image.superblock.inodesPerGroup)
include h

theorem newSuperblock_of_aligned : F.env.newSuperblock F.image.superblock = F.image.superblock := by
  have hinodes := F.inodesCount_new
  have hfree := F.freeInodesCount_new
  rw [h, ← F.consistent.inodesCount] at hinodes
  rw [F.newDescTable_eq, h, Nat.sub_self] at hfree
  have hsum : F.image.superblock.freeInodesCount =
      (((F.image.descTable 0).map fun desc => desc).map (·.freeInodesCount)).sum := by
    rw [List.map_id']
    exact F.consistent.freeInodesCount
  exact SuperBlock.ext hinodes (hfree.trans hsum.symm) h rfl F.consistent.blockGroupNr.symm rfl rfl

/-- If the number of inodes stays the same, writing the superblock changes nothing. -/
theorem between_of_aligned (descSize : Nat) :
    F.backupsImage descSize [] [] = F.bitmapsImage descSize (List.range geometry.groups) := by
  unfold backupsImage bitmapsImage lapImage
  rw [newSuperblock_of_aligned h]
  rfl

end

theorem run_from_old (h : img = F.image ∨ ∃ state, F.OldLap state img)
    (hsb : ∃ descSize, F.SameSize descSize ∧ img.superblock = { F.image.superblock with descSize })
    (htable : img.descTable 0 = F.image.descTable 0)
    (hinodes : img.inodeTable = F.image.inodeTable) :
    Spec (fun s => F.InLap s ∨ Torn img s) (ext4fixup geometry junk depth) img fun _ s =>
      s = F.finalImage := by
  obtain ⟨descSize, hdesc, hsb⟩ := hsb
  have henv : img.env geometry junk = F.env := by
    unfold Found.env Image.env
    rw [hsb, htable]
  have hallowed : F.Allowed fun s => F.InLap s ∨ Torn img s := by
    refine ⟨fun s hs => Or.inl hs, fun ds hds => ?_⟩
    by_cases halign : F.env.newInodesPerGroup = F.image.superblock.inodesPerGroup
    · rw [between_of_aligned halign]
      exact Or.inl (.old (.bitmaps ds _ hds fun g hg => List.mem_range.mp hg))
    · refine Or.inr ⟨?_, htable.symm⟩
      rw [hsb]
      exact halign
  have hlap : F.InLap img := by
    rcases h with rfl | ⟨state, h⟩
    · exact .start
    · exact .old h
  have hroot : (img.env geometry junk).root img = F.env.root F.image := by
    rw [henv]
    exact Env.inodeAt_congr hinodes _
  refine ext4fixup_spec (Or.inl hlap) ?_ ?_ ?_ hroot root_isDir ?_
  · rw [hsb]
    exact F.supported.recovery
  · rw [hsb]
    rw [hdesc]
    exact F.supported.descSize
  · rw [hsb]
    exact F.supported.filetype
  · rw [henv]
    have hsanity : Spec (fun s => F.InLap s ∨ Torn img s)
        (F.env.sanityCheck depth (F.env.root F.image)) img fun _ s =>
          ∃ state, F.OldLap state s := by
      rcases h with rfl | ⟨state, h⟩
      · exact (sanityCheck_spec hallowed).mono fun _ _ h => ⟨_, h⟩
      · refine skip_spec (Or.inl hlap) ?_ ⟨state, h⟩
        rw [h.state]
        cases h <;> exact nofun
    refine Spec.bind hsanity ?_
    rintro _ s₁ ⟨state₁, h₁⟩
    refine Spec.bind (markInums_spec hallowed h₁) ?_
    rintro _ s₂ ⟨state₂, hstate₂, h₂⟩
    refine Spec.bind (updateInums_spec hallowed hstate₂ h₂) fun _ s₃ h₃ => ?_
    exact updateSb_spec hallowed h₃

theorem run_from_backups (hdesc : F.SameSize descSize) {descs backups : List Nat}
    (hvalid : F.BackupsValid descs backups) :
    Spec (fun s => F.InLap s) (ext4fixup geometry junk depth)
      (F.backupsImage descSize descs backups) fun _ s => s = F.finalImage := by
  have hI := InLap.backups descSize descs backups hdesc hvalid
  have hstate : fixupState (F.backupsImage descSize descs backups).fixupWord = .updatingSb :=
    fixupState_magic .updatingSb
  refine ext4fixup_spec hI F.supported.recovery ?_ F.supported.filetype
    (F.root_finished descSize) root_isDir ?_
  · change clearLowBit descSize = _ ∨ clearLowBit descSize = 0
    rw [hdesc]
    exact F.supported.descSize
  · have hskip : ∀ {state : State} {m : Fixup Unit}, State.updatingSb ≠ state →
        Spec (fun s => F.InLap s) (do
          let s ← getFsFixupState
          if s = state then m else pure ()) (F.backupsImage descSize descs backups)
            fun _ s => s = F.backupsImage descSize descs backups :=
      fun hne => skip_spec hI (hstate ▸ hne) rfl
    refine Spec.seq _ (hskip nofun) fun _ => ?_
    refine Spec.seq _ (hskip nofun) fun _ => ?_
    refine Spec.seq _ (hskip nofun) fun _ => ?_
    refine due_spec hI hstate ?_
    refine Spec.bind (updateSb_from_backups (fun _ h => h) hdesc hvalid) ?_
    rintro _ s₄ rfl
    exact finish_spec (fun _ h => h) hdesc

end Found

/-! ## Runs one after the other -/

section Runs

variable (geometry junk depth)

def writes (img : Image) : List Write := (ext4fixup geometry junk depth img).1

/-- The image that a run leaves when it is stopped after so many writes. -/
def stopAfter (img : Image) (k : Nat) : Image :=
  run Effects.apply img ((writes geometry junk depth img).take k)

def fullRun (img : Image) : Image := run Effects.apply img (writes geometry junk depth img)

/-- The image after some runs, each one stopped after so many writes. -/
def restarts (img : Image) : List Nat → Image
  | [] => img
  | k :: ks => restarts (stopAfter geometry junk depth img k) ks

/-- No run is stopped between the write of the first superblock and that of its descriptors. -/
def Untorn (img : Image) : List Nat → Prop
  | [] => True
  | k :: ks => ¬ Torn img (stopAfter geometry junk depth img k) ∧
      Untorn (stopAfter geometry junk depth img k) ks

/-- Runs have led to this image, and lead on to `final`. -/
def LeadsTo (final img : Image) : Prop :=
  ∃ F : Found geometry junk depth, F.finalImage = final ∧ F.InLap img

end Runs

section

variable {final : Image} (h : LeadsTo geometry junk depth final img)
include h

/-- A run that is not torn leads on to the same image, and reaches it if it is not stopped. -/
theorem LeadsTo.run : Spec (fun s => LeadsTo geometry junk depth final s ∨ Torn img s)
      (ext4fixup geometry junk depth) img fun _ s => s = final := by
  obtain ⟨F, rfl, hlap⟩ := h
  have hweaken : ∀ s, F.InLap s ∨ Torn img s →
      LeadsTo geometry junk depth F.finalImage s ∨ Torn img s :=
    fun s => Or.imp_left fun hs => ⟨F, rfl, hs⟩
  cases hlap with
  | start =>
    exact (Found.run_from_old (Or.inl rfl) ⟨_, rfl, rfl⟩ rfl rfl).weaken hweaken
  | old h =>
    obtain ⟨hsb, htable, hinodes⟩ := h.old
    exact (Found.run_from_old (Or.inr ⟨_, h⟩) hsb htable hinodes).weaken hweaken
  | backups descSize descs backups hdesc hvalid =>
    exact (Found.run_from_backups hdesc hvalid).weaken fun s hs => hweaken s (Or.inl hs)
  | finished descSize hdesc =>
    -- a run from here is a run from the start on the image that was finished
    have hfinal := F.finalImage_finished descSize hdesc
    rw [← hfinal]
    exact (Found.run_from_old (F := F.finished descSize hdesc) (Or.inl rfl) ⟨_, rfl, rfl⟩ rfl
      rfl).weaken fun s => Or.imp_left fun hs => ⟨_, rfl, hs⟩

theorem LeadsTo.stopAfter {k : Nat} (huntorn : ¬ Torn img (stopAfter geometry junk depth img k)) :
    LeadsTo geometry junk depth final (stopAfter geometry junk depth img k) := by
  obtain ⟨es, a, hrun, halways, -⟩ := h.run
  have hstop : Ext4Utils.stopAfter geometry junk depth img k =
      Lib.Trace.run Effects.apply img (es.take k) := by
    unfold Ext4Utils.stopAfter writes
    rw [hrun]
  rw [hstop] at huntorn ⊢
  exact (halways k).resolve_right huntorn

theorem LeadsTo.restarts {ks : List Nat} (huntorn : Untorn geometry junk depth img ks) :
    LeadsTo geometry junk depth final (restarts geometry junk depth img ks) := by
  induction ks generalizing img with
  | nil => exact h
  | cons k ks ih => exact ih (h.stopAfter huntorn.1) huntorn.2

theorem LeadsTo.fullRun :
    fullRun geometry junk depth img = final ∧ (ext4fixup geometry junk depth img).2 = some () := by
  obtain ⟨es, a, hrun, -, hfinal⟩ := h.run
  unfold Ext4Utils.fullRun writes
  rw [hrun]
  exact ⟨hfinal, rfl⟩

end

/-! ## What the runs leave -/

/-- Every entry has got the new number of its inode once, and all copies of the counts agree. -/
structure Renumbered (geometry : Geometry) (junk : Nat → Nat) (depth : Nat) (base final : Image) :
    Prop where
  entries : ∀ b ∈ (base.env geometry junk).allBlocks depth base, final.entriesAt b =
    (base.entriesAt b).map fun e =>
      if e.inode = 0 then e
      else { e with inode := (base.env geometry junk).computeNewInum e.inode }
  inodes : ∀ d ∈ (base.env geometry junk).allDirs depth base,
    ∀ e ∈ (base.env geometry junk).entriesOf base d, e.inode ≠ 0 →
      (final.env geometry junk).inodeAt final
          ((base.env geometry junk).computeNewInum e.inode) =
        (base.env geometry junk).inodeAt base e.inode
  inodesPerGroup : final.superblock.inodesPerGroup = (base.env geometry junk).newInodesPerGroup
  inodesCount : final.superblock.inodesCount = final.superblock.inodesPerGroup * geometry.groups
  freeInodesCount : final.superblock.freeInodesCount =
    ((final.descTable 0).map (·.freeInodesCount)).sum
  descriptors : final.descTable 0 = (base.descTable 0).map fun desc =>
    { desc with freeInodesCount := desc.freeInodesCount +
      (final.superblock.inodesPerGroup - base.superblock.inodesPerGroup) }
  descTables : ∀ i < geometry.groups, (base.env geometry junk).ext4BgHasSuperBlock i →
    final.descTable i = final.descTable 0
  superblocks : ∀ i < geometry.groups, (base.env geometry junk).ext4BgHasSuperBlock i → i ≠ 0 →
    final.block (i * geometry.blocksPerGroup + geometry.firstDataBlock) =
      .superblock { final.superblock with blockGroupNr := i }

theorem mem_supers {env : Env} {i : Nat} (hi : i < env.geometry.groups)
    (hsuper : env.ext4BgHasSuperBlock i = true) : i ∈ env.supers :=
  List.mem_filter.mpr ⟨List.mem_range.mpr hi, hsuper⟩

theorem finalImage_renumbered (F : Found geometry junk depth) :
    Renumbered geometry junk depth F.image F.finalImage := by
  have hfirst : F.finalImage.descTable 0 = F.env.newDescTable F.image :=
    F.descTable_finished _ Found.zero_mem_supers
  refine {
    entries := fun b hb => Found.entriesAt_lapImage hb
    inodes := fun d hd e he hused =>
      F.inodeAt_finished _ hused ((F.consistent.directories d hd).2 e he).2
    inodesPerGroup := rfl
    inodesCount := F.inodesCount_new
    freeInodesCount := ?_
    descriptors := hfirst.trans F.newDescTable_eq
    descTables := ?_
    superblocks := ?_ }
  · rw [hfirst]
    exact F.freeInodesCount_new
  · intro i hi hsuper
    rw [hfirst]
    exact F.descTable_finished _ (mem_supers hi hsuper)
  · intro i hi hsuper hne
    have hblock : i * geometry.blocksPerGroup ∈ F.env.backupBlocks :=
      mem_backupBlocks (mem_supers hi hsuper) hne
    have hother : i * geometry.blocksPerGroup ∉ F.allBlocks :=
      fun hmem => F.consistent.apart _ hmem hblock
    rw [F.supported.firstDataBlock, add_zero]
    refine (if_neg hother).trans ((if_pos hblock).trans ?_)
    rw [Nat.mul_div_cancel i F.consistent.blocksPerGroup]
    rfl

/-- However often the tool is stopped and started again, a last run that is not stopped leaves the
image that one run leaves, as long as no run is stopped between the write of the first superblock
and that of its descriptors. -/
theorem restarted_run_completes {base : Image} (hc : Consistent geometry junk depth base)
    (hs : Supported geometry junk depth base) (ks : List Nat)
    (huntorn : Untorn geometry junk depth base ks) :
    fullRun geometry junk depth (restarts geometry junk depth base ks) =
        fullRun geometry junk depth base ∧
      (ext4fixup geometry junk depth (restarts geometry junk depth base ks)).2 = some () ∧
      Renumbered geometry junk depth base
        (fullRun geometry junk depth (restarts geometry junk depth base ks)) := by
  have hstart : LeadsTo geometry junk depth (Found.finalImage ⟨base, hc, hs⟩) base :=
    ⟨⟨base, hc, hs⟩, rfl, Found.InLap.start⟩
  obtain ⟨hlast, hdone⟩ := (hstart.restarts huntorn).fullRun
  refine ⟨hlast.trans hstart.fullRun.1.symm, hdone, ?_⟩
  rw [hlast]
  exact finalImage_renumbered ⟨base, hc, hs⟩

/-! ## A file system with two groups -/

/-- Two groups of twenty inodes, where a block of the inode table has room for sixteen. -/
def sampleGeometry : Geometry where
  blockSize := 4096
  inodeSize := 256
  blocksPerGroup := 512
  lenBlocks := 1024
  firstDataBlock := 0
  groups := 2
  sparseSuper := true

/-- A root directory with one file, whose inode is in the second group. -/
def sampleImage : Image where
  fixupWord := 0
  superblock := {
    inodesCount := 40
    freeInodesCount := 37
    inodesPerGroup := 20
    descSize := 32
    blockGroupNr := 0
    needsRecovery := false
    hasFiletype := true }
  block b :=
    if b = 5 then
      .directory [
        ⟨2, 12, .directory, [0x2e]⟩,
        ⟨2, 12, .directory, [0x2e, 0x2e]⟩,
        ⟨25, 4072, .other, [0x66]⟩]
    else
      .other
  descTable _ := [⟨18⟩, ⟨19⟩]
  inodeBitmap g i := g = 0 ∧ i < 2 ∨ g = 1 ∧ i = 4
  inodeTable g i :=
    if g = 0 ∧ i = 1 then ⟨true, 8, .extents [⟨0, 1, 5⟩]⟩ else ⟨false, 0, .extents []⟩

theorem sampleImage_subdirs : (sampleImage.env sampleGeometry fun _ => 0).subdirs sampleImage
    ((sampleImage.env sampleGeometry fun _ => 0).root sampleImage) = [] := by
  decide +kernel

theorem sampleImage_allBlocks :
    (sampleImage.env sampleGeometry fun _ => 0).allBlocks 1 sampleImage = [5] := by
  decide +kernel

theorem sampleImage_allDirs : (sampleImage.env sampleGeometry fun _ => 0).allDirs 1 sampleImage =
    [(sampleImage.env sampleGeometry fun _ => 0).root sampleImage] := by
  decide +kernel

theorem sampleImage_consistent : Consistent sampleGeometry (fun _ => 0) 1 sampleImage where
  word := by decide +kernel
  groups := by decide
  blocksPerGroup := by decide
  inodeSize := by decide
  blockSize := by decide
  inodesPerGroup := by decide
  inodeBitmap := by decide
  inodesCount := by decide
  blockGroupNr := rfl
  descTable := rfl
  freeInodes := by decide
  freeInodesCount := rfl
  directories := by decide +kernel
  nodup := by decide +kernel
  stored := by
    rw [sampleImage_allBlocks]
    intro b hb
    rw [List.mem_singleton.mp hb]
    exact ⟨_, rfl⟩
  apart := by decide +kernel

theorem sampleImage_supported : Supported sampleGeometry (fun _ => 0) 1 sampleImage where
  recovery := rfl
  filetype := rfl
  descSize := by decide
  blockSize := by decide
  firstDataBlock := rfl
  groups := by decide
  inodes := by decide
  bounded := by
    intro c hc
    rw [sampleImage_subdirs] at hc
    exact nomatch hc
  whole := by
    rw [sampleImage_allDirs]
    intro d hd
    rw [List.mem_singleton.mp hd]
    refine ⟨by decide +kernel, by decide +kernel, ?_⟩
    change ∀ i < 1, ∃ e ∈ [(⟨0, 1, 5⟩ : Extent)], e.eeBlock ≤ i ∧ i < e.eeBlock + e.eeLen
    decide
  usedFirst := by decide +kernel

theorem restarted_run_completes_sample :
    Untorn sampleGeometry (fun _ => 0) 1 sampleImage [3, 10] ∧
      fullRun sampleGeometry (fun _ => 0) 1
          (restarts sampleGeometry (fun _ => 0) 1 sampleImage [3, 10]) =
        fullRun sampleGeometry (fun _ => 0) 1 sampleImage := by
  have huntorn : Untorn sampleGeometry (fun _ => 0) 1 sampleImage [3, 10] := by
    refine ⟨?_, ?_, trivial⟩
    · unfold Torn
      decide +kernel
    · unfold Torn
      decide +kernel
  exact ⟨huntorn, (restarted_run_completes sampleImage_consistent sampleImage_supported [3, 10]
    huntorn).1⟩

/-- Stopped right after the first superblock with new counts, the tool never updates the
descriptors. -/
theorem torn_run_leaves_counts_apart :
    Consistent sampleGeometry (fun _ => 0) 1 sampleImage ∧
      Supported sampleGeometry (fun _ => 0) 1 sampleImage ∧
      (fullRun sampleGeometry (fun _ => 0) 1
        (restarts sampleGeometry (fun _ => 0) 1 sampleImage [9])).superblock.freeInodesCount = 61 ∧
      (fullRun sampleGeometry (fun _ => 0) 1
        (restarts sampleGeometry (fun _ => 0) 1 sampleImage [9])).descTable 0 = [⟨18⟩, ⟨19⟩] ∧
      (fullRun sampleGeometry (fun _ => 0) 1 sampleImage).descTable 0 = [⟨30⟩, ⟨31⟩] := by
  refine ⟨sampleImage_consistent, sampleImage_supported, ?_, ?_, ?_⟩
  · decide +kernel
  · decide +kernel
  · decide +kernel

end ShieldTv.Ext4Utils
