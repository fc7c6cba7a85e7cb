import ShieldTv.Ext4Utils.Proofs.Laps

/-!
# Superblocks and descriptors

The bitmaps, the superblocks and the descriptor tables are brought up to date, and the run ends.
-/

namespace ShieldTv.Ext4Utils

open Lib.Device List

variable {I : Image → Prop}

/-! ## The state word -/

@[simp] theorem clearLowBit_setLowBit (n : Nat) : clearLowBit (setLowBit n) = clearLowBit n := by
  unfold clearLowBit setLowBit
  omega

@[simp] theorem clearLowBit_clearLowBit (n : Nat) :
    clearLowBit (clearLowBit n) = clearLowBit n := by
  unfold clearLowBit
  omega

@[simp] theorem fixupState_magic (state : State) : fixupState state.magic = state := by
  cases state <;> decide

variable {img : Image} {env : Env} {i : Nat}

theorem getFsFixupState_spec (hI : I img) : Spec I getFsFixupState img fun state img' =>
      state = fixupState img.fixupWord ∧ img' = img := by
  refine Spec.store_bind hI ?_
  exact Spec.pure hI ⟨rfl, rfl⟩

def Image.withDescSize (img : Image) (descSize : Nat) : Image :=
  { img with superblock := { img.superblock with descSize } }

def State.descSize (state : State) (descSize : Nat) : Nat :=
  if state.magic ≠ 0 then setLowBit descSize else clearLowBit descSize

theorem clearLowBit_stateDescSize (state : State) (n : Nat) :
    clearLowBit (state.descSize n) = clearLowBit n := by
  unfold State.descSize
  split_ifs
  · exact clearLowBit_setLowBit n
  · exact clearLowBit_clearLowBit n

theorem setFsFixupState_spec (state : State) (h₀ : I img)
    (h₁ : I (img.apply (.fixupWord state.magic)))
    (h₂ : I ((img.apply (.fixupWord state.magic)).withDescSize
      (state.descSize img.superblock.descSize))) :
    Spec I (setFsFixupState state) img fun _ img' =>
      img' = (img.apply (.fixupWord state.magic)).withDescSize
        (state.descSize img.superblock.descSize) := by
  refine Spec.seq (img.apply (.fixupWord state.magic)) (Spec.emit h₀ h₁ rfl) fun _ => ?_
  refine Spec.store_bind h₁ ?_
  by_cases hmagic : state.magic ≠ 0
  · simp only [if_pos hmagic]
    rw [State.descSize, if_pos hmagic] at h₂ ⊢
    exact Spec.emit h₁ h₂ rfl
  · simp only [if_neg hmagic]
    rw [State.descSize, if_neg hmagic] at h₂ ⊢
    exact Spec.emit h₁ h₂ rfl

/-! ## Bitmaps -/

theorem clearedBits_of_none {bits : Nat → Bool} (h : (List.range' env.inodesPerGroup
      (env.newInodesPerGroup - env.inodesPerGroup)).any bits = false) :
    env.clearedBits bits = bits := by
  funext i
  unfold Env.clearedBits
  by_cases hi : env.inodesPerGroup ≤ i ∧ i < env.newInodesPerGroup
  · have hmem : i ∈ List.range' env.inodesPerGroup
        (env.newInodesPerGroup - env.inodesPerGroup) := by
      rw [mem_range'_1]
      omega
    have hzero : bits i = false := by
      have hall := any_eq_false.mp h i hmem
      simpa using hall
    rw [hzero, Bool.false_and]
  · have hout :
      (decide (env.inodesPerGroup ≤ i) && decide (i < env.newInodesPerGroup)) = false := by
      simpa using fun hle => Nat.le_of_not_lt fun hlt => hi ⟨hle, hlt⟩
    rw [hout, Bool.not_false, Bool.and_true]

theorem clearedBits_clearedBits (env : Env) (bits : Nat → Bool) :
    env.clearedBits (env.clearedBits bits) = env.clearedBits bits := by
  funext i
  unfold Env.clearedBits
  rw [Bool.and_assoc, Bool.and_self]

theorem checkInodeBitmap_spec (env : Env) (hblock : env.geometry.blockSize ≤ Env.maxExt4BlockSize)
    (img : Image) (g : Nat) (h₀ : I img)
    (h₁ : I (img.apply (.inodeBitmap g (env.clearedBits (img.inodeBitmap g))))) :
    Spec I (env.checkInodeBitmap false g) img fun _ img' =>
      img' = img.apply (.inodeBitmap g (env.clearedBits (img.inodeBitmap g))) := by
  unfold Env.checkInodeBitmap
  rw [if_neg (Nat.not_lt.mpr hblock)]
  refine Spec.store_bind h₀ ?_
  by_cases hany : (List.range' env.inodesPerGroup
      (env.newInodesPerGroup - env.inodesPerGroup)).any (img.inodeBitmap g) = true
  · simp only [if_pos hany]
    exact Spec.emit h₀ h₁ rfl
  · have hsame : img = img.apply (.inodeBitmap g (env.clearedBits (img.inodeBitmap g))) := by
      rw [clearedBits_of_none (by simpa using hany)]
      simp only [Image.apply, Function.update_eq_self]
    simp only [if_neg hany]
    exact Spec.pure h₀ hsame

theorem ext4BgHasSuperBlock_zero (env : Env) : env.ext4BgHasSuperBlock 0 = true := by
  unfold Env.ext4BgHasSuperBlock
  cases env.geometry.sparseSuper with
  | false | true => rfl

theorem supers_eq (hgroups : 0 < env.geometry.groups) :
    ∃ rest, env.supers = 0 :: rest ∧ ∀ i ∈ rest, i ≠ 0 := by
  obtain ⟨n, hn⟩ := Nat.exists_eq_succ_of_ne_zero (Nat.ne_of_gt hgroups)
  refine ⟨((List.range n).map Nat.succ).filter env.ext4BgHasSuperBlock, ?_, ?_⟩
  · rw [Env.supers, hn, Nat.succ_eq_add_one, range_succ_eq_map,
      filter_cons_of_pos (ext4BgHasSuperBlock_zero env)]
  · intro i hi
    obtain ⟨k, -, rfl⟩ := mem_map.mp (mem_of_mem_filter hi)
    exact Nat.succ_ne_zero k

theorem mem_backupBlocks (hi : i ∈ env.supers) (hne : i ≠ 0) :
    i * env.geometry.blocksPerGroup ∈ env.backupBlocks :=
  mem_map.mpr ⟨i, mem_filter.mpr ⟨hi, by simpa using hne⟩, rfl⟩

/-! ## Superblocks and descriptor tables -/

def Env.grownTable (env : Env) (state : State) (sb : SuperBlock) : List GroupDesc :=
  if state = .updatingSb then
    env.addFreeInodes env.bgDesc (env.newInodesPerGroup - sb.inodesPerGroup)
  else
    env.bgDesc

theorem updateSuperblocks_spec {noWrite : Bool} {state : State} {img₁ : Image}
    {Q : Unit → Image → Prop} (hI : I img)
    (hbitmaps : Spec I (Prog.forEach (List.range env.numBlockGroups)
      (env.checkInodeBitmap noWrite)) img fun _ s => s = img₁)
    (hcount : (img.superblock.inodesCount + env.numBlockGroups *
      (env.newInodesPerGroup - img.superblock.inodesPerGroup)) % 2 ^ 32 =
        env.newInodesPerGroup * env.numBlockGroups % 2 ^ 32)
    (halign : env.newInodesPerGroup % (env.geometry.blockSize / env.geometry.inodeSize) = 0)
    (hloop : Spec I (Prog.forEach env.supers fun i => do
      env.writeSb noWrite i (env.grownSuperblock img.superblock)
      write noWrite (.descTable i (env.grownTable state img.superblock))) img₁ Q) :
    Spec I (env.updateSuperblocksAndBgDesc noWrite state) img Q := by
  refine Spec.store_bind hI ?_
  refine Spec.seq img₁ hbitmaps fun _ => ?_
  rw [if_neg (not_not_intro hcount), if_neg (not_not_intro halign)]
  exact hloop

namespace Found

variable {geometry : Geometry} {junk : Nat → Nat} {depth b : Nat} {F : Found geometry junk depth}
  {word : UInt64} {descSize : Nat} {phase : Nat → Phase} {bitmaps descs backups rest : List Nat}
  {newSb : Bool}

theorem enterState_spec (state : State)
    (h₀ : I (F.lapImage word descSize phase bitmaps newSb descs backups))
    (h : ∀ descSize', clearLowBit descSize' = clearLowBit descSize →
      I (F.lapImage state.magic descSize' phase bitmaps newSb descs backups)) :
    Spec I (setFsFixupState state) (F.lapImage word descSize phase bitmaps newSb descs backups)
      fun _ img' => img' = F.lapImage state.magic (state.descSize descSize) phase bitmaps newSb
        descs backups :=
  setFsFixupState_spec state h₀ (h descSize rfl)
    (h (state.descSize descSize) (clearLowBit_stateDescSize state descSize))

theorem apply_inodeBitmap_lapImage (g : Nat) :
    (F.lapImage word descSize phase bitmaps newSb descs backups).apply
        (.inodeBitmap g (F.env.clearedBits ((F.lapImage word descSize phase bitmaps newSb descs
          backups).inodeBitmap g))) =
      F.lapImage word descSize phase (g :: bitmaps) newSb descs backups := by
  simp only [Image.apply, lapImage]
  congr 1
  refine Function.update_eq_iff.mpr ⟨?_, fun x hx => by simp only [mem_cons, hx, false_or]⟩
  rw [if_pos mem_cons_self]
  split_ifs
  · exact clearedBits_clearedBits _ _
  · rfl

theorem bitmaps_spec (hI : ∀ img, F.InLap img → I img) (hdesc : F.SameSize descSize)
    (hbitmaps : ∀ g ∈ bitmaps, g < geometry.groups) :
    Spec I (Prog.forEach (List.range F.env.numBlockGroups) (F.env.checkInodeBitmap false))
      (F.bitmapsImage descSize bitmaps) fun _ img' =>
        img' = F.bitmapsImage descSize (List.range geometry.groups) := by
  let J : List Nat → Image → Prop := fun ys img => (∀ g ∈ ys ++ bitmaps, g < geometry.groups) ∧
    img = F.bitmapsImage descSize (ys ++ bitmaps)
  refine Spec.mono (Spec.forEach (J := J) ?_ ?_ ⟨hbitmaps, rfl⟩) ?_
  · rintro ys img ⟨hys, rfl⟩
    exact hI _ (.old (.bitmaps _ _ hdesc hys))
  · rintro ys g hg img ⟨hys, rfl⟩
    have hnext : ∀ x ∈ g :: (ys ++ bitmaps), x < geometry.groups := by
      refine forall_mem_cons.mpr ⟨?_, hys⟩
      rw [F.groups_eq]
      exact mem_range.mp hg
    have happly : (F.bitmapsImage descSize (ys ++ bitmaps)).apply (.inodeBitmap g
        (F.env.clearedBits ((F.bitmapsImage descSize (ys ++ bitmaps)).inodeBitmap g))) =
        F.bitmapsImage descSize (g :: (ys ++ bitmaps)) := apply_inodeBitmap_lapImage g
    refine Spec.mono (checkInodeBitmap_spec _ F.supported.blockSize _ g
      (hI _ (.old (.bitmaps _ _ hdesc hys))) ?_) ?_
    · rw [happly]
      exact hI _ (.old (.bitmaps _ _ hdesc hnext))
    · rintro _ img' rfl
      exact ⟨hnext, happly⟩
  · rintro _ img' ⟨-, rfl⟩
    refine lapImage_congr (fun _ _ => rfl) (fun g => ?_) (fun _ => Iff.rfl) fun _ => Iff.rfl
    rw [mem_append, mem_reverse]
    rw [← F.groups_eq]
    exact ⟨fun h => h.elim id fun h => mem_range.mpr (hbitmaps g h), Or.inl⟩

theorem apply_descTable_lapImage (i : Nat) :
    (F.lapImage word descSize phase bitmaps newSb descs backups).apply
        (.descTable i (F.env.newDescTable F.image)) =
      F.lapImage word descSize phase bitmaps newSb (i :: descs) backups := by
  simp only [Image.apply, lapImage]
  congr 1
  exact Function.update_eq_iff.mpr ⟨(if_pos mem_cons_self).symm,
    fun x hx => by simp only [mem_cons, hx, false_or]⟩

theorem apply_backup_lapImage (hb : b ∉ F.allBlocks) (hi : b / geometry.blocksPerGroup = i) :
    (F.lapImage word descSize phase bitmaps newSb descs backups).apply
        (.block b (.superblock (F.env.backup F.image.superblock i))) =
      F.lapImage word descSize phase bitmaps newSb descs (b :: backups) := by
  rw [← hi]
  simp only [Image.apply, lapImage]
  congr 1
  exact Function.update_eq_iff.mpr ⟨by rw [if_neg hb, if_pos mem_cons_self],
    fun x hx => by simp only [mem_cons, hx, false_or]⟩

theorem BackupsValid.cons_backup (h : F.BackupsValid descs backups) (hb : b ∈ F.env.backupBlocks) :
    F.BackupsValid descs (b :: backups) :=
  { h with backups := forall_mem_cons.mpr ⟨hb, h.backups⟩ }

theorem BackupsValid.cons_desc (h : F.BackupsValid descs backups) (hi : i ∈ F.env.supers) :
    F.BackupsValid (i :: descs) backups :=
  ⟨mem_cons_of_mem _ h.first, forall_mem_cons.mpr ⟨hi, h.descs⟩, h.backups⟩

theorem count_eq : (F.image.superblock.inodesCount + F.env.numBlockGroups *
      (F.env.newInodesPerGroup - F.image.superblock.inodesPerGroup)) =
        F.env.newInodesPerGroup * F.env.numBlockGroups := by
  rw [F.consistent.inodesCount, F.groups_eq, mul_comm F.image.superblock.inodesPerGroup,
    ← mul_add, Nat.add_sub_cancel' F.inodesPerGroup_le_new, mul_comm]

theorem backupsImage_all (hsupers : F.env.supers = 0 :: rest)
    (hvalid : F.BackupsValid descs backups)
    (hall : ∀ i ∈ rest, i ∈ descs ∧ i * geometry.blocksPerGroup ∈ backups) :
    F.backupsImage descSize descs backups =
      F.backupsImage descSize F.env.supers F.env.backupBlocks := by
  refine lapImage_congr (fun _ _ => rfl) (fun _ => Iff.rfl) (fun i => ⟨hvalid.descs i, ?_⟩)
    fun b => ⟨hvalid.backups b, ?_⟩
  · intro hi
    rw [hsupers] at hi
    rcases mem_cons.mp hi with rfl | hi
    · exact hvalid.first
    · exact (hall i hi).1
  · intro hb
    obtain ⟨i, hi, rfl⟩ := mem_map.mp hb
    obtain ⟨hi, hne⟩ := mem_filter.mp hi
    rw [hsupers] at hi
    rcases mem_cons.mp hi with rfl | hi
    · exact absurd rfl (of_decide_eq_true hne)
    · exact (hall i hi).2

section

variable (hI : ∀ img, F.InLap img → I img) (hdesc : F.SameSize descSize)
  (hgeometry : env.geometry = geometry) {sb : SuperBlock}
include hI hdesc hgeometry

/-- The groups after the first one get their superblock and their descriptors. -/
theorem backups_spec
    (hbackup : ∀ i, { sb with blockGroupNr := i, descSize := clearLowBit sb.descSize } =
      F.env.backup F.image.superblock i) (hrest : ∀ i ∈ rest, i ∈ F.env.supers ∧ i ≠ 0)
    (hvalid : F.BackupsValid descs backups) :
    Spec I (Prog.forEach rest fun i => do
        env.writeSb false i sb
        write false (.descTable i (F.env.newDescTable F.image)))
      (F.backupsImage descSize descs backups) fun _ img' =>
        ∃ descs' backups', F.BackupsValid descs' backups' ∧
          img' = F.backupsImage descSize descs' backups' ∧
          ∀ i ∈ rest, i ∈ descs' ∧ i * geometry.blocksPerGroup ∈ backups' := by
  have hlap : ∀ {descs backups}, F.BackupsValid descs backups →
      I (F.backupsImage descSize descs backups) := fun h => hI _ (.backups _ _ _ hdesc h)
  let J : List Nat → Image → Prop := fun ys img => ∃ descs' backups',
    F.BackupsValid descs' backups' ∧ img = F.backupsImage descSize descs' backups' ∧
      ∀ i ∈ ys, i ∈ descs' ∧ i * geometry.blocksPerGroup ∈ backups'
  refine Spec.mono (Spec.forEach (J := J) ?_ ?_ ⟨descs, backups, hvalid, rfl, by simp⟩) ?_
  · rintro ys img ⟨descs', backups', hvalid', rfl, -⟩
    exact hlap hvalid'
  · rintro ys i hi img ⟨descs', backups', hvalid', rfl, hdone⟩
    obtain ⟨hsuper, hne⟩ := hrest i hi
    have hblock : i * geometry.blocksPerGroup ∈ F.env.backupBlocks := mem_backupBlocks hsuper hne
    have happly : (F.backupsImage descSize descs' backups').apply (.block
        (i * geometry.blocksPerGroup) (.superblock (F.env.backup F.image.superblock i))) =
        F.backupsImage descSize descs' (i * geometry.blocksPerGroup :: backups') := by
      refine apply_backup_lapImage (fun hmem => F.consistent.apart _ hmem hblock) ?_
      exact Nat.mul_div_cancel i F.consistent.blocksPerGroup
    have hvalid₁ := hvalid'.cons_backup hblock
    have hvalid₂ := hvalid₁.cons_desc hsuper
    refine Spec.seq (F.backupsImage descSize descs' (i * geometry.blocksPerGroup :: backups'))
      ?_ fun _ => ?_
    · unfold Env.writeSb write
      rw [if_neg hne, if_neg Bool.false_ne_true, hbackup i, hgeometry]
      exact Spec.emit_eq happly (hlap hvalid') (hlap hvalid₁) rfl
    · refine Spec.emit_eq (apply_descTable_lapImage i) (hlap hvalid₁) (hlap hvalid₂)
        ⟨i :: descs', i * geometry.blocksPerGroup :: backups', hvalid₂, rfl, ?_⟩
      refine forall_mem_cons.mpr ⟨⟨mem_cons_self, mem_cons_self⟩, fun x hx => ?_⟩
      exact (hdone x hx).imp (mem_cons_of_mem _) (mem_cons_of_mem _)
  · rintro _ img' ⟨descs', backups', hvalid', himg, hdone⟩
    exact ⟨descs', backups', hvalid', himg, fun i hi => hdone i (mem_reverse.mpr hi)⟩

/-- The two writes for the first group, and then the copies for the other groups. -/
theorem supers_spec (hfirst : { sb with blockGroupNr := 0 } =
      { F.env.newSuperblock F.image.superblock with descSize })
    (h₀ : I (F.lapImage State.updatingSb.magic descSize (fun _ => .updated)
      (List.range geometry.groups) newSb descs backups))
    (h₁ : I (F.backupsImage descSize descs backups))
    (hvalid : F.BackupsValid (0 :: descs) backups) :
    Spec I (Prog.forEach F.env.supers fun i => do
        env.writeSb false i sb
        write false (.descTable i (F.env.newDescTable F.image)))
      (F.lapImage State.updatingSb.magic descSize (fun _ => .updated)
        (List.range geometry.groups) newSb descs backups) fun _ img' =>
        img' = F.backupsImage descSize F.env.supers F.env.backupBlocks := by
  obtain ⟨rest, hsupers, hne⟩ := @supers_eq F.env F.consistent.groups
  have hmem : ∀ i ∈ rest, i ∈ F.env.supers ∧ i ≠ 0 := by
    intro i hi
    rw [hsupers]
    exact ⟨mem_cons_of_mem _ hi, hne i hi⟩
  have hbackup : ∀ i, { sb with blockGroupNr := i, descSize := clearLowBit sb.descSize } =
      F.env.backup F.image.superblock i := by
    intro i
    have hgroup := congrArg (fun sb : SuperBlock =>
      { sb with blockGroupNr := i, descSize := clearLowBit sb.descSize }) hfirst
    rw [Env.backup, ← hdesc]
    exact hgroup
  have h₂ := hI _ (.backups _ _ _ hdesc hvalid)
  rw [show Prog.forEach F.env.supers = Prog.forEach (0 :: rest) by rw [hsupers]]
  refine Spec.seq (F.backupsImage descSize (0 :: descs) backups) ?_ fun _ => ?_
  · refine Spec.seq (F.backupsImage descSize descs backups) ?_ fun _ => ?_
    · unfold Env.writeSb write
      rw [if_pos rfl, if_neg Bool.false_ne_true, hfirst]
      exact Spec.emit_eq rfl h₀ h₁ rfl
    · exact Spec.emit_eq (apply_descTable_lapImage 0) h₁ h₂ rfl
  · refine Spec.mono (backups_spec hI hdesc hgeometry hbackup hmem hvalid) ?_
    rintro _ img' ⟨descs', backups', hvalid', rfl, hall⟩
    exact backupsImage_all hsupers hvalid' hall

end

theorem zero_mem_supers : 0 ∈ F.env.supers := by
  obtain ⟨rest, hsupers, -⟩ := @supers_eq F.env F.consistent.groups
  rw [hsupers]
  exact mem_cons_self

theorem updateSb_from_bitmaps (hI : ∀ img, F.InLap img → I img) (hdesc : F.SameSize descSize)
    (htorn : I (F.backupsImage descSize [] [])) (hlist : ∀ g ∈ bitmaps, g < geometry.groups) :
    Spec I (F.env.updateSuperblocksAndBgDesc false .updatingSb) (F.bitmapsImage descSize bitmaps)
      fun _ img' => img' = F.backupsImage descSize F.env.supers F.env.backupBlocks := by
  have hfirst : F.BackupsValid [0] [] := by
    refine ⟨mem_cons_self, fun i hi => ?_, nofun⟩
    rw [mem_singleton.mp hi]
    exact zero_mem_supers
  refine updateSuperblocks_spec (hI _ (.old (.bitmaps _ _ hdesc hlist)))
    (bitmaps_spec hI hdesc hlist)
    ?_ ?_ ?_
  · change (F.image.superblock.inodesCount + _ * (_ - F.image.superblock.inodesPerGroup)) % _ = _
    rw [count_eq]
  · exact Nat.mod_eq_zero_of_dvd F.newInodesPerGroup_dvd
  · exact supers_spec hI hdesc rfl rfl
      (hI _ (.old (.bitmaps _ _ hdesc fun g hg => mem_range.mp hg))) htorn hfirst

/-! A run that finds the new superblock: nothing changes for the first group. -/

section

variable (himg : img.superblock.inodesPerGroup = F.env.newInodesPerGroup)
include himg

theorem newInodesPerGroup_later :
    (img.env geometry junk).newInodesPerGroup = F.env.newInodesPerGroup := by
  change ext4Align img.superblock.inodesPerGroup _ = _
  rw [himg, ext4Align_of_dvd F.inodesPerBlock_pos F.newInodesPerGroup_dvd]

theorem clearedBits_later
    (bits : Nat → Bool) : (img.env geometry junk).clearedBits bits = bits := by
  apply clearedBits_of_none
  rw [newInodesPerGroup_later himg]
  change (List.range' img.superblock.inodesPerGroup (_ - img.superblock.inodesPerGroup)).any _ = _
  rw [himg, Nat.sub_self]
  rfl

end

theorem addFreeInodes_zero {table : List GroupDesc}
    (h : ∀ desc ∈ table, desc.freeInodesCount < 2 ^ 16) : env.addFreeInodes table 0 = table := by
  unfold Env.addFreeInodes
  apply ext_getElem
  · rw [length_mapIdx]
  · intro i _ hi
    rw [getElem_mapIdx]
    split_ifs
    · rw [add_zero, Nat.mod_eq_of_lt (h _ (getElem_mem hi))]
    · rfl

theorem newDescTable_lt : ∀ desc ∈ F.env.newDescTable F.image, desc.freeInodesCount < 2 ^ 16 := by
  intro desc hdesc
  obtain ⟨i, hi, rfl⟩ := mem_mapIdx.mp hdesc
  rw [if_pos (by rw [← F.groups_eq, ← F.consistent.descTable]; exact hi)]
  exact Nat.mod_lt _ (by decide)

theorem grownSuperblock_later (img : Image)
    (himg : img.superblock = { F.env.newSuperblock F.image.superblock with descSize }) :
    (img.env geometry junk).grownSuperblock img.superblock = img.superblock := by
  have hnew : img.superblock.inodesPerGroup = F.env.newInodesPerGroup := by
    rw [himg]
    rfl
  unfold Env.grownSuperblock
  rw [newInodesPerGroup_later hnew, hnew, Nat.sub_self, mul_zero, add_zero, add_zero, himg]
  simp only [Env.newSuperblock, Env.grownSuperblock, Nat.mod_mod]

theorem updateSb_from_backups (hI : ∀ img, F.InLap img → I img) (hdesc : F.SameSize descSize)
    (hvalid : F.BackupsValid descs backups) :
    Spec I (((F.backupsImage descSize descs backups).env geometry
        junk).updateSuperblocksAndBgDesc false .updatingSb)
      (F.backupsImage descSize descs backups) fun _ img' =>
        img' = F.backupsImage descSize F.env.supers F.env.backupBlocks := by
  have hsb : (F.backupsImage descSize descs backups).superblock =
      { F.env.newSuperblock F.image.superblock with descSize } := rfl
  have htable : (F.backupsImage descSize descs backups).descTable 0 =
      F.env.newDescTable F.image := if_pos hvalid.first
  have hIimg := hI _ (.backups _ _ _ hdesc hvalid)
  generalize himg : F.backupsImage descSize descs backups = img at hsb htable hIimg
  have hnew : img.superblock.inodesPerGroup = F.env.newInodesPerGroup := by
    rw [hsb]
    rfl
  have hgrown : (img.env geometry junk).grownTable .updatingSb img.superblock =
      F.env.newDescTable F.image := by
    rw [Env.grownTable, if_pos rfl, newInodesPerGroup_later hnew, hnew, Nat.sub_self]
    change Env.addFreeInodes _ (img.descTable 0) 0 = _
    rw [htable, addFreeInodes_zero newDescTable_lt]
  -- there are no bits between the two numbers
  have hclear : ∀ g, img.apply (.inodeBitmap g ((img.env geometry junk).clearedBits
      (img.inodeBitmap g))) = img := by
    intro g
    rw [clearedBits_later hnew]
    simp only [Image.apply, Function.update_eq_self]
  have hbits : Spec I (Prog.forEach (List.range (img.env geometry junk).numBlockGroups)
      ((img.env geometry junk).checkInodeBitmap false)) img fun _ s => s = img := by
    refine Spec.forEach_same hIimg fun g _ => ?_
    have hspec := checkInodeBitmap_spec (img.env geometry junk) F.supported.blockSize img g hIimg
    rw [hclear g] at hspec
    exact hspec hIimg
  refine updateSuperblocks_spec hIimg hbits ?_ ?_ ?_
  · rw [newInodesPerGroup_later hnew, hnew, Nat.sub_self, mul_zero, add_zero, hsb]
    change (F.image.superblock.inodesCount + _ * (_ - F.image.superblock.inodesPerGroup)) %
      _ % _ = _ * F.env.numBlockGroups % _
    rw [Nat.mod_mod, count_eq]
  · rw [newInodesPerGroup_later hnew]
    exact Nat.mod_eq_zero_of_dvd F.newInodesPerGroup_dvd
  · have hlist : (img.env geometry junk).supers = F.env.supers := rfl
    rw [hlist, grownSuperblock_later img hsb, hgrown]
    subst himg
    exact supers_spec hI hdesc rfl rfl hIimg hIimg (hvalid.cons_desc zero_mem_supers)

end Found

end ShieldTv.Ext4Utils
