import ShieldTv.Releasetools.Proofs.StashAccount
import ShieldTv.Updater.Proofs.Resume

/-!
# The stash of a run

What a run keeps in the stash directory, whatever is on the partition: each file
holds the contents that its name is the hash of, and the names are those of the
stashes that the list holds at that point and of the source that the current
command has saved.
-/

namespace ShieldTv.Updater.BlockImg

open Lib Lib.Text Lib.Fallible List OrderedDict Releasetools
open Releasetools.BlockImageDiff (Command Source Image Assembles IsTransfer TransferForm
  Sound TransferList Ota Emitted StashedTransfer nameBlocks heldBlocks heldAfter ReadsClear
  Afforded shiftImage shiftOta)
open Trace (Always always_nil always_cons always_append)

variable {B : Type}

/-! ## The size of the directory -/

def StashFile.blocks : StashFile B → Nat
  | .whole blocks => blocks.length
  | .ragged bytes => (bytes + 4095) / 4096

def Disk.stashedBlocks (disk : Disk B) : Int :=
  match disk.stash with
  | none => 0
  | some dir => ((dir.values.map StashFile.blocks).sum : Nat)

/-- Each file holds the contents of its name, which is one of `held`. -/
def Stored (codec : Codec B) (held : Finset Word) (disk : Disk B) : Prop :=
  ∀ dir, disk.stash = some dir → dir.Unique ∧
    ∀ id, ∀ file ∈ dir.get? id, ∃ data, file = .whole data ∧ codec.sha1 data = id ∧ id ∈ held

section

variable {codec : Codec B} {held held' : Finset Word} {disk : Disk B}

theorem Stored.mono (h : Stored codec held disk) (hsub : held ⊆ held') :
    Stored codec held' disk := by
  intro dir hdir
  obtain ⟨hunique, hfiles⟩ := h dir hdir
  refine ⟨hunique, fun id file hfile => ?_⟩
  obtain ⟨data, hdata, hsha, hid⟩ := hfiles id file hfile
  exact ⟨data, hdata, hsha, hsub hid⟩

theorem Stored.stashedBlocks_le (h : Stored codec held disk) :
    disk.stashedBlocks ≤ heldBlocks codec held := by
  cases hdir : disk.stash with
  | none =>
    unfold Disk.stashedBlocks
    rw [hdir]
    exact Finset.sum_nonneg fun _ _ => by omega
  | some dir =>
    obtain ⟨hunique, hfiles⟩ := h dir hdir
    have hitem : ∀ item ∈ dir.items, item.2.blocks = nameBlocks codec item.1 ∧ item.1 ∈ held := by
      intro item hitem
      have hget := get?_of_mem hunique hitem
      obtain ⟨data, hdata, hsha, hid⟩ := hfiles item.1 item.2 hget
      rw [hdata, ← hsha, BlockImageDiff.nameBlocks_sha1]
      exact ⟨rfl, hsha ▸ hid⟩
    have hsum : (dir.values.map StashFile.blocks).sum =
        ∑ id ∈ dir.keys.toFinset, nameBlocks codec id := by
      rw [sum_toFinset _ hunique]
      simp only [OrderedDict.values, OrderedDict.keys, map_map]
      exact congrArg List.sum (map_congr_left fun item hmem => (hitem item hmem).1)
    have hsub : dir.keys.toFinset ⊆ held := by
      intro id hid
      obtain ⟨item, hmem, rfl⟩ := mem_map.mp (mem_toFinset.mp hid)
      exact (hitem item hmem).2
    unfold Disk.stashedBlocks
    rw [hdir]
    simp only [hsum, Nat.cast_sum]
    exact BlockImageDiff.heldBlocks_mono codec hsub

end

/-! ## Effects -/

/-- The effect saves no contents but under their own name, and only under one of
`held`. -/
def Effect.Saves (codec : Codec B) (held : Finset Word) : Effect B → Prop
  | .put id data => id ∈ held ∧ codec.sha1 data = id
  | .write _ _ | .discard _ | .mkdir | .rmdir | .unlink _ => True

variable {effects : List (Effect B)} {buffer : List B} {c : Command} {result : CommandResult B}
  {disk : Disk B}

section

variable {codec : Codec B} {held held' : Finset Word} {disk : Disk B} (pf : Platform B)

section

variable (h : Stored codec held disk)
include h

theorem Stored.unlink (id : Word) : Stored codec (held.erase id) (pf.apply disk (.unlink id)) := by
  intro dir' hdir'
  obtain ⟨dir, hdir, rfl⟩ := Option.map_eq_some_iff.mp hdir'
  obtain ⟨hunique, hfiles⟩ := h dir hdir
  refine ⟨unique_erase hunique id, fun k file hfile => ?_⟩
  rw [get?_erase] at hfile
  split_ifs at hfile with hk
  · cases hfile
  · obtain ⟨data, hdata, hsha, hid⟩ := hfiles k file hfile
    exact ⟨data, hdata, hsha, Finset.mem_erase.mpr ⟨hk, hid⟩⟩

theorem Stored.apply {e : Effect B} (he : e.Saves codec held) :
    Stored codec held (pf.apply disk e) := by
  cases e with
  | write | discard => exact h
  | mkdir =>
    intro dir hdir
    cases hdir
    exact ⟨unique_empty, fun id file hfile => by cases hfile⟩
  | rmdir => exact nofun
  | unlink id => exact (h.unlink pf id).mono (Finset.erase_subset _ _)
  | put id data =>
    obtain ⟨hid, hsha⟩ := he
    intro dir' hdir'
    obtain ⟨dir, hdir, rfl⟩ := Option.map_eq_some_iff.mp hdir'
    obtain ⟨hunique, hfiles⟩ := h dir hdir
    refine ⟨unique_set hunique id _, fun k file hfile => ?_⟩
    rw [get?_set] at hfile
    split_ifs at hfile with hk
    · exact ⟨data, (Option.some.inj hfile).symm, hk ▸ hsha, hk ▸ hid⟩
    · exact hfiles k file hfile

theorem Stored.always (heffects : ∀ e ∈ effects, e.Saves codec held) :
    Always pf.apply (Stored codec held) disk effects := by
  induction effects generalizing disk with
  | nil => exact always_nil.mpr h
  | cons e effects ih =>
    refine always_cons.mpr ⟨h, ih (h.apply pf (heffects e (by simp))) ?_⟩
    exact fun e' he' => heffects e' (by simp [he'])

end

end

/-! ## Commands -/

structure Updating (params : Params B) : Prop where
  version : params.version = 3
  canwrite : params.canwrite = true
  freestash : params.freestash = none

/-- While a command is performed only names in `during` are stored, and if it
succeeds only names in `after` are left. -/
structure Keeps (codec : Codec B) (pf : Platform B) (disk : Disk B) (during after : Finset Word)
    (result : CommandResult B) : Prop where
  always : Always pf.apply (Stored codec during) disk result.effects
  stored : result.rc = .ok () → Stored codec after (Trace.run pf.apply disk result.effects)
  updating : result.rc = .ok () → Updating result.params

section

variable {codec : Codec B} {held : Finset Word} {disk : Disk B} {pf : Platform B}
  {params : Params B} {id : Word}

theorem keeps_of_saves (h : Stored codec held disk) {during : Finset Word} (hsub : held ⊆ during)
    (heffects : ∀ e ∈ result.effects, e.Saves codec during)
    (hparams : result.rc = .ok () → Updating result.params) :
    Keeps codec pf disk during during result := by
  have halways := (h.mono hsub).always pf heffects
  exact ⟨halways, fun _ => halways.final, hparams⟩

theorem saves_writeRange (s : Int) (data : List B) :
    ∀ e ∈ writeRange s data, e.Saves codec held := by
  induction data generalizing s with
  | nil => exact nofun
  | cons d data ih =>
    exact forall_mem_cons.mpr ⟨trivial, ih (s + 1)⟩

theorem saves_writeBlocks (ranges : List (Int × Int)) (data : List B) :
    ∀ e ∈ (writeBlocks ranges data).1, e.Saves codec held := by
  induction ranges generalizing data with
  | nil => simp [writeBlocks]
  | cons range ranges ih =>
    obtain ⟨s, e⟩ := range
    rw [writeBlocks]
    split_ifs
    · simp
    · split
      · simp
      · exact forall_mem_append.mpr ⟨saves_writeRange s _, ih _⟩

theorem saves_rangeSink (ranges : List (Int × Int)) (data : List B) :
    ∀ e ∈ (rangeSink ranges data).1, e.Saves codec held := by
  induction ranges generalizing data with
  | nil => simp [rangeSink]
  | cons range ranges ih =>
    obtain ⟨s, e⟩ := range
    rw [rangeSink]
    split
    · simp
    · split_ifs
      · simp
      · exact saves_writeRange s _
      · exact forall_mem_append.mpr ⟨saves_writeRange s _, ih _⟩

theorem saves_zeroRanges (zero : B) (ranges : List (Int × Int)) :
    ∀ e ∈ (zeroRanges zero ranges).1, e.Saves codec held := by
  induction ranges with
  | nil => simp [zeroRanges]
  | cons range ranges ih =>
    obtain ⟨s, e⟩ := range
    rw [zeroRanges]
    split_ifs
    · simp
    · exact forall_mem_append.mpr ⟨saves_writeRange s _, ih⟩

theorem writeStash_verified {blocks : Nat} (h : writeStash id blocks buffer = .ok effects)
    (hverify : verifyBlocks codec id buffer blocks = true) :
    ∃ data, effects = [.put id data] ∧ codec.sha1 data = id := by
  have hdata : codec.sha1 (buffer.take blocks) = id := by
    simp only [verifyBlocks, Bool.and_eq_true, decide_eq_true_eq] at hverify
    exact hverify.2
  unfold writeStash at h
  by_cases hsize : blocks < 2 ^ 19
  · rw [byteCount_ok hsize] at h
    simp only [bind, Except.bind] at h
    by_cases hlen : 0 + blocks ≤ buffer.length
    · rw [loadAt_ok hlen] at h
      exact ⟨_, (Except.ok.inj h).symm, hdata⟩
    · rw [loadAt, if_neg hlen] at h
      cases h
  · rw [byteCount_overflow (by omega)] at h
    cases h

theorem saves_loadStash (codec : Codec B) (pf : Platform B) (disk : Disk B) (held : Finset Word)
    (id : Word) (verify : Bool) (buffer : List B) :
    ∀ e ∈ (loadStash codec pf disk id verify buffer).effects, e.Saves codec held := by
  unfold loadStash
  split
  · dsimp only
    split
    · exact forall_mem_singleton.mpr trivial
    · exact nofun
  · exact nofun

variable (h : Stored codec held disk) (hparams : Updating params)

include h hparams

theorem keeps_new (cpos : List Char) :
    Keeps codec pf disk held held (performCommandNew params cpos) := by
  unfold performCommandNew
  split
  · exact keeps_of_saves h subset_rfl nofun nofun
  split
  · exact keeps_of_saves h subset_rfl nofun nofun
  rw [if_pos hparams.canwrite]
  split
  · exact keeps_of_saves h subset_rfl nofun nofun
  dsimp only
  split
  · exact keeps_of_saves h subset_rfl (saves_rangeSink _ _) nofun
  · exact keeps_of_saves h subset_rfl (saves_rangeSink _ _) nofun
  · exact keeps_of_saves h subset_rfl (saves_rangeSink _ _) fun _ => { hparams with }

theorem keeps_zero [Zero B] (cpos : List Char) :
    Keeps codec pf disk held held (performCommandZero pf params cpos) := by
  unfold performCommandZero
  split
  · exact keeps_of_saves h subset_rfl nofun nofun
  split
  · exact keeps_of_saves h subset_rfl nofun nofun
  rw [if_pos hparams.canwrite]
  exact keeps_of_saves h subset_rfl (saves_zeroRanges _ _) fun _ => { hparams with }

theorem keeps_erase (cpos : List Char) :
    Keeps codec pf disk held held (performCommandErase pf params cpos) := by
  unfold performCommandErase
  split
  · exact keeps_of_saves h subset_rfl nofun nofun
  split
  · exact keeps_of_saves h subset_rfl nofun nofun
  split
  · exact keeps_of_saves h subset_rfl nofun nofun
  rw [if_pos hparams.canwrite]
  refine keeps_of_saves h subset_rfl ?_ fun _ => hparams
  rw [discardRanges_eq]
  exact forall_mem_map.mpr fun _ _ => trivial

theorem keeps_free (id : Word) :
    Keeps codec pf disk held (held.erase id) (performCommandFree params id) := by
  unfold performCommandFree
  rw [if_pos (by simp [hparams.canwrite])]
  have hunlink := h.unlink pf id
  refine ⟨?_, fun _ => hunlink, fun _ => hparams⟩
  exact always_cons.mpr ⟨h, always_nil.mpr (hunlink.mono (Finset.erase_subset _ _))⟩

theorem keeps_stash (hid : IsToken ' ' id) (ws : List Word) :
    Keeps codec pf disk (insert id held) (insert id held)
      (performCommandStash codec pf disk params (join ' ' (id :: ws))) := by
  have hsub : held ⊆ insert id held := Finset.subset_insert _ _
  have hold := saves_loadStash codec pf disk (insert id held) id true params.buffer
  have husehash : decide (3 ≤ params.version) = true := by simp [hparams.version]
  unfold performCommandStash
  rw [strtok_join hid]
  simp only [husehash, if_true, Bool.true_and]
  split
  · exact keeps_of_saves h hsub hold fun _ => { hparams with }
  split
  · exact keeps_of_saves h hsub hold nofun
  split_ifs with hverify
  · exact keeps_of_saves h hsub hold fun _ => { hparams with }
  split
  · exact keeps_of_saves h hsub hold nofun
  case _ effects hwrite =>
    obtain ⟨data, rfl, hsha⟩ := writeStash_verified hwrite (by simpa using hverify)
    refine keeps_of_saves h hsub (forall_mem_append.mpr ⟨hold, ?_⟩) fun _ => { hparams with }
    exact forall_mem_singleton.mpr ⟨Finset.mem_insert_self _ _, hsha⟩

end

/-! ## Transfers -/

/-- Loading a source saves nothing but that source, and only if the command
overwrites part of it. -/
inductive SourceSaves (codec : Codec B) (srchash : Word) (overlap : Prop)
    (source : SourceResult B) : Prop
  | kept (hparams : Updating source.params)
      (heffects : ∀ held, ∀ e ∈ source.effects, e.Saves codec held)
  | saved (hoverlap : overlap) (data : List B) (hsha : codec.sha1 data = srchash)
      (heffects : source.effects = [.put srchash data])
      (hparams : Updating { source.params with freestash := none })
      (hfree : source.params.freestash = some srchash)

section

variable {codec : Codec B} {held during : Finset Word} {disk : Disk B} {pf : Platform B}
  {params : Params B} {srchash : Word} {overlap : Prop} {source : SourceResult B}
  {loaded : Loaded B}

theorem stashOverlap_saves (hparams : Updating params) (hoverlap : overlap)
    (hverify : verifyBlocks codec srchash loaded.buffer loaded.srcBlocks = true) :
    SourceSaves codec srchash overlap (stashOverlap pf disk params srchash loaded) := by
  unfold stashOverlap
  cases hwrite : writeStash srchash loaded.srcBlocks loaded.buffer with
  | error stop =>
    split_ifs <;> exact .kept hparams fun _ => nofun
  | ok effects =>
    obtain ⟨data, rfl, hsha⟩ := writeStash_verified hwrite hverify
    dsimp only
    split_ifs
    · exact .kept hparams fun _ => nofun
    · exact .kept hparams fun _ => nofun
    · exact .saved hoverlap data hsha rfl ⟨hparams.version, hparams.canwrite, rfl⟩ rfl

section

variable (hparams : Updating params) {cpos : List Char} {onehash : Bool}
  (hwords : ∀ w, loadVersion3Words codec pf disk cpos params.buffer onehash =
      .ok w → w.srchash = srchash ∧ (w.loaded.overlap = true → overlap))
include hparams hwords

theorem loadSrcTgtVersion3_saves :
    SourceSaves codec srchash overlap (loadSrcTgtVersion3 codec pf disk params cpos onehash) := by
  have hbuffer : ∀ buffer, Updating { params with buffer } := fun _ => { hparams with }
  unfold loadSrcTgtVersion3
  split
  · exact .kept hparams fun _ => nofun
  case _ srchash' tgthash loaded tgtBlocks tgtData hload =>
    obtain ⟨rfl, hoverlap⟩ := hwords _ hload
    simp only at hoverlap ⊢
    split
    · exact .kept (hbuffer _) fun _ => nofun
    split
    · split
      case _ hverify hover => exact stashOverlap_saves (hbuffer _) (hoverlap hover) hverify
      · exact .kept (hbuffer _) fun _ => nofun
    split
    · split <;> exact .kept { hparams with } fun held => saves_loadStash codec pf disk held _ _ _
    · exact .kept { hparams with } fun _ => nofun

theorem loadSource_saves :
    SourceSaves codec srchash overlap (loadSource codec pf disk params cpos onehash) := by
  unfold loadSource
  rw [hparams.version, if_neg (by decide), if_neg (by decide)]
  exact loadSrcTgtVersion3_saves hparams hwords

end

/-- A transfer that saves its source frees it when it succeeds. -/
theorem keeps_finishTransfer (h : Stored codec held disk) (hsub : held ⊆ during)
    (hduring : overlap → srchash ∈ during) (hafter : during.erase srchash ⊆ held)
    (hsource : SourceSaves codec srchash overlap source)
    {write : Params B → List (Effect B) × Except Stop Unit}
    (hwrite : ∀ params held, ∀ e ∈ (write params).1, e.Saves codec held) :
    Keeps codec pf disk during held (finishTransfer source write) := by
  have hload : ∀ e ∈ source.effects, e.Saves codec during := by
    cases hsource with
    | kept _ heffects => exact heffects during
    | saved hoverlap data hsha heffects =>
      rw [heffects]
      exact forall_mem_singleton.mpr ⟨hduring hoverlap, hsha⟩
  unfold finishTransfer
  cases hrc : source.rc with
  | error stop => exact ⟨(h.mono hsub).always pf hload, nofun, nofun⟩
  | ok perform =>
    dsimp only
    generalize hwritten :
      (if source.params.canwrite && perform then write source.params else ([], .ok ())) = written
    have hwrites : ∀ held, ∀ e ∈ written.1, e.Saves codec held := by
      intro held
      rw [← hwritten]
      split_ifs
      · exact hwrite _ held
      · exact nofun
    have hboth := forall_mem_append.mpr ⟨hload, hwrites during⟩
    have hdone := (h.mono hsub).always pf hboth
    cases written.2 with
    | error stop => exact ⟨hdone, nofun, nofun⟩
    | ok done =>
      cases hsource with
      | kept hparams heffects =>
        have hquiet := forall_mem_append.mpr ⟨heffects held, hwrites held⟩
        simp only [freeOwnStash, hparams.freestash, append_nil]
        exact ⟨hdone, fun _ => (h.always pf hquiet).final, fun _ => hparams⟩
      | saved hoverlap data hsha heffects hparams hfree =>
        simp only [freeOwnStash, hfree]
        have hunlink := hdone.final.unlink pf srchash
        refine ⟨?_, fun _ => ?_, fun _ => hparams⟩
        · exact always_append.mpr ⟨hdone, always_cons.mpr
            ⟨hdone.final, always_nil.mpr (hunlink.mono (Finset.erase_subset _ _))⟩⟩
        · rw [Trace.run_append]
          exact hunlink.mono hafter

/-- The overlap that the updater finds, whatever the size of the source. -/
theorem loadSrcTgtVersion2_overlap {tgtRanges : RangeLib.RangeSet} (htgt : tgtRanges.Canonical)
    (htfits : Fits tgtRanges) {source : Source} (hdirect : source.direct.Canonical)
    (hdfits : Fits source.direct)
    (hload : loadSrcTgtVersion2 codec pf disk (join ' ' (tgtRanges.toStringRaw :: source.words))
      buffer = .ok loaded) (hover : loaded.overlap = true) :
    overlapping source tgtRanges = true := by
  have hraw : ∀ r : RangeLib.RangeSet, IsToken ' ' r.toStringRaw := fun r =>
    isToken_raw r ' ' (by decide)
  have hnum : IsToken ' ' (decimal source.count) := isToken_decimal _ (by decide)
  unfold loadSrcTgtVersion2 Source.words at hload
  rw [nextWord_join (hraw tgtRanges)] at hload
  simp only [bind, Except.bind, parseRange_raw htgt htfits, nextWord_join hnum] at hload
  generalize byteCount (toInt (strtol (decimal source.count))) = size at hload
  cases size with
  | error stop => cases hload
  | ok n =>
    by_cases hnonzero : source.direct.nonzero = true
    · rw [if_pos hnonzero, cons_append, nextWord_join (hraw source.direct)] at hload
      simp only [if_neg (raw_ne_dash source.direct), parseRange_raw hdirect hdfits] at hload
      split at hload
      · cases hload
      split at hload
      · cases hload
        exact hover
      · split at hload
        · cases hload
        split at hload
        · cases hload
        split at hload
        · cases hload
        · cases hload
          exact hover
    · rw [if_neg hnonzero, cons_append, nextWord_join ⟨by decide, by decide⟩] at hload
      simp only [if_true] at hload
      split at hload
      · cases hload
      · cases hload
        cases hover

theorem loadVersion3Words_loaded {srchash tgthash : Word} (hsrchash : IsToken ' ' srchash)
    (htgthash : IsToken ' ' tgthash) {onehash : Bool} (hone : onehash = true → srchash = tgthash)
    {ws : List Word} {w : Version3Words B}
    (h : loadVersion3Words codec pf disk (join ' ' (hashWords onehash srchash tgthash ++ ws)) buffer
      onehash = .ok w) :
    w.srchash = srchash ∧ loadSrcTgtVersion2 codec pf disk (join ' ' ws) buffer = .ok w.loaded := by
  rw [loadVersion3Words_eq codec pf disk hsrchash htgthash hone] at h
  obtain ⟨loaded, hload, h⟩ := bind_eq_ok.mp h
  obtain ⟨n, -, h⟩ := bind_eq_ok.mp h
  obtain ⟨tgtData, -, h⟩ := bind_eq_ok.mp h
  cases h
  exact ⟨rfl, hload⟩

end

section

variable [Zero B] {codec : Codec B} {src tgt : Image B} {held : Finset Word} {disk : Disk B}
  {pf : Platform B} {params : Params B}

def duringCommand (c : Command) (held : Finset Word) : Finset Word :=
  match c.saves with
  | some id => insert id held
  | none => held

section

variable {patchData : Bytes}

theorem keeps_transfer {srcRanges tgtRanges : RangeLib.RangeSet} {source : Source}
    {parts : List (Word × RangeLib.RangeSet)}
    (htransfer : IsTransfer codec src tgt patchData srcRanges tgtRanges source parts c)
    (hsrc : src.totalBlocks < 2 ^ 31 - 1) (htgt : tgt.totalBlocks < 2 ^ 31 - 1)
    (h : Stored codec held disk) (hparams : Updating params) :
    Keeps codec pf disk (duringCommand c held) held (performLine codec pf disk params c.line) := by
  have hdirect := htransfer.assembles.direct_canonical
  have htgtFits := fits_of_careMap htgt htransfer.tgt_canonical htransfer.tgt_subset
  have hdirectFits := fits_of_careMap hsrc hdirect
    (htransfer.assembles.direct_subset.trans htransfer.src_subset)
  have hsaves := (IsTransfer.command_fields htransfer).2.2.2.2.2.2
  have hoverlaps : overlapping source tgtRanges = true ↔
      source.direct.overlaps tgtRanges = true := by
    rw [overlapping_iff hdirect htransfer.tgt_canonical,
      RangeLib.RangeSet.overlaps_iff hdirect htransfer.tgt_canonical,
      Set.not_disjoint_iff_nonempty_inter]
  have hsub : held ⊆ duringCommand c held := by
    unfold duringCommand
    split
    · exact Finset.subset_insert _ _
    · exact subset_rfl
  have hduring : overlapping source tgtRanges = true →
      codec.sha1 (src.readRangeSet srcRanges) ∈ duringCommand c held := by
    intro hover
    rw [duringCommand, hsaves, if_pos (hoverlaps.mp hover)]
    exact Finset.mem_insert_self _ _
  have hafter : (duringCommand c held).erase (codec.sha1 (src.readRangeSet srcRanges)) ⊆ held := by
    unfold duringCommand
    rw [hsaves]
    split_ifs
    · exact Finset.erase_insert_subset _ _
    · exact Finset.erase_subset _ _
  have hsource : ∀ onehash : Bool,
      (onehash = true → src.readRangeSet srcRanges = tgt.readRangeSet tgtRanges) →
      SourceSaves codec (codec.sha1 (src.readRangeSet srcRanges))
        (overlapping source tgtRanges = true)
        (loadSource codec pf disk params
          (join ' ' (hashWords onehash (codec.sha1 (src.readRangeSet srcRanges))
            (codec.sha1 (tgt.readRangeSet tgtRanges)) ++ tgtRanges.toStringRaw :: source.words))
          onehash) := by
    intro onehash hone
    apply loadSource_saves hparams
    intro w hw
    obtain ⟨hhash, hload⟩ := loadVersion3Words_loaded (codec.isToken_sha1 (by decide) _)
      (codec.isToken_sha1 (by decide) _) (fun h => congrArg codec.sha1 (hone h)) hw
    exact ⟨hhash, loadSrcTgtVersion2_overlap htransfer.tgt_canonical htgtFits hdirect hdirectFits
      hload⟩
  cases htransfer.form with
  | move hdata =>
    rw [performLine_line, performCommand]
    exact keeps_finishTransfer h hsub hduring hafter (hsource true fun _ => hdata)
      fun _ held => saves_writeBlocks _ _
  | diff imgdiff start len =>
    have hnum : ∀ n : Nat, IsToken ' ' (decimal n) := fun n => isToken_decimal n (by decide)
    rw [performLine_line, performCommand]
    unfold performCommandDiff
    rw [strtok_join (hnum start)]
    simp only
    rw [strtok_join (hnum len)]
    apply keeps_finishTransfer h hsub hduring hafter (hsource false (by simp))
    intro params held
    unfold applyDiff
    dsimp only
    split
    · simp
    split
    · simp
    · exact saves_rangeSink _ _

theorem keeps_line (hsound : Sound codec src tgt patchData c) (hsrc : src.totalBlocks < 2 ^ 31 - 1)
    (htgt : tgt.totalBlocks < 2 ^ 31 - 1) (h : Stored codec held disk) (hparams : Updating params) :
    Keeps codec pf disk (duringCommand c held) (c.hold held)
      (performLine codec pf disk params c.line) := by
  cases hsound with
  | stash =>
    rw [performLine_line]
    exact keeps_stash h hparams (codec.isToken_sha1 (by decide) _) _
  | free data =>
    rw [performLine_line]
    exact keeps_free h hparams _
  | new =>
    rw [performLine_line, performCommand, if_pos hparams.canwrite]
    exact keeps_new h hparams _
  | zero =>
    rw [performLine_line, performCommand, if_pos hparams.canwrite]
    exact keeps_zero h hparams _
  | erase =>
    rw [performLine_line, performCommand, if_pos hparams.canwrite]
    exact keeps_erase h hparams _
  | transfer htransfer =>
    have hhold : c.hold held = held := by cases htransfer.form <;> rfl
    rw [hhold]
    exact keeps_transfer htransfer hsrc htgt h hparams

/-- What is stored while a command is performed: what is held before it and its
own source, or what is held after it. -/
theorem heldBlocks_duringCommand (hsound : Sound codec src tgt patchData c) (held : Finset Word) :
    0 ≤ c.overlapBlocks ∧
      (heldBlocks codec (duringCommand c held) ≤ heldBlocks codec held + c.overlapBlocks ∨
        duringCommand c held = c.hold held) := by
  cases hsound with
  | stash => exact ⟨le_rfl, Or.inr rfl⟩
  | free => exact ⟨le_rfl, Or.inl (by simp [duringCommand, Command.saves, Command.overlapBlocks])⟩
  | new | zero | erase => exact ⟨le_rfl, Or.inr rfl⟩
  | @transfer srcRanges tgtRanges source parts c htransfer =>
    have hsaves := (IsTransfer.command_fields htransfer).2.2.2.2.2.2
    have hoverlap : c.overlapBlocks =
        if source.direct.overlaps tgtRanges then source.count else 0 := by
      cases htransfer.form <;> rfl
    have hcount : source.count = nameBlocks codec (codec.sha1 (src.readRangeSet srcRanges)) := by
      rw [htransfer.assembles.count,
        BlockImageDiff.size_eq_nameBlocks codec src htransfer.assembles.src_canonical]
    rw [duringCommand, hsaves, hoverlap, hcount]
    split_ifs
    · refine ⟨by omega, Or.inl ?_⟩
      dsimp only
      by_cases hmem : codec.sha1 (src.readRangeSet srcRanges) ∈ held
      · rw [Finset.insert_eq_of_mem hmem]
        omega
      · rw [heldBlocks, Finset.sum_insert hmem]
        unfold heldBlocks
        omega
    · exact ⟨le_rfl, Or.inl (by simp)⟩

end

end

/-! ## Runs -/

/-- A device with no stash files yet. -/
def Disk.Unstashed (disk : Disk B) : Prop := ∀ dir, disk.stash = some dir → dir.items = []

theorem stored_of_unstashed {codec : Codec B} (h : disk.Unstashed) : Stored codec ∅ disk := by
  intro dir hdir
  have hnone : ∀ id, dir.get? id = none := fun id => by rw [OrderedDict.get?, h dir hdir]; rfl
  refine ⟨?_, fun id file hfile => ?_⟩
  · rw [OrderedDict.Unique, (dir.keys_eq_nil_iff).mpr (h dir hdir)]
    exact nodup_nil
  · rw [hnone id] at hfile
    cases hfile

def Budgeted (codec : Codec B) (budget : Int) (disk : Disk B) : Prop :=
  ∃ held, Stored codec held disk ∧ heldBlocks codec held ≤ budget

section

variable {codec : Codec B} {budget : Int} {disk : Disk B} {pf : Platform B}

theorem Budgeted.stashedBlocks_le (h : Budgeted codec budget disk) :
    disk.stashedBlocks ≤ budget := by
  obtain ⟨held, hstored, hheld⟩ := h
  exact hstored.stashedBlocks_le.trans hheld

theorem Budgeted.always (h : Budgeted codec budget disk)
    (heffects : ∀ held, ∀ e ∈ effects, e.Saves codec held) :
    Always pf.apply (Budgeted codec budget) disk effects := by
  obtain ⟨held, hstored, hheld⟩ := h
  exact (hstored.always pf (heffects held)).mono fun _ hstored' => ⟨held, hstored', hheld⟩

theorem saves_deleteStash (disk : Disk B) (held : Finset Word) :
    ∀ e ∈ deleteStash disk, e.Saves codec held := by
  unfold deleteStash
  split
  · exact nofun
  · refine forall_mem_append.mpr ⟨?_, forall_mem_singleton.mpr trivial⟩
    exact forall_mem_map.mpr fun _ _ => trivial

theorem Budgeted.finishUpdate (h : Always pf.apply (Budgeted codec budget) disk result.effects) :
    Always pf.apply (Budgeted codec budget) disk (finishUpdate pf disk result).effects := by
  have hdelete := always_append.mpr
    ⟨h, h.final.always fun held =>
      saves_deleteStash (Trace.run pf.apply disk result.effects) held⟩
  have hnothing : Always pf.apply (Budgeted codec budget) disk (result.effects ++ []) := by
    rwa [append_nil]
  unfold BlockImg.finishUpdate
  dsimp only
  split
  · exact h
  · split_ifs
    · exact hdelete
    · exact hnothing
  · split_ifs
    · exact hdelete
    · exact h
    · exact hdelete
    · exact hnothing

end

section

variable [Zero B] {codec : Codec B} {src tgt : Image B} {ota : Ota B}

theorem heldBlocks_le_of_split {patchData : Bytes} {commands : List Command} {budget : Int}
    (hsound : ∀ c ∈ commands, Sound codec src tgt patchData c)
    (hbudget : Afforded codec budget commands) (done rest : List Command)
    (hsplit : commands = done ++ rest) : heldBlocks codec (heldAfter done) ≤ budget := by
  cases rest with
  | nil =>
    rw [append_nil] at hsplit
    exact hsplit ▸ hbudget.held
  | cons c rest =>
    have hc := (heldBlocks_duringCommand (hsound c (by simp [hsplit])) ∅).1
    have := hbudget.within done c rest hsplit
    omega

theorem budgeted_lines (h : Emitted codec src tgt ota) (hsrc : src.totalBlocks < 2 ^ 31 - 1)
    (htgt : tgt.totalBlocks < 2 ^ 31 - 1)
    (hbudget : Afforded codec ota.list.maxStashedBlocks ota.list.commands) (pf : Platform B)
    (hdisk : Stored codec ∅ disk) (createdstash : Bool) :
    Always pf.apply (Budgeted codec ota.list.maxStashedBlocks) disk
      (performLines codec pf disk (initParams ota false createdstash)
        (ota.list.commands.map Command.line)).effects := by
  refine (performs_performLines (T := False)
    (I := fun done _ disk params => Stored codec (heldAfter done) disk ∧ Updating params ∧
      heldBlocks codec (heldAfter done) ≤ ota.list.maxStashedBlocks)
    ?_ ?_ [] _ rfl disk _ ⟨hdisk, ⟨rfl, rfl, rfl⟩, h.max_nonneg⟩).always
  · rintro done c rest disk params hcommands ⟨hstored, hparams, hdone⟩
    rw [nil_append] at hcommands
    have hsound := h.sound c (by simp [hcommands])
    have hkeeps : Keeps codec pf disk _ _ _ := keeps_line hsound hsrc htgt hstored hparams
    have hnext := heldBlocks_le_of_split h.sound hbudget (done ++ [c]) rest
      (by simp [hcommands])
    rw [BlockImageDiff.heldAfter_append_singleton] at hnext ⊢
    have hduring : heldBlocks codec (duringCommand c (heldAfter done)) ≤
        ota.list.maxStashedBlocks := by
      rcases (heldBlocks_duringCommand hsound (heldAfter done)).2 with hle | heq
      · exact hle.trans (hbudget.within done c rest hcommands)
      · rw [heq]
        exact hnext
    refine ⟨hkeeps.always.mono fun _ hstored' => ⟨_, hstored', hduring⟩, nofun, fun hrc => ?_⟩
    exact ⟨hkeeps.stored hrc, hkeeps.updating hrc, hnext⟩
  · rintro done rest disk params ⟨hstored, -, hdone⟩
    exact ⟨_, hstored, hdone⟩

/-- The announced maximum covers the stash directory at every point of an update,
if no transfer with stashes also overwrites blocks that it reads directly. -/
theorem blockImageUpdate_stash_le {plan : List StashedTransfer}
    (hcompute : BlockImageDiff.compute codec 3 src tgt = some ota)
    (hplan : BlockImageDiff.planTransfers src tgt = some plan)
    (hclear : ∀ xf ∈ plan, ReadsClear xf)
    (hsrc : src.totalBlocks < 2 ^ 31 - 1) (htgt : tgt.totalBlocks < 2 ^ 31 - 1)
    (pf : Platform B) {disk : Disk B} (hdisk : disk.Unstashed) :
    Always pf.apply (fun disk => disk.stashedBlocks ≤ ota.list.maxStashedBlocks) disk
      (blockImageUpdate codec pf disk (packageOf ota)).effects := by
  have h := BlockImageDiff.emitted_of_compute hcompute
  have hbudget := BlockImageDiff.withinBudget_of_compute hcompute hplan hclear
  have hstored : Stored codec ∅ disk := stored_of_unstashed hdisk
  have hfresh : Budgeted codec ota.list.maxStashedBlocks disk := ⟨∅, hstored, h.max_nonneg⟩
  have hmkdirs : ∀ held, ∀ e ∈ mkdirs disk, e.Saves codec held := by
    intro held e he
    unfold mkdirs at he
    split_ifs at he
    · rw [mem_singleton.mp he]
      trivial
    · cases he
  have hopened : Always pf.apply (Budgeted codec ota.list.maxStashedBlocks) disk
      (mkdirs disk) := hfresh.always hmkdirs
  suffices hall : Always pf.apply (Budgeted codec ota.list.maxStashedBlocks) disk
      (blockImageUpdate codec pf disk (packageOf ota)).effects from
    hall.mono fun _ => Budgeted.stashedBlocks_le
  unfold blockImageUpdate
  rw [performBlockImageUpdate_emitted h htgt]
  split_ifs
  · exact always_nil.mpr hfresh
  rcases performCommands_cases h pf disk false (ota.list.commands.map Command.line) with
    heq | ⟨heq, -⟩
  · rw [heq]
    refine always_append.mpr ⟨hopened, Budgeted.finishUpdate ?_⟩
    exact budgeted_lines h hsrc htgt hbudget pf (hstored.always pf (hmkdirs ∅)).final _
  · rw [heq]
    exact hopened

end

def pairsPlan (d : Fin 16) : List StashedTransfer :=
  (BlockImageDiff.planTransfers (pairsImage false d) (pairsImage true d)).getD []

theorem blockImageUpdate_stash_le_pairs :
    Always roomyPlatform.apply
      (fun disk => disk.stashedBlocks ≤ (pairsOta 4).list.maxStashedBlocks) (pairsDisk 4 0)
      (blockImageUpdate plainCodec roomyPlatform (pairsDisk 4 0)
        (packageOf (pairsOta 4))).effects := by
  have hplan : BlockImageDiff.planTransfers (pairsImage false 4) (pairsImage true 4) =
      some (pairsPlan 4) := by decide +kernel
  have hclear : ∀ xf ∈ pairsPlan 4, ReadsClear xf := by decide +kernel
  exact blockImageUpdate_stash_le (compute_pairsImage (by decide +kernel)) hplan hclear (by decide)
    (by decide) roomyPlatform nofun

/-! ## A file that grows over its own blocks -/

/-- The list announces two blocks, for the source of `a` alone.  The updater
saves that source while it still holds the stashed first block. -/
theorem blockImageUpdate_exceeds_stash :
    BlockImageDiff.compute plainCodec 3 (shiftImage false) (shiftImage true) = some shiftOta ∧
      shiftOta.list.maxStashedBlocks = 2 ∧
      ∃ k, (Trace.run roomyPlatform.apply { block := (shiftImage false).block, stash := none }
        ((blockImageUpdate plainCodec roomyPlatform
          { block := (shiftImage false).block, stash := none }
          (packageOf shiftOta)).effects.take k)).stashedBlocks = 3 :=
  ⟨BlockImageDiff.compute_shiftImage, by decide +kernel, 4, by decide +kernel⟩

end ShieldTv.Updater.BlockImg
