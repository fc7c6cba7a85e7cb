import ShieldTv.Updater.Proofs.Commands

/-!
# Runs of an emitted transfer list

What the updater does with one command of an emitted list, in one relation, and
the rule that carries an invariant over all lines of a run.
-/

namespace ShieldTv.Releasetools.BlockImageDiff.Command

open Lib.Text Releasetools.RangeLib

/-- The command produces its target from a source. -/
def isTransfer : Command → Bool
  | .move _ _ _ | .diff _ _ _ _ _ _ => true
  | .stash _ _ | .free _ | .new _ | .zero _ | .erase _ => false

/-- The name under which a command saves source blocks: that of a stash, or the
source hash of a transfer that overwrites blocks it reads. -/
def saves : Command → Option Word
  | .stash id _ => some id
  | .move hashes tgt source | .diff _ _ _ hashes tgt source =>
    if source.direct.overlaps tgt then hashes.head? else none
  | .free _ | .new _ | .zero _ | .erase _ => none

def frees : Command → Option Word
  | .free id => some id
  | .stash _ _ | .new _ | .zero _ | .erase _ | .move _ _ _ | .diff _ _ _ _ _ _ => none

/-- The byte counts that the updater computes for a command fit an `int`. -/
def Small : Command → Prop
  | .stash _ src => src.size < 2 ^ 19
  | .new tgt => ∀ range ∈ tgt.ranges, range.2 - range.1 < 2 ^ 19
  | .move _ tgt source | .diff _ _ _ _ tgt source => source.count < 2 ^ 19 ∧ tgt.size < 2 ^ 19
  | .free _ | .zero _ | .erase _ => True

instance : DecidablePred Small
  | .stash _ src => inferInstanceAs (Decidable (src.size < 2 ^ 19))
  | .new tgt => inferInstanceAs (Decidable (∀ range ∈ tgt.ranges, range.2 - range.1 < 2 ^ 19))
  | .move _ tgt source | .diff _ _ _ _ tgt source =>
    inferInstanceAs (Decidable (source.count < 2 ^ 19 ∧ tgt.size < 2 ^ 19))
  | .free _ | .zero _ | .erase _ => isTrue trivial

theorem ne_stash_of_isTransfer {c : Command} (h : c.isTransfer = true) (id : Word) (r : RangeSet) :
    c ≠ .stash id r := by
  rintro rfl
  cases h

end ShieldTv.Releasetools.BlockImageDiff.Command

namespace ShieldTv.Updater.BlockImg

open Lib Trace Lib.Text Releasetools
open Releasetools.BlockImageDiff (Command Source Image Assembles IsTransfer TransferForm
  Sound TransferList Ota Emitted)

variable {B : Type} [Zero B]

/-! ## The disk after one effect -/

section

omit [Zero B]

variable (pf : Platform B) (disk : Disk B)

theorem file?_put (hdir : disk.stash.isSome = true) (id k : Word) (data : List B) :
    (pf.apply disk (.put id data)).file? k =
      if k = id then some (.whole data) else disk.file? k := by
  obtain ⟨dir, hdir⟩ := Option.isSome_iff_exists.mp hdir
  simp only [Platform.apply, Disk.file?, hdir, Option.map_some, Option.bind_some]
  exact OrderedDict.get?_set dir id k _

theorem file?_unlink (id k : Word) :
    (pf.apply disk (.unlink id)).file? k = if k = id then none else disk.file? k := by
  cases hdir : disk.stash with
  | none => simp [Platform.apply, Disk.file?, hdir]
  | some dir =>
    simp only [Platform.apply, Disk.file?, hdir, Option.map_some, Option.bind_some]
    exact OrderedDict.get?_erase dir id k

theorem isSome_put (id : Word) (data : List B) :
    (pf.apply disk (.put id data)).stash.isSome = disk.stash.isSome := by
  simp [Platform.apply]

theorem isSome_unlink (id : Word) :
    (pf.apply disk (.unlink id)).stash.isSome = disk.stash.isSome := by
  simp [Platform.apply]

end

/-! ## One command -/

variable {c : Command} {ota : Ota B} {pf : Platform B} {disk : Disk B} {result : CommandResult B}
  {P : Disk B → Prop} {params : Params B} {source : Source}

section

variable (codec : Codec B) (pf : Platform B) (src tgt : Image B) (disk : Disk B) (params : Params B)

inductive CommandStep : Command → CommandResult B → Prop
  | stash {id : Word} {r : RangeLib.RangeSet} {effects : List (Effect B)} (buffer : List B)
      (hdata : id = codec.sha1 (src.readRangeSet r)) (hstep : StashStep codec disk id r effects) :
      CommandStep (.stash id r) { effects, params := { params with buffer }, rc := .ok () }
  | free (id : Word) :
      CommandStep (.free id)
        { effects := if params.createdstash || params.canwrite then [.unlink id] else []
          params, rc := .ok () }
  | write {c : Command} {contents : Int → B} {effects : List (Effect B)} {rest : List B}
      (buffer : List B) (hwrite : params.canwrite = true) (hstash : ∀ id r, c ≠ .stash id r)
      (hkind : c.isTransfer = false) (hreads : c.reads.toSet = ∅)
      (hnew : params.newData = c.newData tgt ++ rest)
      (hcare : ∀ b ∈ c.target.toSet, b ∈ tgt.careMap.toSet → contents b = tgt.block b)
      (heffects : Writes pf c.target.blocks contents effects) :
      CommandStep c { effects, params := { params with buffer, newData := rest }, rc := .ok () }
  | untested {c : Command} (hwrite : params.canwrite = false) (hstash : ∀ id r, c ≠ .stash id r)
      (hkind : c.isTransfer = false) :
      CommandStep c { effects := [], params, rc := .ok () }
  | transfer {c : Command} {ready : Prop} {srcData : List B} {result : CommandResult B}
      (hkind : c.isTransfer = true)
      (hready : (∀ h ∈ c.refs, ∃ data, disk.file? h = some (.whole data)) →
        (ready ↔ ∀ b ∈ c.reads.toSet, disk.block b = src.block b))
      (hsaves : ∀ id, id ∈ c.saves ↔
        ¬Disjoint c.reads.toSet c.target.toSet ∧ id = codec.sha1 srcData)
      (hnew : c.newData tgt = []) (hcare : c.target.toSet ⊆ tgt.careMap.toSet)
      (hstep : TransferStep pf disk params (∀ b ∈ c.target.toSet, disk.block b = tgt.block b) ready
        (¬Disjoint c.reads.toSet c.target.toSet) (codec.sha1 srcData) srcData
        (if params.canwrite then writesOf c.target.blocks tgt.block else []) result) :
      CommandStep c result

variable {codec pf src tgt disk params}

omit [Zero B] in
theorem overlapping_iff {tgtRanges : RangeLib.RangeSet} (hsource : source.direct.Canonical)
    (htgt : tgtRanges.Canonical) :
    overlapping source tgtRanges = true ↔ ¬Disjoint source.direct.toSet tgtRanges.toSet := by
  unfold overlapping
  rw [rangeOverlaps_iff hsource htgt, Set.not_disjoint_iff]

theorem IsTransfer.command_fields {patchData : Bytes} {srcRanges tgtRanges : RangeLib.RangeSet}
    {parts : List (Word × RangeLib.RangeSet)}
    (h : IsTransfer codec src tgt patchData srcRanges tgtRanges source parts c) :
    c.target = tgtRanges ∧ c.reads = source.direct ∧ c.refs = parts.map Prod.fst ∧
      c.isTransfer = true ∧ c.newData tgt = [] ∧
      (c.Small → source.count < 2 ^ 19 ∧ tgtRanges.size < 2 ^ 19) ∧
      c.saves = if source.direct.overlaps tgtRanges then
        some (codec.sha1 (src.readRangeSet srcRanges)) else none := by
  have hrefs : source.refs.map Prod.fst = parts.map Prod.fst := by
    rw [← List.forall₂_eq_eq_eq, List.forall₂_map_left_iff, List.forall₂_map_right_iff]
    exact h.assembles.refs.imp fun _ _ => And.left
  cases h.form with
  | move hdata => exact ⟨rfl, rfl, hrefs, rfl, rfl, id, by rw [hdata]; rfl⟩
  | diff imgdiff start len hlen hpatch => exact ⟨rfl, rfl, hrefs, rfl, rfl, id, rfl⟩

theorem fits_of_careMap {img : Image B} (htotal : img.totalBlocks < 2 ^ 31 - 1)
    {r : RangeLib.RangeSet} (hr : r.Canonical) (hsub : r.toSet ⊆ img.careMap.toSet) : Fits r := by
  apply fits_of_bounds hr _ img.totalBlocks_nonneg htotal
  intro b hb
  exact img.careMap_bounds b ((RangeLib.RangeSet.mem_blocks _ _).mpr (hsub hb))

theorem stash_step {r : RangeLib.RangeSet} (hr : r.Canonical) (hne : r.toSet.Nonempty)
    (hsub : r.toSet ⊆ src.careMap.toSet) (hsmall : r.size < 2 ^ 19)
    (hsrc : src.totalBlocks < 2 ^ 31 - 1) (hversion : params.version = 3) :
    CommandStep codec pf src tgt disk params (.stash (codec.sha1 (src.readRangeSet r)) r)
      (performLine codec pf disk params
        (Command.stash (codec.sha1 (src.readRangeSet r)) r).line) := by
  have hid : codec.sha1 [] ≠ codec.sha1 (src.readRangeSet r) := fun h =>
    blocks_ne_nil hne (List.map_eq_nil_iff.mp (codec.sha1_injective h).symm)
  rw [RangeLib.RangeSet.size_eq_length_blocks hr] at hsmall
  obtain ⟨effects, buffer, heq, hstep⟩ := performStash_step codec pf disk params hid
    (codec.isToken_sha1 (by decide) _) hr (fits_of_careMap hsrc hr hsub) hne (by omega) hversion
  rw [heq]
  exact .stash buffer rfl hstep

theorem free_step (id : Word) :
    CommandStep codec pf src tgt disk params (.free id)
      (performLine codec pf disk params (Command.free id).line) := by
  have heq : performCommandFree params id =
      { effects := if params.createdstash || params.canwrite then [.unlink id] else []
        params, rc := .ok () } := by
    unfold performCommandFree
    split_ifs <;> rfl
  rw [performLine_line, performCommand, heq]
  exact .free id

/-- A test does nothing with a command that only writes. -/
theorem untested_step (hwrite : params.canwrite = false) {r : RangeLib.RangeSet}
    (hc : c = .new r ∨ c = .zero r ∨ c = .erase r) :
    CommandStep codec pf src tgt disk params c (performLine codec pf disk params c.line) := by
  rw [performLine_line]
  rcases hc with rfl | rfl | rfl
  all_goals
    rw [performCommand, if_neg (by simp [hwrite])]
    exact .untested hwrite (by simp) rfl

theorem transfer_step {srcRanges tgtRanges : RangeLib.RangeSet}
    {parts : List (Word × RangeLib.RangeSet)}
    (h : IsTransfer codec src tgt params.patchData srcRanges tgtRanges source parts c)
    (hsmall : c.Small) (hsrc : src.totalBlocks < 2 ^ 31 - 1)
    (htgt : tgt.totalBlocks < 2 ^ 31 - 1) (hversion : params.version = 3)
    (hfree : params.freestash = none) (hpatch : params.patchData.length < 2 ^ 64)
    (hfiles : ∀ h ∈ c.refs, ∀ data, disk.file? h = some (.whole data) → codec.sha1 data = h) :
    CommandStep codec pf src tgt disk params c (performLine codec pf disk params c.line) := by
  obtain ⟨htarget, hreads, hrefs, hkind, hnodata, hsizes, hsaves⟩ := IsTransfer.command_fields h
  have hdirect := h.assembles.direct_canonical
  have hsize := hsizes hsmall
  rw [h.assembles.count, RangeLib.RangeSet.size_eq_length_blocks h.assembles.src_canonical,
    RangeLib.RangeSet.size_eq_length_blocks h.tgt_canonical] at hsize
  have hfits : TransferFits srcRanges tgtRanges :=
    { src := fits_of_careMap hsrc h.assembles.src_canonical h.src_subset
      tgt := fits_of_careMap htgt h.tgt_canonical h.tgt_subset
      src_size := by omega
      tgt_size := by omega }
  obtain ⟨ready, hready, hstep⟩ := performTransfer_step pf h hfits hversion hfree hpatch
    fun part hpart => hfiles part.1 (hrefs ▸ List.mem_map_of_mem hpart)
  have hdone : (tgtRanges.blocks.map disk.block = tgt.readRangeSet tgtRanges) =
      ∀ b ∈ c.target.toSet, disk.block b = tgt.block b := by
    rw [htarget, Image.readRangeSet, List.map_inj_left]
    simp only [RangeLib.RangeSet.mem_blocks]
  rw [hdone, overlapping_iff hdirect h.tgt_canonical, ← htarget, ← hreads] at hstep
  refine .transfer hkind ?_ ?_ hnodata (htarget ▸ h.tgt_subset) hstep
  · intro hpresent
    rw [hreads]
    exact hready fun part hpart => hpresent part.1 (hrefs ▸ List.mem_map_of_mem hpart)
  · intro id
    have hoverlap : source.direct.overlaps tgtRanges = true ↔
        ¬Disjoint c.reads.toSet c.target.toSet := by
      rw [RangeLib.RangeSet.overlaps_iff hdirect h.tgt_canonical,
        ← Set.not_disjoint_iff_nonempty_inter, htarget, hreads]
    rw [hsaves, ← hoverlap]
    split_ifs with hif <;> simp [hif, eq_comm]

theorem performLine_step (hsound : Sound codec src tgt params.patchData c) (hsmall : c.Small)
    (hsrc : src.totalBlocks < 2 ^ 31 - 1) (htgt : tgt.totalBlocks < 2 ^ 31 - 1)
    (hversion : params.version = 3) (hfree : params.freestash = none)
    (hpatch : params.patchData.length < 2 ^ 64) (hblk : pf.isBlk = true)
    (hfiles : ∀ h ∈ c.refs, ∀ data, disk.file? h = some (.whole data) → codec.sha1 data = h)
    {rest : List B} (hnew : params.canwrite = true → params.newData = c.newData tgt ++ rest) :
    CommandStep codec pf src tgt disk params c (performLine codec pf disk params c.line) := by
  have htest := Bool.eq_false_or_eq_true params.canwrite
  cases hsound with
  | stash hr hne hsub => exact stash_step hr hne hsub hsmall hsrc hversion
  | free data => exact free_step (codec.sha1 data)
  | new hr hne hsub =>
    rcases htest with hwrite | hwrite
    · rw [performNew_ok codec pf disk params hr (fits_of_careMap htgt hr hsub) hwrite hsmall hne
        (hnew hwrite)]
      exact .write params.buffer hwrite (by simp) rfl BlockImageDiff.toSet_empty (hnew hwrite)
        (fun _ _ _ => rfl) (writes_writesOf pf _ _)
    · exact untested_step hwrite (.inl rfl)
  | zero hr hbounds hzero =>
    rcases htest with hwrite | hwrite
    · rw [performZero_ok codec pf disk params hr
        (fits_of_bounds hr hbounds tgt.totalBlocks_nonneg htgt) hwrite]
      exact .write _ hwrite (by simp) rfl BlockImageDiff.toSet_empty rfl
        (fun b hb hcare => (hzero b hb hcare).symm) (writes_writesOf pf _ _)
    · exact untested_step hwrite (.inr (.inl rfl))
  | erase hr hbounds hcare =>
    rcases htest with hwrite | hwrite
    · rw [performErase_ok codec pf disk params hr
        (fits_of_bounds hr hbounds tgt.totalBlocks_nonneg htgt) hwrite hblk]
      refine .write params.buffer hwrite (by simp) rfl BlockImageDiff.toSet_empty rfl ?_
        (writes_discards pf _)
      exact fun b hb hmem => absurd hmem (Set.disjoint_left.mp hcare hb)
    · exact untested_step hwrite (.inr (.inr rfl))
  | transfer h => exact transfer_step h hsmall hsrc htgt hversion hfree hpatch hfiles

end

/-! ## The lines of a list -/

section

variable {codec : Codec B} {src tgt : Image B} {patchData : Bytes}

omit [Zero B] in
theorem newline_notMem_words (source : Source) (h : ∀ ref ∈ source.refs, '\n' ∉ ref.1) :
    ∀ w ∈ source.words, '\n' ∉ w := by
  have hraw : ∀ r : RangeLib.RangeSet, '\n' ∉ r.toStringRaw := fun r =>
    (isToken_raw r '\n' (by decide)).notMem
  intro w hw
  rcases List.mem_cons.mp hw with rfl | hw
  · exact (isToken_decimal _ (by decide)).notMem
  rcases List.mem_append.mp hw with hw | hw
  · split_ifs at hw with hdirect
    · rcases List.mem_cons.mp hw with rfl | hw
      · exact hraw _
      · rw [Option.mem_toList, Option.map_eq_some_iff] at hw
        obtain ⟨locs, -, rfl⟩ := hw
        exact hraw locs
    · rw [List.mem_singleton.mp hw]
      decide
  · obtain ⟨ref, href, rfl⟩ := List.mem_map.mp hw
    exact (isToken_ref (by decide) (by decide) (h ref href)).notMem

theorem isToken_line (hsound : Sound codec src tgt patchData c) : IsToken '\n' c.line := by
  have hraw : ∀ r : RangeLib.RangeSet, '\n' ∉ r.toStringRaw := fun r =>
    (isToken_raw r '\n' (by decide)).notMem
  have hsha : ∀ data, '\n' ∉ codec.sha1 data := fun data =>
    (codec.isToken_sha1 (by decide) data).notMem
  have hwords : ∀ w ∈ c.words, '\n' ∉ w := by
    cases hsound with
    | stash => simp [Command.words, hraw, hsha]
    | free => simp [Command.words, hsha]
    | new | zero | erase => simp [Command.words, hraw]
    | @transfer srcRanges tgtRanges source parts c h =>
      have hsource : ∀ w ∈ source.words, '\n' ∉ w := by
        apply newline_notMem_words
        intro ref href
        obtain ⟨part, hpart, hid, -⟩ :=
          BlockImageDiff.exists_right_of_forall₂ h.assembles.refs href
        rw [hid, h.part_name part hpart]
        exact hsha _
      have hnum : ∀ n : Nat, '\n' ∉ decimal n := fun n => (isToken_decimal n (by decide)).notMem
      cases h.form with
      | move =>
        simp only [Command.words, List.singleton_append, List.forall_mem_cons, hraw, hsha]
        exact ⟨by decide, not_false, not_false, hsource⟩
      | diff imgdiff start len =>
        simp only [Command.words, List.cons_append, List.nil_append, List.forall_mem_cons, hraw,
          hsha, hnum]
        refine ⟨?_, not_false, not_false, not_false, not_false, not_false, hsource⟩
        split_ifs <;> decide
  refine ⟨?_, notMem_join (by decide) _ hwords⟩
  cases c with
  | diff imgdiff =>
    apply join_ne_nil
    split_ifs <;> simp
  | _ => exact join_ne_nil (by simp) _

def packageOf (ota : Ota B) : Package B :=
  { transferList := ota.list.text, newData := ota.newData, patchData := ota.patchData }

def initParams (ota : Ota B) (dryrun createdstash : Bool) : Params B :=
  { version := 3, canwrite := !dryrun, createdstash, isunresumable := false, freestash := none
    buffer := [], newData := ota.newData, patchData := ota.patchData }

theorem performBlockImageUpdate_emitted (h : Emitted codec src tgt ota)
    (htgt : tgt.totalBlocks < 2 ^ 31 - 1) (pf : Platform B) (disk : Disk B) (dryrun : Bool) :
    performBlockImageUpdate codec pf disk (packageOf ota) dryrun =
      if ota.list.total = 0 then { effects := [], rc := .ok () }
      else performCommands codec pf disk (initParams ota dryrun false) ota.list.maxStashedBlocks
        (ota.list.commands.map Command.line) := by
  have hdecimal : ∀ n : Int, IsToken '\n' (decimal n) := fun n => isToken_decimal n (by decide)
  have hwords : words '\n' ota.list.text = ota.list.lines := by
    apply words_lines
    simp only [TransferList.lines, List.forall_mem_cons, List.forall_mem_map]
    exact ⟨hdecimal _, hdecimal _, hdecimal _, hdecimal _, fun c hc => isToken_line (h.sound c hc)⟩
  have htotal := h.total_nonneg
  have hsize : ota.list.total < 2 ^ 31 := by
    have hblocks := length_le_of_sorted (RangeLib.RangeSet.blocks_sorted tgt.careMap_canonical)
      tgt.careMap_bounds
    have hle := h.total_le
    rw [RangeLib.RangeSet.size_eq_length_blocks tgt.careMap_canonical] at hle
    omega
  have hmax := h.max_nonneg
  have hlt := h.max_lt
  unfold performBlockImageUpdate packageOf
  simp only [hwords, TransferList.lines, h.version]
  rw [toInt_strtol_decimal (by decide) (by decide), toInt_strtol_decimal htotal hsize,
    toInt_strtol_decimal hmax (by omega)]
  have hversion : ¬((3 : Nat) : Int) = 1 := by decide
  rw [if_neg (by decide), if_neg (by omega), if_neg hversion]
  rfl

/-! ## The stash directory of a run -/

omit [Zero B] in
/-- The effect of making sure that there is a stash directory. -/
def mkdirs (disk : Disk B) : List (Effect B) := if disk.stash.isNone then [.mkdir] else []

section

omit [Zero B]

variable (pf : Platform B) (disk : Disk B)

theorem block_mkdirs : (run pf.apply disk (mkdirs disk)).block = disk.block := by
  unfold mkdirs
  split_ifs <;> rfl

theorem file?_mkdirs (id : Word) :
    (run pf.apply disk (mkdirs disk)).file? id = disk.file? id := by
  unfold mkdirs
  cases hdir : disk.stash <;>
    simp [Platform.apply, Disk.file?, hdir, OrderedDict.get?, OrderedDict.empty]

theorem isSome_mkdirs : (run pf.apply disk (mkdirs disk)).stash.isSome = true := by
  unfold mkdirs
  cases hdir : disk.stash <;> simp [Platform.apply, hdir]

theorem always_mkdirs (hdisk : P disk) (hmade : P (run pf.apply disk (mkdirs disk))) :
    Always pf.apply P disk (mkdirs disk) := by
  unfold mkdirs at *
  split_ifs at * with hdir
  · exact always_cons.mpr ⟨hdisk, always_nil.mpr hmade⟩
  · exact always_nil.mpr hdisk

theorem createStash_cases {maxblocks : Int} (h₀ : 0 ≤ maxblocks) (h : maxblocks * 4096 < 2 ^ 31) :
    (createStash pf disk maxblocks).1 = mkdirs disk ∧
      ((createStash pf disk maxblocks).2 = .ok disk.stash.isNone ∨
        (createStash pf disk maxblocks).2 = .error .error ∧
          ∃ size, pf.cacheSizeCheck size = false) := by
  unfold createStash mkdirs
  rw [byteCount_of_le h₀ (by omega)]
  cases hdir : disk.stash with
  | none =>
    refine ⟨rfl, ?_⟩
    simp only
    cases hspace : pf.cacheSizeCheck (maxblocks.toNat * 4096) with
    | true => exact Or.inl rfl
    | false => exact Or.inr ⟨rfl, _, hspace⟩
  | some dir =>
    refine ⟨rfl, ?_⟩
    simp only
    split_ifs with hspace
    · simp only [Bool.and_eq_true, Bool.not_eq_true'] at hspace
      exact Or.inr ⟨rfl, _, hspace.2⟩
    · exact Or.inl rfl

/-- Enough space, and a partition that can be erased. -/
structure Platform.Roomy (pf : Platform B) : Prop where
  space : ∀ size, pf.cacheSizeCheck size = true
  isBlk : pf.isBlk = true

theorem always_deleteStash
    (h : ∀ disk' : Disk B, disk'.block = disk.block →
      (∀ id file, disk'.file? id = some file → disk.file? id = some file) → P disk') :
    Always pf.apply P disk (deleteStash disk) := by
  have hunlinks : ∀ (ids : List Word) (disk' : Disk B), disk'.block = disk.block →
      (∀ id file, disk'.file? id = some file → disk.file? id = some file) →
      Always pf.apply P disk' (ids.map Effect.unlink ++ [.rmdir]) := by
    intro ids
    induction ids with
    | nil =>
      intro disk' hblock hfiles
      refine always_cons.mpr ⟨h disk' hblock hfiles, always_nil.mpr ?_⟩
      exact h _ hblock (by simp [Platform.apply, Disk.file?])
    | cons id ids ih =>
      intro disk' hblock hfiles
      refine always_cons.mpr ⟨h disk' hblock hfiles, ih _ hblock ?_⟩
      intro k file hfile
      rw [file?_unlink] at hfile
      split_ifs at hfile
      exact hfiles k file hfile
  unfold deleteStash
  cases disk.stash with
  | none => exact always_nil.mpr (h disk rfl fun _ _ => id)
  | some dir => exact hunlinks dir.keys disk rfl fun _ _ => id

end

omit [Zero B] in
theorem finishUpdate_ok (hrc : result.rc = .ok ()) (hwrite : result.params.canwrite = true)
    (hnew : result.params.newData = []) :
    finishUpdate pf disk result =
      { effects := result.effects ++ deleteStash (run pf.apply disk result.effects)
        rc := .ok () } := by
  unfold finishUpdate
  simp [hrc, hwrite, hnew]

/-- The frame of a run: the directory, the lines, the cleanup. -/
def performWithStash (codec : Codec B) (pf : Platform B) (disk : Disk B) (params : Params B)
    (lines : List (List Char)) : RunResult B :=
  let opened := run pf.apply disk (mkdirs disk)
  let result := finishUpdate pf opened (performLines codec pf opened params lines)
  { result with effects := mkdirs disk ++ result.effects }

theorem performWithStash_eq {lines : List (List Char)} {result : RunResult B}
    (h : finishUpdate pf (run pf.apply disk (mkdirs disk))
      (performLines codec pf (run pf.apply disk (mkdirs disk)) params lines) = result) :
    performWithStash codec pf disk params lines =
      { effects := mkdirs disk ++ result.effects, rc := result.rc } := by
  subst h
  rfl

theorem performCommands_cases (h : Emitted codec src tgt ota) (pf : Platform B) (disk : Disk B)
    (dryrun : Bool) (lines : List (List Char)) :
    performCommands codec pf disk (initParams ota dryrun false) ota.list.maxStashedBlocks lines =
        performWithStash codec pf disk (initParams ota dryrun disk.stash.isNone) lines ∨
      performCommands codec pf disk (initParams ota dryrun false) ota.list.maxStashedBlocks lines =
        { effects := mkdirs disk, rc := .error .error } ∧
          ∃ size, pf.cacheSizeCheck size = false := by
  have hmax := h.max_lt
  obtain ⟨heffects, hrc⟩ := createStash_cases pf disk h.max_nonneg (by omega)
  have hversion : ¬(initParams ota dryrun false).version < 2 := by simp [initParams]
  unfold performCommands
  rw [if_neg hversion, if_neg (not_lt.mpr h.max_nonneg)]
  simp only
  rcases hrc with hrc | ⟨hrc, hspace⟩
  · left
    rw [hrc, heffects]
    rfl
  · right
    rw [hrc, heffects]
    exact ⟨rfl, hspace⟩

theorem performBlockImageUpdate_roomy (h : Emitted codec src tgt ota)
    (htgt : tgt.totalBlocks < 2 ^ 31 - 1) (hpf : pf.Roomy) (disk : Disk B) (dryrun : Bool) :
    performBlockImageUpdate codec pf disk (packageOf ota) dryrun =
      if ota.list.total = 0 then { effects := [], rc := .ok () }
      else performWithStash codec pf disk (initParams ota dryrun disk.stash.isNone)
        (ota.list.commands.map Command.line) := by
  rw [performBlockImageUpdate_emitted h htgt]
  rcases performCommands_cases h pf disk dryrun (ota.list.commands.map Command.line) with
    heq | ⟨-, size, hspace⟩
  · rw [heq]
  · rw [hpf.space] at hspace
    exact Bool.noConfusion hspace

/-! ## Invariants of a run -/

structure Running (tgt : Image B) (ota : Ota B) (canwrite createdstash : Bool)
    (rest : List Command) (params : Params B) : Prop where
  version : params.version = 3
  canwrite : params.canwrite = canwrite
  createdstash : params.createdstash = createdstash
  freestash : params.freestash = none
  patchData : params.patchData = ota.patchData
  newData : params.canwrite = true → params.newData = rest.flatMap (Command.newData tgt)

theorem Running.init (h : Emitted codec src tgt ota) (dryrun createdstash : Bool) :
    Running tgt ota (!dryrun) createdstash ota.list.commands
      (initParams ota dryrun createdstash) where
  version := rfl
  canwrite := rfl
  createdstash := rfl
  freestash := rfl
  patchData := rfl
  newData := fun _ => h.newData.symm

theorem CommandStep.running {canwrite createdstash : Bool} {rest : List Command}
    (hstep : CommandStep codec pf src tgt disk params c result)
    (h : Running tgt ota canwrite createdstash (c :: rest) params) (hrc : result.rc = .ok ()) :
    Running tgt ota canwrite createdstash rest result.params := by
  obtain ⟨hversion, hwrite, hcreated, hfree, hpatch, hnew⟩ := h
  rw [List.flatMap_cons] at hnew
  cases hstep with
  | stash | free => exact ⟨hversion, hwrite, hcreated, hfree, hpatch, hnew⟩
  | write _ _ _ _ _ hdata =>
    refine ⟨hversion, hwrite, hcreated, hfree, hpatch, fun hw => ?_⟩
    exact List.append_cancel_left (hdata.symm.trans (hnew hw))
  | untested hno =>
    refine ⟨hversion, hwrite, hcreated, hfree, hpatch, fun hw => ?_⟩
    rw [hno] at hw
    exact Bool.noConfusion hw
  | transfer _ _ _ hnodata _ hstep =>
    rw [hnodata, List.nil_append] at hnew
    cases hstep with
    | failed => exact nomatch hrc
    | _ => exact ⟨hversion, hwrite, hcreated, hfree, hpatch, hnew⟩

/-- Every state in between satisfies `Q`, and a success, certain if `total`, leads to `I`. -/
structure Performs (pf : Platform B) (Q : Disk B → Prop) (total : Prop)
    (I : Disk B → Params B → Prop) (disk : Disk B) (result : CommandResult B) : Prop where
  always : Always pf.apply Q disk result.effects
  ok : total → result.rc = .ok ()
  leads : result.rc = .ok () → I (run pf.apply disk result.effects) result.params

/-- An invariant `I done rest` of the lines. -/
theorem performs_performLines {pf : Platform B} {commands : List Command} {Q : Disk B → Prop}
    {T : Prop} {I : List Command → List Command → Disk B → Params B → Prop}
    (hstep : ∀ done c rest disk params, commands = done ++ c :: rest →
      I done (c :: rest) disk params →
      Performs pf Q T (I (done ++ [c]) rest) disk (performLine codec pf disk params c.line))
    (hquiet : ∀ done rest disk params, I done rest disk params → Q disk)
    (done rest : List Command) (hsplit : commands = done ++ rest) (disk : Disk B)
    (params : Params B) (h : I done rest disk params) :
    Performs pf Q T (I commands []) disk
      (performLines codec pf disk params (rest.map Command.line)) := by
  induction rest generalizing done disk params with
  | nil =>
    rw [List.append_nil] at hsplit
    exact ⟨always_nil.mpr (hquiet _ _ _ _ h), fun _ => rfl, fun _ => hsplit ▸ h⟩
  | cons c rest ih =>
    have hline := hstep done c rest disk params hsplit h
    rw [List.map_cons, performLines]
    cases hrc : (performLine codec pf disk params c.line).rc with
    | error stop => exact ⟨hline.always, fun h => (nomatch hrc ▸ hline.ok h), nofun⟩
    | ok u =>
      have hrest := ih (done ++ [c]) (by rw [hsplit]; simp) _ _ (hline.leads hrc)
      refine ⟨always_append.mpr ⟨hline.always, hrest.always⟩, hrest.ok, ?_⟩
      rw [Trace.run_append]
      exact hrest.leads

end

end ShieldTv.Updater.BlockImg
