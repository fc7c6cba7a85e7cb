import ShieldTv.Releasetools.Proofs.EmittedList
import ShieldTv.Updater.Proofs.LoadSource
import ShieldTv.Updater.Proofs.Writes

/-!
# The updater on emitted commands

One lemma for each kind of command line that the generator emits: what the
updater does with it, on any partition and any stash directory.
-/

namespace ShieldTv.Updater.BlockImg

open Lib List Lib.Text Releasetools
open Releasetools.BlockImageDiff (Command Source Image Assembles IsTransfer TransferForm
  Sound)

variable {B : Type} (codec : Codec B) (pf : Platform B) (disk : Disk B)
  (params : Params B)

/-! ## Lines -/

section

variable [Zero B]

/-- What the command tables do with an emitted line. -/
def performCommand : Command → CommandResult B
  | .stash id r => performCommandStash codec pf disk params (join ' ' [id, r.toStringRaw])
  | .free id => performCommandFree params id
  | .new r =>
    if params.canwrite then performCommandNew params r.toStringRaw
    else { effects := [], params, rc := .ok () }
  | .zero r =>
    if params.canwrite then performCommandZero pf params r.toStringRaw
    else { effects := [], params, rc := .ok () }
  | .erase r =>
    if params.canwrite then performCommandErase pf params r.toStringRaw
    else { effects := [], params, rc := .ok () }
  | .move hashes tgt source => performCommandMove codec pf disk params
      (join ' ' (hashes ++ tgt.toStringRaw :: source.words))
  | .diff imgdiff start len hashes tgt source => performCommandDiff codec pf disk params imgdiff
      (join ' ' (decimal start :: decimal len :: (hashes ++ tgt.toStringRaw :: source.words)))

theorem performLine_line (c : Command) :
    performLine codec pf disk params c.line = performCommand codec pf disk params c := by
  unfold performLine Command.line
  cases c with
  | diff imgdiff start len hashes tgt source =>
    have hwords : (Command.diff imgdiff start len hashes tgt source).words =
        (if imgdiff then imgdiffName else bsdiffName) ::
          decimal start :: decimal len :: (hashes ++ tgt.toStringRaw :: source.words) := rfl
    rw [hwords]
    cases imgdiff with
    | false | true =>
      rw [strtok_join ⟨by decide, by decide⟩]
      rfl
  | _ =>
    unfold Command.words
    rw [strtok_join ⟨by simp, by simp⟩]
    rfl

end

/-! ## Commands that read no source -/

variable {r : RangeLib.RangeSet} {rest srcData data : List B} {srchash id : Word}
  {done ready overlap : Prop} {tgt : RangeSet} {source : SourceResult B}
  {write : Params B → List (Effect B) × Except Stop Unit} {writes : List (Effect B)}
  {cpos : List Char}

theorem blocks_ne_nil (h : r.toSet.Nonempty) : r.blocks ≠ [] := by
  obtain ⟨b, hb⟩ := h
  exact ne_nil_of_mem ((RangeLib.RangeSet.mem_blocks _ _).mpr hb)

theorem ranges_ne_nil (h : r.toSet.Nonempty) : r.ranges ≠ [] := by
  obtain ⟨b, range, hrange, -⟩ := h
  exact ne_nil_of_mem hrange

theorem byteCount_ofRangeSet (hr : r.Canonical) (hsize : r.blocks.length < 2 ^ 19) :
    byteCount (ofRangeSet r).size = .ok r.blocks.length := by
  rw [show (ofRangeSet r).size = r.size from rfl, RangeLib.RangeSet.size_eq_length_blocks hr,
    byteCount_ok hsize]

section

variable (hr : r.Canonical) (hfits : Fits r) (hwrite : params.canwrite = true)

include hr hfits

theorem nonneg_ranges : ∀ range ∈ r.ranges, 0 ≤ range.1 ∧ range.1 ≤ range.2 :=
  (ascending_ranges hr fun p hp => (hfits.bounds p hp).1).nonneg

variable [Zero B]

include hwrite

theorem performNew_ok (hshort : ShortRanges r.ranges) (hne : r.toSet.Nonempty) {c : Int → B}
    (hdata : params.newData = r.blocks.map c ++ rest) :
    performLine codec pf disk params (Command.new r).line =
      { effects := writesOf r.blocks c, params := { params with newData := rest }
        rc := .ok () } := by
  have hnonneg := nonneg_ranges hr hfits
  rw [performLine_line, performCommand, if_pos hwrite]
  unfold performCommandNew
  rw [strtok_last (isToken_raw r ' ' (by decide))]
  simp only [parseRange_raw hr hfits, hwrite, if_true]
  rw [openSink_ok hnonneg hshort rfl (ranges_ne_nil hne)]
  rw [show (ofRangeSet r).ranges = r.ranges from rfl, (writes_ok hnonneg hshort c hdata).2]
  rfl

theorem performZero_ok : performLine codec pf disk params (Command.zero r).line =
      { effects := writesOf r.blocks fun _ => 0
        params := { params with buffer := 0 :: (allocate pf 1 params.buffer).drop 1 }
        rc := .ok () } := by
  rw [performLine_line, performCommand, if_pos hwrite]
  unfold performCommandZero
  rw [strtok_last (isToken_raw r ' ' (by decide))]
  simp only [parseRange_raw hr hfits, hwrite, if_true]
  rw [show (ofRangeSet r).ranges = r.ranges from rfl, zeroRanges_ok (nonneg_ranges hr hfits)]
  rfl

theorem performErase_ok (hblk : pf.isBlk = true) :
    performLine codec pf disk params (Command.erase r).line =
      { effects := r.blocks.map .discard, params, rc := .ok () } := by
  rw [performLine_line, performCommand, if_pos hwrite]
  unfold performCommandErase
  rw [strtok_last (isToken_raw r ' ' (by decide))]
  simp only [hblk, Bool.not_true, Bool.false_eq_true, if_false, parseRange_raw hr hfits, hwrite,
    if_true]
  rw [show (ofRangeSet r).ranges = r.ranges from rfl, discardRanges_eq]
  rfl

end

/-! ## `stash` -/

/-- The file of a stash that holds what its name says. -/
def Disk.Holds (disk : Disk B) (codec : Codec B) (id : Word) : Prop :=
  ∃ data, disk.file? id = some (.whole data) ∧ codec.sha1 data = id

theorem loadStash_verify (hid : codec.sha1 [] ≠ id) (buffer : List B) :
    (disk.Holds codec id ∧ ∃ blocks rest data, codec.sha1 data = id ∧
        loadStash codec pf disk id true buffer =
          { ok := true, blocks, buffer := data ++ rest, effects := [] }) ∨
      (¬disk.Holds codec id ∧ ∃ blocks buffer' effects,
        (effects = [] ∧ (∀ data, disk.file? id ≠ some (.whole data)) ∨ effects = [.unlink id]) ∧
        loadStash codec pf disk id true buffer =
          { ok := false, blocks, buffer := buffer', effects }) := by
  unfold loadStash
  cases hfile : disk.file? id with
  | none =>
    refine .inr ⟨?_, 0, buffer, [], by simp, rfl⟩
    rintro ⟨data, hdata, -⟩
    rw [hfile] at hdata
    cases hdata
  | some file =>
    cases file with
    | ragged bytes =>
      refine .inr ⟨?_, 0, buffer, [], by simp, rfl⟩
      rintro ⟨data, hdata, -⟩
      rw [hfile] at hdata
      cases hdata
    | whole data =>
      simp only [Bool.true_and]
      generalize (allocate pf data.length buffer).drop data.length = rest
      by_cases hsha : codec.sha1 data = id
      · refine .inl ⟨⟨data, hfile, hsha⟩, data.length, rest, data, hsha, ?_⟩
        have hne : data ≠ [] := fun h => hid (h ▸ hsha)
        rw [if_neg]
        simp [verifyBlocks, hne, hsha]
      · refine .inr ⟨?_, data.length, data ++ rest, [.unlink id], by simp, ?_⟩
        · rintro ⟨data', hdata, hsha'⟩
          rw [hfile] at hdata
          cases hdata
          exact hsha hsha'
        · rw [if_pos]
          simp [verifyBlocks, hsha]

theorem writeStash_ok (id : Word) {n : Nat} (hn : n < 2 ^ 19) (hlen : data.length = n) :
    writeStash id n (data ++ rest) = .ok [.put id data] := by
  unfold writeStash
  rw [byteCount_ok hn]
  simp only [bind, Except.bind]
  rw [loadAt_ok (by rw [length_append]; omega), drop_zero, take_left' hlen]

theorem loadSrcVersion1_ok (hr : r.Canonical) (hfits : Fits r) (hne : r.toSet.Nonempty)
    (hsize : r.blocks.length < 2 ^ 19) (buffer : List B) :
    ∃ rest, loadSrcVersion1 pf disk (join ' ' [r.toStringRaw]) buffer =
      .ok (r.blocks.length, r.blocks.map disk.block ++ rest) := by
  have hlen := length_allocate pf r.blocks.length buffer
  have hpos := length_pos_of_ne_nil (blocks_ne_nil hne)
  have hread := readBlocks_ok disk.block hr hfits hsize (ne_nil_of_length_pos (by omega)) hlen
  refine ⟨(allocate pf r.blocks.length buffer).drop r.blocks.length, ?_⟩
  unfold loadSrcVersion1
  simp only [nextWord_join (isToken_raw r ' ' (by decide)), bind, Except.bind,
    parseRange_raw hr hfits, byteCount_ofRangeSet hr hsize, hread]

/-- What a `stash` command does: nothing if the file is there, and otherwise
it saves the blocks if they still have the contents named by `id`. -/
inductive StashStep (codec : Codec B) (disk : Disk B) (id : Word) (r : RangeLib.RangeSet) :
    List (Effect B) → Prop
  | kept (hholds : disk.Holds codec id) : StashStep codec disk id r []
  | saved {old : List (Effect B)} (hholds : ¬disk.Holds codec id)
      (hold : old = [] ∨ old = [.unlink id]) (hdata : codec.sha1 (r.blocks.map disk.block) = id) :
      StashStep codec disk id r (old ++ [.put id (r.blocks.map disk.block)])
  | missed {old : List (Effect B)} (hholds : ¬disk.Holds codec id)
      (hold : old = [] ∧ (∀ data, disk.file? id ≠ some (.whole data)) ∨ old = [.unlink id])
      (hdata : codec.sha1 (r.blocks.map disk.block) ≠ id) : StashStep codec disk id r old

variable [Zero B] in
theorem performStash_step (hid : codec.sha1 [] ≠ id) (htoken : IsToken ' ' id) (hr : r.Canonical)
    (hfits : Fits r) (hne : r.toSet.Nonempty) (hsize : r.blocks.length < 2 ^ 19)
    (hversion : params.version = 3) :
    ∃ effects buffer, performLine codec pf disk params (Command.stash id r).line =
        { effects, params := { params with buffer }, rc := .ok () } ∧
      StashStep codec disk id r effects := by
  rw [performLine_line, performCommand]
  unfold performCommandStash
  rw [strtok_join htoken]
  simp only [hversion, show decide ((3 : Int) ≤ 3) = true by decide, if_true]
  rcases loadStash_verify codec pf disk hid params.buffer with
    ⟨hholds, blocks, rest, data, -, hload⟩ | ⟨hholds, blocks, buffer, old, hold, hload⟩
  · rw [hload]
    exact ⟨_, _, rfl, .kept hholds⟩
  · obtain ⟨rest, hread⟩ := loadSrcVersion1_ok pf disk hr hfits hne hsize buffer
    have hlen : (r.blocks.map disk.block).length = r.blocks.length := length_map _
    have hnil : r.blocks.map disk.block ++ rest ≠ [] :=
      append_ne_nil_of_left_ne_nil (by simpa using blocks_ne_nil hne) _
    have hverify : verifyBlocks codec id (r.blocks.map disk.block ++ rest) r.blocks.length =
        decide (codec.sha1 (r.blocks.map disk.block) = id) := by
      unfold verifyBlocks
      rw [take_left' hlen]
      simp [hnil]
    rw [hload]
    rw [hread]
    by_cases hdata : codec.sha1 (r.blocks.map disk.block) = id
    · simp only [hverify, hdata, decide_true, Bool.not_true, Bool.and_false, Bool.false_eq_true,
        if_false]
      rw [writeStash_ok id hsize hlen]
      exact ⟨_, _, rfl, .saved hholds (hold.imp_left And.left) hdata⟩
    · simp only [hverify, hdata, decide_false, Bool.not_false, Bool.and_true, if_true]
      exact ⟨_, _, rfl, .missed hholds hold hdata⟩

/-! ## The source of a transfer in version 3 -/

/-- The hashes on a line: a `move` has one, which is that of both sides. -/
def hashWords (onehash : Bool) (srchash tgthash : Word) : List Word :=
  if onehash then [tgthash] else [srchash, tgthash]

section

variable {tgthash : Word} (hsrchash : IsToken ' ' srchash) (htgthash : IsToken ' ' tgthash)
  {onehash : Bool} (hone : onehash = true → srchash = tgthash) {ws : List Word} {buffer : List B}

include hsrchash htgthash hone

theorem loadVersion3Words_eq :
    loadVersion3Words codec pf disk (join ' ' (hashWords onehash srchash tgthash ++ ws)) buffer
      onehash = (do
        let loaded ← loadSrcTgtVersion2 codec pf disk (join ' ' ws) buffer
        let n ← byteCount loaded.tgt.size
        let tgtData ← readBlocks disk.block loaded.tgt (pf.malloc n)
        .ok { srchash, tgthash, loaded, tgtBlocks := n, tgtData }) := by
  unfold loadVersion3Words hashWords
  cases onehash with
  | true =>
    obtain rfl := hone rfl
    rw [if_pos rfl, singleton_append, strtok_join hsrchash]
    rfl
  | false =>
    rw [if_neg (by decide), cons_append, strtok_join hsrchash]
    simp only [Bool.false_eq_true, if_false]
    rw [singleton_append, strtok_join htgthash]

theorem loadVersion3Words_ok {loaded : Loaded B}
    (hload : loadSrcTgtVersion2 codec pf disk (join ' ' ws) buffer = .ok loaded)
    {tgt : RangeLib.RangeSet} (hloaded : loaded.tgt = ofRangeSet tgt) (htgt : tgt.Canonical)
    (hfits : Fits tgt) (hne : tgt.toSet.Nonempty) (hsize : tgt.blocks.length < 2 ^ 19) :
    ∃ rest, loadVersion3Words codec pf disk (join ' ' (hashWords onehash srchash tgthash ++ ws))
        buffer onehash =
      .ok { srchash, tgthash, loaded, tgtBlocks := tgt.blocks.length
            tgtData := tgt.blocks.map disk.block ++ rest } := by
  have hlen : (pf.malloc tgt.blocks.length).length = tgt.blocks.length := pf.malloc_length _
  have hpos := length_pos_of_ne_nil (blocks_ne_nil hne)
  have hread := readBlocks_ok disk.block htgt hfits hsize (ne_nil_of_length_pos (by omega)) hlen.ge
  refine ⟨(pf.malloc tgt.blocks.length).drop tgt.blocks.length, ?_⟩
  rw [loadVersion3Words_eq codec pf disk hsrchash htgthash hone]
  simp only [hload, bind, Except.bind, hloaded, byteCount_ofRangeSet htgt hsize, hread]

end

def overlapping (source : Source) (tgtRanges : RangeLib.RangeSet) : Bool :=
  rangeOverlaps (ofRangeSet source.direct) (ofRangeSet tgtRanges)

/-- Why a source fails to load: no space to save it, or nothing to load it
from. -/
def Unloadable (pf : Platform B) (ready overlap : Prop) (saved : Prop) (blocks : Nat) : Prop :=
  ready ∧ overlap ∧ pf.cacheSizeCheck (blocks * 4096) = false ∨ ¬ready ∧ ¬(overlap ∧ saved)

section

variable (done ready overlap : Prop) (srchash : Word) (srcData : List B)

variable (tgt : RangeSet) in
/-- The five ways to load a source in version 3.  `done` says that the target is
there, `ready` that the parts of the source were assembled. -/
inductive SourceStep : SourceResult B → Prop
  | skipped (buffer : List B) (hdone : done) :
      SourceStep
        { effects := [], params := { params with buffer }, tgt, srcBlocks := srcData.length
          rc := .ok false }
  | ready (rest : List B) (hdone : ¬done) (hready : ready)
      (hfile : overlap → (disk.file? srchash).isSome) :
      SourceStep
        { effects := [], params := { params with buffer := srcData ++ rest }, tgt
          srcBlocks := srcData.length, rc := .ok true }
  | saved (rest : List B) (hdone : ¬done) (hready : ready) (hoverlap : overlap)
      (hfile : disk.file? srchash = none) :
      SourceStep
        { effects := [.put srchash srcData]
          params := { params with buffer := srcData ++ rest, freestash := some srchash }, tgt
          srcBlocks := srcData.length, rc := .ok true }
  | recovered (rest : List B) (hdone : ¬done) (hready : ¬ready) (hoverlap : overlap)
      (hfile : disk.file? srchash = some (.whole srcData)) :
      SourceStep
        { effects := [], params := { params with buffer := srcData ++ rest }, tgt
          srcBlocks := srcData.length, rc := .ok true }
  | failed {effects : List (Effect B)} (params' : Params B) (hdone : ¬done)
      (heffects : effects = [] ∨ effects = [.unlink srchash])
      (hwhy : Unloadable pf ready overlap (disk.file? srchash = some (.whole srcData))
        srcData.length) :
      SourceStep
        { effects, params := params', tgt, srcBlocks := srcData.length, rc := .error .error }

variable (writes : List (Effect B)) in
/-- What a transfer does once its line is read.  `writes` is what it writes
when it is performed. -/
inductive TransferStep : CommandResult B → Prop
  | skipped (buffer : List B) (hdone : done) :
      TransferStep
        { effects := [], params := { params with buffer }, rc := .ok () }
  | moved (buffer : List B) (hdone : ¬done)
      (hsource : ready ∧ (overlap → (disk.file? srchash).isSome) ∨
        ¬ready ∧ overlap ∧ disk.file? srchash = some (.whole srcData)) :
      TransferStep
        { effects := writes, params := { params with buffer }, rc := .ok () }
  | saved (buffer : List B) (hdone : ¬done) (hready : ready) (hoverlap : overlap)
      (hfile : disk.file? srchash = none) :
      TransferStep
        { effects := .put srchash srcData :: (writes ++ [.unlink srchash])
          params := { params with buffer }, rc := .ok () }
  | failed {effects : List (Effect B)} (params' : Params B) (hdone : ¬done)
      (heffects : effects = [] ∨ effects = [.unlink srchash])
      (hwhy : Unloadable pf ready overlap (disk.file? srchash = some (.whole srcData))
        srcData.length) :
      TransferStep
        { effects, params := params', rc := .error .error }

end

theorem verifyBlocks_iff {buffer : List B} (hne : buffer ≠ []) {n : Nat} :
    verifyBlocks codec (codec.sha1 data) buffer n = true ↔ buffer.take n = data := by
  simp [verifyBlocks, hne, codec.sha1_injective.eq_iff]

theorem stashOverlap_step (hsize : srcData.length < 2 ^ 19) (hdone : ¬done) (hready : ready)
    (hoverlap : overlap) (loaded : Loaded B) (hblocks : loaded.srcBlocks = srcData.length)
    (hbuffer : loaded.buffer = srcData ++ rest) :
    SourceStep pf disk params done ready overlap srchash srcData loaded.tgt
      (stashOverlap pf disk { params with buffer := srcData ++ rest } srchash loaded) := by
  unfold stashOverlap
  rw [hblocks, hbuffer, writeStash_ok srchash hsize rfl]
  cases hspace : pf.cacheSizeCheck (srcData.length * 4096) with
  | false =>
    exact .failed _ hdone (.inl rfl) (.inl ⟨hready, hoverlap, hspace⟩)
  | true =>
    cases hfile : disk.file? srchash with
    | some file =>
      exact .ready rest hdone hready fun _ => by simp [hfile]
    | none =>
      exact .saved rest hdone hready hoverlap hfile

theorem loadSrcTgtVersion3_step {onehash : Bool} (hne : srcData ≠ [])
    (hsize : srcData.length < 2 ^ 19) {R : List B} (hR : srcData.length ≤ R.length) {overlap : Bool}
    {tgtBlocks : List B} (htgt : tgtBlocks ≠ []) {tgtData : List B}
    (hwords : loadVersion3Words codec pf disk cpos params.buffer onehash =
      .ok { srchash := codec.sha1 srcData, tgthash := codec.sha1 tgtData
            loaded := { tgt, srcBlocks := srcData.length, buffer := R, overlap }
            tgtBlocks := tgtBlocks.length, tgtData := tgtBlocks ++ rest }) :
    SourceStep pf disk params (tgtBlocks = tgtData) (R.take srcData.length = srcData)
      (overlap = true) (codec.sha1 srcData) srcData tgt
      (loadSrcTgtVersion3 codec pf disk params cpos onehash) := by
  have hdone : verifyBlocks codec (codec.sha1 tgtData) (tgtBlocks ++ rest) tgtBlocks.length = true ↔
      tgtBlocks = tgtData := by
    rw [verifyBlocks_iff codec (by simp [htgt]), take_left]
  have hnil : R ≠ [] := by
    rintro rfl
    exact hne (length_eq_zero_iff.mp (by simpa using hR))
  have hready : verifyBlocks codec (codec.sha1 srcData) R srcData.length = true ↔
      R.take srcData.length = srcData := verifyBlocks_iff codec hnil
  have hid : codec.sha1 [] ≠ codec.sha1 srcData := fun h => hne (codec.sha1_injective h).symm
  unfold loadSrcTgtVersion3
  rw [hwords]
  simp only
  by_cases h₁ : tgtBlocks = tgtData
  · rw [if_pos (hdone.mpr h₁)]
    exact .skipped R h₁
  rw [if_neg (mt hdone.mp h₁)]
  by_cases h₂ : R.take srcData.length = srcData
  · rw [if_pos (hready.mpr h₂)]
    obtain ⟨tail, rfl⟩ : ∃ tail, R = srcData ++ tail :=
      ⟨R.drop srcData.length, by nth_rewrite 1 [← h₂]; simp⟩
    cases overlap with
    | false => exact .ready tail h₁ h₂ (by simp)
    | true =>
      rw [if_pos rfl]
      exact stashOverlap_step pf disk params hsize h₁ h₂ rfl
        { tgt, srcBlocks := srcData.length, buffer := srcData ++ tail, overlap := true } rfl rfl
  · rw [if_neg (mt hready.mp h₂)]
    cases overlap with
    | false => exact .failed _ h₁ (.inl rfl) (.inr ⟨h₂, by simp⟩)
    | true =>
      rcases loadStash_verify codec pf disk hid R with
        ⟨hholds, blocks, tail, data, hdata, hload⟩ | ⟨hholds, blocks, buffer, old, hold, hload⟩
      · obtain rfl := codec.sha1_injective hdata
        obtain ⟨data', hfile, hdata'⟩ := hholds
        obtain rfl := codec.sha1_injective hdata'
        rw [if_pos rfl, hload]
        exact .recovered tail h₁ h₂ rfl hfile
      · rw [if_pos rfl, hload]
        refine .failed _ h₁ (hold.imp_left And.left) (.inr ⟨h₂, ?_⟩)
        rintro ⟨-, hfile⟩
        exact hholds ⟨srcData, hfile, rfl⟩

/-! ## `move`, `bsdiff` and `imgdiff` -/

theorem SourceStep.fields
    (h : SourceStep pf disk params done ready overlap srchash srcData tgt source) :
    source.tgt = tgt ∧ source.srcBlocks = srcData.length := by
  cases h <;> exact ⟨rfl, rfl⟩

theorem finishTransfer_perform (hrc : source.rc = .ok true)
    (hwrite : write source.params = (writes, .ok ())) :
    finishTransfer source write =
      { effects := source.effects ++ (if source.params.canwrite then writes else []) ++
          (freeOwnStash source.params).1
        params := (freeOwnStash source.params).2, rc := .ok () } := by
  unfold finishTransfer
  rw [hrc]
  cases hcan : source.params.canwrite with
  | false => simp
  | true => simp [hwrite]

theorem finishTransfer_step (hfree : params.freestash = none)
    (h : SourceStep pf disk params done ready overlap srchash srcData tgt source)
    (hwrite : ∀ rest freestash,
      write { params with buffer := srcData ++ rest, freestash } = (writes, .ok ())) :
    TransferStep pf disk params done ready overlap srchash srcData
      (if params.canwrite then writes else []) (finishTransfer source write) := by
  have hplain : ∀ rest, freeOwnStash { params with buffer := srcData ++ rest } =
      ([], { params with buffer := srcData ++ rest }) := by
    intro rest
    simp [freeOwnStash, hfree]
  have hown : ∀ rest,
      freeOwnStash { params with buffer := srcData ++ rest, freestash := some srchash } =
        ([.unlink srchash], { params with buffer := srcData ++ rest }) := by
    intro rest
    simp [freeOwnStash, hfree]
  cases h with
  | skipped buffer hdone =>
    have hskip : finishTransfer { effects := [], params := { params with buffer }, tgt
                                  srcBlocks := srcData.length, rc := .ok false } write =
        { effects := [], params := { params with buffer }, rc := .ok () } := by
      simp [finishTransfer, freeOwnStash, hfree]
    rw [hskip]
    exact .skipped buffer hdone
  | ready rest hdone hready hfile =>
    rw [finishTransfer_perform rfl (hwrite rest params.freestash), hplain]
    simp only [nil_append, append_nil]
    exact .moved _ hdone (.inl ⟨hready, hfile⟩)
  | saved rest hdone hready hoverlap hfile =>
    rw [finishTransfer_perform rfl (hwrite rest _), hown]
    exact .saved _ hdone hready hoverlap hfile
  | recovered rest hdone hready hoverlap hfile =>
    rw [finishTransfer_perform rfl (hwrite rest params.freestash), hplain]
    simp only [nil_append, append_nil]
    exact .moved _ hdone (.inr ⟨hready, hoverlap, hfile⟩)
  | failed params' hdone heffects hwhy => exact .failed params' hdone heffects hwhy

section

variable {tgtRanges : RangeLib.RangeSet} {c : Int → B} (hfree : params.freestash = none)
  (hnonneg : ∀ range ∈ tgtRanges.ranges, 0 ≤ range.1 ∧ range.1 ≤ range.2)
  (hshort : ShortRanges tgtRanges.ranges)

include hfree hnonneg hshort in
theorem performMove_step
    (h : SourceStep pf disk params done ready overlap srchash srcData (ofRangeSet tgtRanges)
      (loadSource codec pf disk params cpos true)) (hdata : srcData = tgtRanges.blocks.map c) :
    TransferStep pf disk params done ready overlap srchash srcData
      (if params.canwrite then writesOf tgtRanges.blocks c else [])
      (performCommandMove codec pf disk params cpos) := by
  unfold performCommandMove
  apply finishTransfer_step pf disk params hfree h
  intro rest freestash
  rw [(h.fields pf disk params).1]
  exact (writes_ok hnonneg hshort c (congrArg (· ++ rest) hdata)).1

include hfree hnonneg hshort in
theorem performDiff_step {imgdiff : Bool} {start len : Nat} {ws : List Word}
    (h : SourceStep pf disk params done ready overlap srchash srcData (ofRangeSet tgtRanges)
      (loadSource codec pf disk params (join ' ' ws) false))
    (hne : tgtRanges.ranges ≠ []) (hstart : start < 2 ^ 64) (hlen : len < 2 ^ 64)
    (hpatch : codec.applyPatch imgdiff ((params.patchData.drop start).take len) srcData =
      some (tgtRanges.blocks.map c)) :
    TransferStep pf disk params done ready overlap srchash srcData
      (if params.canwrite then writesOf tgtRanges.blocks c else [])
      (performCommandDiff codec pf disk params imgdiff
        (join ' ' (decimal start :: decimal len :: ws))) := by
  have hdecimal : ∀ n : Nat, IsToken ' ' (decimal n) := fun n =>
    isToken_decimal n (by decide)
  have hranges : (ofRangeSet tgtRanges).ranges = tgtRanges.ranges := rfl
  unfold performCommandDiff
  rw [strtok_join (hdecimal start)]
  simp only
  rw [strtok_join (hdecimal len)]
  simp only [strtoul_decimal hstart, strtoul_decimal hlen]
  apply finishTransfer_step pf disk params hfree h
  intro rest freestash
  obtain ⟨htgt, hblocks⟩ := h.fields pf disk params
  unfold applyDiff
  rw [htgt, hblocks, openSink_ok hnonneg hshort hranges hne, take_left]
  have hsink : rangeSink tgtRanges.ranges (tgtRanges.blocks.map c) =
      (writesOf tgtRanges.blocks c, .ok (some [])) :=
    (writes_ok hnonneg hshort c (append_nil _).symm).2
  simp only [hpatch, hranges, hsink]
  rfl

end

section

variable [Zero B] {codec disk params} {src tgt : Image B} {srcRanges tgtRanges : RangeLib.RangeSet}
  {source : Source} {parts : List (Word × RangeLib.RangeSet)} {command : Command}

/-- The sizes and block numbers of a transfer fit the updater's `int`s. -/
structure TransferFits (srcRanges tgtRanges : RangeLib.RangeSet) : Prop where
  src : Fits srcRanges
  tgt : Fits tgtRanges
  src_size : srcRanges.blocks.length < 2 ^ 19
  tgt_size : tgtRanges.blocks.length < 2 ^ 19

variable (h : IsTransfer codec src tgt params.patchData srcRanges tgtRanges source parts command)
  (hfits : TransferFits srcRanges tgtRanges)

open Classical in
include h hfits in
/-- Loading the source of an emitted transfer.  With all its stashes there, it is
ready exactly when the blocks it reads directly are those of the source image. -/
theorem loadSource_step (hversion : params.version = 3)
    (hfiles : ∀ part ∈ parts, ∀ data, disk.file? part.1 = some (.whole data) →
      codec.sha1 data = part.1) (onehash : Bool)
    (hone : onehash = true → src.readRangeSet srcRanges = tgt.readRangeSet tgtRanges) :
    ∃ ready : Prop, ((∀ part ∈ parts, ∃ data, disk.file? part.1 = some (.whole data)) →
        (ready ↔ ∀ b ∈ source.direct.toSet, disk.block b = src.block b)) ∧
      SourceStep pf disk params (tgtRanges.blocks.map disk.block = tgt.readRangeSet tgtRanges)
        ready (overlapping source tgtRanges = true) (codec.sha1 (src.readRangeSet srcRanges))
        (src.readRangeSet srcRanges) (ofRangeSet tgtRanges)
        (loadSource codec pf disk params
          (join ' ' (hashWords onehash (codec.sha1 (src.readRangeSet srcRanges))
            (codec.sha1 (tgt.readRangeSet tgtRanges)) ++ tgtRanges.toStringRaw :: source.words))
          onehash) := by
  -- what the buffer holds: the partition where it is read, the stashes elsewhere
  let c : Int → B := fun b => if b ∈ source.direct.toSet then disk.block b else src.block b
  have hpart : ∀ part ∈ parts, ∀ data, disk.file? part.1 = some (.whole data) →
      data = part.2.blocks.map c := by
    intro part hmem data hdata
    have hsha := (hfiles part hmem data hdata).trans (h.part_name part hmem)
    rw [codec.sha1_injective hsha]
    apply map_congr_left
    intro b hb
    have hnot := Set.disjoint_left.mp (h.assembles.part_direct part hmem)
      ((RangeLib.RangeSet.mem_blocks _ _).mp hb)
    exact (if_neg hnot).symm
  obtain ⟨R, hload, hR, htake⟩ := loadSrcTgtVersion2_ok h.assembles codec pf disk
    (isToken_raw tgtRanges ' ' (by decide)) (parseRange_raw h.tgt_canonical hfits.tgt)
    hfits.src_size hpart hfits.src params.buffer
  have hlen : (src.readRangeSet srcRanges).length = srcRanges.blocks.length := length_map _
  obtain ⟨rest, hwords⟩ := loadVersion3Words_ok codec pf disk
    (codec.isToken_sha1 (by decide) (src.readRangeSet srcRanges))
    (codec.isToken_sha1 (by decide) (tgt.readRangeSet tgtRanges))
    (fun h => congrArg codec.sha1 (hone h)) hload rfl h.tgt_canonical hfits.tgt h.tgt_nonempty
    hfits.tgt_size
  refine ⟨R.take (src.readRangeSet srcRanges).length = src.readRangeSet srcRanges, ?_, ?_⟩
  · intro hpresent
    rw [hlen, htake hpresent fun b hb => (if_pos hb).symm]
    unfold Image.readRangeSet
    rw [map_inj_left]
    constructor
    · intro heq b hb
      have := heq b ((RangeLib.RangeSet.mem_blocks _ _).mpr (h.assembles.direct_subset hb))
      rwa [show c b = disk.block b from if_pos hb] at this
    · intro heq b _
      by_cases hb : b ∈ source.direct.toSet
      · exact (if_pos hb).trans (heq b hb)
      · exact if_neg hb
  · unfold loadSource
    rw [hversion, if_neg (by decide), if_neg (by decide)]
    rw [← hlen] at hwords hR
    have htgtlen : tgtRanges.blocks.length = (tgtRanges.blocks.map disk.block).length := by simp
    rw [htgtlen] at hwords
    refine loadSrcTgtVersion3_step codec pf disk params ?_ (hlen.symm ▸ hfits.src_size) hR ?_ hwords
    · simpa [Image.readRangeSet] using blocks_ne_nil h.src_nonempty
    · simpa using blocks_ne_nil h.tgt_nonempty

include h hfits in
theorem performTransfer_step (hversion : params.version = 3) (hfree : params.freestash = none)
    (hpatch : params.patchData.length < 2 ^ 64)
    (hfiles : ∀ part ∈ parts, ∀ data, disk.file? part.1 = some (.whole data) →
      codec.sha1 data = part.1) :
    ∃ ready : Prop, ((∀ part ∈ parts, ∃ data, disk.file? part.1 = some (.whole data)) →
        (ready ↔ ∀ b ∈ source.direct.toSet, disk.block b = src.block b)) ∧
      TransferStep pf disk params (tgtRanges.blocks.map disk.block = tgt.readRangeSet tgtRanges)
        ready (overlapping source tgtRanges = true) (codec.sha1 (src.readRangeSet srcRanges))
        (src.readRangeSet srcRanges)
        (if params.canwrite then writesOf tgtRanges.blocks tgt.block else [])
        (performLine codec pf disk params command.line) := by
  have hnonneg := nonneg_ranges h.tgt_canonical hfits.tgt
  have hshort := shortRanges_of_length
    (ascending_ranges h.tgt_canonical fun p hp => (hfits.tgt.bounds p hp).1) hfits.tgt_size
  cases h.form with
  | move hdata =>
    obtain ⟨ready, hready, hstep⟩ := loadSource_step pf h hfits hversion hfiles true fun _ => hdata
    refine ⟨ready, hready, ?_⟩
    rw [performLine_line, performCommand]
    exact performMove_step codec pf disk params hfree hnonneg hshort hstep hdata
  | diff imgdiff start len hlen hpatched =>
    obtain ⟨ready, hready, hstep⟩ := loadSource_step pf h hfits hversion hfiles false (by simp)
    refine ⟨ready, hready, ?_⟩
    rw [performLine_line, performCommand]
    have happly := codec.applyPatch_computePatch imgdiff (src.readRangeSet srcRanges)
      (tgt.readRangeSet tgtRanges)
    rw [← hpatched] at happly
    exact performDiff_step codec pf disk params hfree hnonneg hshort hstep
      (ranges_ne_nil h.tgt_nonempty) (by omega) (by omega) happly

end

end ShieldTv.Updater.BlockImg
