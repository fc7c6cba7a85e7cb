import ShieldTv.Codec
import ShieldTv.Releasetools.BlockImageDiff

/-!
# `blockimgdiff`: patches and the transfer list

`ComputePatches` decides how each target is produced and collects the new data
and the patches; `WriteTransfers` walks over the ordered transfers and emits the
commands of a version 2 or 3 transfer list, keeping track of the stashes.
-/

namespace ShieldTv.Releasetools.BlockImageDiff

open Lib Lib.Text Releasetools.RangeLib

/-! ## The text of a transfer list -/

/-- `src_str`: the number of source blocks, the ranges to read directly with
their places in the source when there are stashes too, and for each stash its
name and its place. -/
structure Source where
  count : Int
  direct : RangeSet
  locs : Option RangeSet
  refs : List (Word × RangeSet)
deriving DecidableEq, Repr

def Source.words (source : Source) : List Word :=
  decimal source.count ::
    ((if source.direct.nonzero then
        source.direct.toStringRaw :: (source.locs.map RangeSet.toStringRaw).toList
      else [['-']]) ++
    source.refs.map fun ref => ref.1 ++ ':' :: ref.2.toStringRaw)

/-- A command line.  `hashes` is empty in version 2; in version 3 it is one
hash for a `move` and the source and target hashes for a diff. -/
inductive Command
  | stash (id : Word) (src : RangeSet)
  | free (id : Word)
  | new (tgt : RangeSet)
  | zero (tgt : RangeSet)
  | erase (tgt : RangeSet)
  | move (hashes : List Word) (tgt : RangeSet) (source : Source)
  | diff (imgdiff : Bool) (patchStart patchLen : Nat) (hashes : List Word) (tgt : RangeSet)
      (source : Source)
deriving DecidableEq, Repr

def Command.words : Command → List Word
  | .stash id src => [['s', 't', 'a', 's', 'h'], id, src.toStringRaw]
  | .free id => [['f', 'r', 'e', 'e'], id]
  | .new tgt => [['n', 'e', 'w'], tgt.toStringRaw]
  | .zero tgt => [['z', 'e', 'r', 'o'], tgt.toStringRaw]
  | .erase tgt => [['e', 'r', 'a', 's', 'e'], tgt.toStringRaw]
  | .move hashes tgt source =>
    ['m', 'o', 'v', 'e'] :: (hashes ++ tgt.toStringRaw :: source.words)
  | .diff imgdiff patchStart patchLen hashes tgt source =>
    (if imgdiff then ['i', 'm', 'g', 'd', 'i', 'f', 'f'] else ['b', 's', 'd', 'i', 'f', 'f']) ::
      decimal patchStart :: decimal patchLen :: (hashes ++ tgt.toStringRaw :: source.words)

def Command.line (command : Command) : List Char := join ' ' command.words

structure TransferList where
  version : Nat
  total : Int
  nextStashId : Nat
  maxStashedBlocks : Int
  commands : List Command
deriving DecidableEq, Repr

def TransferList.lines (list : TransferList) : List (List Char) :=
  decimal list.version :: decimal list.total :: decimal list.nextStashId ::
    decimal list.maxStashedBlocks :: list.commands.map Command.line

def TransferList.text (list : TransferList) : List Char :=
  list.lines.flatMap fun line => line ++ ['\n']

/-! ## `ComputePatches` -/

structure PatchedTransfer extends StashedTransfer where
  patchStart : Nat
  patchLen : Nat
deriving DecidableEq, Repr

/-- The files that `ComputePatches` writes next to the transfer list. -/
structure Patches (B : Type) where
  transfers : List PatchedTransfer
  newData : List B
  patchData : Bytes

/-- `tgt_name.split(".")[-1].lower() in ("apk", "jar", "zip")`. -/
def isZipName (name : Name) : Bool :=
  let extension := ((name.reverse.takeWhile (· ≠ '.')).reverse).map Char.toLower
  decide (extension ∈ [['a', 'p', 'k'], ['j', 'a', 'r'], ['z', 'i', 'p']])

variable {B : Type} [Zero B]

/-- The loop over the transfers; patches are numbered and stored in this order,
whichever thread computes them. -/
def computePatches (codec : Codec B) (src tgt : Image B) :
    Nat → List StashedTransfer → Option (Patches B)
  | _, [] => some { transfers := [], newData := [], patchData := [] }
  | p, xf :: xfs =>
    let unpatched := fun style (data : List B) => do
      let rest ← computePatches codec src tgt p xfs
      some { rest with
        transfers :=
          { toStashedTransfer := { xf with style }, patchStart := 0, patchLen := 0 } ::
            rest.transfers
        newData := data ++ rest.newData }
    match xf.style with
    | .zero => unpatched .zero []
    | .new => unpatched .new (tgt.readRangeSet xf.tgtRanges)
    | .diff =>
      let srcData := src.readRangeSet xf.srcRanges
      let tgtData := tgt.readRangeSet xf.tgtRanges
      if codec.sha1 srcData = codec.sha1 tgtData then unpatched .move []
      else do
        let imgdiff := xf.intact && isZipName xf.tgtName
        let patch := codec.computePatch imgdiff srcData tgtData
        let rest ← computePatches codec src tgt (p + patch.length) xfs
        some
          { transfers :=
              { toStashedTransfer :=
                  { xf with style := if imgdiff then .imgdiff else .bsdiff }
                patchStart := p
                patchLen := patch.length } :: rest.transfers
            newData := rest.newData
            patchData := patch ++ rest.patchData }
    | _ => none

/-! ## `WriteTransfers` -/

/-- The variables of the loop.  `sids` and `counts` are the two kinds of keys
of the dictionary `stashes`: stash numbers and, in version 3, hashes. -/
structure WriterState where
  out : List Command
  total : Int
  sids : OrderedDict Nat Nat
  counts : OrderedDict Word Nat
  stashedBlocks : Int
  maxStashedBlocks : Int
  freeStashIds : List Nat
  nextStashId : Nat

def WriterState.init : WriterState :=
  { out := [], total := 0, sids := OrderedDict.empty, counts := OrderedDict.empty
    stashedBlocks := 0, maxStashedBlocks := 0, freeStashIds := [], nextStashId := 0 }

def leastId (least : Nat) : List Nat → Nat
  | [] => least
  | sid :: sids => leastId (min least sid) sids

/-- The slot of a new stash: the least free one, or the next. -/
def takeStashId (st : WriterState) : Nat × WriterState :=
  match st.freeStashIds with
  | [] => (st.nextStashId, { st with nextStashId := st.nextStashId + 1 })
  | sid :: sids =>
    let least := leastId sid sids
    (least, { st with freeStashIds := (sid :: sids).erase least })

def stashOne (codec : Codec B) (version : Nat) (src : Image B) (st : WriterState)
    (stash : Nat × RangeSet) : Option WriterState :=
  if st.sids.contains stash.1 then none
  else
    let (sid, st) := takeStashId st
    let st :=
      { st with
        sids := st.sids.set stash.1 sid
        stashedBlocks := st.stashedBlocks + stash.2.size }
    if version = 2 then some { st with out := st.out ++ [.stash (decimal sid) stash.2] }
    else
      let sh := codec.sha1 (src.readRangeSet stash.2)
      match st.counts.get? sh with
      | some n => some { st with counts := st.counts.set sh (n + 1) }
      | none =>
        some { st with counts := st.counts.set sh 1, out := st.out ++ [.stash sh stash.2] }

/-- The variables of the loop over `xf.use_stash`. -/
structure SourceState where
  writer : WriterState
  unstashed : RangeSet
  mapped : List RangeSet
  refs : List (Word × RangeSet)
  frees : List Command

def useOne (codec : Codec B) (version : Nat) (src : Image B) (srcRanges : RangeSet)
    (st : SourceState) (stash : Nat × RangeSet) : Option SourceState := do
  let sid ← st.writer.sids.get? stash.1
  let sh := codec.sha1 (src.readRangeSet stash.2)
  let mapped ← srcRanges.mapWithin stash.2
  let writer :=
    { st.writer with
      sids := st.writer.sids.erase stash.1
      stashedBlocks := st.writer.stashedBlocks - stash.2.size
      freeStashIds := st.writer.freeStashIds ++ [sid] }
  let st :=
    { st with
      unstashed := st.unstashed.subtract stash.2
      mapped := st.mapped ++ [mapped] }
  if version = 2 then some { st with writer, refs := st.refs ++ [(decimal sid, mapped)] }
  else
    let n ← writer.counts.get? sh
    let refs := st.refs ++ [(sh, mapped)]
    if n = 1 then
      some { st with
        refs
        writer := { writer with counts := writer.counts.erase sh }
        frees := st.frees ++ [.free sh] }
    else some { st with refs, writer := { writer with counts := writer.counts.set sh (n - 1) } }

/-- `src_str` once all stashes are known; the asserted partitions are part of
it. -/
def buildSource (xf : StashedTransfer) (st : SourceState) : Option Source :=
  let count := xf.srcRanges.size
  let whole := RangeSet.ofData [0, count]
  let source := fun locs => { count, direct := st.unstashed, locs, refs := st.refs : Source }
  if st.unstashed.nonzero then
    if xf.useStash.isEmpty then some (source none)
    else do
      let locs ← xf.srcRanges.mapWithin st.unstashed
      if assertPartition whole (st.mapped ++ [locs]) then some (source (some locs)) else none
  else if assertPartition whole st.mapped then some (source none)
  else none

/-- The automatic stash of overlapping blocks, in version 3. -/
def countOverlap (version : Nat) (xf : PatchedTransfer) (st : WriterState) : WriterState :=
  if 3 ≤ version ∧ xf.srcRanges.overlaps xf.tgtRanges = true then
    { st with
      maxStashedBlocks := max st.maxStashedBlocks (st.stashedBlocks + xf.srcRanges.size) }
  else st

def writeCommand (codec : Codec B) (version : Nat) (src tgt : Image B) (xf : PatchedTransfer)
    (source : Source) (st : WriterState) : Option WriterState :=
  let emit := fun (st : WriterState) command size =>
    some { st with out := st.out ++ [command], total := st.total + size : WriterState }
  let srcHash := codec.sha1 (src.readRangeSet xf.srcRanges)
  let tgtHash := codec.sha1 (tgt.readRangeSet xf.tgtRanges)
  if !xf.tgtRanges.nonzero then none
  else
    match xf.style with
    | .new => emit st (.new xf.tgtRanges) xf.tgtRanges.size
    | .move =>
      if xf.srcRanges.size ≠ xf.tgtRanges.size then none
      else if xf.srcRanges.eq xf.tgtRanges then some st
      else
        let hashes := if version = 2 then [] else [tgtHash]
        emit (countOverlap version xf st) (.move hashes xf.tgtRanges source) xf.tgtRanges.size
    | .bsdiff | .imgdiff =>
      if !xf.srcRanges.nonzero then none
      else
        let hashes := if version = 2 then [] else [srcHash, tgtHash]
        emit (countOverlap version xf st)
          (.diff (decide (xf.style = .imgdiff)) xf.patchStart xf.patchLen hashes xf.tgtRanges
            source)
          xf.tgtRanges.size
    | .zero =>
      let toZero := xf.tgtRanges.subtract xf.srcRanges
      if toZero.nonzero then emit st (.zero toZero) toZero.size else some st
    | .diff => none

def writeTransfer (codec : Codec B) (version : Nat) (src tgt : Image B) (st : WriterState)
    (xf : PatchedTransfer) : Option WriterState := do
  let st ← xf.stashBefore.foldlM (stashOne codec version src) st
  let st := { st with maxStashedBlocks := max st.maxStashedBlocks st.stashedBlocks }
  let used ← xf.useStash.foldlM (useOne codec version src xf.srcRanges)
    { writer := st, unstashed := xf.srcRanges, mapped := [], refs := [], frees := [] }
  let source ← buildSource xf.toStashedTransfer used
  let st ← writeCommand codec version src tgt xf source used.writer
  let st := { st with out := st.out ++ used.frees }
  -- abort if we are going to need more than 512 MB of stash space
  if st.maxStashedBlocks * 4096 < 512 * 2 ^ 20 then some st else none

/-- The lines after the last transfer: zero the extended blocks, erase what
neither holds data nor is touched by dm-verity. -/
def finalCommands (tgt : Image B) : List Command :=
  let dontcare :=
    ((RangeSet.ofData [0, tgt.totalBlocks]).subtract tgt.extended).subtract tgt.careMap
  (if tgt.extended.nonzero then [.zero tgt.extended] else []) ++
    (if dontcare.nonzero then [.erase dontcare] else [])

def writeTransfers (codec : Codec B) (version : Nat) (src tgt : Image B)
    (xfs : List PatchedTransfer) : Option TransferList := do
  let st ← xfs.foldlM (writeTransfer codec version src tgt) WriterState.init
  some
    { version
      total := st.total
      nextStashId := st.nextStashId
      maxStashedBlocks := st.maxStashedBlocks
      commands := st.out ++ finalCommands tgt }

/-! ## `Compute` -/

structure Ota (B : Type) where
  list : TransferList
  newData : List B
  patchData : Bytes

/-- `BlockImageDiff(tgt, src, version=version).Compute(prefix)`, for version 2
and up. -/
def compute (codec : Codec B) (version : Nat) (src tgt : Image B) : Option (Ota B) :=
  if assertPartition src.careMap (src.fileMap.map Prod.snd) &&
      assertPartition tgt.careMap (tgt.fileMap.map Prod.snd) then do
    let plan ← planTransfers src tgt
    if assertSequenceGood tgt plan then do
      let patches ← computePatches codec src tgt 0 plan
      let list ← writeTransfers codec version src tgt patches.transfers
      some { list, newData := patches.newData, patchData := patches.patchData }
    else none
  else none

end ShieldTv.Releasetools.BlockImageDiff
