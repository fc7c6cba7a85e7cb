import ShieldTv.Codec
import ShieldTv.Lib.OrderedDict
import ShieldTv.Lib.Trace
import ShieldTv.Releasetools.RangeLib
import ShieldTv.Updater.ByteCounts

/-!
# `updater/blockimg.c`

The device side of a block OTA: `block_image_verify` and `block_image_update`
run a transfer list against a partition.  Memory and partition are counted in
blocks of 4096 bytes; byte counts appear where the code computes them in an
`int`.  What a run leaves behind is the list of effects it performed on the
partition and on the stash directory, so that a run can be stopped after any of
them.  A stash file appears under its name by a rename, that is at once.
-/

namespace ShieldTv.Updater.BlockImg

open Lib Lib.Text
open Releasetools.RangeLib (RangeSet.pairs RangeSet.sizeLoop)

/-! ## The partition and the stash directory -/

/-- A stash file; `ragged` is one whose size is no multiple of the block size. -/
inductive StashFile (B : Type)
  | whole (blocks : List B)
  | ragged (bytes : Nat)
deriving DecidableEq, Repr

def StashFile.bytes {B : Type} : StashFile B → Nat
  | .whole blocks => blocks.length * 4096
  | .ragged bytes => bytes

structure Disk (B : Type) where
  block : Int → B
  stash : Option (OrderedDict Word (StashFile B))

/-- `stat` of a stash file. -/
def Disk.file? {B : Type} (disk : Disk B) (id : Word) : Option (StashFile B) :=
  disk.stash.bind fun dir => dir.get? id

inductive Effect (B : Type)
  | write (b : Int) (data : B)
  | discard (b : Int)
  | mkdir
  | rmdir
  | put (id : Word) (blocks : List B)
  | unlink (id : Word)
deriving DecidableEq, Repr

/-- The system the updater runs on: the contents of fresh memory and of
discarded blocks, the answers of `CacheSizeCheck` (`true` for enough space),
and whether the partition is a block device. -/
structure Platform (B : Type) where
  malloc : Nat → List B
  discarded : Int → B
  cacheSizeCheck : Int → Bool
  isBlk : Bool
  malloc_length : ∀ n, (malloc n).length = n

variable {B : Type}

def Platform.apply (pf : Platform B) (disk : Disk B) : Effect B → Disk B
  | .write b data => { disk with block := Function.update disk.block b data }
  | .discard b => { disk with block := Function.update disk.block b (pf.discarded b) }
  | .mkdir => { disk with stash := some OrderedDict.empty }
  | .rmdir => { disk with stash := none }
  | .put id blocks =>
    { disk with stash := disk.stash.map fun dir => dir.set id (.whole blocks) }
  | .unlink id => { disk with stash := disk.stash.map fun dir => dir.erase id }

/-- Why a command ends early: it returns -1, or the process exits, crashes or
waits for ever. -/
inductive Stop
  | error
  | dead
deriving DecidableEq, Repr

/-! ## Range sets -/

/-- `n * BLOCKSIZE` in an `int`, as a number of blocks.  The product overflows
from `2 ^ 19` blocks on, and a negative one is no size. -/
def byteCount (n : Int) : Except Stop Nat :=
  if 0 ≤ n ∧ ByteCounts.intBytes n = n * 4096 then .ok n.toNat else .error .dead

structure RangeSet where
  pos : List Int
  size : Int
deriving DecidableEq, Repr

def RangeSet.ranges (r : RangeSet) : List (Int × Int) := RangeSet.pairs r.pos

/-- The loop of `parse_range`: `num` more positions. -/
def parsePositions : Nat → List Char → Except Stop (List Int)
  | 0, _ => .ok []
  | num + 1, text =>
    match strtok ',' text with
    | none => .error .dead
    | some (word, rest) => do
      let pos ← parsePositions num rest
      .ok (toInt (strtol word) :: pos)

def parseRange (text : List Char) : Except Stop RangeSet :=
  match strtok ',' text with
  | none => .error .dead
  | some (word, rest) => do
    let pos ← parsePositions (toInt (strtol word)).toNat rest
    .ok { pos, size := toInt (RangeSet.sizeLoop false 0 pos) }

def rangeOverlaps (r1 r2 : RangeSet) : Bool :=
  r1.ranges.any fun a => r2.ranges.any fun b => !(decide (a.2 ≤ b.1) || decide (b.2 ≤ a.1))

/-! ## Buffers -/

def allocate (pf : Platform B) (size : Nat) (buffer : List B) : List B :=
  if size ≤ buffer.length then buffer else pf.malloc size

def loadAt (buffer : List B) (start n : Nat) : Except Stop (List B) :=
  if start + n ≤ buffer.length then .ok ((buffer.drop start).take n) else .error .dead

def storeAt (buffer : List B) (start : Nat) (data : List B) : Except Stop (List B) :=
  if start + data.length ≤ buffer.length then
    .ok (buffer.take start ++ data ++ buffer.drop (start + data.length))
  else .error .dead

def readRange (block : Int → B) (s : Int) (n : Nat) : List B :=
  (List.range n).map fun i : Nat => block (s + (i : Int))

/-- The loop of `ReadBlocks`; a negative offset fails in `lseek64`. -/
def readRanges (block : Int → B) : List (Int × Int) → Except Stop (List B)
  | [] => .ok []
  | (s, e) :: ranges =>
    if s < 0 then .error .error
    else do
      let n ← byteCount (e - s)
      let data ← readRanges block ranges
      .ok (readRange block s n ++ data)

/-- `ReadBlocks` into a buffer, where no buffer is a `NULL` one. -/
def readBlocks (block : Int → B) (src : RangeSet) (buffer : List B) : Except Stop (List B) :=
  if buffer.isEmpty then .error .error
  else do
    let data ← readRanges block src.ranges
    storeAt buffer 0 data

/-- `VerifyBlocks`: the first blocks of a buffer have the expected digest. -/
def verifyBlocks (codec : Codec B) (expected : Word) (buffer : List B) (blocks : Nat) : Bool :=
  !buffer.isEmpty && decide (codec.sha1 (buffer.take blocks) = expected)

/-- The loop of `MoveRange`, from the last range to the first; without a
`source` the data is moved inside `dest`. -/
def moveRanges (source : Option (List B)) :
    Int → List (Int × Int) → List B → Except Stop (List B)
  | _, [], dest => .ok dest
  | start, (s, e) :: ranges, dest => do
    let blocks ← byteCount (e - s)
    let start := start - (e - s)
    let offset ← byteCount start
    let piece ← loadAt (source.getD dest) offset blocks
    let position ← byteCount s
    moveRanges source start ranges (← storeAt dest position piece)

def moveRange (dest : List B) (locs : RangeSet) (source : Option (List B)) :
    Except Stop (List B) :=
  moveRanges source locs.size locs.ranges.reverse dest

/-! ## Stash files -/

structure StashLoad (B : Type) where
  ok : Bool
  blocks : Nat
  buffer : List B
  effects : List (Effect B)

def loadStash (codec : Codec B) (pf : Platform B) (disk : Disk B) (id : Word)
    (verify : Bool) (buffer : List B) : StashLoad B :=
  match disk.file? id with
  | some (.whole data) =>
    let buffer := data ++ (allocate pf data.length buffer).drop data.length
    if verify && !verifyBlocks codec id buffer data.length then
      { ok := false, blocks := data.length, buffer, effects := [.unlink id] }
    else { ok := true, blocks := data.length, buffer, effects := [] }
  | _ => { ok := false, blocks := 0, buffer, effects := [] }

/-- `WriteStash` after its space check: the data goes to a `.partial` file that
is then renamed. -/
def writeStash (id : Word) (blocks : Nat) (buffer : List B) : Except Stop (List (Effect B)) := do
  let n ← byteCount blocks
  let data ← loadAt buffer 0 n
  .ok [.put id data]

/-! ## Loading the source of a command -/

/-- The next word of the line; the callers use it without a check. -/
def nextWord (cpos : List Char) : Except Stop (Word × List Char) :=
  match strtok ' ' cpos with
  | none => .error .dead
  | some next => .ok next

structure Loaded (B : Type) where
  tgt : RangeSet
  srcBlocks : Nat
  buffer : List B
  overlap : Bool

/-- `LoadSrcTgtVersion1` without a target, as `SaveStash` calls it: the number
of blocks and the buffer that holds them. -/
def loadSrcVersion1 (pf : Platform B) (disk : Disk B) (cpos : List Char) (buffer : List B) :
    Except Stop (Nat × List B) := do
  let (word, _) ← nextWord cpos
  let src ← parseRange word
  let n ← byteCount src.size
  let buffer ← readBlocks disk.block src (allocate pf n buffer)
  .ok (n, buffer)

def loadSrcTgtVersion1 (pf : Platform B) (disk : Disk B) (cpos : List Char) (buffer : List B) :
    Except Stop (Loaded B) := do
  let (word, cpos) ← nextWord cpos
  let src ← parseRange word
  let (word, _) ← nextWord cpos
  let tgt ← parseRange word
  let n ← byteCount src.size
  let buffer ← readBlocks disk.block src (allocate pf n buffer)
  .ok { tgt, srcBlocks := n, buffer, overlap := false }

/-- The loop over the stash references.  A stash that cannot be loaded leaves
its part of the buffer as it is; the caller decides if that is fatal. -/
def loadStashes (codec : Codec B) (pf : Platform B) (disk : Disk B) :
    List Word → (stash buffer : List B) → Except Stop (List B)
  | [], _, buffer => .ok buffer
  | word :: refs, stash, buffer =>
    match strtok ':' word with
    | none => loadStashes codec pf disk refs stash buffer
    | some (id, rest) =>
      let loaded := loadStash codec pf disk id false stash
      if loaded.ok then
        match strtok ':' rest with
        | none => .error .dead
        | some (text, _) => do
          let locs ← parseRange text
          let buffer ← moveRange buffer locs (some loaded.buffer)
          loadStashes codec pf disk refs loaded.buffer buffer
      else loadStashes codec pf disk refs loaded.buffer buffer

def loadSrcTgtVersion2 (codec : Codec B) (pf : Platform B) (disk : Disk B) (cpos : List Char)
    (buffer : List B) : Except Stop (Loaded B) := do
  let (word, cpos) ← nextWord cpos
  let tgt ← parseRange word
  let (word, cpos) ← nextWord cpos
  let n ← byteCount (toInt (strtol word))
  let buffer := allocate pf n buffer
  let (word, cpos) ← nextWord cpos
  if word = ['-'] then
    -- no source ranges, only stashes
    let buffer ← loadStashes codec pf disk (words ' ' cpos) [] buffer
    .ok { tgt, srcBlocks := n, buffer, overlap := false }
  else
    let src ← parseRange word
    let buffer ← readBlocks disk.block src buffer
    let overlap := rangeOverlaps src tgt
    match strtok ' ' cpos with
    | none => .ok { tgt, srcBlocks := n, buffer, overlap }
    | some (word, cpos) =>
      let locs ← parseRange word
      let buffer ← moveRange buffer locs none
      let buffer ← loadStashes codec pf disk (words ' ' cpos) [] buffer
      .ok { tgt, srcBlocks := n, buffer, overlap }

/-! ## Commands -/

/-- The fields of `CommandParameters` that outlive a command, with the part of
the new data that was not written yet. -/
structure Params (B : Type) where
  version : Int
  canwrite : Bool
  createdstash : Bool
  isunresumable : Bool
  freestash : Option Word
  buffer : List B
  newData : List B
  patchData : Bytes

structure CommandResult (B : Type) where
  effects : List (Effect B)
  params : Params B
  rc : Except Stop Unit

/-- A loaded source: `rc` is `ok true` when the command is to be performed and
`ok false` when its target is already there. -/
structure SourceResult (B : Type) where
  effects : List (Effect B)
  params : Params B
  tgt : RangeSet
  srcBlocks : Nat
  rc : Except Stop Bool

/-- What `LoadSrcTgtVersion3` reads before it decides. -/
structure Version3Words (B : Type) where
  srchash : Word
  tgthash : Word
  loaded : Loaded B
  tgtBlocks : Nat
  tgtData : List B

def loadVersion3Words (codec : Codec B) (pf : Platform B) (disk : Disk B) (cpos : List Char)
    (buffer : List B) (onehash : Bool) : Except Stop (Version3Words B) :=
  match strtok ' ' cpos with
  | none => .error .error
  | some (srchash, rest) =>
    match (if onehash then some (srchash, rest) else strtok ' ' rest) with
    | none => .error .error
    | some (tgthash, rest) => do
      let loaded ← loadSrcTgtVersion2 codec pf disk rest buffer
      let n ← byteCount loaded.tgt.size
      let tgtData ← readBlocks disk.block loaded.tgt (pf.malloc n)
      .ok { srchash, tgthash, loaded, tgtBlocks := n, tgtData }

/-- Stash the source of a command that overwrites part of it.  A file of that
name is taken to have the right contents; a new one is freed after the
command. -/
def stashOverlap (pf : Platform B) (disk : Disk B) (params : Params B) (srchash : Word)
    (loaded : Loaded B) : SourceResult B :=
  let result := fun effects params rc =>
    { effects, params, tgt := loaded.tgt, srcBlocks := loaded.srcBlocks, rc : SourceResult B }
  if !pf.cacheSizeCheck (loaded.srcBlocks * 4096) then result [] params (.error .error)
  else if (disk.file? srchash).isSome then result [] params (.ok true)
  else
    match writeStash srchash loaded.srcBlocks loaded.buffer with
    | .error stop => result [] params (.error stop)
    | .ok effects => result effects { params with freestash := some srchash } (.ok true)

def loadSrcTgtVersion3 (codec : Codec B) (pf : Platform B) (disk : Disk B) (params : Params B)
    (cpos : List Char) (onehash : Bool) : SourceResult B :=
  match loadVersion3Words codec pf disk cpos params.buffer onehash with
  | .error stop =>
    { effects := [], params, tgt := ⟨[], 0⟩, srcBlocks := 0, rc := .error stop }
  | .ok { srchash, tgthash, loaded, tgtBlocks, tgtData } =>
    let params := { params with buffer := loaded.buffer }
    let result := fun effects params rc =>
      { effects, params, tgt := loaded.tgt, srcBlocks := loaded.srcBlocks, rc : SourceResult B }
    if verifyBlocks codec tgthash tgtData tgtBlocks then
      -- the target blocks already have the expected content
      result [] params (.ok false)
    else if verifyBlocks codec srchash loaded.buffer loaded.srcBlocks then
      if loaded.overlap then stashOverlap pf disk params srchash loaded
      else result [] params (.ok true)
    else if loaded.overlap then
      let stash := loadStash codec pf disk srchash true params.buffer
      if stash.ok then result stash.effects { params with buffer := stash.buffer } (.ok true)
      else result stash.effects { params with isunresumable := true } (.error .error)
    else result [] { params with isunresumable := true } (.error .error)

/-- The source of a `move`, `bsdiff` or `imgdiff`, by version. -/
def loadSource (codec : Codec B) (pf : Platform B) (disk : Disk B) (params : Params B)
    (cpos : List Char) (onehash : Bool) : SourceResult B :=
  let ofLoaded := fun (r : Except Stop (Loaded B)) =>
    match r with
    | .error stop =>
      { effects := [], params, tgt := ⟨[], 0⟩, srcBlocks := 0, rc := .error stop : SourceResult B }
    | .ok loaded =>
      { effects := [], params := { params with buffer := loaded.buffer }, tgt := loaded.tgt,
        srcBlocks := loaded.srcBlocks, rc := .ok true }
  if params.version = 1 then ofLoaded (loadSrcTgtVersion1 pf disk cpos params.buffer)
  else if params.version = 2 then ofLoaded (loadSrcTgtVersion2 codec pf disk cpos params.buffer)
  else loadSrcTgtVersion3 codec pf disk params cpos onehash

def writeRange (s : Int) : List B → List (Effect B)
  | [] => []
  | d :: data => .write s d :: writeRange (s + 1) data

def writeBlocks : List (Int × Int) → List B → List (Effect B) × Except Stop Unit
  | [], _ => ([], .ok ())
  | (s, e) :: ranges, data =>
    if s < 0 then ([], .error .error)
    else
      match (do loadAt data 0 (← byteCount (e - s))) with
      | .error stop => ([], .error stop)
      | .ok piece =>
        let rest := writeBlocks ranges (data.drop piece.length)
        (writeRange s piece ++ rest.1, rest.2)

/-- `RangeSinkWrite` over the whole output of a patch or the rest of the new
data.  The result is what is left over once all ranges are filled, or `none`
when the sink stops before. -/
def rangeSink : List (Int × Int) → List B → List (Effect B) × Except Stop (Option (List B))
  | [], data => ([], .ok (some data))
  | (s, e) :: ranges, data =>
    match byteCount (e - s) with
    | .error stop => ([], .error stop)
    | .ok n =>
      if s < 0 then ([], .ok none)
      else if data.length < n then (writeRange s data, .ok none)
      else
        let rest := rangeSink ranges (data.drop n)
        (writeRange s (data.take n) ++ rest.1, rest.2)

/-- The sink at its first range: a seek that fails there fails the command. -/
def openSink (tgt : RangeSet) : Except Stop Unit :=
  match tgt.ranges with
  | [] => .error .dead
  | (s, e) :: _ => do
    let _ ← byteCount (e - s)
    if s < 0 then .error .error else .ok ()

/-- `FreeStash` for a stash that the command itself created. -/
def freeOwnStash (params : Params B) : List (Effect B) × Params B :=
  match params.freestash with
  | none => ([], params)
  | some id => ([.unlink id], { params with freestash := none })

/-- The end of a `move` or a diff: `write` is what it does with the loaded
source when it has to be performed. -/
def finishTransfer (source : SourceResult B)
    (write : Params B → List (Effect B) × Except Stop Unit) : CommandResult B :=
  match source.rc with
  | .error stop => { effects := source.effects, params := source.params, rc := .error stop }
  | .ok perform =>
    let written :=
      if source.params.canwrite && perform then write source.params else ([], .ok ())
    match written.2 with
    | .error stop =>
      { effects := source.effects ++ written.1, params := source.params, rc := .error stop }
    | .ok () =>
      let freed := freeOwnStash source.params
      { effects := source.effects ++ written.1 ++ freed.1, params := freed.2, rc := .ok () }

def performCommandMove (codec : Codec B) (pf : Platform B) (disk : Disk B) (params : Params B)
    (cpos : List Char) : CommandResult B :=
  let source := loadSource codec pf disk params cpos true
  finishTransfer source fun params => writeBlocks source.tgt.ranges params.buffer

/-- The patcher's result is not checked: whatever it produced was written. -/
def applyDiff (codec : Codec B) (imgdiff : Bool) (offset len : Nat) (source : SourceResult B)
    (params : Params B) : List (Effect B) × Except Stop Unit :=
  let patch := (params.patchData.drop offset).take len
  match openSink source.tgt with
  | .error stop => ([], .error stop)
  | .ok () =>
    match codec.applyPatch imgdiff patch (params.buffer.take source.srcBlocks) with
    | none => ([], .ok ())
    | some output =>
      let sunk := rangeSink source.tgt.ranges output
      (sunk.1, sunk.2.map fun _ => ())

def performCommandDiff (codec : Codec B) (pf : Platform B) (disk : Disk B) (params : Params B)
    (imgdiff : Bool) (cpos : List Char) : CommandResult B :=
  match strtok ' ' cpos with
  | none => { effects := [], params, rc := .error .error }
  | some (offset, cpos) =>
    match strtok ' ' cpos with
    | none => { effects := [], params, rc := .error .error }
    | some (len, cpos) =>
      let source := loadSource codec pf disk params cpos false
      finishTransfer source
        (applyDiff codec imgdiff (strtoul offset) (strtoul len) source)

def performCommandStash (codec : Codec B) (pf : Platform B) (disk : Disk B) (params : Params B)
    (cpos : List Char) : CommandResult B :=
  match strtok ' ' cpos with
  | none => { effects := [], params, rc := .error .error }
  | some (id, cpos) =>
    let usehash := decide (3 ≤ params.version)
    let old : StashLoad B :=
      if usehash then loadStash codec pf disk id true params.buffer
      else { ok := false, blocks := 0, buffer := params.buffer, effects := [] }
    if old.ok then
      -- the file is there; its source may be overwritten by now
      { effects := old.effects, params := { params with buffer := old.buffer }, rc := .ok () }
    else
      match loadSrcVersion1 pf disk cpos old.buffer with
      | .error stop => { effects := old.effects, params, rc := .error stop }
      | .ok (blocks, buffer) =>
        let params := { params with buffer }
        if usehash && !verifyBlocks codec id buffer blocks then
          -- the command that uses this data may have completed before
          { effects := old.effects, params, rc := .ok () }
        else
          match writeStash id blocks buffer with
          | .error stop => { effects := old.effects, params, rc := .error stop }
          | .ok effects => { effects := old.effects ++ effects, params, rc := .ok () }

/-- The rest of the line is the name of the stash. -/
def performCommandFree (params : Params B) (cpos : List Char) : CommandResult B :=
  if params.createdstash || params.canwrite then
    { effects := [.unlink cpos], params, rc := .ok () }
  else { effects := [], params, rc := .ok () }

/-- One write per block; a failed seek ends the loop. -/
def zeroRanges (zero : B) : List (Int × Int) → List (Effect B) × Except Stop Unit
  | [] => ([], .ok ())
  | (s, e) :: ranges =>
    if s < 0 then ([], .error .error)
    else
      let rest := zeroRanges zero ranges
      (writeRange s (List.replicate (e - s).toNat zero) ++ rest.1, rest.2)

def performCommandZero [Zero B] (pf : Platform B) (params : Params B) (cpos : List Char) :
    CommandResult B :=
  match strtok ' ' cpos with
  | none => { effects := [], params, rc := .error .error }
  | some (word, _) =>
    match parseRange word with
    | .error stop => { effects := [], params, rc := .error stop }
    | .ok tgt =>
      let params := { params with buffer := 0 :: (allocate pf 1 params.buffer).drop 1 }
      if params.canwrite then
        let zeroed := zeroRanges 0 tgt.ranges
        { effects := zeroed.1, params, rc := zeroed.2 }
      else { effects := [], params, rc := .ok () }

/-- The main thread waits until its ranges are filled. -/
def performCommandNew (params : Params B) (cpos : List Char) : CommandResult B :=
  match strtok ' ' cpos with
  | none => { effects := [], params, rc := .error .error }
  | some (word, _) =>
    match parseRange word with
    | .error stop => { effects := [], params, rc := .error stop }
    | .ok tgt =>
      if params.canwrite then
        match openSink tgt with
        | .error stop => { effects := [], params, rc := .error stop }
        | .ok () =>
          let sunk := rangeSink tgt.ranges params.newData
          match sunk.2 with
          | .error stop => { effects := sunk.1, params, rc := .error stop }
          | .ok none => { effects := sunk.1, params, rc := .error .dead }
          | .ok (some newData) =>
            { effects := sunk.1, params := { params with newData }, rc := .ok () }
      else { effects := [], params, rc := .ok () }

def discardRange (s e : Int) : List (Effect B) :=
  (List.range (e - s).toNat).map fun i : Nat => .discard (s + (i : Int))

/-- The message says that the erase is skipped on anything but a block device;
the return value says that it failed. -/
def performCommandErase (pf : Platform B) (params : Params B) (cpos : List Char) :
    CommandResult B :=
  if !pf.isBlk then { effects := [], params, rc := .error .error }
  else
    match strtok ' ' cpos with
    | none => { effects := [], params, rc := .error .error }
    | some (word, _) =>
      match parseRange word with
      | .error stop => { effects := [], params, rc := .error stop }
      | .ok tgt =>
        let effects :=
          if params.canwrite then tgt.ranges.flatMap fun range => discardRange range.1 range.2
          else []
        { effects, params, rc := .ok () }

/-! ## The transfer list -/

def bsdiffName : Word := ['b', 's', 'd', 'i', 'f', 'f']
def eraseName : Word := ['e', 'r', 'a', 's', 'e']
def freeName : Word := ['f', 'r', 'e', 'e']
def imgdiffName : Word := ['i', 'm', 'g', 'd', 'i', 'f', 'f']
def moveName : Word := ['m', 'o', 'v', 'e']
def newName : Word := ['n', 'e', 'w']
def stashName : Word := ['s', 't', 'a', 's', 'h']
def zeroName : Word := ['z', 'e', 'r', 'o']

/-- The command tables of `BlockImageUpdateFn` and, where commands that are not
tested are skipped, `BlockImageVerifyFn`. -/
def performLine [Zero B] (codec : Codec B) (pf : Platform B) (disk : Disk B)
    (params : Params B) (line : List Char) : CommandResult B :=
  let skipped : CommandResult B := { effects := [], params, rc := .ok () }
  match strtok ' ' line with
  | none => { effects := [], params, rc := .error .error }
  | some (cmdname, cpos) =>
    if cmdname = bsdiffName then performCommandDiff codec pf disk params false cpos
    else if cmdname = eraseName then
      if params.canwrite then performCommandErase pf params cpos else skipped
    else if cmdname = freeName then performCommandFree params cpos
    else if cmdname = imgdiffName then performCommandDiff codec pf disk params true cpos
    else if cmdname = moveName then performCommandMove codec pf disk params cpos
    else if cmdname = newName then
      if params.canwrite then performCommandNew params cpos else skipped
    else if cmdname = stashName then performCommandStash codec pf disk params cpos
    else if cmdname = zeroName then
      if params.canwrite then performCommandZero pf params cpos else skipped
    else { effects := [], params, rc := .error .error }

def performLines [Zero B] (codec : Codec B) (pf : Platform B) :
    Disk B → Params B → List (List Char) → CommandResult B
  | _, params, [] => { effects := [], params, rc := .ok () }
  | disk, params, line :: lines =>
    let first := performLine codec pf disk params line
    match first.rc with
    | .error stop => { first with rc := .error stop }
    | .ok () =>
      let rest := performLines codec pf (Trace.run pf.apply disk first.effects) first.params lines
      { rest with effects := first.effects ++ rest.effects }

def deleteStash (disk : Disk B) : List (Effect B) :=
  match disk.stash with
  | none => []
  | some dir => dir.keys.map Effect.unlink ++ [.rmdir]

def createStash (pf : Platform B) (disk : Disk B) (maxblocks : Int) :
    List (Effect B) × Except Stop Bool :=
  match byteCount maxblocks with
  | .error stop => ([], .error stop)
  | .ok n =>
    match disk.stash with
    | none =>
      ([.mkdir], if pf.cacheSizeCheck (n * 4096) then .ok true else .error .error)
    | some dir =>
      let size : Int := n * 4096 - ((dir.values.map StashFile.bytes).sum : Nat)
      ([], if 0 < size && !pf.cacheSizeCheck size then .error .error else .ok false)

structure RunResult (B : Type) where
  effects : List (Effect B)
  rc : Except Stop Unit

/-- The end of `PerformBlockImageUpdate`: the stash is deleted after a finished
update, when the update cannot be resumed, and after a verification that
created it.  Joining the thread waits for all of the new data. -/
def finishUpdate (pf : Platform B) (disk : Disk B) (result : CommandResult B) : RunResult B :=
  let after := Trace.run pf.apply disk result.effects
  match result.rc with
  | .error .dead => { effects := result.effects, rc := .error .dead }
  | .error .error =>
    let cleanup :=
      result.params.isunresumable || (!result.params.canwrite && result.params.createdstash)
    { effects := result.effects ++ (if cleanup then deleteStash after else [])
      rc := .error .error }
  | .ok () =>
    if result.params.canwrite then
      if result.params.newData.isEmpty then
        { effects := result.effects ++ deleteStash after, rc := .ok () }
      else { effects := result.effects, rc := .error .dead }
    else
      { effects :=
          result.effects ++ (if result.params.createdstash then deleteStash after else [])
        rc := .ok () }

structure Package (B : Type) where
  transferList : List Char
  newData : List B
  patchData : Bytes

def performCommands [Zero B] (codec : Codec B) (pf : Platform B) (disk : Disk B)
    (params : Params B) (stashMaxBlocks : Int) (lines : List (List Char)) : RunResult B :=
  if params.version < 2 then finishUpdate pf disk (performLines codec pf disk params lines)
  else if stashMaxBlocks < 0 then { effects := [], rc := .error .error }
  else
    let created := createStash pf disk stashMaxBlocks
    match created.2 with
    | .error stop => { effects := created.1, rc := .error stop }
    | .ok createdstash =>
      let disk := Trace.run pf.apply disk created.1
      let result := finishUpdate pf disk
        (performLines codec pf disk { params with createdstash } lines)
      { result with effects := created.1 ++ result.effects }

def performBlockImageUpdate [Zero B] (codec : Codec B) (pf : Platform B) (disk : Disk B)
    (package : Package B) (dryrun : Bool) : RunResult B :=
  match words '\n' package.transferList with
  | versionLine :: totalLine :: lines =>
    let version := toInt (strtol versionLine)
    let total := toInt (strtol totalLine)
    let params : Params B :=
      { version, canwrite := !dryrun, createdstash := false, isunresumable := false
        freestash := none, buffer := [], newData := package.newData
        patchData := package.patchData }
    if version < 1 ∨ 3 < version then { effects := [], rc := .error .error }
    else if total < 0 then { effects := [], rc := .error .error }
    else if total = 0 then { effects := [], rc := .ok () }
    else if version = 1 then performCommands codec pf disk params 0 lines
    else
      match lines with
      | _ :: maxLine :: lines =>
        performCommands codec pf disk params (toInt (strtol maxLine)) lines
      | _ => { effects := [], rc := .error .dead }
  | _ => { effects := [], rc := .error .dead }

def blockImageVerify [Zero B] (codec : Codec B) (pf : Platform B) (disk : Disk B)
    (package : Package B) : RunResult B :=
  performBlockImageUpdate codec pf disk package true

def blockImageUpdate [Zero B] (codec : Codec B) (pf : Platform B) (disk : Disk B)
    (package : Package B) : RunResult B :=
  performBlockImageUpdate codec pf disk package false

end ShieldTv.Updater.BlockImg
