import ShieldTv.Libsparse.Output
import ShieldTv.Libsparse.Read

/-!
# Chunks

A sparse stream is its header followed by chunks.  This module says which chunks
the writer emits for a sparse file, and what it counts and sums up on the way.
-/

namespace ShieldTv.Libsparse

open Lib.Bytes List OutputFile

/-! ## Sparse files -/

/-- Blocks that were queued: in order, apart and inside the length. -/
structure Queued (s : SparseFile) : Prop where
  len_dvd : s.blockSize ∣ s.len
  sorted : s.dataBlocks.Pairwise fun a b =>
    a.block < b.block ∧ a.block + a.blocks s.blockSize ≤ b.block
  inside : ∀ bb ∈ s.dataBlocks, bb.block * s.blockSize + bb.len ≤ s.len

/-- A part of a file that can be mapped. -/
def Mappable (contents : Bytes) (offset len : Nat) : Prop :=
  (0 < len + offset % 4096 ∧ len + offset % 4096 < 2 ^ 31) ∧ offset + len ≤ contents.length

/-- What a block refers to is there, and is not too long for one write. -/
def BackedBlock.Backed (files : Files) (bb : BackedBlock) : Prop :=
  match bb.backing with
  | .data bytes => bb.len ≤ maxWrite ∧ bb.len ≤ bytes.length
  | .file filename offset => bb.len ≤ maxWrite ∧ Mappable (files.byName filename) offset bb.len
  | .fd fd offset => bb.len ≤ maxWrite ∧ Mappable (files.byFd fd) offset bb.len
  | .fill _ => True

def SparseFile.Backed (files : Files) (s : SparseFile) : Prop :=
  ∀ bb ∈ s.dataBlocks, bb.Backed files

/-- The sizes fit the format and the writer's `int`s. -/
structure Fits (s : SparseFile) : Prop where
  blockSize_pos : 0 < s.blockSize
  blockSize_le : s.blockSize ≤ maxWrite
  words : 4 ∣ s.blockSize
  total_lt : s.len / s.blockSize < 2 ^ 31
  count_lt : s.dataBlocks.length < 2 ^ 30
  blocks_lt : ∀ bb ∈ s.dataBlocks, bb.blocks s.blockSize * s.blockSize < 2 ^ 31

/-! ## Sizes -/

theorem lt_of_le_maxWrite {n : Nat} (h : n ≤ maxWrite) : n < 2 ^ 31 := h.trans_lt (by decide)

theorem Fits.blockSize_lt {s : SparseFile} (h : Fits s) : s.blockSize < 2 ^ 31 :=
  lt_of_le_maxWrite h.blockSize_le

theorem subUInt_eq {x y : Nat} (hle : y ≤ x) (hlt : x < 2 ^ 32) : subUInt x y = x - y := by
  unfold subUInt
  omega

section

variable {blockSize len : Nat} (hpos : 0 < blockSize)

include hpos

theorem le_roundUp (len : Nat) : len ≤ (len + blockSize - 1) / blockSize * blockSize := by
  have hdiv := Nat.div_add_mod (len + blockSize - 1) blockSize
  have hmod := Nat.mod_lt (len + blockSize - 1) hpos
  rw [mul_comm] at hdiv
  omega

theorem roundUp_lt (len : Nat) :
    (len + blockSize - 1) / blockSize * blockSize < len + blockSize := by
  have hle := Nat.div_mul_le_self (len + blockSize - 1) blockSize
  omega

theorem roundUp_of_dvd (hdvd : blockSize ∣ len) :
    (len + blockSize - 1) / blockSize = len / blockSize := by
  rw [Nat.add_sub_assoc hpos, Nat.add_div_of_dvd_right hdvd,
    Nat.div_eq_of_lt (Nat.sub_lt hpos Nat.one_pos), add_zero]

variable (hlt : blockSize < 2 ^ 31) (hlen : (len + blockSize - 1) / blockSize * blockSize < 2 ^ 31)

include hlt hlen

theorem divRoundUp_eq : divRoundUp len blockSize = (len + blockSize - 1) / blockSize := by
  have hle := le_roundUp hpos len
  unfold divRoundUp
  rw [Nat.mod_eq_of_lt (by omega)]

theorem align_eq : align len blockSize = (len + blockSize - 1) / blockSize * blockSize := by
  unfold align
  rw [divRoundUp_eq hpos hlt hlen, mul_comm, Nat.mod_eq_of_lt (by omega)]

end

theorem length_bytesAt (contents : Bytes) (offset len : Nat) :
    (bytesAt contents offset len).length = len := by
  rw [bytesAt, length_map, length_range]

theorem length_fillBytes (val : UInt32) (len : Nat) : (fillBytes val len).length = len := by
  rw [fillBytes, length_map, length_range]

theorem BackedBlock.length_bytes (files : Files) (bb : BackedBlock) :
    (bb.bytes files).length = bb.len := by
  unfold BackedBlock.bytes
  cases bb.backing with
  | data | file | fd => exact length_bytesAt _ _ _
  | fill => exact length_fillBytes _ _

variable {blockSize len blocks last : Nat} {out : OutputFile} {s : SparseFile}

theorem BackedBlock.length_padded (files : Files) (hpos : 0 < blockSize) (bb : BackedBlock) :
    (bb.padded files blockSize).length = bb.blocks blockSize * blockSize := by
  have hle := le_roundUp hpos bb.len
  unfold BackedBlock.padded
  rw [length_append, length_replicate, bb.length_bytes]
  unfold BackedBlock.blocks
  omega

/-! ## The chunks of a file -/

inductive Chunk
  | raw (bytes : Bytes)
  | fill (val : UInt32) (blocks : Nat)
  | skip (blocks : Nat)
  | crc32 (val : UInt32)
deriving DecidableEq, Repr

def Chunk.header (blockSize : Nat) : Chunk → ChunkHeader
  | .raw bytes =>
    { chunkType := chunkTypeRaw, reserved1 := 0, chunkSz := bytes.length / blockSize
      totalSz := chunkHeaderLen + bytes.length }
  | .fill _ blocks =>
    { chunkType := chunkTypeFill, reserved1 := 0, chunkSz := blocks
      totalSz := chunkHeaderLen + 4 }
  | .skip blocks =>
    { chunkType := chunkTypeDontCare, reserved1 := 0, chunkSz := blocks
      totalSz := chunkHeaderLen }
  | .crc32 _ =>
    { chunkType := chunkTypeCrc32, reserved1 := 0, chunkSz := 0, totalSz := chunkHeaderLen + 4 }

def Chunk.body : Chunk → Bytes
  | .raw bytes => bytes
  | .fill val _ | .crc32 val => leBytes 4 val.toNat
  | .skip _ => []

def Chunk.encode (blockSize : Nat) (c : Chunk) : Bytes := (c.header blockSize).bytes ++ c.body

/-- The bytes of a chunk that the writer's checksum covers. -/
def Chunk.summed (blockSize : Nat) : Chunk → Bytes
  | .raw bytes => bytes
  | .fill val _ => (List.replicate (blockSize / 4) (leBytes 4 val.toNat)).flatten
  | .skip _ | .crc32 _ => []

def BackedBlock.chunk (files : Files) (blockSize : Nat) (bb : BackedBlock) : Chunk :=
  match bb.backing with
  | .fill val => .fill val (bb.blocks blockSize)
  | .data _ | .file _ _ | .fd _ _ => .raw (bb.padded files blockSize)

def gapChunk (gap : Nat) : List Chunk := if 0 < gap then [.skip gap] else []

theorem length_gapChunk (gap : Nat) : (gapChunk gap).length = if 0 < gap then 1 else 0 := by
  unfold gapChunk
  split_ifs <;> rfl

def chunksFrom (files : Files) (blockSize total : Nat) : Nat → List BackedBlock → List Chunk
  | last, [] => gapChunk (total - last)
  | last, bb :: rest =>
    gapChunk (bb.block - last) ++
      bb.chunk files blockSize ::
        chunksFrom files blockSize total (bb.block + bb.blocks blockSize) rest

def SparseFile.chunks (files : Files) (s : SparseFile) : List Chunk :=
  chunksFrom files s.blockSize (s.len / s.blockSize) 0 s.dataBlocks

/-! ## Writing chunks -/

def OutputFile.AtEnd (out : OutputFile) : Prop := out.pos = out.contents.length

def OutputFile.append (out : OutputFile) (bytes : Bytes) : OutputFile :=
  { out with contents := out.contents ++ bytes, pos := out.pos + bytes.length }

section

variable (out : OutputFile) (bytes : Bytes)

@[simp] theorem OutputFile.append_blockSize : (out.append bytes).blockSize = out.blockSize := rfl

@[simp] theorem OutputFile.append_useCrc : (out.append bytes).useCrc = out.useCrc := rfl

@[simp] theorem OutputFile.append_crc32 : (out.append bytes).crc32 = out.crc32 := rfl

@[simp] theorem OutputFile.append_contents :
    (out.append bytes).contents = out.contents ++ bytes := rfl

end

@[simp] theorem OutputFile.append_append (out : OutputFile) (xs ys : Bytes) :
    (out.append xs).append ys = out.append (xs ++ ys) := by
  simp only [OutputFile.append, append_assoc, length_append, add_assoc]

theorem OutputFile.AtEnd.append (h : out.AtEnd) (bytes : Bytes) :
    (out.append bytes).AtEnd := by
  unfold OutputFile.AtEnd OutputFile.append at *
  rw [length_append, h]

def OutputFile.emit (out : OutputFile) (c : Chunk) : OutputFile :=
  { out.append (c.encode out.blockSize) with
    crc32 := if out.useCrc then sparseCrc32 out.crc32 (c.summed out.blockSize) else out.crc32
    chunkCnt := out.chunkCnt + 1 }

theorem iterate_crc32 (word : Bytes) (n : Nat) (crc : UInt32) :
    (fun crc => sparseCrc32 crc word)^[n] crc =
      sparseCrc32 crc (List.replicate n word).flatten := by
  induction n generalizing crc with
  | zero => simp
  | succ n ih =>
    rw [Function.iterate_succ_apply, ih, replicate_succ, flatten_cons, sparseCrc32_append]

section

variable (hend : out.AtEnd)

include hend

theorem fileWrite_append {bytes : Bytes} (hlen : bytes.length ≤ maxWrite) :
    fileWrite out bytes = .ok (out.append bytes) := by
  have hcontents : overwrite out.contents out.pos bytes = out.contents ++ bytes := by
    unfold overwrite
    rw [hend]
    cases bytes with
    | nil | cons b bytes => simp
  rw [fileWrite, if_pos hlen, hcontents]
  rfl

theorem fileWriteZeros_append {zeroLen : Nat} (hlen : zeroLen ≤ maxWrite) :
    fileWriteZeros out zeroLen = .ok (out.append (List.replicate zeroLen 0)) := by
  unfold fileWriteZeros
  split_ifs with hzero
  · subst hzero
    simp [OutputFile.append]
  · exact fileWrite_append hend (by rw [length_replicate]; exact hlen)

theorem fileWrite_header (h : ChunkHeader) : fileWrite out h.bytes = .ok (out.append h.bytes) :=
  fileWrite_append hend (by rw [h.length_bytes]; decide)

theorem writeSparseSkipChunk_eq (hpos : 0 < out.blockSize) (blocks : Nat) :
    writeSparseSkipChunk out (blocks * out.blockSize) = .ok (out.emit (.skip blocks)) := by
  unfold writeSparseSkipChunk
  rw [if_neg (by simp), Nat.mul_div_cancel _ hpos]
  simp only [fileWrite_header hend, bind, Except.bind, pure, Except.pure]
  simp [OutputFile.emit, Chunk.encode, Chunk.header, Chunk.body, Chunk.summed]
  rfl

theorem writeSparseFillChunk_eq (hpos : 0 < out.blockSize) (hlt : out.blockSize < 2 ^ 31)
    (hlen : (len + out.blockSize - 1) / out.blockSize * out.blockSize < 2 ^ 31) (val : UInt32) :
    writeSparseFillChunk out len val =
      .ok (out.emit (.fill val ((len + out.blockSize - 1) / out.blockSize))) := by
  have hword : (leBytes 4 val.toNat).length ≤ maxWrite := by rw [length_leBytes]; decide
  unfold writeSparseFillChunk
  simp only [align_eq hpos hlt hlen, Nat.mul_div_cancel _ hpos]
  simp only [fileWrite_header hend, fileWrite_append (hend.append _) hword, bind, Except.bind, pure,
    Except.pure, append_append, iterate_crc32]
  rfl

theorem writeSparseDataChunk_eq (hpos : 0 < out.blockSize) (hsize : out.blockSize ≤ maxWrite)
    {data : Bytes} (hblocks : (data.length + out.blockSize - 1) / out.blockSize = blocks)
    (hlen : blocks * out.blockSize < 2 ^ 31) (hdata : data.length ≤ maxWrite) :
    writeSparseDataChunk out data = .ok (out.emit
        (.raw (data ++ List.replicate (blocks * out.blockSize - data.length) 0))) := by
  have hle := le_roundUp hpos data.length
  have hlt := roundUp_lt hpos data.length
  rw [hblocks] at hle hlt
  have hlength : (data ++ List.replicate (blocks * out.blockSize - data.length) 0).length =
      blocks * out.blockSize := by
    rw [length_append, length_replicate]
    omega
  have halign : align data.length out.blockSize = blocks * out.blockSize := by
    rw [align_eq hpos (lt_of_le_maxWrite hsize) (by rw [hblocks]; exact hlen), hblocks]
  have hzeroLen : subUInt (blocks * out.blockSize) data.length =
      blocks * out.blockSize - data.length := subUInt_eq hle (by omega)
  have hzeros : blocks * out.blockSize - data.length ≤ maxWrite := by omega
  unfold writeSparseDataChunk
  simp only [halign, hzeroLen, Nat.mul_div_cancel _ hpos]
  rw [fileWrite_header hend]
  simp only [bind, Except.bind]
  rw [fileWrite_append (hend.append _) hdata]
  simp only [append_append]
  rw [fileWriteZeros_append (hend.append _) hzeros]
  simp only [append_append, append_useCrc, append_crc32, ← sparseCrc32_append]
  unfold OutputFile.emit Chunk.encode
  simp only [Chunk.header, Chunk.body, Chunk.summed, hlength, Nat.mul_div_cancel _ hpos,
    append_assoc]
  rfl

theorem writeSparseEndChunk_eq :
    writeSparseEndChunk out = .ok (if out.useCrc then out.emit (.crc32 out.crc32) else out) := by
  have hword : (leBytes 4 out.crc32.toNat).length ≤ maxWrite := by rw [length_leBytes]; decide
  unfold writeSparseEndChunk
  split_ifs with hcrc
  · dsimp only
    rw [fileWrite_header hend]
    simp only [bind, Except.bind, append_crc32]
    rw [fileWrite_append (hend.append _) hword]
    simp only [append_append, OutputFile.emit, Chunk.summed, sparseCrc32_nil, ite_self]
    rfl
  · rfl

end

/-! ## Either format -/

/-- A format: `P out xs` says that `xs` was written to `out`, where `xs` grows by the items of each
gap, of each piece of data and of each fill. -/
structure Format {β : Type} (blockSize : Nat) (P : OutputFile → List β → Prop)
    (gap : Nat → List β) (raw : Bytes → List β) (fill : UInt32 → Nat → List β) : Prop where
  gap_zero : gap 0 = []
  writeSkip : ∀ {out xs blocks}, P out xs → 0 < blocks →
    P ((writeSkipChunk out (blocks * blockSize)).toOption.getD out) (xs ++ gap blocks)
  writeData : ∀ {out xs data blocks}, P out xs →
    (data.length + blockSize - 1) / blockSize = blocks → blocks * blockSize < 2 ^ 31 →
    data.length ≤ maxWrite → ∃ out', writeDataChunk out data = .ok out' ∧
      P out' (xs ++ raw (data ++ List.replicate (blocks * blockSize - data.length) 0))
  writeFill : ∀ {out xs len} val, P out xs →
    (len + blockSize - 1) / blockSize * blockSize < 2 ^ 31 →
    ∃ out', writeFillChunk out len val = .ok out' ∧ P out' (xs ++ fill val len)

section

variable {β : Type} (files : Files) (blockSize total : Nat) (gap : Nat → List β)
  (raw : Bytes → List β) (fill : UInt32 → Nat → List β)

def BackedBlock.items (bb : BackedBlock) : List β :=
  match bb.backing with
  | .fill val => fill val bb.len
  | .data _ | .file _ _ | .fd _ _ => raw (bb.padded files blockSize)

/-- The items of blocks and of the gaps before and after them. -/
def itemsFrom : Nat → List BackedBlock → List β
  | last, [] => gap (total - last)
  | last, bb :: rest => gap (bb.block - last) ++
      (bb.items files blockSize raw fill ++ itemsFrom (bb.block + bb.blocks blockSize) rest)

end

/-! ## Writing a file -/

/-- Blocks from `last` on that are in order, inside the image and of a size that
can be written. -/
def Placed (blockSize total : Nat) : Nat → List BackedBlock → Prop
  | last, [] => last ≤ total
  | last, bb :: rest =>
    (last ≤ bb.block ∧ bb.blocks blockSize * blockSize < 2 ^ 31) ∧
      Placed blockSize total (bb.block + bb.blocks blockSize) rest

variable {blocks : List BackedBlock} {total : Nat} {bb : BackedBlock}

theorem Placed.le_total (h : Placed blockSize total last blocks) : last ≤ total := by
  induction blocks generalizing last with
  | nil => exact h
  | cons bb rest ih =>
    have hrest := ih h.2
    have hbb := h.1.1
    omega

theorem blocks_le_of_inside {block : Nat} (hpos : 0 < blockSize)
    (h : block * blockSize + len ≤ total * blockSize) :
    block + (len + blockSize - 1) / blockSize ≤ total := by
  rw [add_comm, ← Nat.add_mul_div_right _ _ hpos, Nat.div_le_iff_le_mul_add_pred hpos,
    mul_comm blockSize]
  omega

theorem placed_of_sorted
    (hsorted : blocks.Pairwise fun a b =>
      a.block < b.block ∧ a.block + a.blocks blockSize ≤ b.block)
    (hinside : ∀ bb ∈ blocks, bb.block + bb.blocks blockSize ≤ total)
    (hfits : ∀ bb ∈ blocks, bb.blocks blockSize * blockSize < 2 ^ 31)
    (hlast : ∀ bb ∈ blocks, last ≤ bb.block) (htotal : last ≤ total) :
    Placed blockSize total last blocks := by
  induction blocks generalizing last with
  | nil => exact htotal
  | cons bb rest ih =>
    obtain ⟨hnext, hrest⟩ := pairwise_cons.mp hsorted
    constructor
    · exact ⟨hlast bb (by simp), hfits bb (by simp)⟩
    · apply ih hrest
      · exact fun b hb => hinside b (by simp [hb])
      · exact fun b hb => hfits b (by simp [hb])
      · exact fun b hb => (hnext b hb).2
      · exact hinside bb (by simp)

theorem placed_of_queued (h : Queued s) (hfits : Fits s) :
    Placed s.blockSize (s.len / s.blockSize) 0 s.dataBlocks := by
  apply placed_of_sorted h.sorted
  · intro bb hbb
    apply blocks_le_of_inside hfits.blockSize_pos
    rw [Nat.div_mul_cancel h.len_dvd]
    exact h.inside bb hbb
  · exact hfits.blocks_lt
  · exact fun bb _ => Nat.zero_le _
  · exact Nat.zero_le _

theorem nextBlock_eq (hpos : 0 < blockSize) (hlt : blockSize < 2 ^ 31) (htotal : total < 2 ^ 31)
    {rest : List BackedBlock} (h : Placed blockSize total last (bb :: rest)) :
    (bb.block + divRoundUp bb.len blockSize) % 2 ^ 32 = bb.block + bb.blocks blockSize := by
  have hle := h.2.le_total
  rw [divRoundUp_eq hpos hlt h.1.2]
  exact Nat.mod_eq_of_lt (by unfold BackedBlock.blocks at *; omega)

namespace Format

variable {β : Type} {P : OutputFile → List β → Prop} {gap : Nat → List β}
  {raw : Bytes → List β} {fill : UInt32 → Nat → List β}
  (hformat : Format blockSize P gap raw fill) (files : Files) {xs : List β} (hout : P out xs)

include hformat hout

theorem writeGap (last block : Nat) :
    P (if last < block then (writeSkipChunk out ((block - last) * blockSize)).toOption.getD out
      else out) (xs ++ gap (block - last)) := by
  split_ifs with hgap
  · exact hformat.writeSkip hout (by omega)
  · rw [show block - last = 0 by omega, hformat.gap_zero, append_nil]
    exact hout

theorem writeBlock (hlen : bb.blocks blockSize * blockSize < 2 ^ 31) (hbacked : bb.Backed files) :
    ∃ out', sparseFileWriteBlock files out bb = .ok out' ∧
      P out' (xs ++ bb.items files blockSize raw fill) := by
  obtain ⟨block, len, backing⟩ := bb
  have hdata : ∀ data : Bytes, data.length = len → len ≤ maxWrite →
      ∃ out', writeDataChunk out data = .ok out' ∧ P out' (xs ++ raw (data ++
        List.replicate ((len + blockSize - 1) / blockSize * blockSize - len) 0)) := by
    rintro data rfl hmax
    exact hformat.writeData hout rfl hlen hmax
  have hfd : ∀ (contents : Bytes) (offset : Nat),
      len ≤ maxWrite ∧ Mappable contents offset len →
      ∃ out', writeFdChunk out len contents offset = .ok out' ∧
        P out' (xs ++ raw (bytesAt contents offset len ++
          List.replicate ((len + blockSize - 1) / blockSize * blockSize - len) 0)) := by
    rintro contents offset ⟨hmax, hmap, hend⟩
    unfold writeFdChunk
    rw [Nat.mod_eq_of_lt (show len + offset % 4096 < 2 ^ 32 by omega)]
    rw [if_neg (not_not.mpr hmap), if_neg (by omega)]
    exact hdata _ (length_bytesAt _ _ _) hmax
  cases backing with
  | data bytes =>
    obtain ⟨out', hwrite, hout'⟩ := hdata _ (length_bytesAt bytes 0 len) hbacked.1
    exact ⟨out', (if_neg (not_lt.mpr hbacked.2)).trans hwrite, hout'⟩
  | file filename offset | fd fd offset => exact hfd _ _ hbacked
  | fill val => exact hformat.writeFill val hout hlen

/-- The loop writes everything but the last gap. -/
theorem writeBlocksLoop {last : Nat} (hpos : 0 < blockSize) (hlt : blockSize < 2 ^ 31)
    (htotal : total < 2 ^ 31) (h : Placed blockSize total last blocks)
    (hbacked : ∀ bb ∈ blocks, bb.Backed files) :
    ∃ stop out' ys, writeBlocksLoop files blockSize last out blocks = .ok (stop, out') ∧
      stop ≤ total ∧ P out' ys ∧
      ys ++ gap (total - stop) =
        xs ++ itemsFrom files blockSize total gap raw fill last blocks := by
  induction blocks generalizing last out xs with
  | nil => exact ⟨last, out, xs, rfl, h, hout, rfl⟩
  | cons bb rest ih =>
    obtain ⟨hbb, hbacked⟩ := forall_mem_cons.mp hbacked
    obtain ⟨out', hwrite, hblock⟩ := hformat.writeBlock files
      (hformat.writeGap hout last bb.block) h.1.2 hbb
    obtain ⟨stop, out'', ys, hloop, hstop, hrest, hitems⟩ := ih hblock h.2 hbacked
    refine ⟨stop, out'', ys, ?_, hstop, hrest, ?_⟩
    · rw [Libsparse.writeBlocksLoop]
      simp only [hwrite, bind, Except.bind, nextBlock_eq hpos hlt htotal h]
      exact hloop
    · rw [hitems, itemsFrom, append_assoc, append_assoc]

theorem writeAllBlocks (hs : s.blockSize = blockSize) (h : Queued s) (hfits : Fits s)
    (hbacked : s.Backed files) :
    ∃ out', writeAllBlocks files s out = .ok out' ∧ P out'
      (xs ++ itemsFrom files blockSize (s.len / blockSize) gap raw fill 0 s.dataBlocks) := by
  subst hs
  have hpos := hfits.blockSize_pos
  obtain ⟨stop, out', ys, hloop, hstop, hys, hitems⟩ := hformat.writeBlocksLoop files hout hpos
    hfits.blockSize_lt hfits.total_lt (placed_of_queued h hfits) hbacked
  have hlen : s.len = s.len / s.blockSize * s.blockSize := (Nat.div_mul_cancel h.len_dvd).symm
  have hassert : ¬s.len < stop * s.blockSize := by
    rw [hlen]
    exact not_lt.mpr (Nat.mul_le_mul_right _ hstop)
  have hgap : s.len - stop * s.blockSize = (s.len / s.blockSize - stop) * s.blockSize := by
    rw [Nat.sub_mul, ← hlen]
  have hlt : stop * s.blockSize < s.len ↔ stop < s.len / s.blockSize := by
    rw [Nat.lt_div_iff_mul_lt_of_dvd hpos.ne' h.len_dvd]
  have hlast := hformat.writeGap hys stop (s.len / s.blockSize)
  unfold Libsparse.writeAllBlocks
  rw [hloop, ← hitems]
  simp only [bind, Except.bind]
  rw [if_neg hassert, hgap]
  simp only [hlt]
  split_ifs at hlast ⊢ <;> exact ⟨_, rfl, hlast⟩

end Format

def OutputFile.emits (out : OutputFile) (chunks : List Chunk) : OutputFile :=
  chunks.foldl OutputFile.emit out

section

variable (out : OutputFile)

@[simp] theorem OutputFile.emits_nil : out.emits [] = out := rfl

@[simp] theorem OutputFile.emits_cons (c : Chunk) (chunks : List Chunk) :
    out.emits (c :: chunks) = (out.emit c).emits chunks := rfl

theorem OutputFile.emits_append (xs ys : List Chunk) :
    out.emits (xs ++ ys) = (out.emits xs).emits ys := foldl_append

theorem OutputFile.emits_eq (chunks : List Chunk) : out.emits chunks =
      { out.append (chunks.flatMap (Chunk.encode out.blockSize)) with
        crc32 :=
          if out.useCrc then sparseCrc32 out.crc32 (chunks.flatMap (Chunk.summed out.blockSize))
          else out.crc32
        chunkCnt := out.chunkCnt + chunks.length } := by
  induction chunks generalizing out with
  | nil => simp [OutputFile.append]
  | cons c chunks ih =>
    rw [emits_cons, ih]
    simp only [OutputFile.emit, OutputFile.append, flatMap_cons, append_assoc,
      length_append, length_cons, add_assoc, add_comm 1, sparseCrc32_append]
    split_ifs <;> rfl

theorem OutputFile.emits_contents (chunks : List Chunk) :
    (out.emits chunks).contents = out.contents ++ chunks.flatMap (Chunk.encode out.blockSize) := by
  rw [emits_eq]
  rfl

@[simp] theorem OutputFile.emits_sparse (chunks : List Chunk) :
    (out.emits chunks).sparse = out.sparse := by
  rw [emits_eq]
  rfl

@[simp] theorem OutputFile.emits_useCrc (chunks : List Chunk) :
    (out.emits chunks).useCrc = out.useCrc := by
  rw [emits_eq]
  rfl

end

structure OutputFile.Ready (out : OutputFile) (blockSize : Nat) : Prop where
  atEnd : out.AtEnd
  sparse : out.sparse = true
  blockSize_eq : out.blockSize = blockSize

theorem OutputFile.Ready.emits (h : out.Ready blockSize) (chunks : List Chunk) :
    (out.emits chunks).Ready blockSize := by
  rw [emits_eq]
  exact ⟨h.atEnd.append _, h.sparse, h.blockSize_eq⟩

/-- The sparse format writes chunks. -/
theorem format_sparse (hpos : 0 < blockSize) (hle : blockSize ≤ maxWrite)
    (h : out.Ready blockSize) :
    Format blockSize (fun out' chunks => out' = out.emits chunks) gapChunk
      (fun bytes => [.raw bytes])
      fun val len => [.fill val ((len + blockSize - 1) / blockSize)] where
  gap_zero := rfl
  writeSkip := by
    rintro _ chunks blocks rfl hgap
    have hready := h.emits chunks
    rw [writeSkipChunk, if_pos hready.sparse, gapChunk, if_pos hgap, emits_append]
    have hskip := writeSparseSkipChunk_eq hready.atEnd (hready.blockSize_eq ▸ hpos) blocks
    rw [hready.blockSize_eq] at hskip
    rw [hskip]
    rfl
  writeData := by
    rintro _ chunks data blocks rfl hblocks hlen hdata
    have hready := h.emits chunks
    rw [writeDataChunk, if_pos hready.sparse, emits_append]
    have hsize := hready.blockSize_eq
    have hwrite := @writeSparseDataChunk_eq blocks _ hready.atEnd (hsize ▸ hpos) (hsize ▸ hle) data
    rw [hsize] at hwrite
    exact ⟨_, hwrite hblocks hlen hdata, rfl⟩
  writeFill := by
    rintro _ chunks len val rfl hlen
    have hready := h.emits chunks
    rw [writeFillChunk, if_pos hready.sparse, emits_append]
    have hsize := hready.blockSize_eq
    have hwrite := @writeSparseFillChunk_eq len _ hready.atEnd (hsize ▸ hpos)
      (hsize ▸ lt_of_le_maxWrite hle)
    rw [hsize] at hwrite
    exact ⟨_, hwrite hlen val, rfl⟩

theorem chunksFrom_eq_items (files : Files) (blockSize total last : Nat)
    (blocks : List BackedBlock) :
    chunksFrom files blockSize total last blocks = itemsFrom files blockSize total gapChunk
      (fun bytes => [.raw bytes]) (fun val len => [.fill val ((len + blockSize - 1) / blockSize)])
      last blocks := by
  induction blocks generalizing last with
  | nil => rfl
  | cons bb rest ih =>
    rw [chunksFrom, itemsFrom, ih]
    obtain ⟨block, len, backing⟩ := bb
    cases backing <;> rfl

theorem countChunksLoop_eq (hpos : 0 < blockSize) (hlt : blockSize < 2 ^ 31)
    (htotal : total < 2 ^ 31) (files : Files) (chunks : Nat)
    (h : Placed blockSize total last blocks) :
    (countChunksLoop blockSize last chunks blocks).2 +
        (gapChunk (total - (countChunksLoop blockSize last chunks blocks).1)).length =
      chunks + (chunksFrom files blockSize total last blocks).length := by
  induction blocks generalizing last chunks with
  | nil => rfl
  | cons bb rest ih =>
    rw [countChunksLoop, nextBlock_eq hpos hlt htotal h, ih _ h.2, chunksFrom, length_append,
      length_cons, length_gapChunk]
    split_ifs <;> omega

theorem sparseCountChunks_eq (files : Files) (h : Queued s) (hfits : Fits s) :
    sparseCountChunks s = (s.chunks files).length := by
  have hcount := countChunksLoop_eq hfits.blockSize_pos hfits.blockSize_lt hfits.total_lt
    files 0 (placed_of_queued h hfits)
  unfold sparseCountChunks SparseFile.chunks
  rw [zero_add] at hcount
  rw [← hcount, length_gapChunk, roundUp_of_dvd hfits.blockSize_pos h.len_dvd]
  dsimp only
  split_ifs <;> omega

/-! ## The stream -/

def SparseFile.allChunks (files : Files) (s : SparseFile) (crc : Bool) : List Chunk :=
  s.chunks files ++
    if crc then [.crc32 (sparseCrc32 0 ((s.chunks files).flatMap (Chunk.summed s.blockSize)))]
    else []

def SparseFile.header (files : Files) (s : SparseFile) (crc : Bool) : SparseHeader :=
  { magic := sparseHeaderMagic, majorVersion := sparseHeaderMajorVer
    minorVersion := sparseHeaderMinorVer, fileHdrSz := sparseHeaderLen
    chunkHdrSz := chunkHeaderLen, blkSz := s.blockSize, totalBlks := s.len / s.blockSize
    totalChunks := (s.allChunks files crc).length, imageChecksum := 0 }

def SparseFile.stream (files : Files) (s : SparseFile) (crc : Bool) : Bytes :=
  (s.header files crc).bytes ++ (s.allChunks files crc).flatMap (Chunk.encode s.blockSize)

def SparseFile.created (s : SparseFile) (crc : Bool) : OutputFile :=
  { blockSize := s.blockSize, len := s.len, sparse := true, useCrc := crc, crc32 := 0, chunkCnt := 0
    contents := [], pos := 0 }

def SparseFile.opened (files : Files) (s : SparseFile) (crc : Bool) : OutputFile :=
  (s.created crc).append (s.header files crc).bytes

section

variable (files : Files)

theorem ready_opened (s : SparseFile) (crc : Bool) : (s.opened files crc).Ready s.blockSize := by
  have hempty : (s.created crc).AtEnd := rfl
  exact ⟨hempty.append _, rfl, rfl⟩

theorem outputFileInit_eq (h : Queued s) (hfits : Fits s) (crc : Bool) :
    outputFileInit s.blockSize s.len true (sparseCountChunks s) crc = .ok (s.opened files crc) := by
  have hempty : (s.created crc).AtEnd := rfl
  have htotal : (if crc then sparseCountChunks s + 1 else sparseCountChunks s) =
      (s.allChunks files crc).length := by
    rw [sparseCountChunks_eq files h hfits, SparseFile.allChunks, length_append]
    cases crc <;> rfl
  have hinit : outputFileInit s.blockSize s.len true (sparseCountChunks s) crc =
      fileWrite (s.created crc) (s.header files crc).bytes := by
    unfold outputFileInit SparseFile.header SparseFile.created
    rw [htotal]
    rw [if_neg (not_le.mpr hfits.blockSize_lt), if_pos rfl]
  rw [hinit, SparseFile.opened]
  apply fileWrite_append hempty
  rw [(s.header files crc).length_bytes]
  decide

theorem writeAllBlocks_eq (h : Queued s) (hfits : Fits s) (hbacked : s.Backed files)
    (hout : out.Ready s.blockSize) :
    writeAllBlocks files s out = .ok (out.emits (s.chunks files)) := by
  have hformat := format_sparse hfits.blockSize_pos hfits.blockSize_le hout
  obtain ⟨_, hwrite, rfl⟩ := hformat.writeAllBlocks files (emits_nil out).symm rfl h hfits hbacked
  rw [hwrite, nil_append, ← chunksFrom_eq_items, SparseFile.chunks]

theorem writeEndChunk_eq (s : SparseFile) (crc : Bool) :
    writeEndChunk ((s.opened files crc).emits (s.chunks files)) =
      .ok ((s.opened files crc).emits (s.allChunks files crc)) := by
  have hopened := ready_opened files s crc
  have hend := (hopened.emits (s.chunks files)).atEnd
  have hcrc : ((s.opened files crc).emits (s.chunks files)).crc32 =
      if crc then sparseCrc32 0 ((s.chunks files).flatMap (Chunk.summed s.blockSize)) else 0 := by
    rw [emits_eq]
    rfl
  have huse : (s.opened files crc).useCrc = crc := rfl
  rw [writeEndChunk, emits_sparse, if_pos hopened.sparse, writeSparseEndChunk_eq hend,
    emits_useCrc, huse, hcrc, SparseFile.allChunks, emits_append]
  cases crc with
  | false => simp only [Bool.false_eq_true, if_false, emits_nil]
  | true => simp only [if_true, emits_cons, emits_nil]

theorem sparseFileWrite_sparse (h : Queued s) (hfits : Fits s) (hbacked : s.Backed files)
    (crc : Bool) :
    ∃ out, sparseFileWrite files s true crc = .ok out ∧ out.contents = s.stream files crc ∧
      out.chunkCnt = (s.allChunks files crc).length := by
  refine ⟨(s.opened files crc).emits (s.allChunks files crc), ?_, ?_, ?_⟩
  · unfold sparseFileWrite
    rw [outputFileInit_eq files h hfits]
    simp only [bind, Except.bind]
    rw [writeAllBlocks_eq files h hfits hbacked (ready_opened files s crc)]
    dsimp only
    rw [writeEndChunk_eq]
    rfl
  · have hempty : (s.created crc).contents = [] := rfl
    have hsize : (s.created crc).blockSize = s.blockSize := rfl
    rw [emits_contents, SparseFile.opened, append_blockSize,
      append_contents, hempty, hsize, nil_append, SparseFile.stream]
  · rw [emits_eq]
    exact zero_add _

end

end ShieldTv.Libsparse
