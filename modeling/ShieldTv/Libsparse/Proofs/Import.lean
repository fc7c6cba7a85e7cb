import ShieldTv.Lib.Fallible
import ShieldTv.Libsparse.Proofs.Chunks

/-!
# Reading chunks

What the reader does with each chunk of a stream, and with all of them.
-/

namespace ShieldTv.Libsparse

open Lib.Bytes List Lib.Fallible

theorem readAll_append (before part after : Bytes) :
    readAll (before ++ (part ++ after)) before.length part.length = .ok part := by
  rw [readAll, if_pos (by simp only [length_append]; omega), slice_append]

/-! ## Checksums in pieces -/

theorem copyBufSize_pos : 0 < copyBufSize := by decide

theorem crcLoop_eq {copybuf : Nat → UInt8} (hperiod : ∀ i, copybuf (copyBufSize + i) = copybuf i)
    {fuel len : Nat} (hfuel : len ≤ fuel) (crc : UInt32) :
    crcLoop copybuf fuel len crc = sparseCrc32 crc ((List.range len).map copybuf) := by
  induction fuel generalizing len crc with
  | zero =>
    obtain rfl : len = 0 := by omega
    rw [crcLoop, range_zero, map_nil, sparseCrc32_nil]
  | succ fuel ih =>
    rw [crcLoop]
    by_cases hzero : len = 0
    · rw [if_pos hzero, hzero, range_zero, map_nil, sparseCrc32_nil]
    · have hpos := copyBufSize_pos
      have hchunk : len = min len copyBufSize + (len - min len copyBufSize) := by omega
      rw [if_neg hzero]
      rw [ih (by omega), ← sparseCrc32_append]
      congr 1
      nth_rewrite 4 [hchunk]
      rw [range_add, map_append, map_map]
      congr 1
      apply map_congr_left
      intro i hi
      have hrest := mem_range.mp hi
      rw [Function.comp_apply, show min len copyBufSize = copyBufSize by omega, hperiod]

theorem fillByte_period (val : UInt32) (i : Nat) :
    fillByte val (copyBufSize + i) = fillByte val i := by
  have hmod : (copyBufSize + i) % 4 = i % 4 := by
    have hfour : copyBufSize % 4 = 0 := by decide
    omega
  rw [fillByte, hmod, fillByte]

/-- The checksum of bytes that are read piece by piece. -/
theorem rawCrcLoop_eq (before bytes after : Bytes) {fuel : Nat} (hfuel : bytes.length ≤ fuel)
    (crc : UInt32) :
    rawCrcLoop (before ++ (bytes ++ after)) fuel before.length bytes.length crc =
      .ok (before.length + bytes.length, sparseCrc32 crc bytes) := by
  induction fuel generalizing before bytes crc with
  | zero =>
    obtain rfl : bytes = [] := length_eq_zero_iff.mp (by omega)
    rw [rawCrcLoop, sparseCrc32_nil, length_nil, add_zero]
  | succ fuel ih =>
    rw [rawCrcLoop]
    by_cases hzero : bytes.length = 0
    · obtain rfl := length_eq_zero_iff.mp hzero
      rw [if_pos hzero, sparseCrc32_nil, length_nil, add_zero]
    · rw [if_neg hzero]
      have hpos := copyBufSize_pos
      generalize hchunk : min bytes.length copyBufSize = chunk
      have hlen : (bytes.take chunk).length = chunk := by
        rw [length_take]
        omega
      have hsplit : before ++ (bytes ++ after) =
          before ++ bytes.take chunk ++ (bytes.drop chunk ++ after) := by
        rw [append_assoc, ← append_assoc (bytes.take chunk), take_append_drop]
      have hread := readAll_append before (bytes.take chunk) (bytes.drop chunk ++ after)
      rw [← append_assoc, ← hsplit, hlen] at hread
      simp only [hread, bind, Except.bind]
      have hrest := ih (before ++ bytes.take chunk) (bytes.drop chunk)
        (by rw [length_drop]; omega) (sparseCrc32 crc (bytes.take chunk))
      rw [← hsplit, length_append, hlen, length_drop, ← sparseCrc32_append,
        take_append_drop] at hrest
      rw [hrest]
      congr 2
      omega

/-! ## One chunk -/

def Chunk.blocks (blockSize : Nat) : Chunk → Nat
  | .raw bytes => bytes.length / blockSize
  | .fill _ blocks | .skip blocks => blocks
  | .crc32 _ => 0

/-- The bytes of a chunk that the reader's checksum covers. -/
def Chunk.covered (blockSize : Nat) : Chunk → Bytes
  | .raw bytes => bytes
  | .fill val blocks => fillBytes val (blocks * blockSize)
  | .skip blocks => List.replicate (blocks * blockSize) 0
  | .crc32 _ => []

/-- A chunk of the image whose sizes fit its header. -/
def Chunk.Valid (blockSize : Nat) : Chunk → Prop
  | .raw bytes => blockSize ∣ bytes.length ∧ bytes.length < 2 ^ 31
  | .fill _ blocks => blocks * blockSize < 2 ^ 31
  | .skip _ => True
  | .crc32 _ => False

/-- The block that the reader queues for a chunk with its body at `pos`. -/
def Chunk.block? (blockSize pos curBlock : Nat) : Chunk → Option BackedBlock
  | .raw bytes => some { block := curBlock, len := bytes.length, backing := .fd 0 pos }
  | .fill val blocks => some { block := curBlock, len := blocks * blockSize, backing := .fill val }
  | .skip _ | .crc32 _ => none

def SparseFile.add (s : SparseFile) : Option BackedBlock → Except Err SparseFile
  | some bb => queueBb s bb
  | none => .ok s

def Reader.after (r : Reader) (blockSize : Nat) (c : Chunk) (file : SparseFile) : Reader :=
  { file
    pos := r.pos + c.body.length
    curBlock := r.curBlock + c.blocks blockSize
    crcPtr := r.crcPtr.map fun crc => sparseCrc32 crc (c.covered blockSize) }

/-- The reader before it counts the blocks of the chunk. -/
def Reader.past (r : Reader) (blockSize : Nat) (c : Chunk) (file : SparseFile) : Reader :=
  { r.after blockSize c file with curBlock := r.curBlock }

theorem Chunk.length_encode (blockSize : Nat) (c : Chunk) :
    (c.encode blockSize).length = chunkHeaderLen + c.body.length := by
  rw [Chunk.encode, length_append, ChunkHeader.length_bytes]

theorem Chunk.header_ofBytes {blockSize : Nat} {c : Chunk} (hvalid : c.Valid blockSize)
    (hblocks : c.blocks blockSize < 2 ^ 31) :
    ChunkHeader.ofBytes (c.header blockSize).bytes = c.header blockSize := by
  have hlen : chunkHeaderLen = 12 := rfl
  rw [ChunkHeader.ofBytes_bytes]
  cases c with
  | raw bytes =>
    have hcount : bytes.length / blockSize < 2 ^ 31 := hblocks
    simp only [Chunk.header, ChunkHeader.mk.injEq]
    refine ⟨rfl, rfl, Nat.mod_eq_of_lt (by omega), Nat.mod_eq_of_lt ?_⟩
    have := hvalid.2
    omega
  | fill val blocks | skip blocks =>
    have hcount : blocks < 2 ^ 31 := hblocks
    simp only [Chunk.header, ChunkHeader.mk.injEq]
    exact ⟨rfl, rfl, Nat.mod_eq_of_lt (by omega), rfl⟩
  | crc32 val => exact hvalid.elim

structure Reader.At (r : Reader) (blockSize : Nat) (before : Bytes) : Prop where
  pos_eq : r.pos = before.length
  blockSize_eq : r.file.blockSize = blockSize

section

variable {blockSize : Nat} (hpos : 0 < blockSize) {r : Reader} {before : Bytes}
  (hr : r.At blockSize before)

include hpos hr

theorem processRawChunk_eq {bytes : Bytes} (hvalid : (Chunk.raw bytes).Valid blockSize)
    (after : Bytes) :
    processRawChunk (before ++ (bytes ++ after)) r bytes.length (bytes.length / blockSize) =
      (r.file.add ((Chunk.raw bytes).block? blockSize r.pos r.curBlock)).map
        (r.past blockSize (.raw bytes)) := by
  obtain ⟨hdvd, hlt⟩ := hvalid
  have hlen : bytes.length / blockSize * r.file.blockSize % 2 ^ 32 = bytes.length := by
    rw [hr.blockSize_eq, Nat.div_mul_cancel hdvd, Nat.mod_eq_of_lt (by omega)]
  unfold processRawChunk sparseFileAddFd SparseFile.add Chunk.block? Reader.past Reader.after
  simp only [hlen, Nat.mod_eq_of_lt (show bytes.length < 2 ^ 32 by omega)]
  rw [hr.blockSize_eq, if_neg (by omega), if_neg (by rw [Nat.mod_eq_zero_of_dvd hdvd]; simp),
    if_neg (by simp)]
  cases queueBb r.file _ with
  | error e => rfl
  | ok file =>
    cases r.crcPtr with
    | none => rfl
    | some crc =>
      dsimp only
      rw [hr.pos_eq, rawCrcLoop_eq before bytes after le_rfl]
      rfl

omit hpos in
theorem processFillChunk_eq (val : UInt32) {blocks : Nat} (hlt : blocks * blockSize < 2 ^ 31)
    (after : Bytes) :
    processFillChunk (before ++ (leBytes 4 val.toNat ++ after)) r 4 blocks =
      (r.file.add ((Chunk.fill val blocks).block? blockSize r.pos r.curBlock)).map
        (r.past blockSize (.fill val blocks)) := by
  have hread := readAll_append before (leBytes 4 val.toNat) after
  rw [length_leBytes, ← hr.pos_eq] at hread
  have hval : UInt32.ofNat (leValue (leBytes 4 val.toNat)) = val := by
    rw [leValue_leBytes_of_lt val.toNat_lt, UInt32.ofNat_toNat]
  have hcrc : crcLoop (fillByte val) (blocks * blockSize) (blocks * blockSize) =
      fun crc => sparseCrc32 crc (fillBytes val (blocks * blockSize)) := by
    ext1 crc
    exact crcLoop_eq (fillByte_period val) le_rfl crc
  unfold processFillChunk sparseFileAddFill SparseFile.add Chunk.block?
  simp only [hread, hr.blockSize_eq, bind, Except.bind, hval, hcrc,
    Nat.mod_eq_of_lt (show blocks * blockSize < 2 ^ 32 by omega)]
  rw [if_neg (by simp)]
  cases queueBb r.file _ with
  | error | ok => rfl

omit hpos in
theorem processSkipChunk_eq (blocks : Nat) :
    processSkipChunk r 0 blocks = .ok (r.past blockSize (.skip blocks) r.file) := by
  have hcrc : crcLoop (fun _ => 0) (blocks * blockSize) (blocks * blockSize) =
      fun crc => sparseCrc32 crc (List.replicate (blocks * blockSize) 0) := by
    ext1 crc
    rw [crcLoop_eq (fun _ => rfl) le_rfl, map_const', length_range]
  unfold processSkipChunk
  rw [if_neg (by simp), hr.blockSize_eq, hcrc]
  rfl

section

variable {c : Chunk} (hvalid : c.Valid blockSize) (hblocks : c.blocks blockSize < 2 ^ 31)
  (hcur : r.curBlock + c.blocks blockSize < 2 ^ 32) (after : Bytes)
include hvalid hblocks hcur

/-- What the reader does with any chunk but that of the checksum. -/
theorem processChunk_eq :
    processChunk (before ++ (c.body ++ after)) r chunkHeaderLen (c.header blockSize) =
      (r.file.add (c.block? blockSize r.pos r.curBlock)).map (r.after blockSize c) := by
  have hadvance : ∀ file : Except Err SparseFile, (file.map (r.past blockSize c)).bind (fun r =>
      if c.blocks blockSize < 2 ^ 31 then
        .ok { r with curBlock := (r.curBlock + c.blocks blockSize) % 2 ^ 32 }
      else .error .failed) = file.map (r.after blockSize c) := by
    rintro (e | file)
    · rfl
    · refine (if_pos hblocks).trans ?_
      unfold Reader.past Reader.after
      rw [Nat.mod_eq_of_lt hcur]
      rfl
  have hheader : chunkHeaderLen = 12 := rfl
  unfold processChunk
  cases c with
  | crc32 val => exact hvalid.elim
  | raw bytes =>
    have hlen : subUInt (chunkHeaderLen + bytes.length) chunkHeaderLen = bytes.length := by
      have := hvalid.2
      rw [subUInt_eq (by omega) (by omega), Nat.add_sub_cancel_left]
    simp only [Chunk.header, hlen, Chunk.body]
    rw [if_pos True.intro, processRawChunk_eq hpos hr hvalid]
    exact hadvance _
  | fill val blocks =>
    have hlen : subUInt (chunkHeaderLen + 4) chunkHeaderLen = 4 := by decide
    simp only [Chunk.header, hlen, Chunk.body]
    rw [if_neg (by decide), if_pos True.intro, processFillChunk_eq hr val hvalid]
    exact hadvance _
  | skip blocks =>
    have hlen : subUInt chunkHeaderLen chunkHeaderLen = 0 := by decide
    simp only [Chunk.header, hlen]
    rw [if_neg (by decide), if_neg (by decide), if_pos True.intro, processSkipChunk_eq hr]
    exact hadvance (.ok r.file)

theorem readChunks_succ (total : Nat) :
    readChunks (before ++ (c.encode blockSize ++ after)) chunkHeaderLen (total + 1) r =
      (do
        let file ← r.file.add (c.block? blockSize (r.pos + chunkHeaderLen) r.curBlock)
        readChunks (before ++ (c.encode blockSize ++ after)) chunkHeaderLen total
          (Reader.after { r with pos := r.pos + chunkHeaderLen } blockSize c file)) := by
  have hread := readAll_append before (c.header blockSize).bytes (c.body ++ after)
  rw [ChunkHeader.length_bytes, ← hr.pos_eq] at hread
  have hbody : Reader.At { r with pos := r.pos + chunkHeaderLen } blockSize
      (before ++ (c.header blockSize).bytes) :=
    ⟨by rw [length_append, ChunkHeader.length_bytes, hr.pos_eq], hr.blockSize_eq⟩
  have hprocess := processChunk_eq hpos hbody hvalid hblocks hcur after
  rw [append_assoc] at hprocess
  rw [readChunks, Chunk.encode, append_assoc, hread]
  simp only [bind, Except.bind]
  rw [Chunk.header_ofBytes hvalid hblocks, hprocess]
  cases r.file.add (c.block? blockSize (r.pos + chunkHeaderLen) r.curBlock) <;> rfl

end

end

/-! ## All chunks -/

theorem queueBb_blockSize {s s' : SparseFile} {new : BackedBlock} (h : queueBb s new = .ok s') :
    s'.blockSize = s.blockSize := by
  unfold queueBb at h
  split at h
  · cases h
    rfl
  · split at h
    · cases h
      rfl
    · split at h
      · obtain ⟨start, -, h⟩ := bind_eq_ok.mp h
        obtain ⟨blocks, -, h⟩ := bind_eq_ok.mp h
        cases h
        rfl
      · split at h
        · obtain ⟨start, -, h⟩ := bind_eq_ok.mp h
          obtain ⟨blocks, -, h⟩ := bind_eq_ok.mp h
          cases h
          rfl
        · cases h

/-- The blocks that the reader queues for chunks from `pos` on. -/
def importBlocks (blockSize : Nat) : Nat → Nat → List Chunk → List BackedBlock
  | _, _, [] => []
  | pos, curBlock, c :: chunks =>
    (c.block? blockSize (pos + chunkHeaderLen) curBlock).toList ++
      importBlocks blockSize (pos + (c.encode blockSize).length) (curBlock + c.blocks blockSize)
        chunks

def Reader.afterAll (r : Reader) (blockSize : Nat) (chunks : List Chunk) (file : SparseFile) :
    Reader :=
  { file
    pos := r.pos + (chunks.flatMap (Chunk.encode blockSize)).length
    curBlock := r.curBlock + (chunks.map (Chunk.blocks blockSize)).sum
    crcPtr := r.crcPtr.map fun crc => sparseCrc32 crc (chunks.flatMap (Chunk.covered blockSize)) }

theorem Reader.afterAll_cons (r : Reader) (blockSize : Nat) (c : Chunk) (chunks : List Chunk)
    (file file' : SparseFile) :
    (Reader.after { r with pos := r.pos + chunkHeaderLen } blockSize c file).afterAll blockSize
        chunks file' =
      r.afterAll blockSize (c :: chunks) file' := by
  unfold Reader.afterAll Reader.after
  simp only [flatMap_cons, length_append, map_cons, sum_cons, Option.map_map,
    Function.comp_def, sparseCrc32_append, add_assoc, Chunk.length_encode]

theorem readChunks_eq {blockSize : Nat} (hpos : 0 < blockSize) {chunks : List Chunk}
    (hvalid : ∀ c ∈ chunks, c.Valid blockSize) {r : Reader} {before : Bytes}
    (hr : r.At blockSize before)
    (hcur : r.curBlock + (chunks.map (Chunk.blocks blockSize)).sum < 2 ^ 31) (after : Bytes)
    (total : Nat) :
    readChunks (before ++ (chunks.flatMap (Chunk.encode blockSize) ++ after)) chunkHeaderLen
        (chunks.length + total) r =
      (do
        let file ← (importBlocks blockSize r.pos r.curBlock chunks).foldlM queueBb r.file
        readChunks (before ++ (chunks.flatMap (Chunk.encode blockSize) ++ after)) chunkHeaderLen
          total (r.afterAll blockSize chunks file)) := by
  induction chunks generalizing r before with
  | nil =>
    simp only [length_nil, zero_add, importBlocks, foldlM_nil, pure_bind,
      Reader.afterAll, flatMap_nil, sparseCrc32_nil, map_nil, sum_nil, add_zero,
      Option.map_id_fun', id_eq]
  | cons c chunks ih =>
    simp only [map_cons, sum_cons] at hcur
    have hstep := readChunks_succ hpos hr (hvalid c (by simp)) (by omega) (by omega)
      (chunks.flatMap (Chunk.encode blockSize) ++ after) (chunks.length + total)
    rw [flatMap_cons, append_assoc, length_cons, Nat.add_right_comm, hstep,
      importBlocks, foldlM_append, bind_assoc]
    have hadd : (c.block? blockSize (r.pos + chunkHeaderLen) r.curBlock).toList.foldlM queueBb
        r.file = r.file.add (c.block? blockSize (r.pos + chunkHeaderLen) r.curBlock) := by
      cases c.block? blockSize (r.pos + chunkHeaderLen) r.curBlock with
      | none => rfl
      | some bb => exact foldlM_cons.trans (bind_pure _)
    rw [hadd]
    cases hfile : r.file.add (c.block? blockSize (r.pos + chunkHeaderLen) r.curBlock) with
    | error e => rfl
    | ok file =>
      have hsame : file.blockSize = r.file.blockSize := by
        cases hblock : c.block? blockSize (r.pos + chunkHeaderLen) r.curBlock with
        | none =>
          rw [hblock] at hfile
          cases hfile
          rfl
        | some bb =>
          rw [hblock] at hfile
          exact queueBb_blockSize hfile
      have hafter : (Reader.after { r with pos := r.pos + chunkHeaderLen } blockSize c file).At
          blockSize (before ++ c.encode blockSize) := by
        constructor
        · rw [length_append, Chunk.length_encode, ← add_assoc, ← hr.pos_eq]
          rfl
        · exact hsame.trans hr.blockSize_eq
      have hrest := ih (fun c' hc' => hvalid c' (by simp [hc'])) hafter
        (by simp only [Reader.after]; omega)
      simp only [append_assoc, Reader.afterAll_cons] at hrest
      change readChunks _ _ _ _ = _
      rw [hrest]
      simp only [Reader.after, Chunk.length_encode, add_assoc]
      rfl

end ShieldTv.Libsparse
