import ShieldTv.Libsparse.Proofs.Image

/-!
# Writing and importing

What `sparse_file_import` makes of the stream that `sparse_file_write` wrote.
-/

namespace ShieldTv.Libsparse

open Lib.Bytes List SparseHeader Lib.Fallible

/-! ## The imported blocks -/

/-- The block that the reader queues for the chunk of a block, with its body at
`offset`. -/
def BackedBlock.imported (blockSize offset : Nat) (bb : BackedBlock) : BackedBlock :=
  { block := bb.block
    len := bb.blocks blockSize * blockSize
    backing :=
      match bb.backing with
      | .fill val => .fill val
      | .data _ | .file _ _ | .fd _ _ => .fd 0 offset }

/-- The blocks that the reader queues for the chunks of blocks from `pos` on. -/
def importedFrom (files : Files) (blockSize : Nat) : Nat → Nat → List BackedBlock → List BackedBlock
  | _, _, [] => []
  | pos, last, bb :: rest =>
    let offset :=
      pos + ((gapChunk (bb.block - last)).flatMap (Chunk.encode blockSize)).length + chunkHeaderLen
    bb.imported blockSize offset ::
      importedFrom files blockSize (offset + (bb.chunk files blockSize).body.length)
        (bb.block + bb.blocks blockSize) rest

theorem importBlocks_gap (blockSize pos curBlock gap : Nat) (chunks : List Chunk) :
    importBlocks blockSize pos curBlock (gapChunk gap ++ chunks) =
      importBlocks blockSize (pos + ((gapChunk gap).flatMap (Chunk.encode blockSize)).length)
        (curBlock + gap) chunks := by
  unfold gapChunk
  split_ifs with hgap
  · rw [singleton_append, flatMap_singleton]
    rfl
  · rw [nil_append, flatMap_nil, length_nil, show gap = 0 by omega]
    rfl

section

variable {blockSize total : Nat} (hpos : 0 < blockSize) (files : Files)

include hpos

theorem block?_chunk (bb : BackedBlock) (pos : Nat) :
    (bb.chunk files blockSize).block? blockSize pos bb.block =
      some (bb.imported blockSize pos) := by
  have hlen := bb.length_padded files hpos
  unfold BackedBlock.chunk BackedBlock.imported
  cases bb.backing with
  | fill val => rfl
  | data | file | fd => rw [← hlen]; rfl

theorem blocks_chunk (bb : BackedBlock) :
    (bb.chunk files blockSize).blocks blockSize = bb.blocks blockSize := by
  have hraw : (Chunk.raw (bb.padded files blockSize)).blocks blockSize = bb.blocks blockSize := by
    rw [Chunk.blocks, bb.length_padded files hpos, Nat.mul_div_cancel _ hpos]
  unfold BackedBlock.chunk
  cases bb.backing with
  | fill val => rfl
  | data | file | fd => exact hraw

section

variable {last : Nat} {blocks : List BackedBlock} (h : Placed blockSize total last blocks)
include h

theorem importBlocks_chunksFrom (pos : Nat) :
    importBlocks blockSize pos last (chunksFrom files blockSize total last blocks) =
      importedFrom files blockSize pos last blocks := by
  induction blocks generalizing last pos with
  | nil =>
    rw [chunksFrom, ← append_nil (gapChunk _), importBlocks_gap]
    rfl
  | cons bb rest ih =>
    have hcur : last + (bb.block - last) = bb.block := Nat.add_sub_cancel' h.1.1
    rw [chunksFrom, importBlocks_gap, hcur, importBlocks, block?_chunk hpos, blocks_chunk hpos,
      ih h.2, Option.toList_some, singleton_append, Chunk.length_encode, ← add_assoc]
    rfl

theorem valid_chunksFrom :
    ∀ c ∈ chunksFrom files blockSize total last blocks, c.Valid blockSize := by
  have hgap : ∀ gap, ∀ c ∈ gapChunk gap, c.Valid blockSize := by
    intro gap c hc
    unfold gapChunk at hc
    split_ifs at hc
    · rw [mem_singleton.mp hc]
      exact True.intro
    · cases hc
  induction blocks generalizing last with
  | nil => exact hgap _
  | cons bb rest ih =>
    intro c hc
    rcases mem_append.mp hc with hc | hc
    · exact hgap _ c hc
    · rcases mem_cons.mp hc with rfl | hc
      · have hlen := bb.length_padded files hpos
        have hraw : (Chunk.raw (bb.padded files blockSize)).Valid blockSize := by
          constructor
          · rw [hlen]
            exact Nat.dvd_mul_left _ _
          · rw [hlen]
            exact h.1.2
        unfold BackedBlock.chunk
        cases bb.backing with
        | fill val => exact h.1.2
        | data | file | fd => exact hraw
      · exact ih h.2 c hc

theorem sum_blocks_chunksFrom :
    last + ((chunksFrom files blockSize total last blocks).map (Chunk.blocks blockSize)).sum =
      total := by
  have hgap : ∀ gap, ((gapChunk gap).map (Chunk.blocks blockSize)).sum = gap := by
    intro gap
    unfold gapChunk
    split_ifs with hgap
    · simp [Chunk.blocks]
    · rw [map_nil, sum_nil]
      omega
  induction blocks generalizing last with
  | nil =>
    rw [chunksFrom, hgap]
    exact Nat.add_sub_cancel' h
  | cons bb rest ih =>
    have hrest := ih h.2
    have hle := h.1.1
    rw [chunksFrom, map_append, sum_append, hgap, map_cons, sum_cons, blocks_chunk hpos]
    omega

end

end

variable {blockSize total : Nat} {blocks : List BackedBlock}

theorem fill_or_body_le (hpos : 0 < blockSize) (files : Files) (bb : BackedBlock) (offset : Nat) :
    (∃ val, bb.backing = .fill val) ∨
      offset + bb.blocks blockSize * blockSize ≤
        offset + (bb.chunk files blockSize).body.length := by
  have hlen := bb.length_padded files hpos
  unfold BackedBlock.chunk
  cases bb.backing with
  | fill val => exact .inl ⟨val, rfl⟩
  | data | file | fd => exact .inr (by rw [← hlen]; exact le_rfl)

theorem map_block_importedFrom (files : Files) (blockSize pos last : Nat)
    (blocks : List BackedBlock) :
    (importedFrom files blockSize pos last blocks).map BackedBlock.block =
      blocks.map BackedBlock.block := by
  induction blocks generalizing pos last with
  | nil => rfl
  | cons bb rest ih => exact congrArg (bb.block :: ·) (ih _ _)

theorem sorted_importedFrom (files : Files) (blockSize pos last : Nat)
    (hsorted : blocks.Pairwise (·.block < ·.block)) :
    (importedFrom files blockSize pos last blocks).Pairwise (·.block < ·.block) := by
  rw [← pairwise_map (R := (· < ·)), map_block_importedFrom, pairwise_map]
  exact hsorted

theorem whole_importedFrom (files : Files) (hpos : 0 < blockSize) (htotal : total < 2 ^ 31)
    {pos last : Nat} (h : Placed blockSize total last blocks) :
    ∀ bb ∈ importedFrom files blockSize pos last blocks, Whole blockSize bb := by
  induction blocks generalizing pos last with
  | nil => simp [importedFrom]
  | cons bb rest ih =>
    have hend := h.2.le_total
    intro b hb
    rcases mem_cons.mp hb with rfl | hb
    · constructor
      · exact Nat.dvd_mul_left _ _
      · exact h.1.2
      · simp only [BackedBlock.imported, Nat.mul_div_cancel _ hpos]
        omega
    · exact ih h.2 b hb

/-! ## Fills that are merged -/

/-- Two fills with the same value, one right after the other. -/
def Joined (blockSize : Nat) (a b : BackedBlock) : Prop :=
  a.block + a.blocks blockSize = b.block ∧ ∃ val, a.backing = .fill val ∧ b.backing = .fill val

/-- No block comes after two fills that are merged. -/
def SafeFills (blockSize : Nat) : List BackedBlock → Prop
  | [] | [_] => True
  | a :: b :: rest => (Joined blockSize a b → rest = []) ∧ SafeFills blockSize (b :: rest)

theorem continues_imported_iff {a b : BackedBlock} {offset offset' : Nat}
    (happart : (∃ val, a.backing = .fill val) ∨ offset + a.blocks blockSize * blockSize < offset') :
    Continues (a.imported blockSize offset) (b.imported blockSize offset') ↔
      ∃ val, a.backing = .fill val ∧ b.backing = .fill val := by
  unfold Continues BackedBlock.imported
  cases ha : a.backing <;> cases hb : b.backing <;> grind

theorem settle_importedFrom_eq_none_iff (hpos : 0 < blockSize) (htotal : total < 2 ^ 31)
    (files : Files) {last offset pos : Nat} {bb : BackedBlock} {rest : List BackedBlock}
    (h : Placed blockSize total last (bb :: rest))
    (hsorted : (bb :: rest).Pairwise (·.block < ·.block))
    (hoffset : (∃ val, bb.backing = .fill val) ∨ offset + bb.blocks blockSize * blockSize ≤ pos) :
    settle blockSize (bb.imported blockSize offset)
        (importedFrom files blockSize pos (bb.block + bb.blocks blockSize) rest) = none ↔
      ¬SafeFills blockSize (bb :: rest) := by
  induction rest generalizing last offset pos bb with
  | nil => simp [importedFrom, settle, SafeFills]
  | cons next rest ih =>
    have hend := h.2.le_total
    rw [importedFrom]
    generalize hnext : pos + ((gapChunk (next.block - (bb.block + bb.blocks blockSize))).flatMap
      (Chunk.encode blockSize)).length + chunkHeaderLen = offset'
    have hheader : chunkHeaderLen = 12 := rfl
    have hcont := @continues_imported_iff blockSize bb next offset offset'
      (hoffset.imp_right fun hle => by omega)
    have hjoined : (∃ m, merged? blockSize (bb.imported blockSize offset)
        (next.imported blockSize offset') = some m) ↔ Joined blockSize bb next := by
      simp only [merged?_eq_some_iff, hcont, Joined]
      simp only [BackedBlock.imported, Nat.mul_div_cancel _ hpos,
        Nat.mod_eq_of_lt (show bb.block + bb.blocks blockSize < 2 ^ 32 by omega)]
      grind
    rw [settle, SafeFills]
    cases hmerge : merged? blockSize (bb.imported blockSize offset)
        (next.imported blockSize offset') with
    | none =>
      have hnot : ¬Joined blockSize bb next := by
        rw [← hjoined, hmerge]
        simp
      have hbody := fill_or_body_le hpos files next offset'
      simp only [Option.map_eq_none_iff, ih h.2 (pairwise_cons.mp hsorted).2 hbody, hnot,
        false_implies, true_and]
    | some m =>
      have hjoin : Joined blockSize bb next := hjoined.mp ⟨m, hmerge⟩
      cases rest with
      | nil => simp [importedFrom, SafeFills]
      | cons third rest => simp [importedFrom, hjoin]

/-! ## The import -/

theorem length_chunksFrom_le (files : Files) (blockSize total last : Nat)
    (blocks : List BackedBlock) :
    (chunksFrom files blockSize total last blocks).length ≤ 2 * blocks.length + 1 := by
  have hgap : ∀ gap, (gapChunk gap).length ≤ 1 := by
    intro gap
    rw [length_gapChunk]
    split_ifs <;> omega
  induction blocks generalizing last with
  | nil => exact hgap _
  | cons bb rest ih =>
    have hrest := ih (bb.block + bb.blocks blockSize)
    have hfirst := hgap (bb.block - last)
    rw [chunksFrom, length_append, length_cons, length_cons]
    omega

/-- The writer and the reader sum up the same checksum. -/
def SumsAgree (files : Files) (s : SparseFile) : Prop :=
  sparseCrc32 0 ((s.chunks files).flatMap (Chunk.covered s.blockSize)) =
    sparseCrc32 0 ((s.chunks files).flatMap (Chunk.summed s.blockSize))

instance (files : Files) (s : SparseFile) : Decidable (SumsAgree files s) :=
  inferInstanceAs (Decidable (_ = _))

/-- Blocks without a gap before, between or behind them, and no fill of more than a block. -/
def Solid (blockSize total : Nat) : Nat → List BackedBlock → Prop
  | last, [] => total ≤ last
  | last, bb :: rest => bb.block ≤ last ∧
      (∀ val, bb.backing = .fill val → bb.blocks blockSize = 1) ∧
      Solid blockSize total (bb.block + bb.blocks blockSize) rest

theorem fillBytes_words (val : UInt32) (n : Nat) :
    fillBytes val (n * 4) = (List.replicate n (leBytes 4 val.toNat)).flatten := by
  induction n with
  | zero => rfl
  | succ n ih =>
    rw [Nat.succ_mul, add_comm, fillBytes_add val (dvd_refl 4), ih, replicate_succ, flatten_cons]
    rfl

theorem covered_eq_summed {bb : BackedBlock} (files : Files) (hwords : 4 ∣ blockSize)
    (h : ∀ val, bb.backing = .fill val → bb.blocks blockSize = 1) :
    (bb.chunk files blockSize).covered blockSize = (bb.chunk files blockSize).summed blockSize := by
  unfold BackedBlock.chunk
  cases hbacking : bb.backing with
  | fill val =>
    dsimp only [Chunk.covered, Chunk.summed]
    rw [h val hbacking, one_mul, ← fillBytes_words, Nat.div_mul_cancel hwords]
  | data | file | fd => rfl

/-- The checksums agree at least where the file has neither gaps nor long fills. -/
theorem sumsAgree_of_solid (files : Files) {s : SparseFile} (hwords : 4 ∣ s.blockSize)
    (h : Solid s.blockSize (s.len / s.blockSize) 0 s.dataBlocks) : SumsAgree files s := by
  unfold SumsAgree SparseFile.chunks
  congr 1
  generalize s.len / s.blockSize = total, 0 = last, s.dataBlocks = blocks at h
  induction blocks generalizing last with
  | nil => simp [chunksFrom, gapChunk, Nat.sub_eq_zero_of_le h]
  | cons bb rest ih =>
    obtain ⟨hgap, hfill, hrest⟩ := h
    rw [chunksFrom, gapChunk, if_neg (by omega), nil_append, flatMap_cons, flatMap_cons,
      covered_eq_summed files hwords hfill, ih _ hrest]

theorem processChunk_crc32 (contents : Bytes) (r : Reader) (blockSize : Nat) (val : UInt32) :
    processChunk contents r chunkHeaderLen ((Chunk.crc32 val).header blockSize) =
      processCrc32Chunk contents r 4 := by
  have hlen : subUInt (chunkHeaderLen + 4) chunkHeaderLen = 4 := by decide
  unfold processChunk
  simp only [Chunk.header, hlen]
  rw [if_neg (by decide), if_neg (by decide), if_neg (by decide), if_pos True.intro]

theorem readChunks_crc32 (before : Bytes) (val : UInt32) (blockSize : Nat) {r : Reader}
    (hpos : r.pos = before.length) :
    readChunks (before ++ (Chunk.crc32 val).encode blockSize) chunkHeaderLen 1 r =
      match r.crcPtr with
      | none => .error .dead
      | some crc =>
        if crc = val then .ok { r with pos := r.pos + chunkHeaderLen + 4 } else .error .failed := by
  have hheader : ChunkHeader.ofBytes ((Chunk.crc32 val).header blockSize).bytes =
      (Chunk.crc32 val).header blockSize := by
    rw [ChunkHeader.ofBytes_bytes]
    rfl
  have hread := readAll_append before ((Chunk.crc32 val).header blockSize).bytes
    (Chunk.crc32 val).body
  have hword := readAll_append (before ++ ((Chunk.crc32 val).header blockSize).bytes)
    (Chunk.crc32 val).body []
  rw [ChunkHeader.length_bytes, ← hpos] at hread
  rw [length_append, ChunkHeader.length_bytes, ← hpos, Chunk.body, length_leBytes,
    append_nil, append_assoc] at hword
  have hval : leValue (leBytes 4 val.toNat) = val.toNat := leValue_leBytes_of_lt val.toNat_lt
  rw [readChunks, Chunk.encode, hread]
  simp only [bind, Except.bind, hheader, processChunk_crc32, processCrc32Chunk, Chunk.body]
  cases r.crcPtr with
  | none => rfl
  | some crc =>
    simp only [hword, hval]
    rw [if_neg (by simp)]
    by_cases hcrc : crc = val
    · rw [if_pos hcrc, if_neg (by rw [hcrc]; simp)]
      rfl
    · rw [if_neg hcrc, if_pos fun h => hcrc (UInt32.toNat_inj.mp h).symm]

section

variable (files : Files) {s : SparseFile} (hfits : Libsparse.Fits s) (crc : Bool)
include hfits

theorem length_allChunks_lt : (s.allChunks files crc).length < 2 ^ 32 := by
  have hle := length_chunksFrom_le files s.blockSize (s.len / s.blockSize) 0 s.dataBlocks
  have hcount := hfits.count_lt
  rw [SparseFile.allChunks, length_append, SparseFile.chunks]
  cases crc with
  | false =>
    simp only [Bool.false_eq_true, if_false, length_nil]
    omega
  | true =>
    simp only [if_true, length_singleton]
    omega

theorem SparseFile.header_ofBytes :
    SparseHeader.ofBytes (s.header files crc).bytes = s.header files crc := by
  have hsize := hfits.blockSize_lt
  have htotal := hfits.total_lt
  have hchunks := length_allChunks_lt files hfits crc
  rw [ofBytes_bytes]
  simp only [SparseFile.header, SparseHeader.mk.injEq]
  refine ⟨rfl, rfl, rfl, rfl, rfl, Nat.mod_eq_of_lt (by omega), Nat.mod_eq_of_lt (by omega),
    Nat.mod_eq_of_lt hchunks, rfl⟩

end

def SparseFile.reader (s : SparseFile) (crc : Bool) : Reader :=
  { file := sparseFileNew s.blockSize s.len, pos := sparseHeaderLen, curBlock := 0
    crcPtr := if crc then some 0 else none }

section

variable (files : Files) {s : SparseFile} (h : Queued s) (hfits : Libsparse.Fits s)
  (wcrc rcrc : Bool)

include h hfits

/-- The import is the loop over the chunks, and a check of the number of blocks. -/
theorem sparseFileImport_eq : sparseFileImport (s.stream files wcrc) rcrc =
      (do
        let r ← readChunks (s.stream files wcrc) chunkHeaderLen (s.allChunks files wcrc).length
          (s.reader rcrc)
        if s.len / s.blockSize ≠ r.curBlock then .error .failed else pure r.file) := by
  have hread : readAll (s.stream files wcrc) 0 sparseHeaderLen =
      .ok (s.header files wcrc).bytes := by
    have hread := readAll_append [] (s.header files wcrc).bytes
      ((s.allChunks files wcrc).flatMap (Chunk.encode s.blockSize))
    rw [length_bytes] at hread
    exact hread
  have hlen : s.len / s.blockSize * s.blockSize = s.len := Nat.div_mul_cancel h.len_dvd
  unfold sparseFileImport sparseFileReadSparse
  simp only [hread, bind, Except.bind, SparseFile.header_ofBytes files hfits]
  simp only [SparseFile.header, hlen]
  rfl

theorem readChunks_stream (after : Bytes) (total : Nat) :
    readChunks ((s.header files wcrc).bytes ++
          ((s.chunks files).flatMap (Chunk.encode s.blockSize) ++ after))
        chunkHeaderLen ((s.chunks files).length + total) (s.reader rcrc) =
      (do
        let file ← (importedFrom files s.blockSize sparseHeaderLen 0 s.dataBlocks).foldlM queueBb
          (sparseFileNew s.blockSize s.len)
        readChunks ((s.header files wcrc).bytes ++
            ((s.chunks files).flatMap (Chunk.encode s.blockSize) ++ after))
          chunkHeaderLen total ((s.reader rcrc).afterAll s.blockSize (s.chunks files) file)) := by
  have hpos := hfits.blockSize_pos
  have hplaced := placed_of_queued h hfits
  have hat : (s.reader rcrc).At s.blockSize (s.header files wcrc).bytes :=
    ⟨(s.header files wcrc).length_bytes.symm, rfl⟩
  have hcur : (s.reader rcrc).curBlock + ((s.chunks files).map (Chunk.blocks s.blockSize)).sum <
      2 ^ 31 := by
    have hsum := sum_blocks_chunksFrom hpos files hplaced
    exact hsum.trans_lt hfits.total_lt
  have hvalid : ∀ c ∈ s.chunks files, c.Valid s.blockSize := valid_chunksFrom hpos files hplaced
  have himport := importBlocks_chunksFrom hpos files hplaced sparseHeaderLen
  rw [readChunks_eq hpos hvalid hat hcur]
  exact congrArg (fun blocks : List BackedBlock => blocks.foldlM queueBb
    (sparseFileNew s.blockSize s.len) >>= _) himport

/-- The import queues the blocks and compares the checksums. -/
theorem sparseFileImport_stream : sparseFileImport (s.stream files wcrc) rcrc =
      (do
        let file ← (importedFrom files s.blockSize sparseHeaderLen 0 s.dataBlocks).foldlM queueBb
          (sparseFileNew s.blockSize s.len)
        if wcrc = true then
          if rcrc = true then if SumsAgree files s then pure file else .error .failed
          else .error .dead
        else pure file) := by
  rw [sparseFileImport_eq files h hfits]
  unfold SparseFile.stream SparseFile.allChunks
  rw [flatMap_append, length_append, readChunks_stream files h hfits, bind_assoc]
  congr 1
  ext1 file
  have hcur : ((s.reader rcrc).afterAll s.blockSize (s.chunks files) file).curBlock =
      s.len / s.blockSize :=
    sum_blocks_chunksFrom hfits.blockSize_pos files (placed_of_queued h hfits)
  cases wcrc with
  | false =>
    change (if s.len / s.blockSize ≠
      ((s.reader rcrc).afterAll s.blockSize (s.chunks files) file).curBlock then _ else _) = _
    rw [hcur, if_neg (by simp)]
    rfl
  | true =>
    simp only [if_true, flatMap_singleton, length_singleton]
    rw [← append_assoc, readChunks_crc32]
    · cases rcrc with
      | false => rfl
      | true =>
        have hcrc : ((s.reader true).afterAll s.blockSize (s.chunks files) file).crcPtr =
            some (sparseCrc32 0 ((s.chunks files).flatMap (Chunk.covered s.blockSize))) := rfl
        rw [hcrc]
        dsimp only
        by_cases hsums : SumsAgree files s
        · rw [if_pos hsums, if_pos (show _ = _ from hsums)]
          simp only [bind, Except.bind]
          rw [hcur, if_neg (by simp)]
          rfl
        · rw [if_neg hsums, if_neg (show ¬(_ = _) from hsums)]
          rfl
    · rw [length_append, length_bytes]
      rfl

end

/-! ## The round trip -/

/-- What is written in the sparse format is imported again as the same image, and
the header counts the chunks. -/
def RoundTrip (files : Files) (s : SparseFile) (wcrc rcrc : Bool) : Prop :=
  ∃ out imported, sparseFileWrite files s true wcrc = .ok out ∧
    (SparseHeader.ofBytes (slice out.contents 0 sparseHeaderLen)).totalChunks = out.chunkCnt ∧
    sparseFileImport out.contents rcrc = .ok imported ∧
    imported.blockSize = s.blockSize ∧ imported.len = s.len ∧
    imported.image { files with byFd := fun _ => out.contents } = s.image files

theorem settleAll_importedFrom_eq_none_iff (files : Files) {s : SparseFile} (h : Queued s)
    (hfits : Fits s) :
    settleAll s.blockSize (importedFrom files s.blockSize sparseHeaderLen 0 s.dataBlocks) = none ↔
      ¬SafeFills s.blockSize s.dataBlocks := by
  have hplaced := placed_of_queued h hfits
  have hsorted := h.sorted.imp fun hab => hab.1
  have hpos := hfits.blockSize_pos
  revert hplaced hsorted
  cases s.dataBlocks with
  | nil =>
    intro _ _
    simp [importedFrom, settleAll, SafeFills]
  | cons bb rest =>
    intro hplaced hsorted
    exact settle_importedFrom_eq_none_iff hpos hfits.total_lt files hplaced hsorted
      (fill_or_body_le hpos files bb _)

section

variable (files : Files) {s imported : SparseFile} (h : Queued s) (hfits : Fits s)
  (wcrc rcrc : Bool)

include h hfits

theorem image_imported {settled : List BackedBlock}
    (hsettle : settleAll s.blockSize
      (importedFrom files s.blockSize sparseHeaderLen 0 s.dataBlocks) = some settled)
    (himported : (sparseFileNew s.blockSize s.len).Has settled imported) :
    imported.image { files with byFd := fun _ => s.stream files wcrc } =
      (s.chunks files).flatMap (Chunk.image s.blockSize) := by
  obtain ⟨hsize, hlen, hblocks⟩ := himported
  have hpos := hfits.blockSize_pos
  have hplaced := placed_of_queued h hfits
  have hvalid : ∀ c ∈ s.chunks files, c.Valid s.blockSize := valid_chunksFrom hpos files hplaced
  have hstream : s.stream files wcrc = (s.header files wcrc).bytes ++
      ((s.chunks files).flatMap (Chunk.encode s.blockSize) ++
        (if wcrc then [Chunk.crc32 (sparseCrc32 0 ((s.chunks files).flatMap
          (Chunk.summed s.blockSize)))] else []).flatMap (Chunk.encode s.blockSize)) := by
    rw [SparseFile.stream, SparseFile.allChunks, flatMap_append]
  have hfiles : Files.byFd { files with byFd := fun _ => s.stream files wcrc } 0 =
      s.stream files wcrc := rfl
  have himage := imageFrom_importBlocks hpos hfiles hvalid hstream (Nat.le_refl 0)
    (sum_blocks_chunksFrom hpos files hplaced)
  rw [length_bytes, SparseFile.chunks, importBlocks_chunksFrom hpos files hplaced,
    Nat.sub_self, zero_mul, replicate_zero, nil_append] at himage
  have hwhole := @whole_importedFrom _ _ _ files hpos hfits.total_lt sparseHeaderLen _ hplaced
  rw [SparseFile.image, hsize, hlen, hblocks]
  exact (imageFrom_settleAll hpos hfits.words _ _ _ hwhole hsettle).trans himage

theorem sparseFileImport_ok (hfills : SafeFills s.blockSize s.dataBlocks)
    (hcrc : wcrc = true → rcrc = true ∧ SumsAgree files s) :
    ∃ imported, sparseFileImport (s.stream files wcrc) rcrc = .ok imported ∧
      imported.blockSize = s.blockSize ∧ imported.len = s.len ∧
      imported.image { files with byFd := fun _ => s.stream files wcrc } =
        (s.chunks files).flatMap (Chunk.image s.blockSize) := by
  have hsorted := sorted_importedFrom files s.blockSize sparseHeaderLen 0
    (h.sorted.imp fun hab => hab.1)
  have hnone := settleAll_importedFrom_eq_none_iff files h hfits
  obtain ⟨settled, hsettle⟩ := Option.ne_none_iff_exists'.mp fun hn => hnone.mp hn hfills
  obtain ⟨imported, hqueue, hhas⟩ := (foldlM_queueBb_new hsorted).1 settled hsettle
  refine ⟨imported, ?_, hhas.1, hhas.2.1, image_imported files h hfits wcrc hsettle hhas⟩
  rw [sparseFileImport_stream files h hfits, hqueue]
  cases wcrc with
  | false => rfl
  | true =>
    obtain ⟨rfl, hsums⟩ := hcrc rfl
    simp only [bind, Except.bind, if_true, if_pos hsums]
    rfl

theorem of_sparseFileImport_ok (hread : sparseFileImport (s.stream files wcrc) rcrc =
      .ok imported) :
    SafeFills s.blockSize s.dataBlocks ∧ (wcrc = true → rcrc = true ∧ SumsAgree files s) := by
  rw [sparseFileImport_stream files h hfits, bind_eq_ok] at hread
  obtain ⟨file, hfile, hresult⟩ := hread
  constructor
  · by_contra hfills
    have hsorted := sorted_importedFrom files s.blockSize sparseHeaderLen 0
      (h.sorted.imp fun hab => hab.1)
    rw [(foldlM_queueBb_new hsorted).2
      ((settleAll_importedFrom_eq_none_iff files h hfits).mpr hfills)] at hfile
    cases hfile
  · rintro rfl
    rw [if_pos rfl] at hresult
    split_ifs at hresult with hr hsums
    exact ⟨hr, hsums⟩

/-- The stream is imported as the same image exactly if nothing comes after two
merged fills, no fill was rounded up over other bytes than zeros, and a checksum
is checked and covers what the reader's does. -/
theorem roundTrip_iff (hbacked : s.Backed files) :
    RoundTrip files s wcrc rcrc ↔
      SafeFills s.blockSize s.dataBlocks ∧ (∀ bb ∈ s.dataBlocks, bb.ZeroTail s.blockSize) ∧
        (wcrc = true → rcrc = true ∧ SumsAgree files s) := by
  obtain ⟨out, hwrite, hcontents, hcount⟩ := sparseFileWrite_sparse files h hfits hbacked wcrc
  have himage : s.image files = (s.chunks files).flatMap (Chunk.image s.blockSize) ↔
      ∀ bb ∈ s.dataBlocks, bb.ZeroTail s.blockSize :=
    imageFrom_eq_chunks_iff hfits.blockSize_pos files _ _ _
  constructor
  · rintro ⟨out', imported, hwrite', -, hread, -, -, hsame⟩
    obtain rfl : out' = out := Except.ok.inj (hwrite'.symm.trans hwrite)
    rw [hcontents] at hread hsame
    obtain ⟨hfills, hcrc⟩ := of_sparseFileImport_ok files h hfits wcrc rcrc hread
    obtain ⟨imported', hread', -, -, hchunks⟩ :=
      sparseFileImport_ok files h hfits wcrc rcrc hfills hcrc
    obtain rfl : imported' = imported := Except.ok.inj (hread'.symm.trans hread)
    exact ⟨hfills, himage.mp (hsame.symm.trans hchunks), hcrc⟩
  · rintro ⟨hfills, htails, hcrc⟩
    obtain ⟨imported, hread, hsize, hlen, hchunks⟩ :=
      sparseFileImport_ok files h hfits wcrc rcrc hfills hcrc
    refine ⟨out, imported, hwrite, ?_, hcontents ▸ hread, hsize, hlen, ?_⟩
    · have hslice := slice_append [] (s.header files wcrc).bytes
        ((s.allChunks files wcrc).flatMap (Chunk.encode s.blockSize))
      rw [length_bytes, nil_append] at hslice
      rw [hcontents, SparseFile.stream]
      refine (congrArg (fun bytes => (SparseHeader.ofBytes bytes).totalChunks) hslice).trans ?_
      rw [SparseFile.header_ofBytes files hfits, hcount]
      rfl
    · rw [hcontents, hchunks]
      exact (himage.mpr htails).symm

end

def noFiles : Files := { byName := fun _ => [], byFd := fun _ => [] }

/-- Data that is shorter than a block, then a fill of one block. -/
def solidFile : SparseFile :=
  { blockSize := 4, len := 8, lastUsed := none
    dataBlocks :=
      [{ block := 0, len := 3, backing := .data [1, 2, 3] },
        { block := 1, len := 4, backing := .fill 5 }] }

theorem queued_solidFile : Queued solidFile := ⟨by decide, by decide, by decide⟩

theorem fits_solidFile : Fits solidFile where
  blockSize_pos := by decide
  blockSize_le := by decide
  words := by decide
  total_lt := by decide
  count_lt := by decide
  blocks_lt := by decide

theorem backed_solidFile : solidFile.Backed noFiles := by
  simp [SparseFile.Backed, solidFile, BackedBlock.Backed, maxWrite]

theorem roundTrip_solidFile : RoundTrip noFiles solidFile true true := by
  apply (roundTrip_iff noFiles queued_solidFile fits_solidFile true true backed_solidFile).mpr
  refine ⟨?_, ?_, fun _ => ⟨rfl, sumsAgree_of_solid noFiles (by decide) ?_⟩⟩
  · simp [solidFile, SafeFills, Joined]
  · simp only [solidFile, forall_mem_cons, BackedBlock.ZeroTail]
    refine ⟨True.intro, fun i hlen hi => absurd hi (by simp [BackedBlock.blocks]; omega), by simp⟩
  · simp [solidFile, Solid, BackedBlock.blocks]

def gapFile : SparseFile :=
  { blockSize := 4, len := 8, lastUsed := none
    dataBlocks := [{ block := 0, len := 4, backing := .data [1, 2, 3, 4] }] }

/-- The checksum that is written leaves the gap out, and the one that is compared
with it does not. -/
theorem import_gapFile_fails :
    Queued gapFile ∧ ∃ out, sparseFileWrite noFiles gapFile true true = .ok out ∧
      sparseFileImport out.contents true = .error .failed := by
  refine ⟨⟨by decide, by decide, by decide⟩, ?_⟩
  exact ⟨_, rfl, by decide +kernel⟩

end ShieldTv.Libsparse
