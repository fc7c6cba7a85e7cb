import ShieldTv.Libsparse.Proofs.RoundTrip

/-!
# The plain format

The plain writer seeks over what it does not write.  `Plain` says which bytes
stand before its position.
-/

namespace ShieldTv.Libsparse

open List

/-- A plain output file with `bytes` before its position; what was seeked over
and not yet written reads as zeros. -/
structure OutputFile.Plain (out : OutputFile) (blockSize len : Nat) (bytes : Bytes) : Prop where
  sparse : out.sparse = false
  blockSize_eq : out.blockSize = blockSize
  len_eq : out.len = len
  pos_eq : out.pos = bytes.length
  bytes_eq : ∃ n, out.contents ++ List.replicate n 0 = bytes

/-- The bytes that a block takes in a plain image: a fill is not padded. -/
def BackedBlock.plain (files : Files) (blockSize : Nat) (bb : BackedBlock) : Bytes :=
  bb.items files blockSize id fillBytes

def plainFrom (files : Files) (blockSize total : Nat) : Nat → List BackedBlock → Bytes :=
  itemsFrom files blockSize total (fun gap => List.replicate (gap * blockSize) 0) id fillBytes

variable {bb : BackedBlock} {out : OutputFile} {blockSize last : Nat} {blocks : List BackedBlock}
  {s : SparseFile}

section

variable {len : Nat} {bytes data : Bytes} (h : out.Plain blockSize len bytes)

include h

theorem fileSkip_plain (cnt : Nat) :
    (fileSkip out cnt).Plain blockSize len (bytes ++ List.replicate cnt 0) := by
  obtain ⟨n, hbytes⟩ := h.bytes_eq
  constructor
  · exact h.sparse
  · exact h.blockSize_eq
  · exact h.len_eq
  · rw [length_append, length_replicate, ← h.pos_eq]
    rfl
  · refine ⟨n + cnt, ?_⟩
    rw [← replicate_append_replicate, ← append_assoc, ← hbytes]
    rfl

theorem fileWrite_plain (hdata : data.length ≤ maxWrite) :
    ∃ out', fileWrite out data = .ok out' ∧ out'.Plain blockSize len (bytes ++ data) := by
  obtain ⟨n, hbytes⟩ := h.bytes_eq
  refine ⟨_, if_pos hdata, ?_⟩
  cases data with
  | nil =>
    rw [append_nil]
    exact ⟨h.sparse, h.blockSize_eq, h.len_eq, h.pos_eq, n, hbytes⟩
  | cons d data =>
    have hcontents : overwrite out.contents out.pos (d :: data) = bytes ++ d :: data := by
      have hlen : bytes.length = out.contents.length + n := by simp [← hbytes]
      unfold overwrite
      rw [if_neg (by simp), h.pos_eq, hlen, Nat.add_sub_cancel_left, hbytes, ← hlen, take_length,
        drop_eq_nil_of_le (by omega), append_nil]
    constructor
    · exact h.sparse
    · exact h.blockSize_eq
    · exact h.len_eq
    · rw [length_append, ← h.pos_eq]
    · exact ⟨0, by rw [replicate_zero, append_nil]; exact hcontents⟩

theorem filePad_plain (hlen : bytes.length ≤ len) :
    (filePad out out.len).contents = bytes ++ List.replicate (len - bytes.length) 0 := by
  obtain ⟨n, rfl⟩ := h.bytes_eq
  rw [length_append, length_replicate] at hlen ⊢
  unfold filePad
  rw [h.len_eq, append_assoc, replicate_append_replicate, ← Nat.sub_sub,
    Nat.add_sub_cancel' (by omega)]
  rw [take_of_length_le (by omega)]

variable (hpos : 0 < blockSize) (hsize : blockSize ≤ maxWrite)

include hpos hsize

theorem writeDataChunk_plain {blocks : Nat}
    (hblocks : (data.length + blockSize - 1) / blockSize = blocks)
    (hlen : blocks * blockSize < 2 ^ 31) (hdata : data.length ≤ maxWrite) :
    ∃ out', writeDataChunk out data = .ok out' ∧ out'.Plain blockSize len
      (bytes ++ (data ++ List.replicate (blocks * blockSize - data.length) 0)) := by
  have hle := le_roundUp hpos data.length
  rw [hblocks] at hle
  have halign : align data.length blockSize = blocks * blockSize := by
    rw [align_eq hpos (lt_of_le_maxWrite hsize) (by rw [hblocks]; exact hlen), hblocks]
  obtain ⟨out', hwrite, hplain⟩ := fileWrite_plain h hdata
  unfold writeDataChunk writeNormalDataChunk
  simp only [h.sparse, Bool.false_eq_true, if_false, h.blockSize_eq, hwrite, bind, Except.bind,
    halign]
  refine ⟨_, rfl, ?_⟩
  rw [← append_assoc]
  split_ifs with hpad
  · exact fileSkip_plain hplain _
  · rw [show blocks * blockSize - data.length = 0 by omega, replicate_zero, append_nil]
    exact hplain

theorem writeFillLoop_plain (hwords : 4 ∣ blockSize) (val : UInt32) {fuel fillLen : Nat}
    (hfuel : fillLen ≤ fuel) :
    ∃ out', writeFillLoop (fillBuf blockSize val) blockSize fuel fillLen out = .ok out' ∧
      out'.Plain blockSize len (bytes ++ fillBytes val fillLen) := by
  have hbuf : fillBuf blockSize val = fillBytes val blockSize := by
    unfold fillBuf
    rw [Nat.mod_eq_zero_of_dvd hwords, Nat.div_mul_cancel hwords, replicate_zero, append_nil]
  induction fuel generalizing fillLen out bytes with
  | zero =>
    obtain rfl : fillLen = 0 := by omega
    exact ⟨out, rfl, by rw [fillBytes, range_zero, map_nil, append_nil]; exact h⟩
  | succ fuel ih =>
    rw [writeFillLoop]
    by_cases hzero : fillLen = 0
    · rw [if_pos hzero, hzero]
      exact ⟨out, rfl, by rw [fillBytes, range_zero, map_nil, append_nil]; exact h⟩
    · rw [if_neg hzero]
      have hpart : (fillBuf blockSize val).take (min fillLen blockSize) =
          fillBytes val (min fillLen blockSize) := by
        rw [hbuf, fillBytes, fillBytes, ← map_take, take_range,
          Nat.min_eq_left (Nat.min_le_right _ _)]
      have hshort : (fillBytes val (min fillLen blockSize)).length ≤ maxWrite := by
        rw [length_fillBytes]
        omega
      obtain ⟨out', hwrite, hplain⟩ := fileWrite_plain h hshort
      obtain ⟨out'', hloop, hrest⟩ := @ih out' (bytes ++ fillBytes val (min fillLen blockSize))
        hplain
        (fillLen - min fillLen blockSize) (by omega)
      simp only [hpart, hwrite, bind, Except.bind]
      refine ⟨out'', hloop, ?_⟩
      have hsplit : fillBytes val fillLen =
          fillBytes val (min fillLen blockSize) ++
            fillBytes val (fillLen - min fillLen blockSize) := by
        by_cases hle : fillLen ≤ blockSize
        · rw [Nat.min_eq_left hle, Nat.sub_self]
          exact (append_nil _).symm
        · rw [Nat.min_eq_right (by omega), ← fillBytes_add val hwords,
            Nat.add_sub_cancel' (by omega)]
      rw [hsplit, ← append_assoc]
      exact hrest

end

/-- The plain format writes bytes. -/
theorem format_plain (len : Nat) (hpos : 0 < blockSize) (hsize : blockSize ≤ maxWrite)
    (hwords : 4 ∣ blockSize) :
    Format blockSize (fun out bytes => out.Plain blockSize len bytes)
      (fun gap => List.replicate (gap * blockSize) 0) id fillBytes where
  gap_zero := by rw [zero_mul, replicate_zero]
  writeSkip := by
    intro out bytes blocks h _
    rw [writeSkipChunk, if_neg (by rw [h.sparse]; simp)]
    exact fileSkip_plain h _
  writeData h hblocks hlen hdata := writeDataChunk_plain h hpos hsize hblocks hlen hdata
  writeFill := by
    intro out bytes fillLen val h _
    unfold writeFillChunk writeNormalFillChunk
    simp only [h.sparse, Bool.false_eq_true, if_false, h.blockSize_eq]
    exact writeFillLoop_plain h hpos hsize hwords val le_rfl

section

variable {total : Nat} (hpos : 0 < blockSize)

include hpos

theorem length_plain_le (files : Files) (bb : BackedBlock) :
    (bb.plain files blockSize).length ≤ bb.blocks blockSize * blockSize := by
  have hle := le_roundUp hpos bb.len
  have hlen := bb.length_padded files hpos
  unfold BackedBlock.plain BackedBlock.items
  cases bb.backing with
  | fill val =>
    rw [length_fillBytes]
    exact hle
  | data | file | fd => exact hlen.le

theorem length_plainFrom_le (files : Files) (h : Placed blockSize total last blocks) :
    last * blockSize + (plainFrom files blockSize total last blocks).length ≤
      total * blockSize := by
  induction blocks generalizing last with
  | nil =>
    have hle : last * blockSize ≤ total * blockSize := Nat.mul_le_mul_right _ h
    rw [plainFrom, itemsFrom, length_replicate, Nat.sub_mul, Nat.add_sub_cancel' hle]
  | cons bb rest ih =>
    have hrest := ih h.2
    have hplain := length_plain_le hpos files bb
    have hgap : (bb.block - last) * blockSize = bb.block * blockSize - last * blockSize :=
      Nat.sub_mul _ _ _
    have hle : last * blockSize ≤ bb.block * blockSize := Nat.mul_le_mul_right _ h.1.1
    rw [add_mul] at hrest
    rw [plainFrom, itemsFrom, length_append, length_append, length_replicate]
    unfold plainFrom BackedBlock.plain at *
    omega

end

section

variable (files : Files) (h : Queued s) (hfits : Libsparse.Fits s)
include h hfits

def SparseFile.plain (files : Files) (s : SparseFile) : Bytes :=
  plainFrom files s.blockSize (s.len / s.blockSize) 0 s.dataBlocks

theorem length_plain_le_len : (s.plain files).length ≤ s.len := by
  have hle := length_plainFrom_le hfits.blockSize_pos files (placed_of_queued h hfits)
  rwa [zero_mul, zero_add, Nat.div_mul_cancel h.len_dvd] at hle

theorem sparseFileWrite_plain (hbacked : s.Backed files) (crc : Bool) :
    ∃ out, sparseFileWrite files s false crc = .ok out ∧
      out.contents = s.plain files ++ List.replicate (s.len - (s.plain files).length) 0 := by
  have hinit : outputFileInit s.blockSize s.len false (sparseCountChunks s) crc =
      .ok { s.created crc with sparse := false } := by
    unfold outputFileInit
    rw [if_neg (not_le.mpr hfits.blockSize_lt), if_neg (by simp)]
    rfl
  have hempty : OutputFile.Plain { s.created crc with sparse := false } s.blockSize s.len [] :=
    ⟨rfl, rfl, rfl, rfl, 0, rfl⟩
  obtain ⟨out, hwrite, hplain⟩ := (format_plain s.len hfits.blockSize_pos hfits.blockSize_le
    hfits.words).writeAllBlocks files hempty rfl h hfits hbacked
  refine ⟨filePad out out.len, ?_, filePad_plain hplain (length_plain_le_len files h hfits)⟩
  unfold sparseFileWrite
  simp only [hinit, hwrite, bind, Except.bind, writeEndChunk, hplain.sparse]
  rfl

end

/-! ## The two formats -/

/-- An image with nothing read as zeros. -/
def expand (image : List (Option UInt8)) : Bytes := image.map (·.getD 0)

/-- The plain image is what the sparse stream is imported as. -/
def FormatsAgree (files : Files) (s : SparseFile) (crc rcrc : Bool) : Prop :=
  ∃ plain sparse imported, sparseFileWrite files s false crc = .ok plain ∧
    sparseFileWrite files s true false = .ok sparse ∧
    sparseFileImport sparse.contents rcrc = .ok imported ∧
    plain.contents = expand (imported.image { files with byFd := fun _ => sparse.contents })

/-- The formats agree if the import succeeds and the chunks expand to the plain
bytes. -/
theorem formatsAgree_iff_expand (files : Files) (h : Queued s) (hfits : Fits s)
    (hbacked : s.Backed files) (crc rcrc : Bool) :
    FormatsAgree files s crc rcrc ↔ SafeFills s.blockSize s.dataBlocks ∧
      s.plain files ++ List.replicate (s.len - (s.plain files).length) 0 =
        expand ((s.chunks files).flatMap (Chunk.image s.blockSize)) := by
  obtain ⟨plain, hplain, hbytes⟩ := sparseFileWrite_plain files h hfits hbacked crc
  obtain ⟨sparse, hsparse, hstream, -⟩ := sparseFileWrite_sparse files h hfits hbacked false
  rw [← hbytes]
  constructor
  · rintro ⟨plain', sparse', imported, hplain', hsparse', hread, hsame⟩
    obtain rfl : plain' = plain := Except.ok.inj (hplain'.symm.trans hplain)
    obtain rfl : sparse' = sparse := Except.ok.inj (hsparse'.symm.trans hsparse)
    rw [hstream] at hread hsame
    obtain ⟨hfills, hcrc⟩ := of_sparseFileImport_ok files h hfits false rcrc hread
    obtain ⟨imported', hread', -, -, hchunks⟩ :=
      sparseFileImport_ok files h hfits false rcrc hfills hcrc
    obtain rfl : imported' = imported := Except.ok.inj (hread'.symm.trans hread)
    exact ⟨hfills, by rw [hsame, hchunks]⟩
  · rintro ⟨hfills, hsame⟩
    obtain ⟨imported, hread, -, -, hchunks⟩ :=
      sparseFileImport_ok files h hfits false rcrc hfills nofun
    exact ⟨plain, sparse, imported, hplain, hsparse, hstream ▸ hread, by
      rw [hstream, hchunks, hsame]⟩

/-! ## Fills of whole blocks -/

/-- Every fill is a number of whole blocks. -/
def WholeFills (s : SparseFile) : Prop :=
  ∀ bb ∈ s.dataBlocks, ∀ val, bb.backing = .fill val → s.blockSize ∣ bb.len

theorem expand_append (xs ys : List (Option UInt8)) : expand (xs ++ ys) = expand xs ++ expand ys :=
  map_append

theorem expand_none (n : Nat) : expand (List.replicate n none) = List.replicate n 0 :=
  map_replicate

theorem expand_some (bytes : Bytes) : expand (bytes.map some) = bytes := by
  unfold expand
  rw [map_map]
  exact map_id _

section

variable (hpos : 0 < blockSize) (files : Files)

include hpos

theorem plain_eq_expand (h : ∀ val, bb.backing = .fill val → blockSize ∣ bb.len) :
    bb.plain files blockSize = expand ((bb.chunk files blockSize).image blockSize) := by
  obtain ⟨block, len, backing⟩ := bb
  cases backing with
  | fill val =>
    have hdvd : blockSize ∣ len := h val rfl
    have hlen : (len + blockSize - 1) / blockSize * blockSize = len := by
      rw [roundUp_of_dvd hpos hdvd, Nat.div_mul_cancel hdvd]
    refine (expand_some _).symm.trans ?_
    unfold BackedBlock.chunk BackedBlock.blocks Chunk.image
    dsimp only
    rw [hlen]
    rfl
  | data | file | fd => exact (expand_some _).symm

theorem plainFrom_eq_expand {total last : Nat} {blocks : List BackedBlock}
    (h : ∀ bb ∈ blocks, ∀ val, bb.backing = .fill val → blockSize ∣ bb.len) :
    expand ((chunksFrom files blockSize total last blocks).flatMap (Chunk.image blockSize)) =
      plainFrom files blockSize total last blocks := by
  induction blocks generalizing last with
  | nil => rw [chunksFrom, gapChunk_image, expand_none, plainFrom, itemsFrom]
  | cons bb rest ih =>
    rw [chunksFrom, flatMap_append, flatMap_cons, gapChunk_image, expand_append,
      expand_append, expand_none, ← plain_eq_expand hpos files (h bb (by simp)),
      ih fun b hb => h b (by simp [hb])]
    rfl

end

/-! ## Other fill values -/

def BackedBlock.refill (val : Nat → UInt32) (bb : BackedBlock) : BackedBlock :=
  match bb.backing with
  | .fill _ => { bb with backing := .fill (val bb.block) }
  | .data _ | .file _ _ | .fd _ _ => bb

def SparseFile.refill (s : SparseFile) (val : Nat → UInt32) : SparseFile :=
  { s with dataBlocks := s.dataBlocks.map (BackedBlock.refill val) }

section

variable (val : Nat → UInt32) (bb : BackedBlock)

@[simp] theorem refill_block : (bb.refill val).block = bb.block := by
  obtain ⟨block, len, backing⟩ := bb
  cases backing <;> rfl

@[simp] theorem refill_len : (bb.refill val).len = bb.len := by
  obtain ⟨block, len, backing⟩ := bb
  cases backing <;> rfl

@[simp] theorem refill_blocks (blockSize : Nat) :
    (bb.refill val).blocks blockSize = bb.blocks blockSize := by
  unfold BackedBlock.blocks
  rw [refill_len]

theorem refill_backed {files : Files} (h : bb.Backed files) : (bb.refill val).Backed files := by
  obtain ⟨block, len, backing⟩ := bb
  cases backing <;> exact h

theorem refill_fill {fillVal : UInt32} (h : (bb.refill val).backing = .fill fillVal) :
    (∃ old, bb.backing = .fill old) ∧ fillVal = val bb.block := by
  obtain ⟨block, len, backing⟩ := bb
  cases backing with
  | fill old =>
    cases h
    exact ⟨⟨old, rfl⟩, rfl⟩
  | data | file | fd => cases h

end

theorem queued_refill (h : Queued s) (val : Nat → UInt32) : Queued (s.refill val) where
  len_dvd := h.len_dvd
  sorted := by simpa [SparseFile.refill, pairwise_map] using h.sorted
  inside := by simpa [SparseFile.refill] using h.inside

theorem fits_refill (h : Fits s) (val : Nat → UInt32) : Fits (s.refill val) where
  blockSize_pos := h.blockSize_pos
  blockSize_le := h.blockSize_le
  words := h.words
  total_lt := h.total_lt
  count_lt := by simpa [SparseFile.refill] using h.count_lt
  blocks_lt := by simpa [SparseFile.refill] using h.blocks_lt

theorem backed_refill {files : Files} (h : s.Backed files) (val : Nat → UInt32) :
    (s.refill val).Backed files :=
  forall_mem_map.mpr fun bb hbb => refill_backed val bb (h bb hbb)

/-! ## Counting the bytes of a fill -/

theorem fillByte_ones (i : Nat) : fillByte 0xFFFFFFFF i = 255 := by
  have hbytes : ∀ j < 4,
      (ShieldTv.Lib.Bytes.leBytes 4 (0xFFFFFFFF : UInt32).toNat).getD j 0 = 255 := by
    decide
  exact hbytes (i % 4) (Nat.mod_lt i (by decide))

section

variable (hpos : 0 < blockSize) (files : Files)

include hpos

/-- A fill of ones that ends inside a block is longer in the sparse format. -/
theorem count_plain (bb : BackedBlock) :
    (bb.plain files blockSize).count 255 ≤
        (expand ((bb.chunk files blockSize).image blockSize)).count 255 ∧
      (bb.backing = .fill 0xFFFFFFFF → ¬blockSize ∣ bb.len → (bb.plain files blockSize).count 255 <
        (expand ((bb.chunk files blockSize).image blockSize)).count 255) := by
  obtain ⟨block, len, backing⟩ := bb
  cases backing with
  | fill val =>
    have hle := le_roundUp hpos len
    simp only [BackedBlock.plain, BackedBlock.items, BackedBlock.chunk, Chunk.image, expand_some]
    rw [BackedBlock.blocks, fillBytes_split val hle, count_append]
    refine ⟨Nat.le_add_right _ _, ?_⟩
    rintro ⟨⟩ hpart
    have hne : len ≠ (len + blockSize - 1) / blockSize * blockSize := by
      intro heq
      exact hpart (heq ▸ Nat.dvd_mul_left _ _)
    simp only [fillByte_ones, map_const', length_range, count_replicate_self]
    omega
  | data | file | fd => exact ⟨(congrArg _ (expand_some _).symm).le, (by simp)⟩

theorem count_plainFrom (total last : Nat) (blocks : List BackedBlock) :
    (plainFrom files blockSize total last blocks).count 255 ≤
        (expand ((chunksFrom files blockSize total last blocks).flatMap
          (Chunk.image blockSize))).count 255 ∧
      ∀ bb ∈ blocks, bb.backing = .fill 0xFFFFFFFF → ¬blockSize ∣ bb.len →
        (plainFrom files blockSize total last blocks).count 255 <
          (expand ((chunksFrom files blockSize total last blocks).flatMap
            (Chunk.image blockSize))).count 255 := by
  induction blocks generalizing last with
  | nil =>
    rw [chunksFrom, gapChunk_image, expand_none, plainFrom, itemsFrom]
    exact ⟨le_rfl, (by simp)⟩
  | cons first rest ih =>
    obtain ⟨hfirst, hfirst'⟩ := count_plain hpos files first
    obtain ⟨hrest, hrest'⟩ := ih (first.block + first.blocks blockSize)
    rw [chunksFrom, flatMap_append, flatMap_cons, gapChunk_image, expand_append, expand_append,
      expand_none, plainFrom, itemsFrom, ← plainFrom, ← BackedBlock.plain]
    simp only [count_append]
    refine ⟨by omega, fun bb hbb hfill hpart => ?_⟩
    rcases mem_cons.mp hbb with rfl | hmem
    · have hlt := hfirst' hfill hpart
      omega
    · have hlt := hrest' bb hmem hfill hpart
      omega

end

/-! ## When the formats agree -/

theorem Chunk.length_images {chunks : List Chunk} (hvalid : ∀ c ∈ chunks, c.Valid blockSize) :
    (chunks.flatMap (Chunk.image blockSize)).length =
      (chunks.map (Chunk.blocks blockSize)).sum * blockSize := by
  induction chunks with
  | nil => rw [map_nil, sum_nil, zero_mul]; rfl
  | cons c chunks ih =>
    have hc : (c.image blockSize).length = c.blocks blockSize * blockSize := by
      have hvalid := hvalid c (by simp)
      cases c with
      | raw bytes => rw [Chunk.image, length_map, Chunk.blocks, Nat.div_mul_cancel hvalid.1]
      | fill val blocks => rw [Chunk.image, length_map, length_fillBytes]; rfl
      | skip blocks => rw [Chunk.image, length_replicate]; rfl
      | crc32 val => exact hvalid.elim
    rw [flatMap_cons, length_append, hc, ih fun c' hc' => hvalid c' (by simp [hc']),
      map_cons, sum_cons, add_mul]

theorem safeFills_of_pairwise
    (h : blocks.Pairwise fun a b => ¬∃ val, a.backing = .fill val ∧ b.backing = .fill val) :
    SafeFills blockSize blocks := by
  induction blocks with
  | nil => exact True.intro
  | cons a rest ih =>
    obtain ⟨hfirst, hrest⟩ := pairwise_cons.mp h
    cases rest with
    | nil => exact True.intro
    | cons b rest => exact ⟨fun hjoined => absurd hjoined.2 (hfirst b (by simp)), ih hrest⟩

/-- Ones at one place, and different values everywhere else. -/
def onesAt (block : Nat) (b : Nat) : UInt32 := if b = block then 0xFFFFFFFF else UInt32.ofNat b

theorem onesAt_ne {block a b : Nat} (hab : a < b) (hb : b < 2 ^ 31) :
    onesAt block a ≠ onesAt block b := by
  have hofNat : ∀ n, n < 2 ^ 31 → (UInt32.ofNat n).toNat = n := fun n hn =>
    UInt32.toNat_ofNat_of_lt' (hn.trans (by decide))
  intro heq
  have hnat := congrArg UInt32.toNat heq
  have hones : (0xFFFFFFFF : UInt32).toNat = 2 ^ 32 - 1 := by decide
  unfold onesAt at hnat
  split_ifs at hnat with ha hb'
  · omega
  · rw [hones, hofNat b hb] at hnat
    omega
  · rw [hones, hofNat a (by omega)] at hnat
    omega
  · rw [hofNat a (by omega), hofNat b hb] at hnat
    omega

section

variable (files : Files) (h : Queued s) (hfits : Libsparse.Fits s)

include h hfits

theorem block_lt (hbb : bb ∈ s.dataBlocks) : bb.block < 2 ^ 31 := by
  have hinside := h.inside bb hbb
  have hle : bb.block ≤ s.len / s.blockSize := by
    rw [Nat.le_div_iff_mul_le hfits.blockSize_pos]
    omega
  exact hle.trans_lt hfits.total_lt

theorem safeFills_onesAt (block : Nat) :
    SafeFills s.blockSize (s.refill (onesAt block)).dataBlocks := by
  apply safeFills_of_pairwise
  rw [SparseFile.refill, pairwise_map]
  apply h.sorted.imp_of_mem
  rintro a b ha hb ⟨hlt, -⟩ ⟨val, hfilla, hfillb⟩
  have hvala := (refill_fill _ a hfilla).2
  have hvalb := (refill_fill _ b hfillb).2
  exact onesAt_ne hlt (block_lt h hfits hb) (hvala.symm.trans hvalb)

theorem length_image_chunks :
    ((s.chunks files).flatMap (Chunk.image s.blockSize)).length = s.len := by
  have hpos := hfits.blockSize_pos
  have hplaced := placed_of_queued h hfits
  have hsum := sum_blocks_chunksFrom hpos files hplaced
  rw [zero_add] at hsum
  rw [SparseFile.chunks, Chunk.length_images (valid_chunksFrom hpos files hplaced), hsum,
    Nat.div_mul_cancel h.len_dvd]

theorem plain_eq_of_whole (hwhole : WholeFills s) :
    s.plain files ++ List.replicate (s.len - (s.plain files).length) 0 =
      expand ((s.chunks files).flatMap (Chunk.image s.blockSize)) := by
  have hexpand : expand ((s.chunks files).flatMap (Chunk.image s.blockSize)) = s.plain files :=
    plainFrom_eq_expand hfits.blockSize_pos files hwhole
  have hlength : (s.plain files).length = s.len := by
    rw [← hexpand, expand, length_map, length_image_chunks files h hfits]
  rw [hexpand, hlength, Nat.sub_self, replicate_zero, append_nil]

/-- For all safe fill values the two formats agree exactly if every fill is a
number of whole blocks. -/
theorem formatsAgree_iff (hbacked : s.Backed files) (crc rcrc : Bool) :
    (∀ val, FormatsAgree files (s.refill val) crc rcrc ↔
      SafeFills s.blockSize (s.refill val).dataBlocks) ↔ WholeFills s := by
  constructor
  · intro hagree bb hbb old hold
    by_contra hpart
    obtain ⟨-, hsame⟩ := (formatsAgree_iff_expand files (queued_refill h _) (fits_refill hfits _)
      (backed_refill hbacked _) crc rcrc).mp ((hagree _).mpr (safeFills_onesAt h hfits bb.block))
    have hfill : (bb.refill (onesAt bb.block)).backing = .fill 0xFFFFFFFF := by
      simp only [BackedBlock.refill, hold, onesAt, if_true]
    have hlt := (count_plainFrom hfits.blockSize_pos files (s.len / s.blockSize) 0 _).2 _
      (mem_map_of_mem hbb) hfill (by rw [refill_len]; exact hpart)
    have hcount := congrArg (List.count 255) hsame
    rw [count_append, count_replicate, if_neg (by decide)] at hcount
    exact absurd hcount hlt.ne
  · intro hwhole val
    have hrefill : WholeFills (s.refill val) := by
      intro bb hbb fillVal hfill
      obtain ⟨b, hb, rfl⟩ := mem_map.mp hbb
      obtain ⟨⟨old, hold⟩, -⟩ := refill_fill val b hfill
      rw [refill_len]
      exact hwhole b hb old hold
    rw [formatsAgree_iff_expand files (queued_refill h _) (fits_refill hfits _)
      (backed_refill hbacked _) crc rcrc]
    exact and_iff_left (plain_eq_of_whole files (queued_refill h val) (fits_refill hfits val)
      hrefill)

end

theorem formatsAgree_solidFile :
    FormatsAgree noFiles (solidFile.refill fun _ => 7) true false := by
  have hwhole : WholeFills solidFile := by
    intro bb hbb val hfill
    simp only [solidFile, mem_cons, not_mem_nil, or_false] at hbb
    rcases hbb with rfl | rfl
    · cases hfill
    · decide
  apply ((formatsAgree_iff noFiles queued_solidFile fits_solidFile backed_solidFile true false).mpr
    hwhole _).mpr
  simp [solidFile, SparseFile.refill, BackedBlock.refill, SafeFills, Joined]

def halfFile : SparseFile :=
  { blockSize := 4, len := 8, lastUsed := none
    dataBlocks :=
      [{ block := 0, len := 2, backing := .fill 0x01010101 },
        { block := 1, len := 4, backing := .data [9, 9, 9, 9] }] }

/-- In the plain image the data comes right after the half block. -/
theorem formats_differ_halfFile :
    Queued halfFile ∧ ∃ plain sparse imported,
      sparseFileWrite noFiles halfFile false false = .ok plain ∧
      sparseFileWrite noFiles halfFile true false = .ok sparse ∧
      sparseFileImport sparse.contents false = .ok imported ∧
      plain.contents = [1, 1, 9, 9, 9, 9, 0, 0] ∧
      expand (imported.image { noFiles with byFd := fun _ => sparse.contents }) =
        [1, 1, 1, 1, 9, 9, 9, 9] := by
  refine ⟨⟨by decide, by decide, by decide⟩, _, _, _, rfl, rfl, rfl, ?_, ?_⟩
  · decide +kernel
  · decide +kernel

end ShieldTv.Libsparse
