import ShieldTv.Libsparse.Proofs.Import
import ShieldTv.Libsparse.Proofs.Queue

/-!
# The imported image

The image of the blocks that the reader queues is that of the chunks it reads,
whether or not the last two are merged.
-/

namespace ShieldTv.Libsparse

open Lib.Bytes List
open Option hiding map_inj_right map_map

/-! ## Merged blocks -/

def Continues (a b : BackedBlock) : Prop :=
  match a.backing, b.backing with
  | .fill val, .fill val' => val = val'
  | .fd fd offset, .fd fd' offset' => fd = fd' ∧ offset + a.len = offset'
  | _, _ => False

variable {blockSize last : Nat}

theorem merged?_eq_some_iff {a b m : BackedBlock} :
    merged? blockSize a b = some m ↔
      a.block < b.block ∧ (a.block + a.len / blockSize) % 2 ^ 32 = b.block ∧ Continues a b ∧
        m = { a with len := (a.len + b.len) % 2 ^ 32 } := by
  unfold merged? mergeBb Continues
  generalize (a.block + a.len / blockSize) % 2 ^ 32 = next
  generalize (a.len + b.len) % 2 ^ 32 = len
  by_cases hlt : a.block < b.block
  · by_cases hnext : next = b.block
    · rw [if_neg (not_not.mpr hlt), if_neg (not_not.mpr hnext)]
      cases a.backing <;> cases b.backing <;> simp [Except.toOption, hlt, hnext, eq_comm]
    · rw [if_neg (not_not.mpr hlt), if_pos hnext]
      simp [Except.toOption, hnext]
  · rw [if_pos hlt]
    simp [Except.toOption, hlt]

theorem bytesAt_add (contents : Bytes) (offset m n : Nat) :
    bytesAt contents offset (m + n) =
      bytesAt contents offset m ++ bytesAt contents (offset + m) n := by
  unfold bytesAt
  rw [range_add, map_append, map_map]
  simp only [Function.comp_def, add_assoc]

theorem fillBytes_add (val : UInt32) {m : Nat} (hwords : 4 ∣ m) (n : Nat) :
    fillBytes val (m + n) = fillBytes val m ++ fillBytes val n := by
  unfold fillBytes
  rw [range_add, map_append, map_map]
  congr 1
  apply map_congr_left
  intro i _
  rw [Function.comp_apply, fillByte, fillByte, show (m + i) % 4 = i % 4 by omega]

/-- A block of whole image blocks, as the reader queues them. -/
structure Whole (blockSize : Nat) (bb : BackedBlock) : Prop where
  dvd : blockSize ∣ bb.len
  len_lt : bb.len < 2 ^ 31
  end_lt : bb.block + bb.len / blockSize < 2 ^ 32

section

variable (hpos : 0 < blockSize) {bb : BackedBlock}

include hpos

theorem blocks_of_dvd (hdvd : blockSize ∣ bb.len) :
    bb.blocks blockSize = bb.len / blockSize := roundUp_of_dvd hpos hdvd

theorem padded_of_dvd (files : Files) (hdvd : blockSize ∣ bb.len) :
    bb.padded files blockSize = bb.bytes files := by
  rw [BackedBlock.padded, blocks_of_dvd hpos hdvd, Nat.div_mul_cancel hdvd, Nat.sub_self,
    replicate_zero, append_nil]

section

variable (hwords : 4 ∣ blockSize) (files : Files)
include hwords

theorem imageFrom_merged (total last : Nat)
    {a b m : BackedBlock} (ha : Whole blockSize a) (hb : Whole blockSize b)
    (h : merged? blockSize a b = some m) :
    imageFrom files blockSize total last [m] = imageFrom files blockSize total last [a, b] := by
  obtain ⟨-, hnext, hcont, rfl⟩ := merged?_eq_some_iff.mp h
  have hlen : (a.len + b.len) % 2 ^ 32 = a.len + b.len :=
    Nat.mod_eq_of_lt (by have := ha.len_lt; have := hb.len_lt; omega)
  have hblock : b.block = a.block + a.len / blockSize := by
    rw [← hnext, Nat.mod_eq_of_lt ha.end_lt]
  have hbytes : BackedBlock.bytes files { a with len := a.len + b.len } =
      a.bytes files ++ b.bytes files := by
    unfold Continues at hcont
    unfold BackedBlock.bytes
    split at hcont
    · rename_i val val' hfill hfill'
      rw [hfill, hfill', hcont]
      exact fillBytes_add val' (hwords.trans ha.dvd) b.len
    · rename_i fd offset fd' offset' hfd hfd'
      rw [hfd, hfd', ← hcont.1, ← hcont.2]
      exact bytesAt_add _ _ _ _
    · exact hcont.elim
  have hdvd : blockSize ∣ a.len + b.len := Nat.dvd_add ha.dvd hb.dvd
  have hdiv : (a.len + b.len) / blockSize = a.len / blockSize + b.len / blockSize :=
    Nat.add_div_of_dvd_right ha.dvd
  have hpadded := @padded_of_dvd blockSize hpos { a with len := a.len + b.len } files hdvd
  have hblocks := @blocks_of_dvd blockSize hpos { a with len := a.len + b.len } hdvd
  rw [hlen]
  simp only [imageFrom, padded_of_dvd hpos files ha.dvd, padded_of_dvd hpos files hb.dvd, hpadded,
    hbytes, blocks_of_dvd hpos ha.dvd, blocks_of_dvd hpos hb.dvd, hblocks, hdiv, hblock,
    Nat.sub_self, zero_mul, replicate_zero, nil_append, map_append,
    append_assoc, add_assoc]

theorem imageFrom_settle (total : Nat) {rest settled : List BackedBlock}
    (hwhole : ∀ b ∈ bb :: rest, Whole blockSize b) (h : settle blockSize bb rest = some settled) :
    imageFrom files blockSize total last settled =
      imageFrom files blockSize total last (bb :: rest) := by
  induction rest generalizing last bb settled with
  | nil =>
    cases h
    rfl
  | cons next rest ih =>
    rw [settle] at h
    cases hmerge : merged? blockSize bb next with
    | none =>
      rw [hmerge] at h
      obtain ⟨settled', hsettle, rfl⟩ := map_eq_some_iff.mp h
      rw [imageFrom, ih (fun b hb => hwhole b (by simp [hb])) hsettle]
      rfl
    | some m =>
      rw [hmerge] at h
      cases rest with
      | nil =>
        cases h
        exact imageFrom_merged hpos hwords files total last (hwhole bb (by simp))
          (hwhole next (by simp)) hmerge
      | cons => cases h

theorem imageFrom_settleAll (total last : Nat)
    {blocks settled : List BackedBlock} (hwhole : ∀ b ∈ blocks, Whole blockSize b)
    (h : settleAll blockSize blocks = some settled) :
    imageFrom files blockSize total last settled = imageFrom files blockSize total last blocks := by
  cases blocks with
  | nil =>
    cases h
    rfl
  | cons bb rest => exact imageFrom_settle hpos hwords files total hwhole h

end

end

/-! ## The image of chunks -/

def Chunk.image (blockSize : Nat) : Chunk → List (Option UInt8)
  | .raw bytes => bytes.map some
  | .fill val blocks => (fillBytes val (blocks * blockSize)).map some
  | .skip blocks => List.replicate (blocks * blockSize) none
  | .crc32 _ => []

theorem bytesAt_append (before bytes after : Bytes) :
    bytesAt (before ++ (bytes ++ after)) before.length bytes.length = bytes := by
  unfold bytesAt
  apply ext_getElem
  · rw [length_map, length_range]
  · intro i _ hi
    rw [getElem_map, getElem_range, getD_append_right _ _ _ _ (by omega),
      Nat.add_sub_cancel_left, getD_append _ _ _ _ hi, getD_eq_getElem _ _ hi]

theorem imageFrom_importBlocks (hpos : 0 < blockSize) {files : Files} {contents : Bytes}
    (hfiles : files.byFd 0 = contents) {chunks : List Chunk}
    (hvalid : ∀ c ∈ chunks, c.Valid blockSize) {before after : Bytes}
    (hcontents : contents = before ++ (chunks.flatMap (Chunk.encode blockSize) ++ after))
    {total last curBlock : Nat} (hlast : last ≤ curBlock)
    (htotal : curBlock + (chunks.map (Chunk.blocks blockSize)).sum = total) :
    imageFrom files blockSize total last (importBlocks blockSize before.length curBlock chunks) =
      List.replicate ((curBlock - last) * blockSize) none ++
        chunks.flatMap (Chunk.image blockSize) := by
  induction chunks generalizing before last curBlock with
  | nil =>
    rw [map_nil, sum_nil, add_zero] at htotal
    rw [importBlocks, imageFrom, htotal, flatMap_nil, append_nil]
  | cons c chunks ih =>
    rw [map_cons, sum_cons] at htotal
    have hrest := @ih (fun c' hc' => hvalid c' (by simp [hc'])) (before ++ c.encode blockSize)
      (by rw [hcontents, flatMap_cons, append_assoc, append_assoc])
    rw [length_append] at hrest
    have hc := hvalid c (by simp)
    rw [importBlocks, flatMap_cons]
    cases c with
    | crc32 val => exact hc.elim
    | skip blocks =>
      simp only [Chunk.block?, toList_none, nil_append, Chunk.image, Chunk.blocks]
      simp only [Chunk.blocks] at hrest htotal
      rw [hrest (by omega) (by omega), ← append_assoc, replicate_append_replicate,
        ← add_mul, Nat.sub_add_comm hlast]
    | raw bytes =>
      have hbytes : bytesAt (files.byFd 0) (before.length + chunkHeaderLen) bytes.length =
          bytes := by
        have hat := bytesAt_append (before ++ ((Chunk.raw bytes).header blockSize).bytes) bytes
          (chunks.flatMap (Chunk.encode blockSize) ++ after)
        rw [length_append, ChunkHeader.length_bytes, append_assoc] at hat
        rw [hfiles, hcontents, flatMap_cons, Chunk.encode, append_assoc, append_assoc]
        exact hat
      rw [Chunk.block?, toList_some, singleton_append, imageFrom,
        padded_of_dvd hpos files hc.1, blocks_of_dvd hpos hc.1]
      change _ ++ ((bytesAt (files.byFd 0) _ _).map some ++ _) = _
      rw [hbytes, Chunk.blocks]
      simp only [Chunk.blocks] at hrest htotal
      rw [hrest le_rfl (by dsimp only; omega), Nat.sub_self, zero_mul, replicate_zero, nil_append]
      rfl
    | fill val blocks =>
      have hdvd : blockSize ∣ blocks * blockSize := Nat.dvd_mul_left _ _
      rw [Chunk.block?, toList_some, singleton_append, imageFrom,
        padded_of_dvd hpos files hdvd, blocks_of_dvd hpos hdvd, Nat.mul_div_cancel _ hpos,
        Chunk.blocks]
      simp only [Chunk.blocks] at hrest htotal
      rw [hrest le_rfl (by dsimp only; omega), Nat.sub_self, zero_mul, replicate_zero, nil_append]
      rfl

/-! ## The image of a file -/

/-- A fill that ends inside an image block ends in zeros there. -/
def BackedBlock.ZeroTail (blockSize : Nat) (bb : BackedBlock) : Prop :=
  match bb.backing with
  | .fill val => ∀ i, bb.len ≤ i → i < bb.blocks blockSize * blockSize → fillByte val i = 0
  | .data _ | .file _ _ | .fd _ _ => True

theorem fillBytes_split (val : UInt32) {len size : Nat} (hle : len ≤ size) : fillBytes val size =
      fillBytes val len ++ (List.range (size - len)).map fun i => fillByte val (len + i) := by
  unfold fillBytes
  nth_rewrite 1 [show size = len + (size - len) by omega]
  rw [range_add, map_append, map_map]
  rfl

theorem fillBytes_eq_pad_iff (val : UInt32) {len size : Nat} (hle : len ≤ size) :
    fillBytes val len ++ List.replicate (size - len) 0 = fillBytes val size ↔
      ∀ i, len ≤ i → i < size → fillByte val i = 0 := by
  rw [fillBytes_split val hle, append_cancel_left_eq]
  constructor
  · intro h i hlen hsize
    have hget := congrArg (·[i - len]?) h
    simp only [getElem?_replicate, getElem?_map] at hget
    rw [if_pos (by omega), getElem?_range (by omega)] at hget
    rw [show i = len + (i - len) by omega]
    exact (some.inj hget).symm
  · intro h
    apply ext_getElem
    · rw [length_replicate, length_map, length_range]
    · intro i hi _
      rw [length_replicate] at hi
      rw [getElem_replicate, getElem_map, getElem_range]
      exact (h _ (by omega) (by omega)).symm

theorem padded_eq_image_iff (hpos : 0 < blockSize) (files : Files) (bb : BackedBlock) :
    (bb.padded files blockSize).map some = (bb.chunk files blockSize).image blockSize ↔
      bb.ZeroTail blockSize := by
  obtain ⟨block, len, backing⟩ := bb
  cases backing with
  | data bytes | file filename offset | fd fd offset => exact iff_of_true rfl True.intro
  | fill val =>
    rw [BackedBlock.chunk, Chunk.image, map_inj_right (some_injective _)]
    exact fillBytes_eq_pad_iff val (le_roundUp hpos len)

theorem gapChunk_image (blockSize gap : Nat) :
    (gapChunk gap).flatMap (Chunk.image blockSize) = List.replicate (gap * blockSize) none := by
  unfold gapChunk
  split_ifs with hgap
  · rw [flatMap_singleton]
    rfl
  · rw [show gap = 0 by omega, zero_mul]
    rfl

theorem Chunk.length_image_chunk (hpos : 0 < blockSize) (files : Files) (bb : BackedBlock) :
    ((bb.chunk files blockSize).image blockSize).length = bb.blocks blockSize * blockSize := by
  have hlen := bb.length_padded files hpos
  unfold BackedBlock.chunk
  cases bb.backing with
  | fill val => exact (length_map ..).trans (length_fillBytes ..)
  | data | file | fd => exact (length_map ..).trans hlen

/-- The image of the chunks is that of the file unless a fill was rounded up. -/
theorem imageFrom_eq_chunks_iff (hpos : 0 < blockSize) (files : Files) (total last : Nat)
    (blocks : List BackedBlock) :
    imageFrom files blockSize total last blocks =
        (chunksFrom files blockSize total last blocks).flatMap (Chunk.image blockSize) ↔
      ∀ bb ∈ blocks, bb.ZeroTail blockSize := by
  induction blocks generalizing last with
  | nil => exact iff_of_true (gapChunk_image _ _).symm (by simp)
  | cons bb rest ih =>
    have hlen : ((bb.padded files blockSize).map some).length =
        ((bb.chunk files blockSize).image blockSize).length := by
      rw [length_map, bb.length_padded files hpos, Chunk.length_image_chunk hpos]
    rw [imageFrom, chunksFrom, flatMap_append, gapChunk_image, append_cancel_left_eq,
      flatMap_cons, forall_mem_cons, ← padded_eq_image_iff hpos files,
      ← ih (bb.block + bb.blocks blockSize)]
    constructor
    · intro h
      exact append_inj h hlen
    · rintro ⟨hpadded, hrest⟩
      rw [hpadded, hrest]

end ShieldTv.Libsparse
