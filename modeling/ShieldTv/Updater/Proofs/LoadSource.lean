import ShieldTv.Releasetools.Proofs.SourceWords
import ShieldTv.Updater.Proofs.Buffers

/-!
# Assembling the source of a command

The generator describes a source as ranges to read directly and stashes to
load, each with its places in the source; `LoadSrcTgtVersion2` follows that
description.  Whatever the buffer held before, a block that is read or loaded
ends up at its rank among the source blocks.
-/

namespace ShieldTv.Updater.BlockImg

open Lib.Text Releasetools
open Releasetools.RangeLib.RangeSet (mem_blocks pairs_lt blocks_sorted mapWithin_spec
  size_eq_length_blocks exists_mem_pairs mem_data_of_mem_pairs rank_lt rank_getElem rank_injective
  exists_outer evenInduction)
open Releasetools.BlockImageDiff (Source Assembles)
open Option hiding any_eq_true bind join mem_map
open List hiding Disjoint

variable {B : Type}

/-! ## Sizes -/

theorem length_le_of_sorted {data : List Int} (hsorted : data.Pairwise (· < ·)) {lo hi : Int}
    (h : ∀ p ∈ data, lo ≤ p ∧ p < hi) : data.length ≤ (hi - lo).toNat := by
  have hnodup : data.Nodup := hsorted.imp fun h => h.ne
  rw [← toFinset_card_of_nodup hnodup, ← Int.card_Ico]
  exact Finset.card_le_card fun p hp => Finset.mem_Ico.mpr (h p (List.mem_toFinset.mp hp))

section

variable {r : RangeLib.RangeSet} (hr : r.Canonical)
include hr

theorem length_data_le : r.data.length ≤ 2 * r.blocks.length := by
  obtain ⟨data, monotonic⟩ := r
  have hsorted := hr.sorted
  have heven := hr.even
  clear hr
  rw [blocks_eq_blocksOf]
  unfold RangeLib.RangeSet.ranges
  simp only at hsorted heven ⊢
  induction data, heven using evenInduction with
  | nil => simp
  | cons s e rest _ ih =>
    obtain ⟨hs, hrest⟩ := pairwise_cons.mp hsorted
    have hse : s < e := hs e (by simp)
    have ih := ih (pairwise_cons.mp hrest).2
    simp only [RangeLib.RangeSet.pairs, length_blocksOf_cons, length_cons]
    omega

theorem endpoint_bounds {lo hi : Int}
    (h : ∀ b ∈ r.toSet, lo ≤ b ∧ b < hi) : ∀ p ∈ r.data, lo ≤ p ∧ p ≤ hi := by
  intro p hp
  obtain ⟨range, hrange, hp'⟩ := exists_mem_pairs hr.even hp
  have hlt := pairs_lt hr.sorted hrange
  have hfirst := h range.1 ⟨range, hrange, le_rfl, hlt⟩
  have hlast := h (range.2 - 1) ⟨range, hrange, by omega, by omega⟩
  omega

theorem fits_of_bounds {n : Int}
    (h : ∀ b ∈ r.toSet, 0 ≤ b ∧ b < n) (h₀ : 0 ≤ n) (hn : n < 2 ^ 31 - 1) : Fits r := by
  have hbounds := endpoint_bounds hr h
  constructor
  · intro p hp
    have := hbounds p hp
    omega
  · have hlen := length_le_of_sorted hr.sorted
      fun p hp => ⟨(hbounds p hp).1, Int.lt_add_one_of_le (hbounds p hp).2⟩
    omega

end

variable {r s : RangeLib.RangeSet} {parts : List (Word × RangeLib.RangeSet)}

theorem length_blocks_le (hs : s.Canonical) (hsub : s.toSet ⊆ r.toSet) :
    s.blocks.length ≤ r.blocks.length := by
  have hnodup : s.blocks.Nodup := (blocks_sorted hs).imp fun h => h.ne
  refine (hnodup.subperm fun b hb => ?_).length_le
  rw [mem_blocks] at hb ⊢
  exact hsub hb

theorem fits_of_subset (hr : r.Canonical) (hs : s.Canonical) (hfits : Fits r)
    (hsub : s.toSet ⊆ r.toSet) (hsize : r.blocks.length < 2 ^ 19) : Fits s := by
  constructor
  · intro p hp
    obtain ⟨range, hrange, hp'⟩ := exists_mem_pairs hs.even hp
    have hlt := pairs_lt hs.sorted hrange
    obtain ⟨outer, houter, hin⟩ := exists_outer hr hs hsub range hrange
    have hmem := mem_data_of_mem_pairs houter
    have hlo := hfits.bounds outer.1 hmem.1
    have hhi := hfits.bounds outer.2 hmem.2
    omega
  · have hlen := length_data_le hs
    have hle := length_blocks_le hs hsub
    omega

/-! ## Blocks in their places -/

section

variable {src : RangeLib.RangeSet} (hsrc : src.Canonical) {c : Int → B}

/-- The block `b` is at its rank in the buffer. -/
def Placed (src : RangeLib.RangeSet) (c : Int → B) (buffer : List B) (b : Int) : Prop :=
  buffer[src.rank b]? = some (c b)

include hsrc

theorem take_of_placed {buffer : List B} (h : ∀ b ∈ src.toSet, Placed src c buffer b) :
    buffer.take src.blocks.length = src.blocks.map c := by
  apply ext_getElem?
  intro i
  rcases Nat.lt_or_ge i src.blocks.length with hi | hi
  · have hb : src.blocks[i] ∈ src.toSet := (mem_blocks _ _).mp (getElem_mem hi)
    have hplaced := h _ hb
    unfold Placed at hplaced
    rw [rank_getElem hsrc hi] at hplaced
    rw [getElem?_take_of_lt hi, hplaced, getElem?_map, getElem?_eq_getElem hi]
    rfl
  · rw [getElem?_eq_none (by simp; omega), getElem?_eq_none (by simpa using hi)]

section

variable (hsize : src.blocks.length < 2 ^ 19) {part m : RangeLib.RangeSet} (hpart : part.Canonical)
  (hsub : part.toSet ⊆ src.toSet) (hm : src.mapWithin part = some m)
include hpart hsub hm

theorem mapWithin_within : m.Canonical ∧ m.blocks = part.blocks.map (fun b => (src.rank b : Int)) ∧
    ∀ b ∈ m.toSet, 0 ≤ b ∧ b < src.blocks.length := by
  obtain ⟨m', hm', hmcanonical, hmblocks⟩ := mapWithin_spec hsrc hpart hsub
  rw [hm] at hm'
  cases hm'
  refine ⟨hmcanonical, hmblocks, fun b hb => ?_⟩
  rw [← mem_blocks, hmblocks, mem_map] at hb
  obtain ⟨a, ha, rfl⟩ := hb
  have := rank_lt hsrc (hsub ((mem_blocks _ _).mp ha))
  omega

include hsize

/-- Moving one part of the source to its places: the packed blocks of `part`
come from `source`, or from the start of the buffer itself. -/
theorem moveRange_placed (source : Option (List B)) {dest : List B}
    (hdest : src.blocks.length ≤ dest.length)
    (hlen : part.blocks.length ≤ (source.getD dest).length) :
    ∃ R, moveRange dest (ofRangeSet m) source = .ok R ∧ R.length = dest.length ∧
      (∀ c : Int → B, (source.getD dest).take part.blocks.length = part.blocks.map c →
        ∀ b ∈ part.toSet, Placed src c R b) ∧
      ∀ i : Nat, (∀ b ∈ part.toSet, src.rank b ≠ i) → R[i]? = dest[i]? := by
  obtain ⟨hmcanonical, hblocks, hrank⟩ := mapWithin_within hsrc hpart hsub hm
  have hbounds := endpoint_bounds hmcanonical hrank
  have hasc := ascending_ranges hmcanonical fun p hp => (hbounds p hp).1
  have hsizeEq : (ofRangeSet m).size = (m.blocks.length : Int) := size_eq_length_blocks hmcanonical
  have hlength : m.blocks.length = part.blocks.length := by simp [hblocks]
  rw [blocks_eq_blocksOf] at hblocks hsizeEq hlength
  obtain ⟨R, hmove, hRlen, hRdata, hRframe⟩ := moveRanges_spec source hsize m.ranges hasc
    (fun range hrange => (hbounds _ (mem_data_of_mem_pairs hrange).2).2) hdest
      (hlength.trans_le hlen)
  refine ⟨R, ?_, hRlen, ?_, ?_⟩
  · unfold moveRange
    rw [hsizeEq]
    exact hmove
  · intro c hdata b hb
    obtain ⟨k, hk⟩ := getElem?_of_mem ((mem_blocks part b).mpr hb)
    have hplace := hRdata k (src.rank b) (by rw [hblocks, getElem?_map, hk]; rfl)
    unfold Placed
    rw [Int.toNat_natCast] at hplace
    have hlt := (List.getElem?_eq_some_iff.mp hk).1
    rw [hplace, ← getElem?_take_of_lt hlt, hdata, getElem?_map, hk]
    rfl
  · intro i hi
    apply hRframe
    rw [hblocks, mem_map]
    rintro ⟨b, hb, hbi⟩
    exact hi b ((mem_blocks part b).mp hb) (by omega)

theorem mapWithin_fits : m.Canonical ∧ Fits m := by
  obtain ⟨hmcanonical, -, hrank⟩ := mapWithin_within hsrc hpart hsub hm
  exact ⟨hmcanonical, fits_of_bounds hmcanonical hrank (by omega) (by omega)⟩

end

/-- The loop over the stash references.  Stashes that load are put in place;
whatever was in place stays there. -/
theorem loadStashes_placed (codec : Codec B) (pf : Platform B) (disk : Disk B)
    (hsize : src.blocks.length < 2 ^ 19) {refs : List (Word × RangeLib.RangeSet)}
    (hrefs : Forall₂ (fun ref part => ref.1 = part.1 ∧ src.mapWithin part.2 = some ref.2)
      refs parts)
    (hparts : ∀ part ∈ parts, part.2.Canonical ∧ part.2.toSet ⊆ src.toSet ∧ IsToken ':' part.1 ∧
      ∀ data, disk.file? part.1 = some (.whole data) → data = part.2.blocks.map c)
    (stash : List B) {buffer : List B} (hlen : src.blocks.length ≤ buffer.length) :
    ∃ R, loadStashes codec pf disk (refs.map fun ref => ref.1 ++ ':' :: ref.2.toStringRaw)
        stash buffer = .ok R ∧
      R.length = buffer.length ∧
      (∀ part ∈ parts, (∃ data, disk.file? part.1 = some (.whole data)) →
        ∀ b ∈ part.2.toSet, Placed src c R b) ∧
      ∀ b ∈ src.toSet, Placed src c buffer b → Placed src c R b := by
  induction hrefs generalizing stash buffer with
  | nil => exact ⟨buffer, rfl, rfl, by simp, fun b _ h => h⟩
  | @cons ref part refs parts hhead hrest ih =>
    obtain ⟨id, m⟩ := ref
    obtain ⟨rfl, hm⟩ := hhead
    obtain ⟨⟨hcan, hsub, htoken, hfile⟩, hparts⟩ := forall_mem_cons.mp hparts
    obtain ⟨hmcanonical, hmfits⟩ := mapWithin_fits hsrc hsize hcan hsub hm
    have ih := ih hparts
    simp only [map_cons, loadStashes, strtok_word htoken, forall_mem_cons]
    match hdisk : disk.file? part.1 with
    | none | some (.ragged _) =>
      obtain ⟨R, hload, hRlen, hnew, hold⟩ := ih stash hlen
      exact ⟨R, by simp [loadStash, hdisk, hload], hRlen, ⟨by simp, hnew⟩, hold⟩
    | some (.whole data) =>
      have hdata := hfile data hdisk
      have hdlen : data.length = part.2.blocks.length := by simp [hdata]
      generalize hstash : data ++ (allocate pf data.length stash).drop data.length = stash'
      have htake : stash'.take part.2.blocks.length = part.2.blocks.map c := by
        rw [← hstash, ← hdlen, take_left', hdata]
        rfl
      obtain ⟨R₁, hmove, hR₁len, hplaced, hframe⟩ :=
        moveRange_placed hsrc hsize hcan hsub hm (some stash') hlen (by
          rw [getD_some, ← hstash, length_append]
          omega)
      obtain ⟨R, hload, hRlen, hnew, hold⟩ := ih stash' (hR₁len.symm ▸ hlen)
      have hone := hplaced c htake
      refine ⟨R, ?_, hRlen.trans hR₁len,
        ⟨fun _ b hb => hold b (hsub hb) (hone b hb), hnew⟩, ?_⟩
      · have hloaded : loadStash codec pf disk part.1 false stash =
            { ok := true, blocks := data.length, buffer := stash', effects := [] } := by
          simp [loadStash, hdisk, hstash]
        simp only [hloaded, if_true,
          strtok_last (isToken_raw _ ':' (by decide)),
          parseRange_raw hmcanonical hmfits, bind, Except.bind, hmove, hload]
      · intro b hb hbuf
        apply hold b hb
        by_cases hmem : b ∈ part.2.toSet
        · exact hone b hmem
        · unfold Placed
          rw [hframe]
          · exact hbuf
          · intro a ha hrank
            exact hmem (rank_injective (hsub ha) hb hrank ▸ ha)

end

/-! ## `LoadSrcTgtVersion2` -/

theorem nextWord_join {w : Word} (hw : IsToken ' ' w) (ws : List Word) :
    nextWord (join ' ' (w :: ws)) = .ok (w, join ' ' ws) := by
  unfold nextWord
  rw [strtok_join hw]

theorem length_allocate (pf : Platform B) (n : Nat) (buffer : List B) :
    n ≤ (allocate pf n buffer).length := by
  unfold allocate
  split_ifs with h
  · exact h
  · rw [pf.malloc_length]

theorem raw_ne_dash (r : RangeLib.RangeSet) : r.toStringRaw ≠ ['-'] := by
  intro h
  have hmem : ',' ∈ r.toStringRaw := by simp [RangeLib.RangeSet.toStringRaw]
  rw [h] at hmem
  simp at hmem

theorem isToken_ref {ref : Word × RangeLib.RangeSet} {sep : Char}
    (hsep : (sep.isDigit = false ∧ sep ≠ '-') ∧ sep ≠ ',') (hcolon : sep ≠ ':')
    (hid : sep ∉ ref.1) : IsToken sep (ref.1 ++ ':' :: ref.2.toStringRaw) := by
  refine ⟨by simp, ?_⟩
  rw [mem_append, mem_cons]
  rintro (hw | hw | hw)
  · exact hid hw
  · exact hcolon hw
  · exact (isToken_raw ref.2 sep hsep).notMem hw

section

variable (codec : Codec B) (pf : Platform B) (disk : Disk B) {word : Word}
  (hword : IsToken ' ' word)
  {tgt : RangeSet} (htgt : parseRange word = .ok tgt)
include hword htgt

theorem loadSrcTgtVersion2_header {n : Nat} (hn : n < 2 ^ 19) {srcWord : Word}
    (hsrcWord : IsToken ' ' srcWord) (ws : List Word) (buffer : List B) :
    loadSrcTgtVersion2 codec pf disk (join ' ' (word :: decimal n :: srcWord :: ws)) buffer =
      (if srcWord = ['-'] then do
        let buffer ← loadStashes codec pf disk (words ' ' (join ' ' ws)) [] (allocate pf n buffer)
        .ok { tgt, srcBlocks := n, buffer, overlap := false }
      else do
        let src ← parseRange srcWord
        let buffer ← readBlocks disk.block src (allocate pf n buffer)
        let overlap := rangeOverlaps src tgt
        (strtok ' ' (join ' ' ws)).elim (.ok { tgt, srcBlocks := n, buffer, overlap })
          fun next => do
          let locs ← parseRange next.1
          let buffer ← moveRange buffer locs none
          let buffer ← loadStashes codec pf disk (words ' ' next.2) [] buffer
          .ok { tgt, srcBlocks := n, buffer, overlap }) := by
  have hnum : IsToken ' ' (decimal n) := isToken_decimal n (by decide)
  unfold loadSrcTgtVersion2
  simp only [nextWord_join hword, bind, Except.bind, htgt, nextWord_join hnum,
    toInt_strtol_decimal (n := (n : Int)) (by omega) (by omega), byteCount_ok hn,
    nextWord_join hsrcWord]
  cases strtok ' ' (join ' ' ws) <;> rfl

/-- A source of `2 ^ 19` blocks or more: its size in bytes overflows. -/
theorem loadSrcTgtVersion2_overflow {n : Int}
    (hn : 2 ^ 19 ≤ n) (hn' : n < 2 ^ 31) (ws : List Word) (buffer : List B) :
    loadSrcTgtVersion2 codec pf disk (join ' ' (word :: decimal n :: ws)) buffer =
      .error .dead := by
  have hnum : IsToken ' ' (decimal n) := isToken_decimal n (by decide)
  unfold loadSrcTgtVersion2
  simp only [nextWord_join hword, bind, Except.bind, htgt, nextWord_join hnum,
    toInt_strtol_decimal (n := n) (by omega) hn', byteCount_overflow hn]

end

theorem rangeOverlaps_iff {r₁ r₂ : RangeLib.RangeSet} (h₁ : r₁.Canonical) (h₂ : r₂.Canonical) :
    rangeOverlaps (ofRangeSet r₁) (ofRangeSet r₂) = true ↔
      ∃ b, b ∈ r₁.toSet ∧ b ∈ r₂.toSet := by
  have hmem : ∀ r : RangeLib.RangeSet, (ofRangeSet r).ranges = r.ranges := fun r => rfl
  simp only [rangeOverlaps, any_eq_true, Bool.not_eq_true', Bool.or_eq_false_iff,
    decide_eq_false_iff_not, hmem]
  constructor
  · rintro ⟨a, ha, b, hb, hab⟩
    have ha' := pairs_lt h₁.sorted ha
    have hb' := pairs_lt h₂.sorted hb
    exact ⟨max a.1 b.1, ⟨a, ha, by omega, by omega⟩, ⟨b, hb, by omega, by omega⟩⟩
  · rintro ⟨x, ⟨a, ha, hax⟩, b, hb, hbx⟩
    exact ⟨a, ha, b, hb, by omega, by omega⟩

theorem blocks_congr (hr : r.Canonical) (hs : s.Canonical) (h : r.toSet = s.toSet) :
    r.blocks = s.blocks := by
  apply (blocks_sorted hr).eq_of_mem_iff (blocks_sorted hs)
  intro b
  rw [mem_blocks, mem_blocks, h]

section

variable {src : RangeLib.RangeSet} {source : Source} (h : Assembles src source parts)
include h

theorem isToken_refs :
    ∀ w ∈ source.refs.map (fun ref => ref.1 ++ ':' :: ref.2.toStringRaw), IsToken ' ' w := by
  intro w hw
  obtain ⟨ref, hmem, rfl⟩ := mem_map.mp hw
  obtain ⟨part, hpart, hid, -⟩ := BlockImageDiff.exists_right_of_forall₂ h.refs hmem
  exact isToken_ref (by decide) (by decide) (hid ▸ (h.part_token part hpart).1.notMem)

theorem readBlocks_direct (hfits : Fits src) (hsize : src.blocks.length < 2 ^ 19)
    (hdirect : source.direct.nonzero = true) (block : Int → B) {buffer : List B}
    (hlen : src.blocks.length ≤ buffer.length) :
    ∃ R, readBlocks block (ofRangeSet source.direct) buffer = .ok R ∧
      src.blocks.length ≤ R.length ∧
      R.take source.direct.blocks.length = source.direct.blocks.map block := by
  have hdfits := fits_of_subset h.src_canonical h.direct_canonical hfits h.direct_subset hsize
  have hdlen := length_blocks_le h.direct_canonical h.direct_subset
  have hne : buffer ≠ [] := by
    obtain ⟨b, hb⟩ := (BlockImageDiff.nonzero_iff h.direct_canonical).mp hdirect
    have hpos := length_pos_of_mem ((mem_blocks _ _).mpr (h.direct_subset hb))
    exact ne_nil_of_length_pos (by omega)
  refine ⟨_, readBlocks_ok block h.direct_canonical hdfits (by omega) hne (by omega), ?_, ?_⟩
  · rw [length_append, length_map, length_drop]
    omega
  · rw [take_left' (by simp)]

variable (codec : Codec B) (pf : Platform B) (disk : Disk B) {word : Word}
  (hword : IsToken ' ' word)
  {tgt : RangeSet} (htgt : parseRange word = .ok tgt) (hsize : src.blocks.length < 2 ^ 19)
  {c : Int → B} (hfiles : ∀ part ∈ parts, ∀ data, disk.file? part.1 = some (.whole data) →
    data = part.2.blocks.map c)

/-- The updater loads a source, and the blocks are in their places if the files and the blocks it
reads directly have the contents `c`. -/
def Loads (codec : Codec B) (pf : Platform B) (disk : Disk B) (word : Word) (tgt : RangeSet)
    (src : RangeLib.RangeSet) (source : Source) (parts : List (Word × RangeLib.RangeSet))
    (c : Int → B) (buffer : List B) : Prop :=
  ∃ R, loadSrcTgtVersion2 codec pf disk (join ' ' (word :: source.words)) buffer =
      .ok { tgt, srcBlocks := src.blocks.length, buffer := R,
            overlap := rangeOverlaps (ofRangeSet source.direct) tgt } ∧
    src.blocks.length ≤ R.length ∧
    ((∀ part ∈ parts, ∃ data, disk.file? part.1 = some (.whole data)) →
      (∀ b ∈ source.direct.toSet, disk.block b = c b) →
      R.take src.blocks.length = src.blocks.map c)

include hsize hfiles in
theorem loadStashes_refs {buffer : List B} (hlen : src.blocks.length ≤ buffer.length) :
    ∃ R, loadStashes codec pf disk (source.refs.map fun ref => ref.1 ++ ':' :: ref.2.toStringRaw) []
        buffer = .ok R ∧ R.length = buffer.length ∧
      (∀ part ∈ parts, (∃ data, disk.file? part.1 = some (.whole data)) →
        ∀ b ∈ part.2.toSet, Placed src c R b) ∧
      ∀ b ∈ src.toSet, Placed src c buffer b → Placed src c R b :=
  loadStashes_placed h.src_canonical codec pf disk hsize h.refs (fun part hpart =>
    ⟨h.part_canonical part hpart, h.part_subset part hpart, (h.part_token part hpart).2,
      hfiles part hpart⟩) [] hlen

include hword htgt hsize

include hfiles in
/-- No block is read directly. -/
theorem loads_stashed (hdirect : source.direct.nonzero = false) (buffer : List B) :
    Loads codec pf disk word tgt src source parts c buffer := by
  have hdata : source.direct.data = [] := by simpa [RangeLib.RangeSet.nonzero] using hdirect
  have hempty : ∀ b, b ∉ source.direct.toSet := by
    intro b hb
    simp [RangeLib.RangeSet.toSet, RangeLib.RangeSet.ranges, hdata, RangeLib.RangeSet.pairs] at hb
  have hoverlap : rangeOverlaps (ofRangeSet source.direct) tgt = false := by
    simp [rangeOverlaps, ofRangeSet, RangeSet.ranges, hdata, RangeLib.RangeSet.pairs]
  obtain ⟨R, hload, hlen, hplaced, -⟩ := loadStashes_refs h codec pf disk hsize hfiles
    (length_allocate pf src.blocks.length buffer)
  refine ⟨R, ?_, hlen ▸ length_allocate pf _ buffer, ?_⟩
  · unfold Source.words
    rw [h.count, size_eq_length_blocks h.src_canonical, if_neg (by simp [hdirect]),
      singleton_append, loadSrcTgtVersion2_header codec pf disk hword htgt hsize
      ⟨by simp, by simp⟩, if_pos rfl, words_join _ (isToken_refs h), hload, hoverlap]
    rfl
  · intro hpresent _
    apply take_of_placed h.src_canonical
    intro b hb
    obtain hb | ⟨part, hpart, hb⟩ := h.cover b hb
    · exact absurd hb (hempty b)
    · exact hplaced part hpart (hpresent part hpart) b hb

variable (hfits : Fits src) (hdirect : source.direct.nonzero = true)
include hfits hdirect

include hfiles in
/-- Blocks are read directly, and moved to their places if there are others to load. -/
theorem loads_read (buffer : List B) :
    Loads codec pf disk word tgt src source parts c buffer := by
  have hdfits := fits_of_subset h.src_canonical h.direct_canonical hfits h.direct_subset hsize
  have hdlen := length_blocks_le h.direct_canonical h.direct_subset
  obtain ⟨R₀, hread, hlen₀, htake⟩ := readBlocks_direct h hfits hsize hdirect disk.block
    (length_allocate pf src.blocks.length buffer)
  have hsame : (∀ b ∈ source.direct.toSet, disk.block b = c b) →
      R₀.take source.direct.blocks.length = source.direct.blocks.map c := by
    intro hdisk
    rw [htake]
    exact map_congr_left fun b hb => hdisk b ((mem_blocks _ _).mp hb)
  unfold Loads Source.words
  rw [h.count, size_eq_length_blocks h.src_canonical, if_pos hdirect, cons_append,
    loadSrcTgtVersion2_header codec pf disk hword htgt hsize (isToken_raw _ ' ' (by decide)),
    if_neg (raw_ne_dash _), parseRange_raw h.direct_canonical hdfits, h.locs hdirect]
  cases parts with
  | nil =>
    -- the source is read in its own order
    have hblocks : source.direct.blocks = src.blocks := by
      apply blocks_congr h.direct_canonical h.src_canonical
      refine Set.Subset.antisymm h.direct_subset fun b hb => ?_
      simpa using h.cover b hb
    refine ⟨R₀, ?_, hlen₀, fun _ hdisk => hblocks ▸ hsame hdisk⟩
    simp only [forall₂_nil_right_iff.mp h.refs, isEmpty_nil, if_true, map_none, toList_none,
      map_nil, nil_append, join, strtok_nil, bind, Except.bind, hread, elim_none]
  | cons part parts =>
    obtain ⟨m, hm, -, -⟩ := mapWithin_spec h.src_canonical h.direct_canonical h.direct_subset
    obtain ⟨hmcanonical, hmfits⟩ := mapWithin_fits h.src_canonical hsize h.direct_canonical
      h.direct_subset hm
    obtain ⟨R₁, hmove, hR₁len, hplaced₁, -⟩ := moveRange_placed h.src_canonical hsize
      h.direct_canonical h.direct_subset hm none hlen₀ (by rw [getD_none]; omega)
    obtain ⟨R, hload, hlen, hplaced, hkept⟩ :=
      loadStashes_refs h codec pf disk hsize hfiles (hR₁len.symm ▸ hlen₀)
    refine ⟨R, ?_, by omega, fun hpresent hdisk => take_of_placed h.src_canonical fun b hb => ?_⟩
    · simp only [isEmpty_cons, Bool.false_eq_true, if_false, hm, map_some, toList_some, cons_append,
        nil_append, strtok_join (isToken_raw _ ' ' (by decide)), bind, Except.bind, hread,
        elim_some, parseRange_raw hmcanonical hmfits, hmove, words_join _ (isToken_refs h), hload]
    · obtain hb' | ⟨part', hpart, hb'⟩ := h.cover b hb
      · exact hkept b hb (hplaced₁ c (hsame hdisk) b hb')
      · exact hplaced part' hpart (hpresent part' hpart) b hb'

omit hdirect
include hfiles

/-- The updater finds every word of the source, and the block it does not find
in a stash file at the place where the generator says it is. -/
theorem loadSrcTgtVersion2_ok (buffer : List B) :
    Loads codec pf disk word tgt src source parts c buffer := by
  cases hdirect : source.direct.nonzero with
  | false => exact loads_stashed h codec pf disk hword htgt hsize hfiles hdirect buffer
  | true => exact loads_read h codec pf disk hword htgt hsize hfiles hfits hdirect buffer

end

theorem size_lt_of_fits (hr : r.Canonical) (hfits : Fits r) : r.size < 2 ^ 31 := by
  have hbounds : ∀ p ∈ r.data, 0 ≤ p ∧ p ≤ 2 ^ 31 - 1 := by
    intro p hp
    have := hfits.bounds p hp
    omega
  have := (sizeLoop_bounds hr.even hr.sorted hbounds (by omega)).2
  unfold RangeLib.RangeSet.size
  omega

section

open Releasetools.BlockImageDiff

variable [Zero B]

/-- The device as a command expects it: the blocks it reads directly and the
stashes it refers to have the contents of the source image. -/
structure SourceReady (src : Image B) (xf : StashedTransfer) (source : Source) (disk : Disk B) :
    Prop where
  direct : ∀ b ∈ xf.srcRanges.blocks, (∀ stash ∈ xf.useStash, b ∉ stash.2.blocks) →
    disk.block b = src.block b
  stashed : Forall₂
    (fun ref stash => disk.file? ref.1 = some (.whole (src.readRangeSet stash.2)))
    source.refs xf.useStash

/-- The generator's description of a source and the updater's way to load it
agree exactly when the source has fewer than `2 ^ 19` blocks: the words are
emitted, and the updater then holds the blocks of the source in increasing
order. -/
theorem loadSrcTgtVersion2_source_iff {codec : Codec B} {version : Nat} {src : Image B}
    {xf : StashedTransfer} {st : WriterState} {used : SourceState}
    (hsrc : xf.srcRanges.Canonical)
    (hstash : ∀ stash ∈ xf.useStash, stash.2.Canonical ∧ stash.2.toSet ⊆ xf.srcRanges.toSet)
    (hdisjoint : xf.useStash.Pairwise fun s t => Disjoint s.2.toSet t.2.toSet)
    (hfits : Fits xf.srcRanges)
    (hfold : xf.useStash.foldlM (useOne codec version src xf.srcRanges)
      (SourceState.init st xf.srcRanges) = some used) :
    ∃ source, buildSource xf used = some source ∧
      ∀ (pf : Platform B) (disk : Disk B) (buffer : List B), SourceReady src xf source disk →
        ((∃ loaded, loadSrcTgtVersion2 codec pf disk
            (join ' ' (xf.tgtRanges.toStringRaw :: source.words)) buffer = .ok loaded ∧
            (loaded.srcBlocks : Int) = xf.srcRanges.size ∧
            loaded.buffer.take loaded.srcBlocks = src.readRangeSet xf.srcRanges) ↔
          xf.srcRanges.size < 2 ^ 19) := by
  obtain ⟨source, hsource⟩ := exists_buildSource hsrc hstash hfold hdisjoint
  have hall := assembles_of_buildSource hsrc hstash hfold hsource
  obtain ⟨hcount, hdirect, hrefs, -⟩ := buildSource_eq hsource
  have hsize := size_eq_length_blocks hsrc
  obtain ⟨target, htarget⟩ := parseRange_total xf.tgtRanges
  have hword := isToken_raw xf.tgtRanges ' ' (by decide)
  refine ⟨source, hsource, fun pf disk buffer hready => ?_⟩
  constructor
  · rintro ⟨loaded, hload, -, -⟩
    by_contra hlarge
    unfold Source.words at hload
    rw [hcount, loadSrcTgtVersion2_overflow codec pf disk hword htarget (by omega)
      (size_lt_of_fits hsrc hfits)] at hload
    cases hload
  · intro hlt
    have hparts : ∀ part ∈ sourceParts source.refs xf.useStash,
        disk.file? part.1 = some (.whole (part.2.blocks.map src.block)) := by
      intro part hpart
      obtain ⟨ref, stash, -, hfile, rfl⟩ := of_mem_sourceParts hready.stashed hpart
      exact hfile
    obtain ⟨R, hload, -, htake⟩ := loadSrcTgtVersion2_ok hall codec pf disk hword htarget
      (by omega) (c := src.block) (fun part hpart data hdata => by
        rw [hparts part hpart] at hdata
        simpa using hdata.symm) hfits buffer
    refine ⟨_, hload, hsize.symm, htake (fun part hpart => ⟨_, hparts part hpart⟩) ?_⟩
    intro b hb
    rw [hdirect, (mem_unstashed hsrc hstash hfold).2] at hb
    apply hready.direct b ((mem_blocks _ _).mpr hb.1)
    intro stash hmem
    rw [mem_blocks]
    exact hb.2 stash hmem

end

section

open Lib Releasetools.BlockImageDiff

/-- A platform with zeroed memory and room for every stash. -/
def roomyPlatform : Platform (Fin 16) where
  malloc n := List.replicate n 0
  discarded _ := 0
  cacheSizeCheck _ := true
  isBlk := true
  malloc_length := by simp

/-- An image of `n + 1` blocks that are all the same. -/
def uniformImage (n : Nat) : Image (Fin 16) where
  totalBlocks := n + 1
  careMap := { data := [0, n + 1] }
  fileMap := [(['f'], { data := [0, n + 1] })]
  extended := RangeLib.RangeSet.empty
  block := fun _ => 1
  totalBlocks_nonneg := by omega
  careMap_canonical := ⟨by simp, by simp⟩
  careMap_bounds := by simp [mem_blocks, RangeLib.RangeSet.toSet,
    RangeLib.RangeSet.ranges, RangeLib.RangeSet.pairs]
  fileMap_canonical := by
    intro file hfile
    rw [mem_singleton.mp hfile]
    exact ⟨by simp, by simp⟩
  fileMap_nodup := by simp
  extended_canonical := BlockImageDiff.empty_canonical
  extended_bounds := by simp [RangeLib.RangeSet.empty, RangeLib.RangeSet.blocks,
    RangeLib.RangeSet.ranges, RangeLib.RangeSet.pairs]
  extended_careMap := by simp [RangeLib.RangeSet.empty, RangeLib.RangeSet.blocks,
    RangeLib.RangeSet.ranges, RangeLib.RangeSet.pairs]
  zero_blocks := by
    intro file hfile hname
    rw [mem_singleton.mp hfile] at hname
    simp [zeroDomain] at hname

/-- The transfer of one file of `n` blocks, `stashes` of which were stashed. -/
def fileTransfer (n : Int) (stashes : List (Nat × RangeLib.RangeSet)) : StashedTransfer where
  tgtName := ['f']
  srcName := some ['f']
  tgtRanges := { data := [n, 2 * n] }
  srcRanges := { data := [0, n] }
  style := .diff
  intact := false
  stashBefore := []
  useStash := stashes

def oneStash : WriterState :=
  { WriterState.init with
    sids := OrderedDict.empty.set 7 0
    counts := OrderedDict.empty.set (plainCodec.sha1 [1]) 1
    stashedBlocks := 1 }

def oneStashUsed : SourceState :=
  { writer := { WriterState.init with freeStashIds := [0] }
    unstashed := { data := [0, 1, 2, 3] }
    mapped := [{ data := [1, 2] }]
    refs := [(plainCodec.sha1 [1], { data := [1, 2] })]
    frees := [.free (plainCodec.sha1 [1])] }

def stashedFile : StashedTransfer := fileTransfer 3 [(7, { data := [1, 2] })]

theorem loadSrcTgtVersion2_source_iff_stashed :
    ∃ source, buildSource stashedFile oneStashUsed = some source ∧
      ∀ (pf : Platform (Fin 16)) (disk : Disk (Fin 16)) (buffer : List (Fin 16)),
        SourceReady (uniformImage 5) stashedFile source disk →
        ((∃ loaded, loadSrcTgtVersion2 plainCodec pf disk
            (join ' ' (stashedFile.tgtRanges.toStringRaw :: source.words)) buffer = .ok loaded ∧
            (loaded.srcBlocks : Int) = stashedFile.srcRanges.size ∧
            loaded.buffer.take loaded.srcBlocks =
              (uniformImage 5).readRangeSet stashedFile.srcRanges) ↔
          stashedFile.srcRanges.size < 2 ^ 19) := by
  have hfold : stashedFile.useStash.foldlM (useOne plainCodec 3 (uniformImage 5) { data := [0, 3] })
      (SourceState.init oneStash { data := [0, 3] }) = some oneStashUsed := rfl
  refine loadSrcTgtVersion2_source_iff (by decide) ?_ (by simp [stashedFile, fileTransfer])
    ⟨by decide, by decide⟩ hfold
  intro stash hstash
  rw [mem_singleton.mp hstash]
  refine ⟨by decide, fun b hb => ?_⟩
  rw [← mem_blocks] at hb ⊢
  revert b
  decide

/-- Two gibibytes are too much: `src_blocks * BLOCKSIZE` overflows. -/
theorem loadSrcTgtVersion2_large_source :
    ∃ source,
      buildSource (fileTransfer 524288 [])
        (SourceState.init WriterState.init (fileTransfer 524288 []).srcRanges) = some source ∧
      SourceReady (uniformImage 524287) (fileTransfer 524288 []) source
        { block := (uniformImage 524287).block, stash := none } ∧
      loadSrcTgtVersion2 plainCodec roomyPlatform
        { block := (uniformImage 524287).block, stash := none }
        (join ' ' ((fileTransfer 524288 []).tgtRanges.toStringRaw :: source.words)) [] =
          .error .dead := by
  refine ⟨_, rfl, ⟨fun _ _ _ => rfl, .nil⟩, ?_⟩
  exact loadSrcTgtVersion2_overflow plainCodec roomyPlatform _ (isToken_raw _ ' ' (by decide))
    (parseRange_raw (by decide) ⟨by decide, by decide⟩) (by decide) (by decide) _ []

end

end ShieldTv.Updater.BlockImg
