import ShieldTv.Releasetools.Proofs.MapWithin
import ShieldTv.Updater.BlockImg
import ShieldTv.Updater.Proofs.ByteCounts

/-!
# Range texts and block buffers

The updater's range sets are read from the text that the generator writes, and
`ReadBlocks` and `MoveRange` visit their blocks in increasing order.  Moving
packed blocks to their places also works inside one buffer: going from the last
range to the first, a range is never written over blocks that still have to
move.
-/

namespace ShieldTv.Updater.BlockImg

open Lib.Text List Releasetools

/-! ## Byte counts and range texts -/

variable {n : Nat} {r : RangeLib.RangeSet} {data : List Int}

theorem byteCount_of_le {n : Int} (h₀ : 0 ≤ n) (h : n < 2 ^ 19) : byteCount n = .ok n.toNat :=
  if_pos ⟨h₀, (ByteCounts.intBytes_eq_iff h₀).mpr h⟩

theorem byteCount_ok (h : n < 2 ^ 19) : byteCount n = .ok n :=
  byteCount_of_le (Int.natCast_nonneg n) (by omega)

theorem byteCount_overflow {n : Int} (h : 2 ^ 19 ≤ n) : byteCount n = .error .dead :=
  if_neg fun hn => h.not_gt ((ByteCounts.intBytes_eq_iff hn.1).mp hn.2)

/-- The numbers in a range text fit an `int`. -/
structure Fits (r : RangeLib.RangeSet) : Prop where
  bounds : ∀ p ∈ r.data, 0 ≤ p ∧ p < 2 ^ 31
  short : r.data.length < 2 ^ 31

def ofRangeSet (r : RangeLib.RangeSet) : RangeSet := { pos := r.data, size := r.size }

theorem parsePositions_join (h : ∀ p ∈ data, 0 ≤ p ∧ p < 2 ^ 31) :
    parsePositions data.length (join ',' (data.map decimal)) = .ok data := by
  induction data with
  | nil => rfl
  | cons p data ih =>
    have hp := h p (by simp)
    rw [length_cons, map_cons, parsePositions, strtok_join (isToken_decimal p (by decide))]
    simp only [ih fun q hq => h q (by simp [hq]), toInt_strtol_decimal hp.1 hp.2]
    rfl

theorem sizeLoop_bounds (heven : data.length % 2 = 0) (hsorted : data.Pairwise (· < ·))
    {lo hi : Int} (h : ∀ p ∈ data, lo ≤ p ∧ p ≤ hi) (hlohi : lo ≤ hi) :
    0 ≤ RangeLib.RangeSet.sizeLoop false 0 data ∧
      RangeLib.RangeSet.sizeLoop false 0 data ≤ hi - lo := by
  induction data, heven using RangeLib.RangeSet.evenInduction generalizing lo with
  | nil => simp [RangeLib.RangeSet.sizeLoop, hlohi]
  | cons s e rest _ ih =>
    obtain ⟨hs, hrest⟩ := pairwise_cons.mp hsorted
    obtain ⟨he, hrest⟩ := pairwise_cons.mp hrest
    have hse : s < e := hs e (by simp)
    have hs' := h s (by simp)
    have he' := h e (by simp)
    have habove : ∀ p ∈ rest, e ≤ p ∧ p ≤ hi := fun p hp =>
      ⟨(he p hp).le, (h p (by simp [hp])).2⟩
    have ih := ih hrest habove he'.2
    simp only [RangeLib.RangeSet.sizeLoop, Bool.not_false, Bool.not_true, if_true,
      Bool.false_eq_true, if_false]
    rw [RangeLib.RangeSet.sizeLoop_add]
    omega

theorem parseRange_raw (hr : r.Canonical) (hfits : Fits r) :
    parseRange r.toStringRaw = .ok (ofRangeSet r) := by
  have hlen : (0 : Int) ≤ r.data.length := by omega
  have hlen' : (r.data.length : Int) < 2 ^ 31 := by
    have := hfits.short
    omega
  have hbounds : ∀ p ∈ r.data, 0 ≤ p ∧ p ≤ 2 ^ 31 - 1 := by
    intro p hp
    have := hfits.bounds p hp
    omega
  have hsize := sizeLoop_bounds hr.even hr.sorted hbounds (by norm_num)
  have hsum : toInt (RangeLib.RangeSet.sizeLoop false 0 r.data) = r.size :=
    toInt_of_lt hsize.1 (by omega)
  unfold parseRange RangeLib.RangeSet.toStringRaw
  rw [strtok_word (isToken_decimal _ (by decide))]
  simp only [toInt_strtol_decimal hlen hlen', Int.toNat_natCast, parsePositions_join hfits.bounds]
  simp only [bind, Except.bind, hsum]
  rfl

theorem parsePositions_total (h : n ≤ data.length) :
    ∃ pos, parsePositions n (join ',' (data.map decimal)) = .ok pos := by
  induction data generalizing n with
  | nil =>
    obtain rfl : n = 0 := Nat.le_zero.mp h
    exact ⟨[], rfl⟩
  | cons p data ih =>
    cases n with
    | zero => exact ⟨[], rfl⟩
    | succ n =>
      obtain ⟨pos, hpos⟩ := ih (Nat.le_of_succ_le_succ h)
      rw [map_cons, parsePositions, strtok_join (isToken_decimal p (by decide))]
      simp only [hpos]
      exact ⟨_, rfl⟩

/-- Whether its numbers fit or not, a range text is read without an error. -/
theorem parseRange_total (r : RangeLib.RangeSet) :
    ∃ parsed, parseRange r.toStringRaw = .ok parsed := by
  have hcount : (toInt (strtol (decimal r.data.length))).toNat ≤ r.data.length := by
    unfold toInt strtol
    rw [decimal_ofNat, readInt_toDigits, Int.bmod_def]
    split_ifs <;> omega
  obtain ⟨pos, hpos⟩ := parsePositions_total hcount
  unfold parseRange RangeLib.RangeSet.toStringRaw
  rw [strtok_word (isToken_decimal _ (by decide))]
  simp only [hpos]
  exact ⟨_, rfl⟩

theorem isToken_raw (r : RangeLib.RangeSet) (sep : Char)
    (hsep : (sep.isDigit = false ∧ sep ≠ '-') ∧ sep ≠ ',') : IsToken sep r.toStringRaw := by
  have hnum : ∀ n : Int, sep ∉ decimal n := fun n => (isToken_decimal n hsep.1).notMem
  unfold RangeLib.RangeSet.toStringRaw
  constructor
  · simp
  · rw [mem_append, mem_cons]
    rintro (hmem | hmem | hmem)
    · exact hnum _ hmem
    · exact hsep.2 hmem
    · refine notMem_join hsep.2 _ ?_ hmem
      intro w hw
      obtain ⟨p, -, rfl⟩ := mem_map.mp hw
      exact hnum p

/-! ## Reading blocks -/

variable {B : Type}

def blocksOf (ranges : List (Int × Int)) : List Int :=
  ranges.flatMap fun range =>
    (List.range (range.2 - range.1).toNat).map fun i : Nat => range.1 + (i : Int)

theorem blocks_eq_blocksOf (r : RangeLib.RangeSet) : r.blocks = blocksOf r.ranges := rfl

/-- Ranges in increasing order that start at or after 0. -/
structure Ascending (ranges : List (Int × Int)) : Prop where
  nonneg : ∀ range ∈ ranges, 0 ≤ range.1 ∧ range.1 ≤ range.2
  sorted : ranges.Pairwise fun a b => a.2 ≤ b.1

theorem ascending_ranges (hr : r.Canonical) (hnonneg : ∀ p ∈ r.data, 0 ≤ p) :
    Ascending r.ranges := by
  obtain ⟨data, monotonic⟩ := r
  have hsorted := hr.sorted
  clear hr
  unfold RangeLib.RangeSet.ranges
  constructor
  · intro range hrange
    have hmem := RangeLib.RangeSet.mem_data_of_mem_pairs hrange
    exact ⟨hnonneg _ hmem.1, (RangeLib.RangeSet.pairs_lt hsorted hrange).le⟩
  · induction data using RangeLib.RangeSet.pairs.induct with
    | case1 s e rest ih =>
      obtain ⟨hs, hrest⟩ := pairwise_cons.mp hsorted
      obtain ⟨he, hrest⟩ := pairwise_cons.mp hrest
      refine pairwise_cons.mpr ⟨?_, ih (fun p hp => hnonneg p (by simp [hp])) hrest⟩
      intro range hrange
      exact (RangeLib.RangeSet.pairs_bounds he hrange).le
    | case2 data hne => simp [RangeLib.RangeSet.pairs]

theorem length_blocksOf_cons (range : Int × Int) (ranges : List (Int × Int)) :
    (blocksOf (range :: ranges)).length = (range.2 - range.1).toNat + (blocksOf ranges).length := by
  simp [blocksOf]

theorem readRanges_ok (block : Int → B) {ranges : List (Int × Int)} (h : Ascending ranges)
    (hsize : (blocksOf ranges).length < 2 ^ 19) :
    readRanges block ranges = .ok ((blocksOf ranges).map block) := by
  induction ranges with
  | nil => rfl
  | cons range ranges ih =>
    obtain ⟨s, e⟩ := range
    have hrange := h.nonneg (s, e) (by simp)
    rw [length_blocksOf_cons] at hsize
    have hrest := ih ⟨fun r hr => h.nonneg r (by simp [hr]), (pairwise_cons.mp h.sorted).2⟩
      (by omega)
    rw [readRanges, if_neg (by omega), byteCount_of_le (by omega) (by omega), hrest]
    simp only [bind, Except.bind, readRange, blocksOf, flatMap_cons, map_append, map_map]
    rfl

variable {buffer : List B} {start : Nat}

theorem storeAt_ok {data : List B} (h : start + data.length ≤ buffer.length) :
    storeAt buffer start data =
      .ok (buffer.take start ++ data ++ buffer.drop (start + data.length)) := if_pos h

theorem loadAt_ok (h : start + n ≤ buffer.length) :
    loadAt buffer start n = .ok ((buffer.drop start).take n) := if_pos h

theorem readBlocks_ok (block : Int → B) (hr : r.Canonical) (hfits : Fits r)
    (hsize : r.blocks.length < 2 ^ 19) (hne : buffer ≠ [])
    (hlen : r.blocks.length ≤ buffer.length) :
    readBlocks block (ofRangeSet r) buffer =
      .ok (r.blocks.map block ++ buffer.drop r.blocks.length) := by
  have hasc := ascending_ranges hr fun p hp => (hfits.bounds p hp).1
  have hread := readRanges_ok block hasc hsize
  unfold readBlocks
  rw [if_neg (by simpa using hne)]
  have hstore := @storeAt_ok B buffer 0 (r.blocks.map block) (by simpa using hlen)
  simp only [take_zero, nil_append, zero_add, length_map] at hstore
  rw [← blocks_eq_blocksOf] at hread
  have hranges : (ofRangeSet r).ranges = r.ranges := rfl
  rw [hranges, hread]
  exact hstore

/-! ## Moving blocks to their places -/

theorem blocksOf_append (xs ys : List (Int × Int)) :
    blocksOf (xs ++ ys) = blocksOf xs ++ blocksOf ys := flatMap_append

theorem blocksOf_singleton (s e : Int) :
    blocksOf [(s, e)] = (List.range (e - s).toNat).map fun i : Nat => s + (i : Int) := by
  simp [blocksOf]

section

variable {ranges : List (Int × Int)}

theorem Ascending.init {range : Int × Int}
    (h : Ascending (ranges ++ [range])) : Ascending ranges where
  nonneg r hr := h.nonneg r (by simp [hr])
  sorted := (pairwise_append.mp h.sorted).1

theorem Ascending.length_le (h : Ascending ranges) {p : Int}
    (h₀ : 0 ≤ p) (hp : ∀ range ∈ ranges, range.2 ≤ p) : ((blocksOf ranges).length : Int) ≤ p := by
  induction ranges using List.reverseRecOn generalizing p with
  | nil => simpa [blocksOf] using h₀
  | append_singleton ranges range ih =>
    obtain ⟨s, e⟩ := range
    have hrange := h.nonneg (s, e) (by simp)
    have hend := hp (s, e) (by simp)
    have hbelow : ∀ r ∈ ranges, r.2 ≤ s := fun r hr =>
      (pairwise_append.mp h.sorted).2.2 r hr (s, e) (by simp)
    have hrest := ih h.init hrange.1 hbelow
    simp only [blocksOf_append, blocksOf_singleton, length_append, length_map, length_range]
    omega

theorem mem_blocksOf {b : Int} :
    b ∈ blocksOf ranges ↔ ∃ range ∈ ranges, range.1 ≤ b ∧ b < range.2 := by
  simp only [blocksOf, mem_flatMap, mem_map, mem_range]
  refine exists_congr fun range => and_congr_right fun _ => ?_
  constructor
  · rintro ⟨i, hi, rfl⟩
    omega
  · rintro ⟨hlo, hhi⟩
    exact ⟨(b - range.1).toNat, by omega, by omega⟩

theorem notMem_blocksOf {b : Int} (h : ∀ range ∈ ranges, range.2 ≤ b) : b ∉ blocksOf ranges := by
  intro hmem
  obtain ⟨range, hrange, -, hlt⟩ := mem_blocksOf.mp hmem
  exact absurd hlt (h range hrange).not_gt

end

theorem getElem?_blocksOf_singleton {s e b : Int} {k : Nat} :
    (blocksOf [(s, e)])[k]? = some b ↔ k < (e - s).toNat ∧ s + k = b := by
  rw [blocksOf_singleton, getElem?_map, Option.map_eq_some_iff]
  simp [List.getElem?_eq_some_iff]

theorem getElem?_store (dest piece : List B) {s : Nat} (h : s + piece.length ≤ dest.length)
    (i : Nat) :
    (dest.take s ++ piece ++ dest.drop (s + piece.length))[i]? =
      if s ≤ i ∧ i < s + piece.length then piece[i - s]? else dest[i]? := by
  have htake : (dest.take s).length = s := by
    rw [length_take]
    omega
  split_ifs with hi
  · rw [getElem?_append_left (by rw [length_append, htake]; omega),
      getElem?_append_right (by rw [htake]; exact hi.1), htake]
  · rcases Nat.lt_or_ge i s with hlt | hge
    · rw [append_assoc, getElem?_append_left (by rw [htake]; exact hlt), getElem?_take_of_lt hlt]
    · have hge' : s + piece.length ≤ i := by omega
      rw [getElem?_append_right (by rw [length_append, htake]; exact hge'),
        length_append, htake, getElem?_drop]
      congr 1
      omega

/-- One round of `MoveRange`: the last of the packed blocks go to the last of the ranges. -/
theorem moveRanges_cons {source : Option (List B)} {s e : Int} {m : Nat} (hs : 0 ≤ s ∧ s ≤ e)
    (he : e < 2 ^ 19) (hm : (m : Int) ≤ s) {dest piece : List B}
    (hpiece : ((source.getD dest).drop m).take (e - s).toNat = piece)
    (hsource : m + (e - s).toNat ≤ (source.getD dest).length)
    (hfit : s.toNat + piece.length ≤ dest.length) (ranges : List (Int × Int)) :
    moveRanges source ((m + (e - s).toNat : Nat) : Int) ((s, e) :: ranges) dest =
      moveRanges source m ranges
        (dest.take s.toNat ++ piece ++ dest.drop (s.toNat + piece.length)) := by
  have hstart : ((m + (e - s).toNat : Nat) : Int) - (e - s) = m := by omega
  rw [moveRanges, byteCount_of_le (by omega) (by omega)]
  simp only [bind, Except.bind]
  rw [hstart, byteCount_ok (by omega)]
  simp only
  rw [loadAt_ok hsource, hpiece]
  simp only
  rw [byteCount_of_le hs.1 (by omega)]
  simp only
  rw [storeAt_ok hfit]

/-- `MoveRange` puts the packed blocks of the source at the places that the ranges
list, and touches nothing else.  Without a `source` they are at the start of
`dest` itself: the induction is from the last range down, and the blocks that
are still packed lie below every place written so far. -/
theorem moveRanges_spec (source : Option (List B)) (hn : n < 2 ^ 19) (ranges : List (Int × Int))
    (hasc : Ascending ranges) (hbound : ∀ range ∈ ranges, range.2 ≤ n) {dest : List B}
    (hdest : n ≤ dest.length) (hsource : (blocksOf ranges).length ≤ (source.getD dest).length) :
    ∃ R, moveRanges source (blocksOf ranges).length ranges.reverse dest = .ok R ∧
      R.length = dest.length ∧
      (∀ (k : Nat) (b : Int), (blocksOf ranges)[k]? = some b →
        R[b.toNat]? = (source.getD dest)[k]?) ∧
      ∀ i : Nat, (i : Int) ∉ blocksOf ranges → R[i]? = dest[i]? := by
  induction ranges using List.reverseRecOn generalizing dest with
  | nil => exact ⟨dest, rfl, rfl, by simp [blocksOf], by simp⟩
  | append_singleton ranges range ih =>
    obtain ⟨s, e⟩ := range
    have hrange := hasc.nonneg (s, e) (by simp)
    have hend := hbound (s, e) (by simp)
    have hbelow : ∀ r ∈ ranges, r.2 ≤ s := fun r hr =>
      (pairwise_append.mp hasc.sorted).2.2 r hr (s, e) (by simp)
    have hpacked := hasc.init.length_le hrange.1 hbelow
    have hlast : (blocksOf [(s, e)]).length = (e - s).toNat := by simp [blocksOf_singleton]
    rw [blocksOf_append, length_append, hlast] at hsource ⊢
    generalize hm : (blocksOf ranges).length = m at hpacked hsource ⊢
    generalize hpiece : ((source.getD dest).drop m).take (e - s).toNat = piece
    have hpieceLen : piece.length = (e - s).toNat := by
      rw [← hpiece, length_take, length_drop]
      omega
    have hfit : s.toNat + piece.length ≤ dest.length := by omega
    have hstep := moveRanges_cons hrange (by omega) hpacked hpiece hsource hfit ranges.reverse
    have hstored := getElem?_store dest piece hfit
    generalize hdest' : dest.take s.toNat ++ piece ++ dest.drop (s.toNat + piece.length) = dest'
      at hstep hstored
    have hlen' : dest'.length = dest.length := by
      simp only [← hdest', length_append, length_take, length_drop]
      omega
    have hsource' : ∀ i < m, (source.getD dest')[i]? = (source.getD dest)[i]? := by
      intro i hi
      cases source with
      | some source => rfl
      | none => exact (hstored i).trans (if_neg (by omega))
    obtain ⟨R, hmove, hRlen, hRdata, hRframe⟩ := ih hasc.init
      (fun r hr => hbound r (by simp [hr])) (hlen'.symm ▸ hdest) (by
        cases source with
        | some source => exact hm ▸ Nat.le_of_add_right_le hsource
        | none => rw [Option.getD_none]; omega)
    rw [reverse_append, reverse_singleton, singleton_append, hstep]
    refine ⟨R, hm ▸ hmove, hRlen.trans hlen', ?_, ?_⟩
    · intro k b hk
      rcases Nat.lt_or_ge k m with hlt | hge
      · rw [getElem?_append_left (by omega)] at hk
        rw [hRdata k b hk, hsource' k hlt]
      · rw [getElem?_append_right (by omega), hm, getElem?_blocksOf_singleton] at hk
        have hnot : ((b.toNat : Nat) : Int) ∉ blocksOf ranges :=
          notMem_blocksOf fun r hr => (hbelow r hr).trans (by omega)
        rw [hRframe _ hnot, hstored, if_pos (by omega), ← hpiece, getElem?_take_of_lt (by omega),
          getElem?_drop]
        congr 1
        omega
    · intro i hi
      rw [mem_append, not_or, @mem_blocksOf [(s, e)]] at hi
      simp only [mem_singleton, exists_eq_left, not_and, not_lt] at hi
      rw [hRframe i hi.1, hstored, if_neg (by omega)]

end ShieldTv.Updater.BlockImg
