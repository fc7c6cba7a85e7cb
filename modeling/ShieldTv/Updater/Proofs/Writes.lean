import ShieldTv.Updater.Proofs.Buffers

/-!
# What a command writes

The loops that write target blocks, and the partition after any number of their
writes.
-/

namespace ShieldTv.Updater.BlockImg

open Lib List Trace Releasetools

variable {B : Type} {ranges : List (Int × Int)}

/-- Write the contents `c` to blocks, one by one. -/
def writesOf (blocks : List Int) (c : Int → B) : List (Effect B) :=
  blocks.map fun b => .write b (c b)

open Classical in
noncomputable def Disk.overwrite (disk : Disk B) (blocks : List Int) (c : Int → B) : Disk B :=
  { disk with block := fun b => if b ∈ blocks then c b else disk.block b }

section

variable (disk : Disk B) {blocks : List Int}

theorem overwrite_of_mem (c : Int → B) {b : Int} (h : b ∈ blocks) :
    (disk.overwrite blocks c).block b = c b := if_pos h

theorem overwrite_of_notMem (c : Int → B) {b : Int} (h : b ∉ blocks) :
    (disk.overwrite blocks c).block b = disk.block b := if_neg h

theorem overwrite_cons (b : Int) (blocks : List Int) (c : Int → B) :
    Disk.overwrite { disk with block := Function.update disk.block b (c b) } blocks c =
      disk.overwrite (b :: blocks) c := by
  unfold Disk.overwrite
  congr 1
  ext a
  by_cases ha : a ∈ blocks
  · simp [ha]
  · by_cases hab : a = b
    · subst hab
      simp [ha]
    · simp [ha, hab]

end

section

variable (pf : Platform B)

/-- Effects that each put `c b` into their block `b`. -/
theorem run_overwrite {effect : Int → Effect B} {c : Int → B}
    (heffect : ∀ (disk : Disk B) b, pf.apply disk (effect b) =
      { disk with block := Function.update disk.block b (c b) })
    (disk : Disk B) (blocks : List Int) :
    run pf.apply disk (blocks.map effect) = disk.overwrite blocks c := by
  induction blocks generalizing disk with
  | nil => simp [Disk.overwrite]
  | cons b blocks ih => rw [map_cons, Trace.run_cons, heffect, ih, overwrite_cons]

theorem run_writesOf (disk : Disk B) (blocks : List Int) (c : Int → B) :
    run pf.apply disk (writesOf blocks c) = disk.overwrite blocks c :=
  run_overwrite pf (fun _ _ => rfl) disk blocks

/-- Effects that put `c` into blocks, one by one. -/
def Writes (blocks : List Int) (c : Int → B) (effects : List (Effect B)) : Prop :=
  ∀ disk k, run pf.apply disk (effects.take k) = disk.overwrite (blocks.take k) c

theorem writes_writesOf (blocks : List Int) (c : Int → B) :
    Writes pf blocks c (writesOf blocks c) := by
  intro disk k
  unfold writesOf
  rw [← map_take]
  exact run_writesOf pf disk _ c

theorem writes_discards (blocks : List Int) :
    Writes pf blocks pf.discarded (blocks.map .discard) := by
  intro disk k
  rw [← map_take]
  exact run_overwrite pf (fun _ _ => rfl) disk _

variable {pf} {blocks : List Int} {c : Int → B} {effects : List (Effect B)}

theorem Writes.always (h : Writes pf blocks c effects) {P : Disk B → Prop} {disk : Disk B}
    (hP : ∀ k, P (disk.overwrite (blocks.take k) c)) : Always pf.apply P disk effects :=
  fun k => h disk k ▸ hP k

theorem Writes.run (h : Writes pf blocks c effects) (disk : Disk B) :
    run pf.apply disk effects = disk.overwrite blocks c := by
  have hall := h disk (effects.length + blocks.length)
  rwa [take_of_length_le (by omega), take_of_length_le (by omega)] at hall

end

/-! ## The loops -/

def rangeBlocks (s e : Int) : List Int :=
  (List.range (e - s).toNat).map fun i : Nat => s + (i : Int)

theorem blocksOf_cons (s e : Int) (ranges : List (Int × Int)) :
    blocksOf ((s, e) :: ranges) = rangeBlocks s e ++ blocksOf ranges := rfl

theorem writeRange_eq (s : Int) (c : Int → B) (n : Nat) :
    writeRange s ((List.range n).map fun i : Nat => c (s + (i : Int))) =
      writesOf ((List.range n).map fun i : Nat => s + (i : Int)) c := by
  unfold writesOf
  induction n generalizing s with
  | zero => rfl
  | succ n ih =>
    have hshift : ∀ i : Nat, s + ((i + 1 : Nat) : Int) = s + 1 + (i : Int) := fun i => by
      push_cast
      ring
    simp only [range_succ_eq_map, map_cons, map_map, Function.comp_def,
      Nat.succ_eq_add_one, hshift, writeRange, ih (s + 1), Int.natCast_zero, Int.add_zero]

theorem writeRange_rangeBlocks (s e : Int) (c : Int → B) :
    writeRange s ((rangeBlocks s e).map c) = writesOf (rangeBlocks s e) c := by
  unfold rangeBlocks
  rw [map_map]
  exact writeRange_eq s c _

theorem writesOf_append (xs ys : List Int) (c : Int → B) :
    writesOf (xs ++ ys) c = writesOf xs c ++ writesOf ys c := map_append

theorem length_rangeBlocks (s e : Int) : (rangeBlocks s e).length = (e - s).toNat := by
  simp [rangeBlocks]

def ShortRanges (ranges : List (Int × Int)) : Prop :=
  ∀ range ∈ ranges, range.2 - range.1 < 2 ^ 19

theorem shortRanges_of_length (h : Ascending ranges) (hsize : (blocksOf ranges).length < 2 ^ 19) :
    ShortRanges ranges := by
  induction ranges with
  | nil => simp [ShortRanges]
  | cons range ranges ih =>
    obtain ⟨s, e⟩ := range
    rw [blocksOf_cons, length_append, length_rangeBlocks] at hsize
    have hrest : Ascending ranges :=
      ⟨fun r hr => h.nonneg r (by simp [hr]), (pairwise_cons.mp h.sorted).2⟩
    intro range hrange
    rcases mem_cons.mp hrange with rfl | hrange
    · omega
    · exact ih hrest (by omega) range hrange

section

variable (hnonneg : ∀ range ∈ ranges, 0 ≤ range.1 ∧ range.1 ≤ range.2) (hshort : ShortRanges ranges)
  (c : Int → B)

include hnonneg hshort

theorem writes_ok {data rest : List B} (hdata : data = (blocksOf ranges).map c ++ rest) :
    writeBlocks ranges data = (writesOf (blocksOf ranges) c, .ok ()) ∧
      rangeSink ranges data = (writesOf (blocksOf ranges) c, .ok (some rest)) := by
  subst hdata
  induction ranges with
  | nil => exact ⟨rfl, rfl⟩
  | cons range ranges ih =>
    obtain ⟨s, e⟩ := range
    have hrange := hnonneg (s, e) (by simp)
    have hsize := hshort (s, e) (by simp)
    obtain ⟨hblocks, hsink⟩ := ih (fun r hr => hnonneg r (by simp [hr])) fun r hr =>
      hshort r (by simp [hr])
    have hlen : ((rangeBlocks s e).map c).length = (e - s).toNat := by
      rw [length_map, length_rangeBlocks]
    have hroom : (e - s).toNat ≤
        ((rangeBlocks s e).map c ++ ((blocksOf ranges).map c ++ rest)).length := by
      rw [length_append]
      omega
    have hseek : ¬ s < 0 := by omega
    rw [blocksOf_cons, map_append, append_assoc, writesOf_append, ← writeRange_rangeBlocks]
    constructor
    · rw [writeBlocks, if_neg hseek, byteCount_of_le (by omega) hsize]
      simp only [bind, Except.bind]
      rw [loadAt_ok (by omega)]
      simp only [drop_zero]
      rw [take_left' hlen, hlen, drop_left' hlen, hblocks]
    · rw [rangeSink, byteCount_of_le (by omega) hsize]
      simp only [if_neg hseek]
      rw [if_neg (by omega), drop_left' hlen, hsink, take_left' hlen]

theorem openSink_ok {r : RangeSet} (hr : r.ranges = ranges) (hne : ranges ≠ []) :
    openSink r = .ok () := by
  unfold openSink
  cases ranges with
  | nil => exact absurd rfl hne
  | cons range ranges =>
    obtain ⟨s, e⟩ := range
    have hrange := hnonneg (s, e) (by simp)
    have hsize := hshort (s, e) (by simp)
    rw [hr]
    simp only [byteCount_of_le (show 0 ≤ e - s by omega) hsize, bind, Except.bind]
    rw [if_neg (by omega)]

end

theorem zeroRanges_ok [Zero B] (hnonneg : ∀ range ∈ ranges, 0 ≤ range.1 ∧ range.1 ≤ range.2) :
    zeroRanges (0 : B) ranges = (writesOf (blocksOf ranges) fun _ => 0, .ok ()) := by
  induction ranges with
  | nil => rfl
  | cons range ranges ih =>
    obtain ⟨s, e⟩ := range
    have hrange := hnonneg (s, e) (by simp)
    have hzeros : List.replicate (e - s).toNat (0 : B) = (rangeBlocks s e).map fun _ => 0 := by
      rw [map_const', length_rangeBlocks]
    rw [zeroRanges, if_neg (show ¬s < 0 by omega), ih fun r hr => hnonneg r (by simp [hr]),
      hzeros, writeRange_rangeBlocks, blocksOf_cons, writesOf_append]

theorem discardRanges_eq (ranges : List (Int × Int)) :
    (ranges.flatMap fun range => discardRange range.1 range.2) =
      (blocksOf ranges).map (Effect.discard : Int → Effect B) := by
  induction ranges with
  | nil => rfl
  | cons range ranges ih =>
    rw [flatMap_cons, ih, blocksOf_cons, map_append]
    unfold discardRange rangeBlocks
    rw [map_map]
    rfl

end ShieldTv.Updater.BlockImg
