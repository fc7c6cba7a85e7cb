import ShieldTv.Updater.ByteCounts

/-!
# When byte counts are exact

From `2 ^ 19` blocks on, the product overflows the `int` it is computed in.
-/

namespace ShieldTv.Updater.ByteCounts

open Lib.Text List

theorem intBytes_eq_iff {n : Int} (h : 0 ≤ n) : intBytes n = n * 4096 ↔ n < 2 ^ 19 := by
  have hlt : toInt (n * 4096) < 2 ^ 31 := Int.bmod_lt (by decide)
  constructor
  · intro heq
    rw [intBytes] at heq
    omega
  · intro hn
    exact toInt_of_lt (by omega) (by omega)

theorem byteSize_eq_iff {n : Nat} (h : n < 2 ^ 51) : byteSize n = n * 4096 ↔ n < 2 ^ 19 := by
  unfold byteSize intBytes toInt
  rw [Int.bmod_def]
  split_ifs <;> omega

theorem rangeBytes_eq_iff {range : Range} (hle : range.1 ≤ range.2) (hlt : range.2 < 2 ^ 31) :
    rangeBytes range = (range.2 - range.1) * 4096 ↔ range.2 - range.1 < 2 ^ 19 := by
  rw [rangeBytes, ← Int.ofNat_sub hle, byteSize_eq_iff (by omega)]

theorem bufferSize_eq (src : List Range) : bufferSize src = byteSize (blockCount src) := by
  simp only [bufferSize, parsedSize, byteSize, intBytes, toInt, Int.bmod_mul_bmod]

/-- The updater counts bytes exactly for range sets below two gigabytes, and only for them. -/
theorem byteCounts_exact_iff {src : List Range}
    (hpos : ∀ range ∈ src, range.1 ≤ range.2 ∧ range.2 < 2 ^ 31) (hnum : 2 * src.length < 2 ^ 31) :
    (readBlocksSizes src = src.map (fun range => (range.2 - range.1) * 4096) ∧
      writeBlocksSizes src = src.map (fun range => (range.2 - range.1) * 4096) ∧
      (∀ before range after, src = before ++ range :: after →
        sinkRemain (range :: after) = (range.2 - range.1) * 4096) ∧
      bufferSize src = blockCount src * 4096 ∧ patchSourceSize src = blockCount src * 4096) ↔
    blockCount src < 2 ^ 19 := by
  constructor
  · rintro ⟨hread, -, -, hbuffer, -⟩
    have hrange : ∀ n ∈ src.map fun range => range.2 - range.1, n ≤ 2 ^ 19 := by
      simp only [mem_map]
      rintro _ ⟨range, hmem, rfl⟩
      obtain ⟨hle, hlt⟩ := hpos range hmem
      exact ((rangeBytes_eq_iff hle hlt).mp (map_inj_left.mp hread range hmem)).le
    have hsum := sum_le_card_nsmul _ _ hrange
    rw [length_map, smul_eq_mul] at hsum
    rw [bufferSize_eq, byteSize_eq_iff (by unfold blockCount; omega)] at hbuffer
    exact hbuffer
  · intro hcount
    have hrange : ∀ range ∈ src, rangeBytes range = (range.2 - range.1) * 4096 := by
      intro range hmem
      obtain ⟨hle, hlt⟩ := hpos range hmem
      have hpart := single_le_sum (fun _ _ => Nat.zero_le _) _
        (mem_map_of_mem (f := fun range : Range => range.2 - range.1) hmem)
      exact (rangeBytes_eq_iff hle hlt).mpr (hpart.trans_lt hcount)
    refine ⟨map_congr_left hrange, map_congr_left hrange, ?_, ?_, ?_⟩
    · rintro before range after rfl
      exact hrange range (mem_append_right _ mem_cons_self)
    · rw [bufferSize_eq, byteSize_eq_iff (by omega)]
      exact hcount
    · have hsize : parsedSize src = blockCount src := toInt_of_lt (by omega) (by omega)
      rw [patchSourceSize, hsize, (intBytes_eq_iff (by omega)).mpr (by omega)]

theorem byteCounts_exact_iff_twoRanges :
    readBlocksSizes [(1, 3), (5, 2 ^ 18)] = [2 * 4096, (2 ^ 18 - 5) * 4096] ∧
      bufferSize [(1, 3), (5, 2 ^ 18)] = (2 ^ 18 - 3) * 4096 := by
  have hexact := (@byteCounts_exact_iff [(1, 3), (5, 2 ^ 18)] (by decide) (by decide)).mpr
    (by decide)
  exact ⟨hexact.1, hexact.2.2.2.1⟩

/-- A range of `2 ^ 20` blocks counts as no bytes. -/
theorem byteCounts_overflow : readBlocksSizes [(0, 2 ^ 20)] ≠ [2 ^ 20 * 4096] := by
  decide

end ShieldTv.Updater.ByteCounts
