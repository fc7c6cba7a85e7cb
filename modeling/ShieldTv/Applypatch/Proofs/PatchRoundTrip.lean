import ShieldTv.Applypatch.Proofs.Bspatch

/-!
# When the new file comes back

The round trip through a patch file, and what becomes of it when a length no longer fits
the `int`s in between.
-/

namespace ShieldTv.Applypatch

open Lib.Bytes List
open Lib.Memory (Region)

theorem of_bzWrite {bz : Bzip2} {data out : Bytes} (h : bzWrite bz data = some out) :
    data.length % 2 ^ 32 < 2 ^ 31 ∧ out = bz.compress (data.take (data.length % 2 ^ 32)) := by
  unfold bzWrite at h
  split_ifs at h with hlt
  exact ⟨hlt, (Option.some.inj h).symm⟩

/-- A block that `BZ2_bzWrite` takes is delivered up to the length that the call was given. -/
theorem Lossless.delivers_written {bz : Bzip2} (hbz : Lossless bz) {data out : Bytes}
    (h : bzWrite bz data = some out) : out.length < 2 ^ 32 ∧ data.length % 2 ^ 32 < 2 ^ 31 ∧
      hbz.Delivers (bz.decompressInit out) (data.take (data.length % 2 ^ 32)) := by
  obtain ⟨hlt, rfl⟩ := of_bzWrite h
  have hlen := length_take_le (data.length % 2 ^ 32) data
  have hsize := hbz.size (data.take (data.length % 2 ^ 32)) (by omega)
  exact ⟨by omega, hlt, hbz.init _ (by omega)⟩

/-- What is delivered of a block that goes through `avail_in`. -/
theorem Lossless.delivers_cut {bz : Bzip2} (hbz : Lossless bz) {data : Bytes}
    (hdata : data.length < 2 ^ 63) :
    ∃ part, hbz.Delivers (bz.decompressInit
        ((bz.compress data).take ((bz.compress data).length % 2 ^ 32))) part ∧ part <+: data ∧
      (part.length < data.length ∨ (bz.compress data).length < 2 ^ 32) := by
  by_cases hlt : (bz.compress data).length < 2 ^ 32
  · rw [take_length_mod hlt]
    exact ⟨data, hbz.init data hdata, prefix_rfl, .inr hlt⟩
  · obtain ⟨k, hk, hpart⟩ := hbz.cut data ((bz.compress data).length % 2 ^ 32) hdata (by omega)
    refine ⟨data.take k, hpart, take_prefix k data, .inl ?_⟩
    rw [length_take]
    omega

theorem fitsInts_of_patched {bz : Bzip2} (hbz : Lossless bz) {old new patch : Bytes}
    {find : Nat → Nat × Nat} (hfind : InBounds old new find) (hold : old.length < 2 ^ 63)
    (hnew : new.length < 2 ^ 61) (hpatch : bsdiffWith bz find old new = some patch) {fuel : Nat}
    (happly : applyBSDiffPatchMem bz fuel (unlike new) (.ofList old) old.length
      { data := .ofList patch, size := patch.length } 0 = .ok new) :
    FitsInts bz (diffBlocks old new find) := by
  obtain ⟨pieces, hblocks, hrebuilds, hfew⟩ := diffBlocks_spec hfind
  have hctrl := length_ctrl_ofPieces pieces
  obtain ⟨diff, hdiff, hrest⟩ := Option.bind_eq_some_iff.mp hpatch
  obtain ⟨extra, hextra, -⟩ := Option.bind_eq_some_iff.mp hrest
  rw [hblocks] at hdiff hextra ⊢
  rw [bsdiffWith_eq hblocks hdiff hextra] at hpatch
  cases hpatch
  obtain ⟨hdlen, hdlt, hd⟩ := hbz.delivers_written hdiff
  obtain ⟨helen, helt, he⟩ := hbz.delivers_written hextra
  have hclen : (Blocks.ofPieces pieces).ctrl.length < 2 ^ 63 := by omega
  obtain ⟨part, hc, hprefix, hpart⟩ := hbz.delivers_cut hclen
  have hcsize := hbz.size (Blocks.ofPieces pieces).ctrl (by omega)
  rw [applyBSDiffPatchMem_patchFile fuel _ _ _ _ _ _ (by omega) (by omega) (by omega),
    take_length_mod hdlen, take_length_mod helen] at happly
  obtain ⟨hcall, hdall, heall⟩ :=
    delivers_all hbz (by omega) hold hrebuilds hc hd he hprefix rfl happly
  rw [length_take] at hdall heall
  exact ⟨by omega, by omega, by omega⟩

def storedBzip2 : Bzip2 where
  Stream := Bytes
  decompressInit := fun input => (input.drop 8).take (leValue (input.take 8))
  decompress := fun stream n =>
    (stream.take n, if stream.isEmpty then .error else .ok, stream.drop n)
  compress := fun data => leBytes 8 data.length ++ data

theorem length_stored (data : Bytes) :
    (storedBzip2.compress data).length = data.length + 8 := by
  simp only [storedBzip2, length_append, length_leBytes]
  omega

theorem decompressInit_stored {data : Bytes} (h : data.length < 2 ^ 63) (n : Nat) :
    storedBzip2.decompressInit ((storedBzip2.compress data).take n) = data.take (n - 8) := by
  have hlen : (leBytes 8 data.length).length = 8 := length_leBytes 8 _
  have hvalue : leValue (leBytes 8 data.length) = data.length :=
    leValue_leBytes_of_lt (by omega)
  simp only [storedBzip2]
  rw [drop_take, drop_left' hlen]
  by_cases hn : 8 ≤ n
  · rw [take_take (i := 8), min_eq_left hn, take_left' hlen, hvalue,
      take_of_length_le (length_take_le' _ _)]
  · rw [Nat.sub_eq_zero_of_le (by omega), take_zero, take_nil]

def losslessStored : Lossless storedBzip2 where
  Delivers := fun stream data => stream = data
  init := by
    intro data h
    have hinit := decompressInit_stored h (data.length + 8)
    rwa [← length_stored, take_length, length_stored, Nat.add_sub_cancel, take_length] at hinit
  sound := by
    rintro (stream : Bytes) data n out code stream' rfl hcall -
    cases hcall
    refine ⟨length_take_le _ _, take_prefix _ _, ?_⟩
    rw [length_take]
    rcases le_total n stream.length with hle | hle
    · rw [min_eq_left hle]
    · rw [min_eq_right hle, drop_of_length_le hle, drop_length]
  progress := by
    rintro (stream : Bytes) data n out code stream' rfl hcall hn hle
    cases hcall
    have hne : stream ≠ [] := by
      rintro rfl
      exact absurd hle (by rw [length_nil]; omega)
    simp [hne, hn.ne']
  size := by
    intro data _
    rw [length_stored]
    omega
  cut := by
    intro data n h hn
    rw [length_stored] at hn
    exact ⟨n - 8, by omega, decompressInit_stored h n⟩

section

variable {new : Bytes}

theorem agrees_nil (new : Bytes) (i : Nat) : agrees [] new 0 i = false := by
  simp [agrees]

theorem countScore_nil (new : Bytes) (oldscore : Int) (scsc n : Nat) :
    countScore [] new 0 oldscore scsc n = oldscore := by
  rw [countScore]
  exact foldl_fixed _

theorem scanLoop_nil (fuel scsc scan : Nat) :
    scanLoop [] new (fun _ => (0, 0)) 0 fuel scsc ⟨scan, 0, 0, 0⟩ = ⟨scan + fuel, 0, 0, 0⟩ := by
  induction fuel generalizing scsc scan with
  | zero => rfl
  | succ fuel ih =>
    rw [scanLoop]
    simp only [countScore_nil, agrees_nil]
    rw [if_neg (by simp)]
    simp only [Bool.false_eq_true, if_false]
    rw [ih, add_assoc, add_comm 1]

theorem eb_diffBlocks_nil (hnew : new ≠ []) :
    (diffBlocks [] new fun _ => (0, 0)).eb = new := by
  have hpos : 0 < new.length := length_pos_of_ne_nil hnew
  have hforward : forward [] new new.length 0 0 = 0 := by
    simp [forward]
  have hround : diffRound [] new (fun _ => (0, 0)) {} =
      { scan := new.length
        lastscan := new.length
        lastoffset := -(new.length : Int)
        blocks :=
          { ctrl := offtout 0 ++ offtout new.length ++ offtout 0, db := [], eb := new } } := by
    simp only [diffRound, add_zero, zero_add, Nat.sub_zero, scanLoop_nil]
    rw [if_pos (Or.inr trivial)]
    simp only [emit, extents, hforward, lt_irrefl, if_false, add_zero, Nat.not_lt_zero]
    simp [slice]
  rw [diffBlocks, diffLoop, if_pos hpos, hround]
  cases hn : new.length with
  | zero => omega
  | succ n =>
    rw [diffLoop, if_neg (by simp [hn])]

end

end ShieldTv.Applypatch
