import ShieldTv.Applypatch.Proofs.Bsdiff
import ShieldTv.Lib.Fallible

/-!
# `bspatch` undoes `bsdiff`

The loop of `ApplyBSDiffPatchMem` over the pieces of a patch: each round reads one
triple and appends one piece of the new file.
-/

namespace ShieldTv.Applypatch

open Lib List Lib.Bytes
open Lib.Memory (Region Region.bytes_ofList_take)

/-! ## Offsets -/

theorem signByte : ∀ k : Fin 128,
    ((UInt8.ofNat k ||| 0) &&& 0x7F).toNat = k ∧ (UInt8.ofNat k ||| 0) &&& 0x80 = 0 ∧
      ((UInt8.ofNat k ||| 0x80) &&& 0x7F).toNat = k ∧ (UInt8.ofNat k ||| 0x80) &&& 0x80 ≠ 0 := by
  decide +kernel

@[simp] theorem length_offtout (x : Int) : (offtout x).length = 8 := by
  simp [offtout]

@[simp] theorem Piece.length_ctrl (piece : Piece) : piece.ctrl.length = 24 := by
  simp [Piece.ctrl]

def FitsOff (x : Int) : Prop := -2 ^ 63 < x ∧ x < 2 ^ 63

theorem offtin_offtout {x : Int} (h : FitsOff x) : offtin (offtout x) = x := by
  obtain ⟨hlow, hhigh⟩ := h
  have htop : x.natAbs / 256 ^ 7 < 128 := by omega
  have hbyte := signByte ⟨x.natAbs / 256 ^ 7, htop⟩
  obtain ⟨hpos, hpos', hneg, hneg'⟩ := hbyte
  have hlen : (leBytes 7 x.natAbs).length = 7 := length_leBytes 7 _
  have hvalue : leValue ((offtout x).take 7) = x.natAbs % 256 ^ 7 := by
    rw [offtout, take_left' hlen, leValue_leBytes]
  have hlast : (offtout x).getD 7 0 =
      UInt8.ofNat (x.natAbs / 256 ^ 7) ||| (if x < 0 then 0x80 else 0) := by
    rw [offtout, getD_append_right _ _ _ _ (by rw [hlen]), hlen]
    rfl
  unfold offtin
  simp only [hvalue, hlast]
  by_cases hx : x < 0
  · simp only [if_pos hx, hneg]
    rw [if_pos hneg']
    omega
  · simp only [if_neg hx, hpos]
    rw [if_neg (by simpa using hpos')]
    omega

theorem offT_ok {x : Int} (h : FitsOff x) : offT x = .ok x :=
  if_pos ⟨h.1.le, h.2⟩

/-! ## Streams -/

/-- bzip2 is lossless: a stream over compressed data delivers the data in calls that make
progress, and nothing else. Compressed data is at most one percent and 600 bytes longer. It is made
of blocks that are decoded as a whole, each far below 4 GiB, so that without its last 4 GiB it does
not deliver everything. -/
structure Lossless (bz : Bzip2) where
  Delivers : bz.Stream → Bytes → Prop
  init : ∀ data, data.length < 2 ^ 63 → Delivers (bz.decompressInit (bz.compress data)) data
  sound : ∀ {stream data n out code stream'}, Delivers stream data →
    bz.decompress stream n = (out, code, stream') → code ≠ BzCode.error →
      out.length ≤ n ∧ out <+: data ∧ Delivers stream' (data.drop out.length)
  progress : ∀ {stream data n out code stream'}, Delivers stream data →
    bz.decompress stream n = (out, code, stream') → 0 < n → n ≤ data.length →
      code ≠ BzCode.error ∧ out ≠ []
  size : ∀ data, data.length < 2 ^ 63 →
    100 * (bz.compress data).length ≤ 101 * data.length + 60000
  cut : ∀ data n, data.length < 2 ^ 63 → n + 2 ^ 32 ≤ (bz.compress data).length →
    ∃ k < data.length, Delivers (bz.decompressInit ((bz.compress data).take n)) (data.take k)

variable {bz : Bzip2} {stream dstream estream : bz.Stream} {rest data : Bytes}
  {pieces : List Piece}

theorem fillLoop_succ {fuel n : Nat} {stream' : bz.Stream} {out : Bytes} {code : BzCode}
    (hcall : bz.decompress stream (n + 1) = (out, code, stream')) (hcode : code ≠ .error) :
    fillLoop bz (fuel + 1) (n + 1) stream =
      (do
        let (rest, stream) ← fillLoop bz fuel (n + 1 - out.length) stream'
        .ok (out ++ rest, stream)) := by
  rw [fillLoop, hcall]
  cases code with
  | error => exact absurd rfl hcode
  | ok | streamEnd => rfl

theorem fillLoop_ok (hbz : Lossless bz) {fuel n : Nat} (hstream : hbz.Delivers stream data)
    (hn : n ≤ data.length) (hfuel : n ≤ fuel) :
    ∃ stream', fillLoop bz fuel n stream = .ok (data.take n, stream') ∧
      hbz.Delivers stream' (data.drop n) := by
  induction fuel generalizing n data stream with
  | zero =>
    obtain rfl : n = 0 := by omega
    exact ⟨stream, by rw [fillLoop, take_zero], hstream⟩
  | succ fuel ih =>
    cases n with
    | zero => exact ⟨stream, by rw [fillLoop, take_zero], hstream⟩
    | succ n =>
      obtain ⟨out, code, stream', hcall⟩ : ∃ out code stream',
          bz.decompress stream (n + 1) = (out, code, stream') := ⟨_, _, _, rfl⟩
      obtain ⟨hcode, hout⟩ := hbz.progress hstream hcall n.succ_pos hn
      obtain ⟨hle, hprefix, hrest⟩ := hbz.sound hstream hcall hcode
      have hpos := length_pos_of_ne_nil hout
      obtain ⟨stream'', hloop, hdone⟩ := ih hrest (n := n + 1 - out.length)
        (by rw [length_drop]; omega) (by omega)
      refine ⟨stream'', ?_, ?_⟩
      · have htake : out ++ (data.drop out.length).take (n + 1 - out.length) =
            data.take (n + 1) := by
          obtain ⟨rest, rfl⟩ := hprefix
          rw [drop_left, take_append, take_of_length_le hle]
        rw [fillLoop_succ hcall hcode, hloop, ← htake]
        rfl
      · rw [drop_drop, Nat.add_sub_cancel' hle] at hdone
        exact hdone

theorem fillBuffer_ok (hbz : Lossless bz) (fuel : Nat) {part : Bytes}
    (hstream : hbz.Delivers stream (part ++ rest)) (hpart : part.length < 2 ^ 32)
    (hfuel : part.length ≤ fuel) :
    ∃ stream', fillBuffer bz fuel part.length stream = .ok (part, stream') ∧
      hbz.Delivers stream' rest := by
  obtain ⟨stream', hfill, hdone⟩ := fillLoop_ok hbz (n := part.length) hstream
    (by rw [length_append]; omega) hfuel
  rw [take_left] at hfill
  rw [drop_left] at hdone
  refine ⟨stream', ?_, hdone⟩
  have hsize : ((part.length : Int) % 2 ^ 32).toNat = part.length := by omega
  rw [fillBuffer, hsize, hfill]

/-! ## A round -/

section

variable {old new : Bytes} {newpos oldpos : Nat} {piece : Piece}

theorem addOld_diff {n : Nat} (hnew : newpos + n ≤ new.length) (hold : oldpos + n ≤ old.length) :
    addOld (Region.ofList old) old.length oldpos
      (List.zipWith (· - ·) (slice new newpos n) (slice old oldpos n)) = slice new newpos n := by
  unfold addOld slice
  apply ext_getElem
  · simp only [length_mapIdx, length_zipWith, length_take, length_drop]
    omega
  · intro i hi hi'
    have hin : i < n := by
      rw [length_take] at hi'
      omega
    rw [getElem_mapIdx, if_pos (by omega), getElem_zipWith, getElem_take,
      getElem_take, getElem_drop, getElem_drop, Region.ofList, if_neg (by omega),
      show ((oldpos : Int) + (i : Int)).toNat = oldpos + i by omega,
      getD_eq_getElem _ _ (by omega), UInt8.sub_add_cancel]

theorem take_add_slice (new : Bytes) (newpos n : Nat) :
    new.take newpos ++ slice new newpos n = new.take (newpos + n) := by
  rw [slice, ← take_add]

variable (fresh : Nat → UInt8) {fuel rounds : Nat} {streams : Streams bz}

section

variable (hbz : Lossless bz) (hdesc : Describes old new newpos oldpos piece)
  (hnew : new.length < 2 ^ 63) (hfuel : new.length ≤ fuel)
include hbz hdesc hnew hfuel

theorem readDiff_ok (hstream : hbz.Delivers dstream (piece.diff ++ rest))
    (hdiff : piece.diff.length < 2 ^ 31) :
    ∃ dstream', readDiff bz fuel (Region.ofList old) old.length new.length (new.take newpos) oldpos
        piece.diff.length dstream = .ok (new.take (newpos + piece.diff.length), dstream') ∧
      hbz.Delivers dstream' rest := by
  have hroom := hdesc.room
  unfold Piece.size at hroom
  obtain ⟨dstream', hfill, hdone⟩ := fillBuffer_ok hbz fuel hstream (by omega) (by omega)
  refine ⟨dstream', ?_, hdone⟩
  have hlen : (new.take newpos).length = newpos := by
    rw [length_take]
    omega
  have hdata : addOld (Region.ofList old) old.length oldpos piece.diff =
      slice new newpos piece.diff.length := by
    conv_lhs => rw [hdesc.diff_eq]
    exact addOld_diff (by omega) hdesc.inOld
  unfold readDiff
  rw [hlen, offT_ok ⟨by omega, by omega⟩]
  simp only [bind, Except.bind]
  rw [if_neg (by omega), hfill]
  simp only
  rw [if_neg (by omega), hdata, take_add_slice]

theorem readExtra_ok (hstream : hbz.Delivers estream (piece.extra ++ rest))
    (hextra : piece.extra.length < 2 ^ 31) :
    ∃ estream', readExtra bz fuel fresh new.length (new.take (newpos + piece.diff.length))
        piece.extra.length estream = .ok (new.take (newpos + piece.size), estream') ∧
      hbz.Delivers estream' rest := by
  have hroom := hdesc.room
  unfold Piece.size at hroom
  obtain ⟨estream', hfill, hdone⟩ := fillBuffer_ok hbz fuel hstream (by omega) (by omega)
  refine ⟨estream', ?_, hdone⟩
  have hlen : (new.take (newpos + piece.diff.length)).length = newpos + piece.diff.length := by
    rw [length_take]
    omega
  unfold readExtra
  rw [hlen, offT_ok ⟨by omega, by omega⟩]
  simp only [bind, Except.bind]
  rw [if_neg (by omega), hfill]
  simp only
  rw [length_append, hlen,
    show ((newpos + piece.diff.length : Nat) + (piece.extra.length : Int)).toNat -
    (newpos + piece.diff.length + piece.extra.length) = 0 by omega]
  simp only [List.range'_zero, map_nil, append_nil]
  conv_lhs => rw [hdesc.extra_eq]
  rw [take_add_slice, add_assoc]
  rfl

end

/-! ## All rounds -/

theorem offtin_ctrl {a b c : Int} (h : FitsOff a ∧ FitsOff b ∧ FitsOff c) :
    offtin (slice (offtout a ++ offtout b ++ offtout c) 0 8) = a ∧
      offtin (slice (offtout a ++ offtout b ++ offtout c) 8 8) = b ∧
      offtin (slice (offtout a ++ offtout b ++ offtout c) 16 8) = c := by
  refine ⟨?_, ?_, ?_⟩
  · rw [append_assoc, slice_part (length_offtout a), offtin_offtout h.1]
  · rw [slice, append_assoc, drop_left' (length_offtout a), take_left' (length_offtout b),
      offtin_offtout h.2.1]
  · rw [slice, drop_left' (by simp), take_of_length_le (by simp), offtin_offtout h.2.2]

/-- The streams deliver what the pieces are made of. -/
structure DeliversPieces (hbz : Lossless bz) (streams : Streams bz) (pieces : List Piece) : Prop
    where
  ctrl : hbz.Delivers streams.cstream (Blocks.ofPieces pieces).ctrl
  diff : hbz.Delivers streams.dstream (Blocks.ofPieces pieces).db
  extra : hbz.Delivers streams.estream (Blocks.ofPieces pieces).eb

theorem applyLoop_succ {region : Region} {oldSize newSize : Int} {ctrl0 ctrl1 : Nat}
    {newData newData' newData'' : Bytes} {pos ctrl2 : Int} {cstream : bz.Stream}
    (hmore : (newData.length : Int) < newSize)
    (hc : fillBuffer bz fuel 24 streams.cstream =
      .ok (offtout ctrl0 ++ offtout ctrl1 ++ offtout ctrl2, cstream))
    (hfits : FitsOff ctrl0 ∧ FitsOff ctrl1 ∧ FitsOff ctrl2)
    (hd : readDiff bz fuel region oldSize newSize newData pos ctrl0 streams.dstream =
      .ok (newData', dstream))
    (he : readExtra bz fuel fresh newSize newData' ctrl1 streams.estream = .ok (newData'', estream))
    (hpos : FitsOff (pos + ctrl0) ∧ FitsOff (pos + ctrl0 + ctrl2)) :
    applyLoop bz fuel fresh region oldSize newSize (rounds + 1) newData pos streams =
      applyLoop bz fuel fresh region oldSize newSize rounds newData'' (pos + ctrl0 + ctrl2)
        { cstream, dstream, estream } := by
  obtain ⟨h0, h1, h2⟩ := offtin_ctrl hfits
  rw [applyLoop, if_pos hmore]
  simp only [hc, bind, Except.bind]
  rw [if_neg (by omega), h0, hd]
  simp only [offT_ok hpos.1, h1, he, h2, offT_ok hpos.2]

theorem applyLoop_ok (hbz : Lossless bz) (hnew : new.length < 2 ^ 63) (hold : old.length < 2 ^ 63)
    (hfuel : new.length ≤ fuel) (hfuel' : 24 ≤ fuel)
    (hpieces : Rebuilds old new pieces newpos oldpos) (hrounds : pieces.length < rounds)
    (hdb : (Blocks.ofPieces pieces).db.length < 2 ^ 31)
    (heb : (Blocks.ofPieces pieces).eb.length < 2 ^ 31)
    (hstreams : DeliversPieces hbz streams pieces) :
    applyLoop bz fuel fresh (Region.ofList old) old.length new.length rounds (new.take newpos)
      oldpos streams = .ok new := by
  induction hpieces generalizing rounds streams with
  | nil oldpos =>
    obtain ⟨rounds, rfl⟩ := Nat.exists_eq_succ_of_ne_zero (Nat.ne_of_gt hrounds)
    rw [applyLoop, if_neg (by rw [take_length]; omega), take_length]
  | @cons piece pieces newpos oldpos next hdesc hnext hseek hrest ih =>
    obtain ⟨rounds, rfl⟩ : ∃ r, rounds = r + 1 := ⟨rounds - 1, by omega⟩
    have hmore := hdesc.start
    have hroom := hdesc.room
    have hinOld := hdesc.inOld
    unfold Piece.size at hroom
    have hstart : hbz.Delivers streams.cstream
        (piece.ctrl ++ (Blocks.ofPieces pieces).ctrl) := hstreams.ctrl
    obtain ⟨cstream, hc, hcdone⟩ := fillBuffer_ok hbz fuel hstart (by simp) (by simpa)
    rw [piece.length_ctrl] at hc
    simp only [Blocks.ofPieces, flatMap_cons, length_append] at hdb heb
    obtain ⟨dstream, hd, hddone⟩ :=
      readDiff_ok hbz hdesc hnew hfuel hstreams.diff (Nat.lt_of_le_of_lt (Nat.le_add_right _ _) hdb)
    obtain ⟨estream, he, hedone⟩ := readExtra_ok fresh hbz hdesc hnew hfuel hstreams.extra
      (Nat.lt_of_le_of_lt (Nat.le_add_right _ _) heb)
    have hlen : (new.take newpos).length = newpos := by
      rw [length_take]
      omega
    have hpos : (oldpos : Int) + piece.diff.length + piece.seek = next := by omega
    rw [applyLoop_succ fresh (by rw [hlen]; omega) hc
      ⟨⟨by omega, by omega⟩, ⟨by omega, by omega⟩, by omega, by omega⟩ hd he
      ⟨⟨by omega, by omega⟩, by omega, by omega⟩, hpos]
    exact ih (by simpa using hrounds) (Nat.lt_of_le_of_lt (Nat.le_add_left _ _) hdb)
      (Nat.lt_of_le_of_lt (Nat.le_add_left _ _) heb) ⟨hcdone, hddone, hedone⟩

end

/-! ## The patch file -/

theorem Rebuilds.size_eq {old new : Bytes} {newpos oldpos : Nat}
    (h : Rebuilds old new pieces newpos oldpos) :
    newpos + (Blocks.ofPieces pieces).db.length + (Blocks.ofPieces pieces).eb.length =
      new.length := by
  induction h with
  | nil oldpos => rfl
  | cons hdesc hnext hseek hrest ih =>
    simp only [Blocks.ofPieces, flatMap_cons, length_append, Piece.size] at *
    omega

theorem length_ctrl_ofPieces (pieces : List Piece) :
    (Blocks.ofPieces pieces).ctrl.length = 24 * pieces.length := by
  induction pieces with
  | nil => rfl
  | cons piece pieces ih =>
    simp only [Blocks.ofPieces, flatMap_cons, length_append, Piece.length_ctrl, length_cons] at *
    omega

theorem take_length_mod (h : data.length < 2 ^ 32) : data.take (data.length % 2 ^ 32) = data := by
  rw [Nat.mod_eq_of_lt h, take_length]

def patchFile (ctrl diff extra : Bytes) (newSize : Int) : Bytes :=
  bsdiffMagic ++ offtout ctrl.length ++ offtout diff.length ++ offtout newSize ++ ctrl ++ diff ++
    extra

/-- `ApplyBSDiffPatchMem` on a patch file opens its three streams. -/
theorem applyBSDiffPatchMem_patchFile (fuel : Nat) (fresh : Nat → UInt8) (old : Region)
    (oldSize : Int) {newSize : Nat} (ctrl diff extra : Bytes) (hctrl : ctrl.length < 2 ^ 63)
    (hdiff : diff.length < 2 ^ 63) (hnew : newSize < 2 ^ 63) :
    applyBSDiffPatchMem bz fuel fresh old oldSize
        { data := .ofList (patchFile ctrl diff extra newSize)
          size := (patchFile ctrl diff extra newSize).length } 0 =
      applyLoop bz fuel fresh old oldSize newSize fuel [] 0
        { cstream := bz.decompressInit (ctrl.take (ctrl.length % 2 ^ 32))
          dstream := bz.decompressInit (diff.take (diff.length % 2 ^ 32))
          estream := bz.decompressInit (extra.take (extra.length % 2 ^ 32)) } := by
  let header := bsdiffMagic ++ (offtout ctrl.length ++ offtout diff.length ++ offtout newSize)
  have hmagic : bsdiffMagic.length = 8 := rfl
  have hheader : header.length = 32 := by simp [header, hmagic]
  have hfile : patchFile ctrl diff extra newSize = header ++ ctrl ++ diff ++ extra := by
    simp [patchFile, header]
  generalize hall : header ++ ctrl ++ diff ++ extra = file at hfile
  have hbytes : ∀ a b c : Bytes, a ++ (b ++ c) = file →
      (Region.ofList file).bytes a.length (b.length % 2 ^ 32) = b.take (b.length % 2 ^ 32) := by
    rintro a b c rfl
    exact Region.bytes_ofList_take a c (Nat.mod_le _ _)
  have h0 := hbytes [] header (ctrl ++ diff ++ extra) (by simp [← hall])
  have h1 := hbytes header ctrl (diff ++ extra) (by simp [← hall])
  have h2 := hbytes (header ++ ctrl) diff extra (by simp [← hall])
  have h3 := hbytes (header ++ ctrl ++ diff) extra [] (by simp [← hall])
  have hmagic' : slice header 0 8 = bsdiffMagic := slice_part hmagic _
  obtain ⟨hs0, hs1, hs2⟩ := @offtin_ctrl ctrl.length diff.length newSize
    ⟨⟨by omega, by omega⟩, ⟨by omega, by omega⟩, by omega, by omega⟩
  have hskip : ∀ n, slice header (8 + n) 8 =
      slice (offtout ctrl.length ++ offtout diff.length ++ offtout newSize) n 8 := by
    intro n
    rw [slice_skip_part hmagic _ _ (Nat.le_add_right 8 n), Nat.add_sub_cancel_left]
  have hmod : ∀ n : Nat, ((n : Int) % 2 ^ 32).toNat = n % 2 ^ 32 := by
    intro n
    omega
  have hextraLen : (file.length : Int) - (32 + ctrl.length + diff.length) = extra.length := by
    rw [← hall]
    simp only [length_append, hheader]
    omega
  rw [hheader, Nat.mod_eq_of_lt (by decide), take_of_length_le (by rw [hheader])] at h0
  simp only [length_append, hheader, Nat.cast_add, Nat.cast_ofNat] at h1 h2 h3
  unfold applyBSDiffPatchMem
  simp only [hfile, zero_add]
  rw [show (Region.ofList file).bytes 0 32 = header from h0, hmagic', hskip 0, hs0, hskip 8, hs1,
    hskip 16, hs2, if_neg (not_not_intro rfl), if_neg (by omega), hextraLen, hmod, hmod, hmod,
    h1, h2, h3]

/-- The lengths that pass through an `int` in `BZ2_bzWrite`, `FillBuffer` and the loop over the
diff data, or through the `unsigned int` `avail_in`. -/
structure FitsInts (bz : Bzip2) (blocks : Blocks) : Prop where
  ctrl : (bz.compress blocks.ctrl).length < 2 ^ 32
  db : blocks.db.length < 2 ^ 31
  eb : blocks.eb.length < 2 ^ 31

theorem bzWrite_eq (h : data.length < 2 ^ 31) : bzWrite bz data = some (bz.compress data) := by
  rw [bzWrite, if_pos (by omega), take_length_mod (by omega)]

theorem bsdiffWith_eq {old new diff extra : Bytes} {find : Nat → Nat × Nat}
    (hblocks : diffBlocks old new find = Blocks.ofPieces pieces)
    (hdiff : bzWrite bz (Blocks.ofPieces pieces).db = some diff)
    (hextra : bzWrite bz (Blocks.ofPieces pieces).eb = some extra) :
    bsdiffWith bz find old new =
      some (patchFile (bz.compress (Blocks.ofPieces pieces).ctrl) diff extra new.length) := by
  simp only [bsdiffWith, hblocks, hdiff, hextra]
  rfl

/-- For every answer of `search`, a patch whose lengths fit is produced, and applying it gives the
file. -/
theorem bspatch_undoes_bsdiff (hbz : Lossless bz) {old new : Bytes} {find : Nat → Nat × Nat}
    (hfind : InBounds old new find) (hold : old.length < 2 ^ 63)
    (hfits : FitsInts bz (diffBlocks old new find)) :
    ∃ patch, bsdiffWith bz find old new = some patch ∧
      ∀ (fresh : Nat → UInt8) (fuel : Nat), new.length + 24 ≤ fuel →
        applyBSDiffPatchMem bz fuel fresh (.ofList old) old.length
          { data := .ofList patch, size := patch.length } 0 = .ok new := by
  obtain ⟨pieces, hblocks, hrebuilds, hfew⟩ := diffBlocks_spec hfind
  rw [hblocks] at hfits
  obtain ⟨hcfits, hdb, heb⟩ := hfits
  have hsize := hrebuilds.size_eq
  have hctrl := length_ctrl_ofPieces pieces
  have hd := hbz.size (Blocks.ofPieces pieces).db (by omega)
  have hx := hbz.size (Blocks.ofPieces pieces).eb (by omega)
  refine ⟨_, bsdiffWith_eq hblocks (bzWrite_eq hdb) (bzWrite_eq heb), ?_⟩
  intro fresh fuel hfuel
  rw [applyBSDiffPatchMem_patchFile fuel fresh _ _ _ _ _ (by omega) (by omega) (by omega),
    take_length_mod hcfits, take_length_mod (by omega), take_length_mod (by omega)]
  exact applyLoop_ok fresh hbz (by omega) hold (by omega) (by omega) hrebuilds (by omega) hdb heb
    ⟨hbz.init _ (by omega), hbz.init _ (by omega), hbz.init _ (by omega)⟩

/-! ## Lengths that do not fit -/

section

open Lib.Fallible (bind_eq_ok)

/-- `FillBuffer` returns what is next in the stream, or not at all. -/
theorem fillLoop_sound (hbz : Lossless bz) {fuel n : Nat} {out : Bytes} {stream' : bz.Stream}
    (hstream : hbz.Delivers stream data) (h : fillLoop bz fuel n stream = .ok (out, stream')) :
    out.length = n ∧ out <+: data ∧ hbz.Delivers stream' (data.drop n) := by
  induction fuel generalizing n stream data out with
  | zero =>
    cases n with
    | zero =>
      cases h
      exact ⟨rfl, nil_prefix, hstream⟩
    | succ n => cases h
  | succ fuel ih =>
    cases n with
    | zero =>
      cases h
      exact ⟨rfl, nil_prefix, hstream⟩
    | succ n =>
      obtain ⟨part, code, next, hcall⟩ : ∃ part code next,
          bz.decompress stream (n + 1) = (part, code, next) := ⟨_, _, _, rfl⟩
      have hcode : code ≠ .error := by
        rintro rfl
        rw [fillLoop, hcall] at h
        cases h
      obtain ⟨hle, ⟨rest, rfl⟩, hnext⟩ := hbz.sound hstream hcall hcode
      rw [fillLoop_succ hcall hcode] at h
      obtain ⟨⟨more, last⟩, hmore, hout⟩ := bind_eq_ok.mp h
      cases hout
      obtain ⟨hlen, hprefix, hlast⟩ := ih hnext hmore
      rw [drop_left] at hprefix
      rw [drop_drop, Nat.add_sub_cancel' hle] at hlast
      refine ⟨?_, (prefix_append_right_inj part).mpr hprefix, hlast⟩
      rw [length_append]
      omega

theorem fillBuffer_sound (hbz : Lossless bz) {fuel size : Nat} {out : Bytes}
    {stream' : bz.Stream} (hstream : hbz.Delivers stream data)
    (h : fillBuffer bz fuel size stream = .ok (out, stream')) :
    out.length = size % 2 ^ 32 ∧ out.length ≤ data.length ∧ out = data.take out.length ∧
      hbz.Delivers stream' (data.drop out.length) := by
  obtain ⟨hlen, hprefix, hnext⟩ := fillLoop_sound hbz hstream h
  have hsize : ((size : Int) % 2 ^ 32).toNat = size % 2 ^ 32 := by omega
  rw [← hlen] at hnext
  exact ⟨hlen.trans hsize, hprefix.length_le, prefix_iff_eq_take.mp hprefix, hnext⟩

variable {fuel rounds : Nat} {fresh : Nat → UInt8} {region : Region} {oldSize newSize pos : Int}
  {newData result : Bytes} {streams : Streams bz}

theorem eq_of_offT {x y : Int} (h : offT x = .ok y) : y = x := by
  unfold offT at h
  split_ifs at h
  exact (Except.ok.inj h).symm

theorem readDiff_inv {ctrl0 : Int} {newData' : Bytes} {dstream' : bz.Stream}
    (h : readDiff bz fuel region oldSize newSize newData pos ctrl0 dstream =
      .ok (newData', dstream')) :
    ctrl0 < 2 ^ 31 ∧ ∃ diff, fillBuffer bz fuel ctrl0 dstream = .ok (diff, dstream') ∧
      newData' = newData ++ addOld region oldSize pos diff := by
  obtain ⟨newpos, -, h⟩ := bind_eq_ok.mp h
  by_cases hover : newSize < newpos
  · rw [if_pos hover] at h
    cases h
  rw [if_neg hover] at h
  obtain ⟨⟨diff, dstream''⟩, hfill, h⟩ := bind_eq_ok.mp h
  dsimp only at h
  split_ifs at h with hint
  cases h
  exact ⟨not_le.mp hint, diff, hfill, rfl⟩

theorem readExtra_inv {ctrl1 : Int} {newData' : Bytes} {estream' : bz.Stream}
    (h : readExtra bz fuel fresh newSize newData ctrl1 estream = .ok (newData', estream')) :
    ∃ extra, fillBuffer bz fuel ctrl1 estream = .ok (extra, estream') ∧
      newData' = newData ++ extra ++ (List.range' (newData ++ extra).length
        (((newData.length : Int) + ctrl1).toNat - (newData ++ extra).length)).map fresh := by
  obtain ⟨newpos, hnewpos, h⟩ := bind_eq_ok.mp h
  rw [eq_of_offT hnewpos] at h
  split_ifs at h with hover
  obtain ⟨⟨extra, estream''⟩, hfill, h⟩ := bind_eq_ok.mp h
  cases h
  exact ⟨extra, hfill, rfl⟩

/-- A round on the way to a result. -/
theorem applyLoop_inv (hmore : (newData.length : Int) < newSize)
    (h : applyLoop bz fuel fresh region oldSize newSize (rounds + 1) newData pos streams =
      .ok result) :
    ∃ buf newData' newData'' pos' cstream dstream estream,
      fillBuffer bz fuel 24 streams.cstream = .ok (buf, cstream) ∧
      readDiff bz fuel region oldSize newSize newData pos (offtin (slice buf 0 8)) streams.dstream =
        .ok (newData', dstream) ∧
      readExtra bz fuel fresh newSize newData' (offtin (slice buf 8 8)) streams.estream =
        .ok (newData'', estream) ∧
      pos' = pos + offtin (slice buf 0 8) + offtin (slice buf 16 8) ∧
      applyLoop bz fuel fresh region oldSize newSize rounds newData'' pos'
        { cstream, dstream, estream } = .ok result := by
  rw [applyLoop, if_pos hmore] at h
  obtain ⟨⟨buf, cstream⟩, hc, h⟩ := bind_eq_ok.mp h
  dsimp only at h
  split_ifs at h with hneg
  obtain ⟨⟨newData', dstream⟩, hd, h⟩ := bind_eq_ok.mp h
  obtain ⟨pos₁, hpos₁, h⟩ := bind_eq_ok.mp h
  obtain ⟨⟨newData'', estream⟩, he, h⟩ := bind_eq_ok.mp h
  obtain ⟨pos₂, hpos₂, h⟩ := bind_eq_ok.mp h
  rw [eq_of_offT hpos₁] at hpos₂
  exact ⟨buf, newData', newData'', pos₂, cstream, dstream, estream, hc, hd, he,
    eq_of_offT hpos₂, h⟩

theorem applyLoop_prefix (h : applyLoop bz fuel fresh region oldSize newSize rounds newData pos
    streams = .ok result) : newData <+: result := by
  induction rounds generalizing newData pos streams with
  | zero => cases h
  | succ rounds ih =>
    by_cases hmore : (newData.length : Int) < newSize
    · obtain ⟨buf, newData', newData'', pos', cstream, dstream, estream, -, hd, he, -, hrest⟩ :=
        applyLoop_inv hmore h
      obtain ⟨-, diff, -, rfl⟩ := readDiff_inv hd
      obtain ⟨extra, -, rfl⟩ := readExtra_inv he
      have hprefix := ih hrest
      simp only [append_assoc] at hprefix
      exact (prefix_append newData _).trans hprefix
    · rw [applyLoop, if_neg hmore] at h
      exact (Except.ok.inj h) ▸ prefix_rfl

/-- Fresh memory that agrees with `new` nowhere. -/
def unlike (new : Bytes) (i : Nat) : UInt8 := new.getD i 0 + 1

/-- Nothing of fresh memory is left in a result that is right. -/
theorem unfilled_eq_zero {new filled : Bytes} {n : Nat}
    (h : filled ++ (List.range' filled.length n).map (unlike new) <+: new) : n = 0 := by
  by_contra hn
  obtain ⟨n, rfl⟩ := Nat.exists_eq_succ_of_ne_zero hn
  obtain ⟨rest, hnew⟩ := h
  have hget : new.getD filled.length 0 = unlike new filled.length := by
    conv_lhs => rw [← hnew]
    simp [range'_succ]
  exact absurd hget (by simp [unlike])

variable {old new : Bytes} {newpos oldpos : Nat}

theorem ctrl_read (hbz : Lossless bz) {piece : Piece} {c buf : Bytes} {stream' : bz.Stream}
    (hc : hbz.Delivers stream c) (hctrl : c <+: piece.ctrl ++ rest)
    (h : fillBuffer bz fuel 24 stream = .ok (buf, stream')) :
    buf = piece.ctrl ∧ 24 ≤ c.length ∧ hbz.Delivers stream' (c.drop 24) ∧ c.drop 24 <+: rest := by
  obtain ⟨hbuf, hle, hbufc, hc'⟩ := @fillBuffer_sound _ _ _ hbz _ 24 _ _ hc h
  rw [show buf.length = 24 from hbuf] at hle hbufc hc'
  have hdrop := hctrl.drop 24
  rw [drop_left' piece.length_ctrl] at hdrop
  refine ⟨?_, hle, hc', hdrop⟩
  obtain ⟨more, hmore⟩ := hctrl
  rw [hbufc, ← take_left' piece.length_ctrl, ← hmore, take_append_of_le_length hle]

/-- The loop arrives at `new`, whatever memory it is given, only if the streams deliver the whole of
each block. -/
theorem delivers_all (hbz : Lossless bz) (hnew : new.length < 2 ^ 63) (hold : old.length < 2 ^ 63)
    (hpieces : Rebuilds old new pieces newpos oldpos) {c d e : Bytes}
    (hc : hbz.Delivers streams.cstream c) (hd : hbz.Delivers streams.dstream d)
    (he : hbz.Delivers streams.estream e) (hctrl : c <+: (Blocks.ofPieces pieces).ctrl)
    (hlen : newData.length = newpos)
    (h : applyLoop bz fuel (unlike new) (Region.ofList old) old.length new.length rounds newData
      oldpos streams = .ok new) :
    (Blocks.ofPieces pieces).ctrl.length ≤ c.length ∧
      (Blocks.ofPieces pieces).db.length ≤ d.length ∧
      (Blocks.ofPieces pieces).eb.length ≤ e.length := by
  induction hpieces generalizing rounds streams newData c d e with
  | nil oldpos => exact ⟨Nat.zero_le _, Nat.zero_le _, Nat.zero_le _⟩
  | @cons piece pieces newpos oldpos next hdesc hnext hseek hrest ih =>
    have hmore := hdesc.start
    have hroom := hdesc.room
    have hinOld := hdesc.inOld
    unfold Piece.size at hroom
    obtain ⟨rounds, rfl⟩ : ∃ r, rounds = r + 1 := by
      cases rounds with
      | zero => cases h
      | succ rounds => exact ⟨rounds, rfl⟩
    obtain ⟨buf, newData', newData'', pos', cstream, dstream, estream, hcfill, hdread, heread,
      hpos, hloop⟩ := applyLoop_inv (by rw [hlen]; omega) h
    obtain ⟨hbuf, hcle, hc', hctrl'⟩ := ctrl_read hbz hc hctrl hcfill
    obtain ⟨h0, h1, h2⟩ := @offtin_ctrl piece.diff.length piece.extra.length piece.seek
      ⟨⟨by omega, by omega⟩, ⟨by omega, by omega⟩, by omega, by omega⟩
    rw [hbuf, Piece.ctrl] at hdread heread hpos
    rw [h0] at hdread hpos
    rw [h1] at heread
    rw [h2] at hpos
    obtain ⟨hint, diff, hdfill, hdata'⟩ := readDiff_inv hdread
    obtain ⟨hdiff, hdle, -, hd'⟩ := fillBuffer_sound hbz hd hdfill
    have hlen' : newData'.length = newpos + piece.diff.length := by
      rw [hdata', length_append, addOld, length_mapIdx, hlen]
      omega
    obtain ⟨extra, hefill, hdata''⟩ := readExtra_inv heread
    obtain ⟨hextra, hele, -, he'⟩ := fillBuffer_sound hbz he hefill
    have hunfilled := unfilled_eq_zero (hdata'' ▸ applyLoop_prefix hloop)
    rw [hunfilled, range'_zero, map_nil, append_nil] at hdata''
    rw [length_append, hlen'] at hunfilled
    have hpos' : pos' = next := by omega
    rw [hpos'] at hloop
    obtain ⟨hcrest, hdrest, herest⟩ := ih hc' hd' he' hctrl'
      (by rw [hdata'', length_append, hlen', Piece.size]; omega) hloop
    simp only [Blocks.ofPieces, flatMap_cons, length_append, length_drop, Piece.length_ctrl] at *
    omega

end

end ShieldTv.Applypatch
