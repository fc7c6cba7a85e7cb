import ShieldTv.Applypatch.Proofs.Bspatch
import ShieldTv.Updater.ReadBlocks

/-!
# Loops that wait for a reader

`FillBuffer` goes on until bzip2 has filled the buffer, `read_all` until `read` has. Over truncated
input bzip2 answers `BZ_OK` without output for ever; `read` delivers nothing from the end of the
file on. Which rounds of `ApplyBSDiffPatchMem` come to such a read is decided by what the three
streams of the patch hold.
-/

namespace ShieldTv.Updater.Returns

open Applypatch Lib.Bytes List
open Updater.ByteCounts Updater.ReadBlocks
open Lib.Memory (Region)

/-! ## Computations that come back -/

section

variable {α β : Type} {P : α → Prop} {Q : β → Prop} {m : Except Stop α} {f : α → Except Stop β}

/-- The computation returns a result with `P`, or an error code. -/
def Settles (P : α → Prop) : Except Stop α → Prop
  | .ok a => P a
  | .error stop => stop = .failed

theorem settles_bind_iff : Settles Q (m >>= f) ↔ Settles (fun a => Settles Q (f a)) m := by
  cases m with
  | error stop => exact .rfl
  | ok a => exact .rfl

theorem Settles.imp {P' : α → Prop} (h : Settles P m) (himp : ∀ a, P a → P' a) :
    Settles P' m := by
  cases m with
  | error stop => exact h
  | ok a => exact himp a h

def InOff (x : Int) : Prop := -2 ^ 63 ≤ x ∧ x < 2 ^ 63

theorem settles_offT_iff {x : Int} {P : Int → Prop} : Settles P (offT x) ↔ InOff x ∧ P x := by
  unfold offT InOff
  split_ifs with h
  · exact (and_iff_right h).symm
  · exact iff_of_false (by simp [Settles]) fun hx => h hx.1

end

/-! ## What a stream holds -/

/-- What a stream delivers, and whether its input is truncated behind that. -/
structure Source where
  data : Bytes
  Truncated : Prop

namespace Source

variable (src : Source)

def drop (n : Nat) : Source := { src with data := src.data.drop n }

/-- The bytes that `FillBuffer` asks for: `size` goes through an `int`. -/
def asked (size : Int) : Nat := (size % 2 ^ 32).toNat

def Holds (size : Int) : Prop := asked size ≤ src.data.length

/-- The buffer is not filled, and no error is reported. -/
def Dry (size : Int) : Prop := src.Truncated ∧ ¬ src.Holds size

/-- A string of `size` bytes up to `pos` in the new data does not keep the loop waiting, and `next`
is what has to hold once it is there. -/
def Comes (newSize pos size : Int) (next : Prop) : Prop :=
  InOff pos ∧ (pos ≤ newSize → ¬ src.Dry size ∧ (src.Holds size → next))

end Source

/-- `BZ2_bzDecompress` on a stream all of whose input is there from the start: it fills the buffer;
or it delivers what is left and answers `BZ_OK`, over truncated input; or it reports an error, at
the latest in the call after `BZ_STREAM_END`. Data behind which a checksum is wrong is not delivered
up to its end. -/
structure Decodes (bz : Bzip2) where
  source : bz.Stream → Source
  full : ∀ {stream n}, 0 < n → n ≤ (source stream).data.length →
    ∃ code stream', bz.decompress stream n = ((source stream).data.take n, code, stream') ∧
      code ≠ .error ∧ source stream' = (source stream).drop n
  stall : ∀ {stream n}, (source stream).data.length < n → (source stream).Truncated →
    ∃ stream', bz.decompress stream n = ((source stream).data, .ok, stream') ∧
      source stream' = (source stream).drop n
  finish : ∀ {stream n}, (source stream).data.length < n → ¬ (source stream).Truncated →
    ∃ out code stream', bz.decompress stream n = (out, code, stream') ∧
      (code = .error ∨ code = .streamEnd ∧ out.length < n ∧
        ∀ m > 0, ∃ out' stream'', bz.decompress stream' m = (out', .error, stream''))

variable {bz : Bzip2} (D : Decodes bz) {fuel n : Nat} {stream : bz.Stream}

theorem fillLoop_full (hfuel : 0 < fuel) (hn : n ≤ (D.source stream).data.length) :
    ∃ stream', fillLoop bz fuel n stream = .ok ((D.source stream).data.take n, stream') ∧
      D.source stream' = (D.source stream).drop n := by
  obtain ⟨fuel, rfl⟩ := Nat.exists_eq_succ_of_ne_zero hfuel.ne'
  cases n with
  | zero => exact ⟨stream, by rw [fillLoop, take_zero], rfl⟩
  | succ n =>
    obtain ⟨code, stream', hcall, hcode, hsource⟩ := D.full n.succ_pos hn
    refine ⟨stream', ?_, hsource⟩
    rw [fillLoop_succ hcall hcode, length_take_of_le hn, Nat.sub_self, fillLoop]
    simp [bind, Except.bind]

theorem fillLoop_hangs (htrunc : (D.source stream).Truncated)
    (hshort : (D.source stream).data.length < n) (fuel : Nat) :
    fillLoop bz fuel n stream = .error .running := by
  induction fuel generalizing n stream with
  | zero =>
    obtain ⟨n, rfl⟩ := Nat.exists_eq_succ_of_ne_zero (Nat.ne_zero_of_lt hshort)
    rfl
  | succ fuel ih =>
    obtain ⟨n, rfl⟩ := Nat.exists_eq_succ_of_ne_zero (Nat.ne_zero_of_lt hshort)
    obtain ⟨stream', hcall, hsource⟩ := D.stall hshort htrunc
    rw [fillLoop_succ hcall (by decide), ih (by rw [hsource]; exact htrunc) ?_]
    · rfl
    · rw [hsource, Source.drop, drop_of_length_le hshort.le, length_nil]
      omega

theorem fillLoop_fails (htrunc : ¬ (D.source stream).Truncated)
    (hshort : (D.source stream).data.length < n) (hfuel : 2 ≤ fuel) :
    fillLoop bz fuel n stream = .error .failed := by
  obtain ⟨fuel, rfl⟩ := Nat.exists_eq_add_of_le' hfuel
  obtain ⟨n, rfl⟩ := Nat.exists_eq_succ_of_ne_zero (Nat.ne_zero_of_lt hshort)
  obtain ⟨out, code, stream', hcall, rfl | ⟨rfl, hout, hlater⟩⟩ := D.finish hshort htrunc
  · rw [fillLoop, hcall]
  · obtain ⟨left, hleft⟩ : ∃ left, n + 1 - out.length = left + 1 := ⟨n - out.length, by omega⟩
    obtain ⟨out', stream'', hcall'⟩ := hlater (left + 1) left.succ_pos
    rw [fillLoop_succ hcall (by decide), hleft, fillLoop, hcall']
    rfl

section

variable {α : Type} {size pos newSize : Int} {Q : Prop} (hfuel : 2 ≤ fuel)
include hfuel

theorem settles_fillBuffer_iff {P : Bytes × bz.Stream → Prop}
    (hnext : ∀ stream', D.source stream' = (D.source stream).drop (Source.asked size) →
      (D.source stream).Holds size →
      (P ((D.source stream).data.take (Source.asked size), stream') ↔ Q)) :
    Settles P (fillBuffer bz fuel size stream) ↔
      ¬ (D.source stream).Dry size ∧ ((D.source stream).Holds size → Q) := by
  unfold fillBuffer
  change Settles P (fillLoop bz fuel (Source.asked size) stream) ↔ _
  by_cases hholds : (D.source stream).Holds size
  · obtain ⟨stream', hfill, hsource⟩ := fillLoop_full D (show 0 < fuel by omega) hholds
    rw [hfill]
    simp only [Source.Dry, hholds, not_true, and_false, not_false_eq_true, true_and, true_imp_iff]
    exact hnext stream' hsource hholds
  · by_cases htrunc : (D.source stream).Truncated
    · rw [fillLoop_hangs D htrunc (not_le.mp hholds)]
      exact iff_of_false (by simp [Settles]) fun h => h.1 ⟨htrunc, hholds⟩
    · rw [fillLoop_fails D htrunc (not_le.mp hholds) hfuel]
      exact iff_of_true rfl ⟨fun hdry => htrunc hdry.1, fun h => absurd h hholds⟩

/-- What `readDiff` and `readExtra` share: the check of the end of the string, and `FillBuffer`. -/
theorem settles_readUpTo_iff {P : α → Prop} {k : Int → Bytes × bz.Stream → Except Stop α}
    (hnext : ∀ stream', D.source stream' = (D.source stream).drop (Source.asked size) →
      (D.source stream).Holds size →
      (Settles P (k pos ((D.source stream).data.take (Source.asked size), stream')) ↔ Q)) :
    Settles P (do
      let newpos ← offT pos
      if newSize < newpos then .error .failed
      else do
        let filled ← fillBuffer bz fuel size stream
        k newpos filled) ↔ (D.source stream).Comes newSize pos size Q := by
  refine settles_bind_iff.trans (settles_offT_iff.trans (and_congr_right fun _ => ?_))
  by_cases hroom : pos ≤ newSize
  · rw [if_neg hroom.not_gt]
    simp only [hroom, true_imp_iff]
    exact settles_bind_iff.trans (settles_fillBuffer_iff D hfuel hnext)
  · rw [if_pos (not_le.mp hroom)]
    exact iff_of_true rfl fun h => absurd h hroom

end

/-! ## Rounds -/

/-- What is left in the three streams of a patch. -/
structure Contents where
  ctrl : Source
  diff : Source
  extra : Source

namespace Contents

variable (s : Contents) (newSize : Int)

def ctrl0 : Int := offtin (slice (s.ctrl.data.take 24) 0 8)

def ctrl1 : Int := offtin (slice (s.ctrl.data.take 24) 8 8)

def ctrl2 : Int := offtin (slice (s.ctrl.data.take 24) 16 8)

/-- What a round leaves. -/
def next : Contents where
  ctrl := s.ctrl.drop 24
  diff := s.diff.drop (Source.asked s.ctrl0)
  extra := s.extra.drop (Source.asked s.ctrl1)

/-- A round of `ApplyBSDiffPatchMem` gets its triple and its two strings, or fails; no integer
overflows, and `next` holds if the round comes to its end. -/
def RoundEnds (newpos oldpos : Int) (next : Prop) : Prop :=
  newpos < newSize → ¬ s.ctrl.Dry 24 ∧ (s.ctrl.Holds 24 → 0 ≤ s.ctrl0 ∧ 0 ≤ s.ctrl1 →
    s.diff.Comes newSize (newpos + s.ctrl0) s.ctrl0 (s.ctrl0 < 2 ^ 31 ∧ InOff (oldpos + s.ctrl0) ∧
      s.extra.Comes newSize (newpos + s.ctrl0 + s.ctrl1) s.ctrl1
        (InOff (oldpos + s.ctrl0 + s.ctrl2) ∧ next)))

/-- The rounds that the loop comes to all end. -/
def Ends (newSize : Int) : Nat → Int → Int → Contents → Prop
  | 0, _, _, _ => False
  | rounds + 1, newpos, oldpos, s => s.RoundEnds newSize newpos oldpos
    (Ends newSize rounds (newpos + s.ctrl0 + s.ctrl1) (oldpos + s.ctrl0 + s.ctrl2) s.next)

variable {s newSize}

theorem RoundEnds.imp {newpos oldpos : Int} {next next' : Prop}
    (h : s.RoundEnds newSize newpos oldpos next) (himp : s.ctrl.Holds 24 → next → next') :
    s.RoundEnds newSize newpos oldpos next' := by
  intro hmore
  obtain ⟨hdry, hrest⟩ := h hmore
  refine ⟨hdry, fun hholds hnonneg => ?_⟩
  obtain ⟨hoff, hdiff⟩ := hrest hholds hnonneg
  refine ⟨hoff, fun hroom => (hdiff hroom).imp_right fun hafter hd => ?_⟩
  obtain ⟨hint, hold, hoff', hextra⟩ := hafter hd
  exact ⟨hint, hold, hoff', fun hroom' => (hextra hroom').imp_right fun hafter' he =>
    (hafter' he).imp_right (himp hholds)⟩

/-- A round takes 24 bytes from the control stream. -/
theorem Ends.of_lt {rounds rounds' : Nat} {newpos oldpos : Int}
    (h : Ends newSize rounds newpos oldpos s) (hlt : s.ctrl.data.length < rounds') :
    Ends newSize rounds' newpos oldpos s := by
  induction rounds' generalizing rounds newpos oldpos s with
  | zero => exact absurd hlt (Nat.not_lt_zero _)
  | succ rounds' ih =>
    cases rounds with
    | zero => exact absurd h id
    | succ rounds =>
      refine RoundEnds.imp h fun hholds hnext => ih hnext ?_
      have hheld : 24 ≤ s.ctrl.data.length := hholds
      simp only [next, Source.drop, length_drop]
      omega

end Contents

section

variable {fresh : Nat → UInt8} {old : Region} {oldSize newSize oldpos : Int} {newData : Bytes}
  {rounds : Nat} {streams : Streams bz}

def Decodes.contents (streams : Streams bz) : Contents where
  ctrl := D.source streams.cstream
  diff := D.source streams.dstream
  extra := D.source streams.estream

section

variable (hfuel : 2 ≤ fuel) {P : Bytes × bz.Stream → Prop} {Q : Prop}
include hfuel

theorem settles_readDiff_iff {ctrl0 : Int} (h0 : 0 ≤ ctrl0)
    (hnext : ∀ newData' stream', (newData'.length : Int) = newData.length + ctrl0 →
      D.source stream' = (D.source stream).drop (Source.asked ctrl0) →
      (P (newData', stream') ↔ Q)) :
    Settles P (readDiff bz fuel old oldSize newSize newData oldpos ctrl0 stream) ↔
      (D.source stream).Comes newSize (newData.length + ctrl0) ctrl0 (ctrl0 < 2 ^ 31 ∧ Q) := by
  refine settles_readUpTo_iff D hfuel fun stream' hsource hholds => ?_
  by_cases hint : ctrl0 < 2 ^ 31
  · refine (iff_of_eq (congrArg (Settles P) (if_neg hint.not_ge))).trans
      ((hnext _ _ ?_ hsource).trans (and_iff_right hint).symm)
    unfold Source.Holds Source.asked at hholds
    rw [length_append, addOld, length_mapIdx, length_take, Source.asked]
    omega
  · refine (iff_of_eq (congrArg (Settles P) (if_pos (not_lt.mp hint)))).trans ?_
    exact iff_of_false (by simp [Settles]) fun h => hint h.1

theorem settles_readExtra_iff {ctrl1 : Int} (h1 : 0 ≤ ctrl1)
    (hnext : ∀ newData' stream', (newData'.length : Int) = newData.length + ctrl1 →
      D.source stream' = (D.source stream).drop (Source.asked ctrl1) →
      (P (newData', stream') ↔ Q)) :
    Settles P (readExtra bz fuel fresh newSize newData ctrl1 stream) ↔
      (D.source stream).Comes newSize (newData.length + ctrl1) ctrl1 Q := by
  refine settles_readUpTo_iff D hfuel fun stream' hsource hholds => hnext _ _ ?_ hsource
  unfold Source.Holds Source.asked at hholds
  simp only [length_append, length_map, length_range', length_take, Source.asked]
  omega

end

theorem settles_applyLoop_iff (hfuel : 2 ≤ fuel) :
    Settles (fun _ => True)
      (applyLoop bz fuel fresh old oldSize newSize rounds newData oldpos streams) ↔
      Contents.Ends newSize rounds newData.length oldpos (D.contents streams) := by
  induction rounds generalizing newData oldpos streams with
  | zero => exact iff_of_false (by simp [applyLoop, Settles]) id
  | succ rounds ih =>
    rw [applyLoop, Contents.Ends, Contents.RoundEnds]
    by_cases hmore : (newData.length : Int) < newSize
    case neg =>
      rw [if_neg hmore]
      exact iff_of_true trivial fun h => absurd h hmore
    rw [if_pos hmore]
    simp only [hmore, true_imp_iff]
    refine settles_bind_iff.trans (settles_fillBuffer_iff D hfuel fun cstream hcstream _ => ?_)
    by_cases hnonneg : 0 ≤ (D.contents streams).ctrl0 ∧ 0 ≤ (D.contents streams).ctrl1
    case neg =>
      have hneg := not_and_or.mp hnonneg
      rw [not_le, not_le] at hneg
      exact iff_of_true ((congrArg (Settles _) (if_pos hneg)).mpr rfl) fun h => absurd h hnonneg
    refine (iff_of_eq (congrArg (Settles _) (if_neg ?_))).trans ?_
    · exact not_or.mpr ⟨hnonneg.1.not_gt, hnonneg.2.not_gt⟩
    simp only [hnonneg, and_self, true_imp_iff]
    refine settles_bind_iff.trans
      (settles_readDiff_iff D hfuel hnonneg.1 fun newData' dstream hlen hdstream => ?_)
    refine settles_bind_iff.trans (settles_offT_iff.trans (and_congr_right fun _ => ?_))
    rw [show newData.length + (D.contents streams).ctrl0 = newData'.length from hlen.symm]
    refine settles_bind_iff.trans
      (settles_readExtra_iff D hfuel hnonneg.2 fun newData'' estream hlen' hestream => ?_)
    refine settles_bind_iff.trans (settles_offT_iff.trans (and_congr_right fun _ => ?_))
    have hcontents : D.contents { cstream, dstream, estream } = (D.contents streams).next := by
      simp only [Decodes.contents, hcstream, hdstream, hestream]
      rfl
    refine ih.trans ?_
    rw [show newData'.length + (D.contents streams).ctrl1 = newData''.length from hlen'.symm,
      ← hcontents]
    exact .rfl

end

/-! ## Patches -/

/-- The patch is rejected for its header, or the loop over its streams comes to an end. -/
def Decodes.PatchEnds (patch : Blob) (patchOffset : Int) : Prop :=
  let header := patch.data.bytes patchOffset 32
  let ctrlLen := offtin (slice header 8 8)
  let dataLen := offtin (slice header 16 8)
  let newSize := offtin (slice header 24 8)
  let source (start len : Int) :=
    D.source (bz.decompressInit (patch.data.bytes start (len % 2 ^ 32).toNat))
  let extraStart := patchOffset + 32 + ctrlLen + dataLen
  let ctrl := source (patchOffset + 32) ctrlLen
  slice header 0 8 = bsdiffMagic → 0 ≤ ctrlLen → 0 ≤ dataLen →
    Contents.Ends newSize (ctrl.data.length + 1) 0 0
      { ctrl
        diff := source (patchOffset + 32 + ctrlLen) dataLen
        extra := source extraStart (patch.size - extraStart) }

theorem applyBSDiffPatchMem_returns_iff {fresh : Nat → UInt8} {old : Region} {oldSize : Int}
    {patch : Blob} {patchOffset : Int} :
    (∃ rounds, ∀ fuel ≥ rounds, Settles (fun _ => True)
      (applyBSDiffPatchMem bz fuel fresh old oldSize patch patchOffset)) ↔
        D.PatchEnds patch patchOffset := by
  constructor
  · rintro ⟨rounds, h⟩ hmagic hctrl hdata
    by_cases hsize : offtin (slice (patch.data.bytes patchOffset 32) 24 8) < 0
    case pos => exact fun hmore => absurd hmore (not_lt.mpr hsize.le)
    have hloop := h (rounds + 2) (by omega)
    unfold applyBSDiffPatchMem at hloop
    dsimp only at hloop
    rw [if_neg (not_not_intro hmagic), if_neg (by omega),
      settles_applyLoop_iff D (by omega)] at hloop
    exact hloop.of_lt (Nat.lt_succ_self _)
  · intro h
    refine ⟨(D.source (bz.decompressInit (patch.data.bytes (patchOffset + 32)
      (offtin (slice (patch.data.bytes patchOffset 32) 8 8) % 2 ^ 32).toNat))).data.length + 2, ?_⟩
    intro fuel hfuel
    unfold applyBSDiffPatchMem
    dsimp only
    by_cases hmagic : slice (patch.data.bytes patchOffset 32) 0 8 = bsdiffMagic
    case neg =>
      rw [if_pos hmagic]
      rfl
    rw [if_neg (not_not_intro hmagic)]
    split_ifs with hneg
    · rfl
    · rw [settles_applyLoop_iff D (by omega)]
      exact (h hmagic (by omega) (by omega)).of_lt (by dsimp only; omega)

/-! ## `ReadBlocks` -/

variable {dev : Device} {src : List Range}

theorem readAll_returns {offset size : Nat} (h : size = 0 ∨ offset + size ≤ dev.size)
    (hfuel : size ≤ fuel) : Settles (fun _ => True) (readAll dev fuel offset size) := by
  induction fuel generalizing offset size with
  | zero =>
    obtain rfl := Nat.le_zero.mp hfuel
    trivial
  | succ fuel ih =>
    cases size with
    | zero => trivial
    | succ size =>
      unfold readAll
      cases hread : dev.read offset (size + 1) with
      | none => rfl
      | some data =>
        have hpos := length_pos_of_ne_nil (dev.progress hread (by omega) size.succ_pos).1
        exact settles_bind_iff.mpr ((ih (by omega) (by omega)).imp fun _ _ => trivial)

theorem readAll_inside (hreads : ∀ offset room, dev.read offset room ≠ none) {offset size : Nat}
    (h : Settles (fun _ => True) (readAll dev fuel offset size)) :
    (size = 0 ∨ offset + size ≤ dev.size) ∧ ∃ data, readAll dev fuel offset size = .ok data := by
  induction fuel generalizing offset size with
  | zero =>
    cases size with
    | zero => exact ⟨.inl rfl, [], rfl⟩
    | succ size => exact absurd h (by simp [readAll, Settles])
  | succ fuel ih =>
    cases size with
    | zero => exact ⟨.inl rfl, [], rfl⟩
    | succ size =>
      obtain ⟨data, hread⟩ := Option.ne_none_iff_exists'.mp (hreads offset (size + 1))
      simp only [readAll, hread] at h ⊢
      obtain ⟨hinside, rest, hok⟩ := ih ((settles_bind_iff.mp h).imp fun _ _ => trivial)
      refine ⟨.inr ?_, data ++ rest, by rw [hok]; rfl⟩
      by_cases hend : dev.size ≤ offset
      · have hnil := dev.end_of_file hread hend
        rw [hnil, length_nil] at hinside
        omega
      · have := (dev.progress hread (by omega) size.succ_pos).2
        omega

/-- A range that `ReadBlocks` can read to its end. -/
def Inside (dev : Device) (range : Range) : Prop :=
  rangeBytes range = 0 ∨ range.1 * 4096 + rangeBytes range ≤ dev.size

theorem readBlocks_returns (h : ∀ range ∈ src, Inside dev range)
    (hfuel : ∀ range ∈ src, rangeBytes range ≤ fuel) :
    Settles (fun _ => True) (readBlocks dev fuel src) := by
  induction src with
  | nil => trivial
  | cons range src ih =>
    rw [forall_mem_cons] at h hfuel
    exact settles_bind_iff.mpr ((readAll_returns h.1 hfuel.1).imp fun _ _ =>
      settles_bind_iff.mpr ((ih h.2 hfuel.2).imp fun _ _ => trivial))

theorem readBlocks_inside (hreads : ∀ offset room, dev.read offset room ≠ none)
    (h : Settles (fun _ => True) (readBlocks dev fuel src)) : ∀ range ∈ src, Inside dev range := by
  induction src with
  | nil => exact nofun
  | cons range src ih =>
    have hfirst := settles_bind_iff.mp h
    obtain ⟨hinside, data, hok⟩ := readAll_inside hreads (hfirst.imp fun _ _ => trivial)
    rw [hok] at hfirst
    exact forall_mem_cons.mpr
      ⟨hinside, ih ((settles_bind_iff (m := readBlocks dev fuel src)).mp hfirst |>.imp
        fun _ _ => trivial)⟩

/-! ## Bad inputs -/

/-- A library that stores its data up to a byte 0xFF; input without one is truncated. -/
def marked : Bzip2 where
  Stream := Bytes × Bool
  decompressInit input := (input.takeWhile (· ≠ 0xFF), input.contains 0xFF)
  decompress stream n :=
    if n ≤ stream.1.length then (stream.1.take n, .ok, (stream.1.drop n, stream.2))
    else if stream.2 then (stream.1, .error, stream) else (stream.1, .ok, ([], false))
  compress data := data ++ [0xFF]

def markedDecodes : Decodes marked where
  source stream := { data := stream.1, Truncated := stream.2 = false }
  full hn hle := ⟨_, _, if_pos hle, by decide, rfl⟩
  stall {stream n} hlt htrunc := by
    obtain ⟨data, ended⟩ := stream
    obtain rfl : ended = false := htrunc
    refine ⟨([], false), if_neg (not_le.mpr hlt), ?_⟩
    simp [Source.drop, drop_of_length_le hlt.le]
  finish hlt htrunc :=
    ⟨_, _, _, (if_neg (not_le.mpr hlt)).trans (if_pos (by simpa using htrunc)), .inl rfl⟩

/-- A device full of zeros. -/
def zeros (size : Nat) : Device where
  size
  read offset room := some (List.replicate (min room (size - offset)) 0)
  length_read_le h := by
    cases h
    rw [length_replicate]
    omega
  progress h hlt hroom := by
    cases h
    rw [Ne, replicate_eq_nil_iff, length_replicate]
    omega
  end_of_file h hle := by
    cases h
    rw [replicate_eq_nil_iff]
    omega

/-- A patch that copies two bytes from its extra block. -/
def copyTwo : Bytes :=
  patchFile (marked.compress (offtout 0 ++ offtout 2 ++ offtout 0)) (marked.compress [])
    (marked.compress [7, 8]) 2

end ShieldTv.Updater.Returns
