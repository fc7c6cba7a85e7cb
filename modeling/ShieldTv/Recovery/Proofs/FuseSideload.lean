import ShieldTv.Recovery.FuseSideload

/-!
# Reads of a package that is sideloaded

As long as the host answers every call, the hashes fix what the package reads as.  A call that
fails leaves its bytes in the block that is taken to be cached.
-/

namespace ShieldTv.Recovery.FuseSideload

open List

/-- The byte of the package that a reply has for a position. -/
def Reply.byteAt (reply : Reply) (pos : Nat) : Option UInt8 :=
  if reply.offset ≤ pos then reply.data[pos - reply.offset]? else none

/-- No two replies differ at a position of the package. -/
def Stable (pkg : Package) (replies : List Reply) : Prop :=
  ∀ r ∈ replies, ∀ r' ∈ replies, ∀ pos < pkg.fileSize,
    ∀ b ∈ r.byteAt pos, ∀ b' ∈ r'.byteAt pos, b = b'

theorem length_slice (data : Nat → UInt8) (start len : Nat) :
    (slice data start len).length = len := by
  rw [slice, length_map, length_range]

/-! ## What the hashes fix -/

section

variable {D : Type} (sha : Sha256 D) (pkg : Package)

/-- The hash of its block fixes the byte at a position. -/
def Known (hashes : Nat → D) (pos : Nat) (b : UInt8) : Prop :=
  ∃ data : Nat → UInt8, hashes (pos / pkg.blockSize) = sha.hash (slice data 0 pkg.blockSize) ∧
    data (pos % pkg.blockSize) = b

/-- The hashes fix all bytes of a part of the package. -/
def Shows (hashes : Nat → D) (offset : Nat) (data : Bytes) : Prop :=
  ∀ i, offset + i < pkg.fileSize → ∀ b ∈ data[i]?, Known sha pkg hashes (offset + i) b

def Later (hashes hashes' : Nat → D) : Prop :=
  ∀ block, hashes block ≠ sha.zero → hashes' block = hashes block

/-- The cached block has the hash that is kept for it. -/
def Inv (fd : FuseData D) : Prop :=
  fd.currBlock < fileBlocks pkg.fileSize pkg.blockSize →
    fd.hashes fd.currBlock = sha.hash (slice fd.blockData 0 pkg.blockSize)

variable {sha pkg} {hashes hashes' : Nat → D} {pos offset : Nat} {b b' : UInt8}
  {fd fd' : FuseData D}

theorem Later.refl (hashes : Nat → D) : Later sha hashes hashes := fun _ _ => rfl

theorem Later.trans {hashes'' : Nat → D} (h : Later sha hashes hashes')
    (h' : Later sha hashes' hashes'') : Later sha hashes hashes'' := by
  intro block hne
  have heq := h block hne
  rw [h' block (heq ▸ hne), heq]

theorem Known.later (h : Known sha pkg hashes pos b) (hlater : Later sha hashes hashes') :
    Known sha pkg hashes' pos b := by
  obtain ⟨data, hhash, hbyte⟩ := h
  have hne : hashes (pos / pkg.blockSize) ≠ sha.zero := hhash ▸ sha.ne_zero _
  exact ⟨data, (hlater _ hne).trans hhash, hbyte⟩

theorem Shows.later {data : Bytes} (h : Shows sha pkg hashes offset data)
    (hlater : Later sha hashes hashes') : Shows sha pkg hashes' offset data :=
  fun i hi b hb => (h i hi b hb).later hlater

theorem Shows.append {xs ys : Bytes} (hxs : Shows sha pkg hashes offset xs)
    (hys : Shows sha pkg hashes (offset + xs.length) ys) :
    Shows sha pkg hashes offset (xs ++ ys) := by
  intro i hi b hb
  by_cases hlt : i < xs.length
  · rw [getElem?_append_left hlt] at hb
    exact hxs i hi b hb
  · rw [getElem?_append_right (by omega)] at hb
    have hsum : offset + xs.length + (i - xs.length) = offset + i := by omega
    exact hsum ▸ hys (i - xs.length) (by omega) b hb

theorem Shows.known {reply : Reply} (h : Shows sha pkg hashes reply.offset reply.data)
    (hpos : pos < pkg.fileSize) (hb : b ∈ reply.byteAt pos) : Known sha pkg hashes pos b := by
  unfold Reply.byteAt at hb
  by_cases hle : reply.offset ≤ pos
  · rw [if_pos hle] at hb
    have hsum : reply.offset + (pos - reply.offset) = pos := by omega
    exact hsum ▸ h (pos - reply.offset) (by omega) b hb
  · rw [if_neg hle] at hb
    exact nomatch hb

theorem Package.blockSize_pos (pkg : Package) : 0 < pkg.blockSize := by
  have := pkg.blockSize_ge
  omega

theorem Known.unique (h : Known sha pkg hashes pos b) (h' : Known sha pkg hashes pos b') :
    b = b' := by
  obtain ⟨data, hhash, rfl⟩ := h
  obtain ⟨data', hhash', rfl⟩ := h'
  have heq := sha.injective (hhash.symm.trans hhash')
  have hmem := mem_range.mpr (Nat.mod_lt pos pkg.blockSize_pos)
  simpa using map_inj_left.mp heq _ hmem

/-- A block of the package is not mistaken for another one. -/
theorem block_lt (hsize : pkg.Addressable) (hpos : pos < pkg.fileSize) :
    pos / pkg.blockSize < fileBlocks pkg.fileSize pkg.blockSize := by
  have hlast : (pkg.fileSize - 1) / pkg.blockSize < 2 ^ 32 - 1 :=
    (Nat.div_lt_iff_lt_mul pkg.blockSize_pos).mpr (by unfold Package.Addressable at hsize; omega)
  have hle : pos / pkg.blockSize ≤ (pkg.fileSize - 1) / pkg.blockSize :=
    Nat.div_le_div_right (by omega)
  rw [fileBlocks, if_neg (by omega)]
  omega

theorem Inv.shows (hsize : pkg.Addressable) (hinv : Inv sha pkg fd) {len : Nat}
    (hcurr : fd.currBlock = offset / pkg.blockSize % 2 ^ 32)
    (hlen : offset % pkg.blockSize + len ≤ pkg.blockSize) :
    Shows sha pkg fd.hashes offset (slice fd.blockData (offset % pkg.blockSize) len) := by
  intro i hi b hb
  obtain ⟨a, ha, rfl⟩ := Option.map_eq_some_iff.mp (getElem?_map.symm.trans hb)
  obtain ⟨hlt, rfl⟩ := List.getElem?_eq_some_iff.mp ha
  rw [length_range] at hlt
  rw [getElem_range]
  have hplace : (offset + i) / pkg.blockSize = offset / pkg.blockSize ∧
      (offset + i) % pkg.blockSize = offset % pkg.blockSize + i := by
    rw [Nat.div_mod_unique pkg.blockSize_pos]
    have := Nat.div_add_mod offset pkg.blockSize
    omega
  have hblock := block_lt hsize hi
  have hmax := pkg.fileBlocks_le
  have hhere : fd.currBlock = (offset + i) / pkg.blockSize := by
    rw [hcurr, Nat.mod_eq_of_lt (by omega), hplace.1]
  exact ⟨fd.blockData, hhere ▸ hinv (hhere ▸ hblock), by rw [hplace.2]⟩

end

/-! ## One request -/

section

variable {D : Type} [DecidableEq D] {sha : Sha256 D} {pkg : Package} {fd : FuseData D}

theorem fetchBlock_spec (hinv : Inv sha pkg fd) (block : Nat) {answer : Answer}
    (hanswer : 0 ≤ answer.result) :
    Inv sha pkg (fetchBlock sha pkg fd block answer).1 ∧
      Later sha fd.hashes (fetchBlock sha pkg fd block answer).1.hashes ∧
      ((fetchBlock sha pkg fd block answer).2 = 0 →
        (fetchBlock sha pkg fd block answer).1.currBlock = block) := by
  have hmax := pkg.fileBlocks_le
  simp only [fetchBlock, if_neg (not_lt.mpr hanswer)]
  generalize received pkg fd block answer = data
  split_ifs with hcurr hpast hsame hkept
  · exact ⟨hinv, .refl _, fun _ => hcurr.symm⟩
  · exact ⟨fun hlt => absurd hlt (not_lt.mpr hpast), .refl _, fun _ => rfl⟩
  · exact ⟨fun _ => hsame.symm, .refl _, fun _ => rfl⟩
  · exact ⟨fun hlt => by simp only at hlt; omega, .refl _, fun h => by simp at h⟩
  · refine ⟨fun _ => Function.update_self _ _ _, fun other hne => ?_, fun _ => rfl⟩
    refine Function.update_of_ne ?_ _ _
    rintro rfl
    exact hne (not_not.mp hkept)

theorem blockOffset_eq (pkg : Package) (offset : Nat) :
    (offset + 2 ^ 64 - offset / pkg.blockSize % 2 ^ 32 * pkg.blockSize % 2 ^ 32) % 2 ^ 32 =
      offset % pkg.blockSize := by
  have hmod := Nat.mod_lt offset pkg.blockSize_pos
  have hmax := pkg.blockSize_le
  have hsplit := Nat.div_add_mod' offset pkg.blockSize
  rw [Nat.mod_mul_mod]
  omega

/-- The host answers the calls that the read needs, and it needs no third block. -/
@[mk_iff] structure Request.Served (pkg : Package) (req : Request) : Prop where
  first : 0 ≤ req.first.result
  second : 0 ≤ req.second.result
  two_blocks : req.offset % pkg.blockSize + req.size ≤ 2 * pkg.blockSize

theorem handleRead_spec (hsize : pkg.Addressable)
    (hinv : Inv sha pkg fd) {req : Request} (hreq : req.Served pkg) :
    Inv sha pkg (handleRead sha pkg fd req).1 ∧
      Later sha fd.hashes (handleRead sha pkg fd req).1.hashes ∧
      ∀ reply, (handleRead sha pkg fd req).2 = .ok reply →
        Shows sha pkg (handleRead sha pkg fd req).1.hashes reply.offset reply.data := by
  have hmax := pkg.blockSize_le
  have hread := hreq.two_blocks
  have hmod := Nat.mod_lt req.offset pkg.blockSize_pos
  obtain ⟨hinv₁, hlater₁, hcurr₁⟩ :=
    fetchBlock_spec hinv (req.offset / pkg.blockSize % 2 ^ 32) hreq.first
  obtain ⟨hinv₂, hlater₂, hcurr₂⟩ :=
    fetchBlock_spec hinv₁ ((req.offset / pkg.blockSize % 2 ^ 32 + 1) % 2 ^ 32) hreq.second
  simp only [handleRead, blockOffset_eq]
  generalize fetchBlock sha pkg fd (req.offset / pkg.blockSize % 2 ^ 32) req.first = fetched at *
  generalize fetchBlock sha pkg fetched.1 _ req.second = next at *
  split_ifs with hfail hfits hfail'
  · exact ⟨hinv₁, hlater₁, nofun⟩
  · refine ⟨hinv₁, hlater₁, ?_⟩
    rintro _ ⟨⟩
    exact hinv₁.shows hsize (hcurr₁ (not_not.mp hfail)) (by dsimp only; omega)
  · exact ⟨hinv₂, hlater₁.trans hlater₂, nofun⟩
  · refine ⟨hinv₂, hlater₁.trans hlater₂, ?_⟩
    rintro _ ⟨⟩
    have hextra := hinv₁.shows hsize (hcurr₁ (not_not.mp hfail))
      (Nat.add_sub_of_le hmod.le).le
    refine (hextra.later hlater₂).append ?_
    -- the next block starts where the first part ends
    have hnext : (req.offset + (pkg.blockSize - req.offset % pkg.blockSize)) / pkg.blockSize =
        req.offset / pkg.blockSize + 1 ∧
        (req.offset + (pkg.blockSize - req.offset % pkg.blockSize)) % pkg.blockSize = 0 := by
      rw [Nat.div_mod_unique pkg.blockSize_pos, Nat.mul_add]
      have := Nat.div_add_mod req.offset pkg.blockSize
      omega
    rw [length_slice, ← hnext.2]
    refine hinv₂.shows hsize ?_ (by rw [hnext.2]; omega)
    rw [hcurr₂ (not_not.mp hfail'), hnext.1, Nat.mod_add_mod]

/-! ## Whole runs -/

theorem replies_shown (hsize : pkg.Addressable) (requests : List Request)
    (hserved : ∀ req ∈ requests, req.Served pkg) (hinv : Inv sha pkg fd) :
    ∃ hashes, Later sha fd.hashes hashes ∧
      ∀ reply ∈ replies sha pkg fd requests, Shows sha pkg hashes reply.offset reply.data := by
  induction requests generalizing fd with
  | nil => exact ⟨fd.hashes, .refl _, nofun⟩
  | cons req rest ih =>
    obtain ⟨hreq, hrest⟩ := forall_mem_cons.mp hserved
    obtain ⟨hinv', hlater, hread⟩ := handleRead_spec hsize hinv hreq
    rw [replies]
    rcases heq : handleRead sha pkg fd req with ⟨fd', _ | reply⟩
    all_goals
      rw [heq] at hinv' hlater hread
      obtain ⟨hashes, hlater', hshown⟩ := ih hrest hinv'
      refine ⟨hashes, hlater.trans hlater', ?_⟩
    · exact hshown
    · exact forall_mem_cons.mpr ⟨(hread reply rfl).later hlater', hshown⟩

/-- What the package reads as does not change while the host answers every call and no read
reaches into a third block. -/
theorem replies_stable (sha : Sha256 D) (pkg : Package) (memory : Nat → UInt8)
    (requests : List Request) (hsize : pkg.Addressable)
    (hserved : ∀ req ∈ requests, req.Served pkg) :
    Stable pkg (replies sha pkg (initial sha memory) requests) := by
  have hmax := pkg.fileBlocks_le
  have hinv : Inv sha pkg (initial sha memory) := fun hlt => by
    simp only [initial] at hlt
    omega
  obtain ⟨hashes, -, hshown⟩ := replies_shown hsize requests hserved hinv
  intro r hr r' hr' pos hpos b hb b' hb'
  exact ((hshown r hr).known hpos hb).unique ((hshown r' hr').known hpos hb')

/-! ## The arithmetic of the blocks -/

/-- `read_block` is called for the part of the block that the package has, and the rest of the
block is clear. -/
def FetchesExactly (D : Type) (pkg : Package) (block : Nat) : Prop :=
  let fetchSize := min pkg.blockSize (pkg.fileSize - block * pkg.blockSize)
  ∀ (fd : FuseData D) (answer : Answer), ∀ i < pkg.blockSize, received pkg fd block answer i =
    readBlock answer fetchSize (fun i => if i < fetchSize then fd.blockData i else 0) i

/-- A reply begins in the fetched block at `offset mod block_size`. -/
def ReadsFrom (sha : Sha256 D) (pkg : Package) : Prop :=
  ∀ (fd : FuseData D) (req : Request) (reply : Reply),
    (handleRead sha pkg fd req).2 = .ok reply →
      reply.data.take (pkg.blockSize - req.offset % pkg.blockSize) =
        slice (fetchBlock sha pkg fd (req.offset / pkg.blockSize % 2 ^ 32) req.first).1.blockData
          (req.offset % pkg.blockSize) (min req.size (pkg.blockSize - req.offset % pkg.blockSize))

theorem readsFrom (sha : Sha256 D) (pkg : Package) : ReadsFrom sha pkg := by
  intro fd req reply hreply
  have hmax := pkg.blockSize_le
  have hmod := Nat.mod_lt req.offset pkg.blockSize_pos
  have hlt := req.size_lt
  simp only [handleRead, blockOffset_eq] at hreply
  split_ifs at hreply with hfail hfits hfail' <;> cases hreply
  · rw [slice, ← map_take, take_range, slice, min_comm]
  · rw [take_left' (length_slice _ _ _), min_eq_right (by omega)]

theorem start_lt {block : Nat} (hblock : block < fileBlocks pkg.fileSize pkg.blockSize) :
    block * pkg.blockSize < pkg.fileSize := by
  have hle := hblock.trans_le (Nat.mod_le _ _)
  split_ifs at hle with hzero
  · omega
  · have := (Nat.le_div_iff_mul_le pkg.blockSize_pos).mp (Nat.lt_succ_iff.mp hle)
    omega

end

def plain : Sha256 (Option Bytes) :=
  { hash := some, zero := none, injective := Option.some_injective _, ne_zero := nofun }

def delivered (b : UInt8) : Answer := { result := 0, written := 0, bytes := fun _ => b }

def failed (b : UInt8) : Answer := { result := -5, written := 1, bytes := fun _ => b }

def readByte (offset : Fin (2 ^ 64)) (first : Answer) : Request :=
  { offset, size := 1, first, second := delivered 0, offset_lt := offset.isLt
    size_lt := by decide }

/-- A read of a hundred bytes around offset 1024. -/
def readAcross (first second : Answer) : Request :=
  { offset := 1000, size := 100, first, second, offset_lt := by decide, size_lt := by decide }

def twoBlocks : Package := ⟨2048, 1024, by decide, by decide, by decide, by decide⟩

theorem replies_stable_twoBlocks :
    Stable twoBlocks (replies plain twoBlocks (initial plain fun _ => 0)
      [readByte 0 (delivered 1), readAcross (delivered 1) (delivered 2),
        readByte 0 (delivered 1)]) :=
  replies_stable plain twoBlocks _ _ (by simp [Package.Addressable, twoBlocks])
    (by simp [readByte, readAcross, delivered, Request.served_iff, twoBlocks])

/-- A last block of one byte, behind 4 GiB. -/
def longPackage : Package := ⟨2 ^ 32 + 1, 2 ^ 15, by decide, by decide, by decide, by decide⟩

/-- More than `2 ^ 32` blocks, of which `file_blocks` counts one. -/
def hugePackage : Package := ⟨2 ^ 42 + 1024, 1024, by decide, by decide, by decide, by decide⟩

/-- A failed call leaves its bytes in the cached block; and no block being cached is
taken for block `2 ^ 32 - 1` being cached. -/
theorem replies_not_stable : ¬Stable twoBlocks (replies plain twoBlocks (initial plain fun _ => 0)
        [readByte 0 (delivered 1), readByte 1024 (failed 9), readByte 0 (delivered 1)]) ∧
      ¬Stable hugePackage (replies plain hugePackage (initial plain fun _ => 7)
        [readByte (2 ^ 42 - 1024) (delivered 1), readByte 0 (delivered 1),
          readByte (2 ^ 42 - 1024) (delivered 1)]) := by
  refine ⟨fun h => ?_, fun h => ?_⟩
  · have heq := h ⟨0, [1]⟩ (by decide +kernel) ⟨0, [9]⟩ (by decide +kernel) 0 (by decide)
      1 rfl 9 rfl
    exact absurd heq (by decide)
  · have heq := h ⟨2 ^ 42 - 1024, [7]⟩ (by decide +kernel) ⟨2 ^ 42 - 1024, [0]⟩
      (by decide +kernel) (2 ^ 42 - 1024) (by decide) 7 (by decide +kernel) 0 (by decide +kernel)
    exact absurd heq (by decide)

end ShieldTv.Recovery.FuseSideload
