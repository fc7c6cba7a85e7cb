import ShieldTv.Minzip.Zip
import ShieldTv.Recovery.Proofs.SignatureBlock

/-!
# One archive, checked and opened

`verify_file` locates the end-of-central-directory record from the length of the
comment, `parseZipArchive` by a backward scan. On a file that passes the first, the
second finds the same record, and what it takes from the record is signed.
-/

namespace ShieldTv.Recovery.Verifier

open Lib Option Lib.Tracked Minzip

variable {mem : Minzip.Mem} {length : Nat}

/-! ## Two tests for the marker -/

theorem isMarker_iff (p : Int) : isMarker mem p = true ↔ (mem p).toNat = 0x50 ∧
    (mem (p + 1)).toNat = 0x4b ∧ (mem (p + 2)).toNat = 0x05 ∧ (mem (p + 3)).toNat = 0x06 := by
  simp [isMarker, ← UInt8.toNat_inj, and_assoc]

theorem result_isEnd (p : Int) : (isEnd mem p).result = some (isMarker mem p) := by
  have h1 := (mem (p + 1)).toNat_lt
  have h2 := (mem (p + 2)).toNat_lt
  have hsig : endSig = 0x06054b50 := rfl
  simp only [isEnd, byteAt, get4LE, result_bind, result_load, bind_some]
  by_cases hfirst : (mem p).toNat = endSig % 256
  · rw [if_pos hfirst]
    simp only [result_bind, result_load, bind_some, result_pure, some.injEq]
    rw [Bool.eq_iff_iff, isMarker_iff, beq_iff_eq]
    omega
  · rw [if_neg hfirst, result_pure, some.injEq, eq_comm, Bool.eq_false_iff, ne_eq, isMarker_iff]
    omega

theorem result_scanBack {n e : Nat} (hle : e ≤ n) (hmarker : isMarker mem e = true)
    (hlast : ∀ p : Nat, e < p → p ≤ n → isMarker mem p = false) :
    (scanBack mem n).result = some (e : Int) := by
  induction n with
  | zero =>
    obtain rfl : e = 0 := by omega
    rw [scanBack, result_bind, result_isEnd, bind_some, ← Int.natCast_zero, hmarker]
    rfl
  | succ n ih =>
    rw [scanBack, result_bind, result_isEnd, bind_some]
    by_cases hlt : e = n + 1
    · subst hlt
      rw [hmarker]
      rfl
    · rw [hlast (n + 1) (by omega) le_rfl]
      exact ih (by omega) fun p hep hpn => hlast p hep (by omega)

/-! ## The record of a checked file -/

variable {start p : Int} {size : Nat} {P : Int → Prop}

theorem not_marker_after (h : Reached mem length start size) {p : Nat}
    (hlow : eocd mem length < p) (hhigh : p ≤ length - endHdr) : isMarker mem p = false := by
  have hlength := h.eocd_le
  have hnext := (isMarker_iff _).mp h.marker
  have hnone := h.no_later
  simp only [eocd, eocdSize, eocdHeaderSize, endHdr] at *
  rw [Bool.eq_false_iff, ne_eq, isMarker_iff]
  intro hp
  by_cases hfar : length - (commentSize mem length + 22) + 4 ≤ p
  · -- far enough behind to be among the positions that were searched
    rw [markerAfterStart, List.any_eq_false] at hnone
    apply hnone (p - (length - (commentSize mem length + 22)))
    · rw [List.mem_range'_1]
      simp only [eocdSize, eocdHeaderSize]
      omega
    · rw [isMarker_iff]
      simp only [eocd, eocdSize, eocdHeaderSize]
      rw [show (length : Int) - ((commentSize mem length + 22 : Nat) : Int) +
        ((p - (length - (commentSize mem length + 22)) : Nat) : Int) = p by omega]
      exact hp
  · -- inside the marker itself
    obtain hp1 | hp2 | hp3 : (p : Int) = length - ((commentSize mem length + 22 : Nat) : Int) + 1 ∨
        (p : Int) = length - ((commentSize mem length + 22 : Nat) : Int) + 2 ∨
        (p : Int) = length - ((commentSize mem length + 22 : Nat) : Int) + 3 := by omega
    · rw [hp1] at hp
      omega
    · rw [hp2] at hp
      omega
    · rw [hp3] at hp
      omega

theorem result_findEndRecord (h : Reached mem length start size) :
    (findEndRecord mem length).result = some (eocd mem length) := by
  have hlength := h.eocd_le
  have heocd : ((length - eocdSize mem length : Nat) : Int) = eocd mem length := by
    unfold eocd
    omega
  rw [← heocd]
  apply result_scanBack
  · simp only [eocdSize, eocdHeaderSize, endHdr] at *
    omega
  · rw [heocd]
    exact h.marker
  · intro p hlow hhigh
    exact not_marker_after h (by omega) hhigh

/-! ## Reads of the record -/

theorem spec_get2LE (h0 : P p) (h1 : P (p + 1)) : Spec P (fun _ => True) (get2LE mem p) :=
  spec_bind (spec_load h0 (Q := fun _ => True) trivial) fun _ _ =>
    spec_bind (spec_load h1 (Q := fun _ => True) trivial) fun _ _ => spec_pure trivial

theorem spec_get4LE (h0 : P p) (h1 : P (p + 1)) (h2 : P (p + 2)) (h3 : P (p + 3)) :
    Spec P (fun _ => True) (get4LE mem p) :=
  spec_bind (spec_load h0 (Q := fun _ => True) trivial) fun _ _ =>
    spec_bind (spec_load h1 (Q := fun _ => True) trivial) fun _ _ =>
      spec_bind (spec_load h2 (Q := fun _ => True) trivial) fun _ _ =>
        spec_bind (spec_load h3 (Q := fun _ => True) trivial) fun _ _ => spec_pure trivial

theorem endFields_reads (h : Reached mem length start size) :
    ∀ a ∈ (endFields mem (eocd mem length)).reads, 0 ≤ a ∧ a < signedLen mem length := by
  have hlength := h.eocd_le
  suffices hspec : Spec (fun a : Int => 0 ≤ a ∧ a < signedLen mem length) (fun _ => True)
      (endFields mem (eocd mem length)) from hspec.reads
  simp only [endFields, eocd, signedLen, eocdSize, eocdHeaderSize, endSub, endOff] at *
  apply spec_bind
  · apply spec_get2LE <;> omega
  · intro numEntries _
    apply spec_bind
    · apply spec_get4LE <;> omega
    · intro cdOffset _
      exact spec_pure trivial

/-! ## Checked and opened -/

theorem reached_of_verifyFile {K : Type} {crypto : Mincrypt K} {word : Nat}
    {keys : List (Certificate K)} (h : verifyFile crypto mem word length keys = .success) :
    ∃ start size, Reached mem length start size := by
  unfold verifyFile at h
  cases hblock : signatureBlock mem length with
  | none =>
    rw [hblock] at h
    nomatch h
  | some block => exact ⟨block.1, block.2, reached_of_signatureBlock hblock⟩

/-- What an archive takes from the record that the scan selects. -/
theorem numEntries_of_open {archive : ZipArchive} {ptr : Int}
    (hptr : (findEndRecord mem length).result = some ptr)
    (h : (mzOpenZipArchive mem length).result = some archive) :
    ∃ cdOffset, (endFields mem ptr).result = some (archive.numEntries, cdOffset) ∧
      (readEntries mem length archive.numEntries cdOffset []).result = some archive.entries := by
  obtain ⟨-, h⟩ := result_guard_eq_some.mp h
  obtain ⟨val, -, h⟩ := result_bind_eq_some.mp h
  obtain ⟨-, h⟩ := result_guard_eq_some.mp h
  obtain ⟨-, h⟩ := result_guard_eq_some.mp h
  obtain ⟨ptr', hptr', h⟩ := result_bind_eq_some.mp h
  obtain rfl : ptr = ptr' := some.inj (hptr.symm.trans hptr')
  obtain ⟨⟨numEntries, cdOffset⟩, hfields, h⟩ := result_bind_eq_some.mp h
  obtain ⟨-, h⟩ := result_guard_eq_some.mp h
  obtain ⟨entries, hentries, h⟩ := result_bind_eq_some.mp h
  cases h
  exact ⟨cdOffset, hfields, hentries⟩

/-- The archive that is installed is the one whose signature was checked. -/
theorem opened_record_is_signed {K : Type} {crypto : Mincrypt K} {word : Nat}
    {keys : List (Certificate K)} {archive : ZipArchive}
    (hverify : verifyFile crypto mem word length keys = .success)
    (hopen : (mzOpenZipArchive mem length).result = some archive) :
    (findEndRecord mem length).result = some (eocd mem length) ∧
      (∃ cdOffset, (endFields mem (eocd mem length)).result = some (archive.numEntries, cdOffset) ∧
        (readEntries mem length archive.numEntries cdOffset []).result = some archive.entries) ∧
      ∀ a ∈ (endFields mem (eocd mem length)).reads, 0 ≤ a ∧ a < signedLen mem length := by
  obtain ⟨start, size, hreached⟩ := reached_of_verifyFile hverify
  have hptr := result_findEndRecord hreached
  exact ⟨hptr, numEntries_of_open hptr hopen, endFields_reads hreached⟩

/-! ## A signed package -/

/-- A local header and a central directory record for the entry `a`, which is empty. -/
def onePackage : Bytes :=
  [0x50, 0x4b, 0x03, 0x04] ++ List.replicate 22 0 ++ [1, 0, 0, 0] ++ [0x61] ++
    ([0x50, 0x4b, 0x01, 0x02] ++ List.replicate 24 0 ++ [1, 0] ++ List.replicate 16 0 ++ [0x61]) ++
    ([0x50, 0x4b, 0x05, 0x06] ++ List.replicate 4 0 ++ [1, 0, 1, 0] ++ [47, 0, 0, 0] ++
      [31, 0, 0, 0] ++ [35, 0]) ++
    -- the signature is the one byte string at the end of the block
    [0x30, 27, 6, 0, 0xa0, 23, 0x30, 21, 2, 0, 0x31, 0, 0x30, 0, 0x31, 13, 0x30, 11, 2, 0, 0x30, 0,
      0x30, 0, 0x30, 0, 4, 1, 0xaa] ++
    [35, 0, 0xff, 0xff, 35, 0]

def countHash : Hash where
  Ctx := Nat
  init := 0
  update := fun n bytes => n + bytes.length
  final := fun n => [UInt8.ofNat n]

/-- Cryptography that accepts the signature `0xaa` of the length of the signed part. -/
def countCrypto : Mincrypt Unit where
  sha1 := countHash
  sha256 := countHash
  rsaVerify := fun _ _ _ _ => false
  dsaSigUnpack := fun bytes => if bytes = [0xaa] then some (0xaa, 0) else none
  p256FromBin := fun bytes => (bytes.getD 0 0).toNat
  p256EcdsaVerify := fun _ _ hash r _ => hash == 98 && r == 0xaa

def ecKey : Certificate Unit := ⟨sha256DigestSize, .ec, (), ⟨0, 0⟩⟩

theorem opened_record_of_onePackage :
    (findEndRecord (memOf onePackage) 135).result = some 78 ∧
      ∃ archive, (mzOpenZipArchive (memOf onePackage) 135).result = some archive ∧
        (∃ cdOffset, (endFields (memOf onePackage) (eocd (memOf onePackage) 135)).result =
          some (archive.numEntries, cdOffset)) ∧ archive.numEntries = 1 := by
  have hverify : verifyFile countCrypto (memOf onePackage) 8 135 [ecKey] = .success := by
    decide +kernel
  have hopen : (mzOpenZipArchive (memOf onePackage) 135).result =
      some ⟨1, [⟨1, 77, 31, 0, 0, 0, 0, 0, 0, 0⟩]⟩ := by decide +kernel
  obtain ⟨hptr, ⟨cdOffset, hfields, -⟩, -⟩ := opened_record_is_signed hverify hopen
  have heocd : eocd (memOf onePackage) 135 = 78 := by decide +kernel
  exact ⟨heocd ▸ hptr, _, hopen, ⟨cdOffset, hfields⟩, rfl⟩

end ShieldTv.Recovery.Verifier
