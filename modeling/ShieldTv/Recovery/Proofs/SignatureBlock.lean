import ShieldTv.Recovery.Verifier

/-!
# Where the signature check looks

Every window that the DER reader opens lies inside the one it started from, so all
that `read_pkcs7` reads lies inside the block that `verify_file` passes. The block
itself lies inside the archive comment exactly when the footer says so.
-/

namespace ShieldTv.Recovery.Verifier

open Lib Lib.Tracked
open Recovery.Asn1

/-! ## The reader stays in its window -/

structure Within (lo hi : Int) (ctx : Context) : Prop where
  lower : lo ≤ ctx.p
  upper : ctx.p + (ctx.length : Int) ≤ hi

def Between (lo hi a : Int) : Prop := lo ≤ a ∧ a < hi

section

variable {mem : Mem} {word : Nat} {lo hi : Int} {ctx : Context}

theorem within_contextNew (start : Int) (size : Nat) :
    Within start (start + size) (contextNew start size) := ⟨le_refl _, le_refl _⟩

section

variable (h : Within lo hi ctx)
include h

theorem between_p (hne : ¬ctx.length ≤ 0) : Between lo hi ctx.p := by
  have hlower := h.lower
  have hupper := h.upper
  unfold Between
  omega

theorem spec_peekByte : Spec (Between lo hi) (fun _ => True) (peekByte mem ctx) := by
  apply spec_ite
  · intro _
    exact spec_pure trivial
  · intro hne
    exact spec_bind (spec_load (between_p h hne) (Q := fun _ => True) trivial)
      fun _ _ => spec_pure trivial

theorem spec_getByte : Spec (Between lo hi) (fun r => Within lo hi r.2) (getByte mem ctx) := by
  apply spec_ite
  · intro _
    exact spec_pure h
  · intro hne
    apply spec_bind (spec_load (between_p h hne) (Q := fun _ => True) trivial)
    intro byte _
    apply spec_pure
    have hlower := h.lower
    have hupper := h.upper
    constructor <;> simp only <;> omega

theorem spec_skipBytes (numSkip : Nat) :
    Spec (Between lo hi) (Within lo hi) (skipBytes ctx numSkip) := by
  apply spec_unless
  intro hle
  apply spec_pure
  have hlower := h.lower
  have hupper := h.upper
  constructor <;> simp only <;> omega

theorem spec_lengthOctets (numOctets length : Nat) :
    Spec (Between lo hi) (fun r => Within lo hi r.2)
      (lengthOctets mem word numOctets length ctx) := by
  induction numOctets generalizing length ctx with
  | zero => exact spec_pure h
  | succ numOctets ih =>
    apply spec_bind (spec_getByte h)
    rintro ⟨_ | byte, ctx⟩ hctx
    · exact spec_fail
    · exact ih hctx _

theorem spec_decodeLength :
    Spec (Between lo hi) (fun r => Within lo hi r.2) (decodeLength mem word ctx) := by
  apply spec_bind (spec_getByte h)
  rintro ⟨_ | numOctets, ctx⟩ hctx
  · exact spec_fail
  · apply spec_ite
    · intro _
      exact spec_pure hctx
    · intro _
      apply spec_unless
      intro _
      exact spec_lengthOctets hctx _ _

theorem spec_openElement (appType : Nat) :
    Spec (Between lo hi) (fun r => Within lo hi r.1) (openElement mem word ctx appType) := by
  apply spec_bind (spec_decodeLength h)
  rintro ⟨length, ctx⟩ hctx
  apply spec_unless
  intro hle
  apply spec_pure
  have hlower := hctx.lower
  have hupper := hctx.upper
  constructor <;> simp only [contextNew] at * <;> omega

theorem spec_constructedGet :
    Spec (Between lo hi) (fun r => Within lo hi r.1) (constructedGet mem word ctx) := by
  apply spec_bind (spec_getByte h)
  rintro ⟨_ | type, ctx⟩ hctx
  · exact spec_fail
  · apply spec_unless
    intro _
    exact spec_openElement hctx _

theorem spec_taggedGet (tag : UInt8) :
    Spec (Between lo hi) (fun r => Within lo hi r.1) (taggedGet mem word tag ctx) := by
  apply spec_bind (spec_getByte h)
  rintro ⟨byte, ctx⟩ hctx
  apply spec_unless
  intro _
  exact spec_openElement hctx _

theorem spec_skipLoop (fuel : Nat) :
    Spec (Between lo hi) (Within lo hi) (skipLoop mem word fuel ctx) := by
  induction fuel generalizing ctx with
  | zero => exact spec_fail
  | succ fuel ih =>
    apply spec_bind (spec_peekByte h)
    rintro (_ | byte) -
    · exact spec_fail
    · apply spec_ite
      · intro _
        apply spec_bind (spec_skipBytes h 1)
        intro ctx hctx
        apply spec_bind (spec_decodeLength hctx)
        rintro ⟨length, ctx⟩ hctx
        apply spec_bind (spec_skipBytes hctx length)
        intro ctx hctx
        exact ih hctx
      · intro _
        exact spec_pure h

theorem spec_sequenceNext : Spec (Between lo hi) (Within lo hi) (sequenceNext mem word ctx) := by
  apply spec_bind (spec_getByte h)
  rintro ⟨_ | byte, ctx⟩ hctx
  · exact spec_fail
  · apply spec_bind (spec_decodeLength hctx)
    rintro ⟨length, ctx⟩ hctx
    exact spec_skipBytes hctx length

theorem spec_octetStringGet :
    Spec (Between lo hi) (fun r => lo ≤ r.1 ∧ r.1 + (r.2 : Int) ≤ hi)
      (octetStringGet mem word ctx) := by
  apply spec_bind (spec_getByte h)
  rintro ⟨byte, ctx⟩ hctx
  apply spec_unless
  intro _
  apply spec_bind (spec_decodeLength hctx)
  rintro ⟨length, ctx⟩ hctx
  apply spec_unless
  intro hle
  apply spec_pure
  have hlower := hctx.lower
  have hupper := hctx.upper
  simp only at *
  omega

end

theorem spec_copyBytes {p : Int} {n : Nat} (hlo : lo ≤ p) (hhi : p + (n : Int) ≤ hi) :
    Spec (Between lo hi) (fun _ => True) (copyBytes mem p n) := by
  induction n generalizing p with
  | zero => exact spec_pure trivial
  | succ n ih =>
    have hp : Between lo hi p := by
      unfold Between
      omega
    apply spec_bind (spec_load hp (Q := fun _ => True) trivial)
    intro byte _
    apply spec_bind (ih (by omega) (by omega))
    intro bytes _
    exact spec_pure trivial

end

theorem readPkcs7_reads (mem : Mem) (word : Nat) (start : Int) (size : Nat) :
    ∀ a ∈ (readPkcs7 mem word start size).reads, start ≤ a ∧ a < start + size := by
  suffices h : Spec (Between start (start + size)) (fun _ => True)
      (readPkcs7 mem word start size) from h.reads
  apply spec_bind (spec_taggedGet (within_contextNew start size) _)
  rintro ⟨pkcs7Seq, _⟩ hseq
  apply spec_bind (spec_sequenceNext hseq)
  intro pkcs7Seq hseq
  apply spec_bind (spec_constructedGet hseq)
  rintro ⟨signedDataApp, _⟩ happ
  apply spec_bind (spec_taggedGet happ _)
  rintro ⟨signedDataSeq, _⟩ hdata
  apply spec_bind (spec_sequenceNext hdata)
  intro signedDataSeq hdata
  apply spec_bind (spec_sequenceNext hdata)
  intro signedDataSeq hdata
  apply spec_bind (spec_sequenceNext hdata)
  intro signedDataSeq hdata
  apply spec_bind (spec_skipLoop hdata _)
  intro signedDataSeq hdata
  apply spec_bind (spec_taggedGet hdata _)
  rintro ⟨sigSet, _⟩ hset
  apply spec_bind (spec_taggedGet hset _)
  rintro ⟨sigSeq, _⟩ hsig
  apply spec_bind (spec_sequenceNext hsig)
  intro sigSeq hsig
  apply spec_bind (spec_sequenceNext hsig)
  intro sigSeq hsig
  apply spec_bind (spec_sequenceNext hsig)
  intro sigSeq hsig
  apply spec_bind (spec_sequenceNext hsig)
  intro sigSeq hsig
  apply spec_bind (spec_octetStringGet hsig)
  rintro ⟨sigDerPtr, sigDerLength⟩ hder
  exact spec_copyBytes hder.1 hder.2

/-! ## The block -/

section

variable {mem : Mem} {length : Nat} {start : Int} {size : Nat}

/-- What `verify_file` has checked when it reaches `read_pkcs7`. -/
structure Reached (mem : Mem) (length : Nat) (start : Int) (size : Nat) : Prop where
  footer_lt : footerSize < signatureStart mem length
  eocd_le : eocdSize mem length ≤ length
  marker : isMarker mem (eocd mem length) = true
  no_later : markerAfterStart mem length = false
  start_eq : start = (length : Int) - (signatureStart mem length : Int)
  size_eq : size = signatureStart mem length - footerSize

theorem reached_of_signatureBlock (h : signatureBlock mem length = some (start, size)) :
    Reached mem length start size := by
  unfold signatureBlock at h
  split at h
  · nomatch h
  split at h
  · nomatch h
  split at h
  · nomatch h
  split at h
  · nomatch h
  split at h
  · nomatch h
  split at h
  · nomatch h
  rename_i hstart hlength hmarker hlater
  cases h
  refine ⟨by omega, by omega, by simpa using hmarker, by simpa using hlater, ?_, rfl⟩
  unfold eocd
  omega

/-- The block lies in the file and in the archive comment, behind all that is signed, and
nothing outside the block is read. -/
structure LooksInside (mem : Mem) (word length : Nat) (start : Int) (size : Nat) : Prop where
  inFile : 0 ≤ start ∧ start + size ≤ length
  inComment : (length : Int) - commentSize mem length ≤ start
  unsigned : (signedLen mem length : Int) ≤ start
  reads : ∀ a ∈ (readPkcs7 mem word start size).reads, start ≤ a ∧ a < start + size

theorem looksInside_iff (word : Nat) (h : signatureBlock mem length = some (start, size)) :
    LooksInside mem word length start size ↔
      signatureStart mem length ≤ commentSize mem length := by
  have hr := reached_of_signatureBlock h
  have hlength := hr.eocd_le
  have hstart := hr.start_eq
  have hsize := hr.size_eq
  constructor
  · intro hinside
    have hcomment := hinside.inComment
    omega
  · intro hle
    have hsigned : signedLen mem length = length - commentSize mem length - 2 := by
      simp only [signedLen, eocdSize, eocdHeaderSize] at *
      omega
    simp only [eocdSize, eocdHeaderSize, footerSize] at *
    refine ⟨⟨by omega, by omega⟩, by omega, by omega, ?_⟩
    exact readPkcs7_reads mem word start size

end

def memOf (file : Bytes) : Mem := fun a => if a < 0 then 0 else file.getD a.toNat 0

/-- A record with a comment of six bytes, whose footer puts the signature 256 bytes before
the end. -/
def shortFile : Bytes :=
  [0x50, 0x4b, 0x05, 0x06] ++ List.replicate 16 0 ++ [6, 0] ++ [0, 1, 0xff, 0xff, 6, 0]

/-- The block starts 228 bytes before the file. -/
theorem signatureBlock_shortFile :
    signatureBlock (memOf shortFile) 28 = some (-228, 250) ∧
      ¬LooksInside (memOf shortFile) 8 28 (-228) 250 := by
  refine ⟨by decide +kernel, fun h => ?_⟩
  have hstart := h.inFile.1
  omega

/-- A record whose comment is a block with the signature `[5, 6]`, and the footer. -/
def signedFile : Bytes :=
  [0x50, 0x4b, 0x05, 0x06] ++ List.replicate 16 0 ++ [46, 0] ++
    [0x30, 38, 6, 1, 1, 0xa0, 33, 0x30, 31, 2, 1, 1, 0x31, 0, 0x30, 0, 0xa0, 1, 0, 0x31, 19,
      0x30, 17, 2, 1, 1, 0x30, 0, 0x30, 1, 0, 0x30, 2, 5, 0, 4, 2, 5, 6, 0] ++
    [46, 0, 0xff, 0xff, 46, 0]

theorem looksInside_signedFile : (readPkcs7 (memOf signedFile) 8 22 40).result = some [5, 6] ∧
    LooksInside (memOf signedFile) 8 68 22 40 :=
  ⟨by decide +kernel, (looksInside_iff 8 (by decide +kernel)).mpr (by decide +kernel)⟩

end ShieldTv.Recovery.Verifier
