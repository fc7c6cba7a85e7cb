import ShieldTv.Lib.Bytes
import ShieldTv.Lib.Text

/-!
# Digests and patches

What the OTA generator and the updater have in common but neither implements
itself: SHA-1 digests, printed as hexadecimal text, and the two patch formats.
Contents are counted in blocks.
-/

namespace ShieldTv

open Lib.Text

def hexDigits : List Char :=
  ['0', '1', '2', '3', '4', '5', '6', '7', '8', '9', 'a', 'b', 'c', 'd', 'e', 'f']

/-- `sha1` is injective on the contents involved, and a patch turns the source
it was computed for into its target. -/
structure Codec (B : Type) where
  sha1 : List B → Word
  computePatch : (imgdiff : Bool) → List B → List B → Bytes
  applyPatch : (imgdiff : Bool) → Bytes → List B → Option (List B)
  sha1_injective : Function.Injective sha1
  sha1_ne_nil : ∀ data, sha1 data ≠ []
  sha1_hex : ∀ data, ∀ c ∈ sha1 data, c ∈ hexDigits
  applyPatch_computePatch : ∀ imgdiff src tgt,
    applyPatch imgdiff (computePatch imgdiff src tgt) src = some tgt

variable {B : Type}

theorem Codec.isToken_sha1 (codec : Codec B) {sep : Char} (hsep : sep ∉ hexDigits)
    (data : List B) : IsToken sep (codec.sha1 data) where
  nonempty := codec.sha1_ne_nil data
  notMem := fun h => hsep (codec.sha1_hex data sep h)

instance neZero_sixteen : NeZero 16 := ⟨by decide⟩

def hexDigit (n : Fin 16) : Char := hexDigits.get n

theorem hexDigit_injective : Function.Injective hexDigit := by decide

/-- The assumptions can be met: blocks of four bits, digests that spell out the
contents, and patches that contain the whole target. -/
def plainCodec : Codec (Fin 16) where
  sha1 data := 'd' :: data.map hexDigit
  computePatch _ _ tgt := tgt.map fun b => UInt8.ofNat b.val
  applyPatch _ patch _ := some (patch.map fun byte => Fin.ofNat 16 byte.toNat)
  sha1_injective := by
    intro xs ys h
    exact (List.map_injective_iff.mpr hexDigit_injective) (List.cons.inj h).2
  sha1_ne_nil := by simp
  sha1_hex := by
    intro data c hc
    rcases List.mem_cons.mp hc with rfl | hc
    · decide
    · obtain ⟨b, -, rfl⟩ := List.mem_map.mp hc
      exact List.get_mem _ _
  applyPatch_computePatch := by
    intro imgdiff src tgt
    have hbyte : ∀ b : Fin 16, Fin.ofNat 16 (UInt8.ofNat b.val).toNat = b := by decide
    rw [List.map_map, Option.some.injEq]
    exact (List.map_congr_left fun b _ => hbyte b).trans (List.map_id' tgt)

end ShieldTv
