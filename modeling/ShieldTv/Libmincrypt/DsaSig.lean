import ShieldTv.Libmincrypt.Rsa

/-!
# `libmincrypt/dsa_sig.c`

Unpacking of the two integers of a DSA signature. A read outside the signature ends
the computation, and so does a string that is rejected.
-/

namespace ShieldTv.Libmincrypt.DsaSig

open List

inductive Stop where
  | outside
  | rejected
deriving DecidableEq

def p256NBytes : Nat := 32

def load (sig : Bytes) (i : Nat) : Except Stop UInt8 :=
  match sig[i]? with
  | some byte => .ok byte
  | none => .error .outside

def rejectIf (c : Prop) [Decidable c] : Except Stop Unit :=
  if c then .error .rejected else .ok ()

/-- The loop of `trim_to_p256_bytes`: a byte is read before the length is tested. -/
def skipZeros : Bytes → Nat → Except Stop (Bytes × Nat)
  | [], _ => .error .outside
  | byte :: src, srcLen =>
    if byte = 0 ∧ srcLen > 0 then skipZeros src (srcLen - 1) else .ok (byte :: src, srcLen)

def trimToP256Bytes (src : Bytes) (srcLen : Nat) : Except Stop Bytes := do
  let (src, srcLen) ← skipZeros src srcLen
  rejectIf (srcLen > p256NBytes ∨ srcLen < 1)
  if src.length < srcLen then .error .outside
  else .ok (replicate (p256NBytes - srcLen) 0 ++ src.take srcLen)

/-- The checks of `dsa_sig_unpack` on the headers, and the two lengths it finds. -/
def sigLengths (sig : Bytes) : Except Stop (Nat × Nat) := do
  rejectIf (sig.length < 8)
  rejectIf ((← load sig 0) ≠ 0x30)
  rejectIf ((← load sig 2) ≠ 0x02)
  let seqLen := (← load sig 1).toNat
  rejectIf (seqLen ≤ 0 ∨ seqLen + 2 ≠ sig.length)
  let rLen := (← load sig 3).toNat
  rejectIf (rLen < 1 ∨ (rLen : Int) > seqLen - 5)
  rejectIf ((← load sig (4 + rLen)) ≠ 0x02)
  let sLen := (← load sig (5 + rLen)).toNat
  rejectIf (sLen < 1 ∨ (sLen : Int) ≠ seqLen - 4 - rLen)
  .ok (rLen, sLen)

def p256FromBin (src : Bytes) : List UInt32 := toWords src

def dsaSigUnpack (sig : Bytes) : Except Stop (List UInt32 × List UInt32) := do
  let (rLen, sLen) ← sigLengths sig
  let rBytes ← trimToP256Bytes (sig.drop 4) rLen
  let sBytes ← trimToP256Bytes (sig.drop (6 + rLen)) sLen
  .ok (p256FromBin rBytes, p256FromBin sBytes)

end ShieldTv.Libmincrypt.DsaSig
