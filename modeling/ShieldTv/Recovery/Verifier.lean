import ShieldTv.Recovery.Asn1Decoder

/-!
# The signature check of an update package

`verifier.cpp`: a package ends in a six byte footer that says where the signature
block and the archive comment start. `verify_file` hashes everything before the
length of the comment and compares it with the signature. The file occupies the
addresses from `0` below `length`; the cryptography of `libmincrypt` is a parameter.
-/

namespace ShieldTv.Recovery.Verifier

open Lib
open Recovery.Asn1

/-! ## `read_pkcs7` -/

def copyBytes (mem : Mem) (p : Int) : Nat → Tracked Int Bytes
  | 0 => pure []
  | n + 1 => do
    let byte ← Tracked.load p (mem p)
    let bytes ← copyBytes mem (p + 1) n
    pure (byte :: bytes)

def readPkcs7 (mem : Mem) (word : Nat) (pkcs7Der : Int) (pkcs7DerLen : Nat) :
    Tracked Int Bytes := do
  let ctx := contextNew pkcs7Der pkcs7DerLen
  let (pkcs7Seq, _) ← sequenceGet mem word ctx
  let pkcs7Seq ← sequenceNext mem word pkcs7Seq
  let (signedDataApp, _) ← constructedGet mem word pkcs7Seq
  let (signedDataSeq, _) ← sequenceGet mem word signedDataApp
  let signedDataSeq ← sequenceNext mem word signedDataSeq
  let signedDataSeq ← sequenceNext mem word signedDataSeq
  let signedDataSeq ← sequenceNext mem word signedDataSeq
  let signedDataSeq ← constructedSkipAll mem word signedDataSeq
  let (sigSet, _) ← setGet mem word signedDataSeq
  let (sigSeq, _) ← sequenceGet mem word sigSet
  let sigSeq ← sequenceNext mem word sigSeq
  let sigSeq ← sequenceNext mem word sigSeq
  let sigSeq ← sequenceNext mem word sigSeq
  let sigSeq ← sequenceNext mem word sigSeq
  let (sigDerPtr, sigDerLength) ← octetStringGet mem word sigSeq
  copyBytes mem sigDerPtr sigDerLength

/-! ## The footer and the end-of-central-directory record -/

def footerSize : Nat := 6
def eocdHeaderSize : Nat := 22

section

variable (mem : Mem) (length : Nat)

def footer (i : Nat) : UInt8 := mem ((length : Int) - footerSize + i)

def commentSize : Nat := (footer mem length 4).toNat + (footer mem length 5).toNat * 2 ^ 8

def signatureStart : Nat := (footer mem length 0).toNat + (footer mem length 1).toNat * 2 ^ 8

def eocdSize : Nat := commentSize mem length + eocdHeaderSize

/-- How much of the file is signed: everything up to the length of the comment. -/
def signedLen : Nat := length - eocdSize mem length + eocdHeaderSize - 2

/-- `eocd`, relative to the start of the file. -/
def eocd : Int := (length : Int) - eocdSize mem length

/-- The magic number `$50 $4b $05 $06`. -/
def isMarker (p : Int) : Bool :=
  mem p == 0x50 && mem (p + 1) == 0x4b && mem (p + 2) == 0x05 && mem (p + 3) == 0x06

/-- The loop over `i` from 4 below `eocd_size - 3`. -/
def markerAfterStart : Bool :=
  (List.range' 4 (eocdSize mem length - 3 - 4)).any fun i =>
    isMarker mem (eocd mem length + (i : Int))

/-- `verify_file` up to the digests: the block it passes to `read_pkcs7`, if it gets
that far. -/
def signatureBlock : Option (Int × Nat) :=
  if length < footerSize then none
  else if footer mem length 2 ≠ 0xff ∨ footer mem length 3 ≠ 0xff then none
  else if signatureStart mem length ≤ footerSize then none
  else if length < eocdSize mem length then none
  else if !isMarker mem (eocd mem length) then none
  else if markerAfterStart mem length then none
  else
    some (eocd mem length + (eocdSize mem length : Int) - (signatureStart mem length : Int),
      signatureStart mem length - footerSize)

end

/-! ## Digests and keys -/

/-- An incremental hash of `libmincrypt`. -/
structure Hash where
  Ctx : Type
  init : Ctx
  update : Ctx → Bytes → Ctx
  final : Ctx → Bytes

def bufferSize : Nat := 4096

def bytesAt (mem : Mem) (p n : Nat) : Bytes :=
  (List.range n).map fun i : Nat => mem ((p : Int) + (i : Int))

/-- The hashing loop; a round takes at least a byte. -/
def hashLoop (hash : Hash) (mem : Mem) (signedLen : Nat) : Nat → Nat → hash.Ctx → hash.Ctx
  | 0, _, ctx => ctx
  | fuel + 1, soFar, ctx =>
    if soFar < signedLen then
      let size := min (signedLen - soFar) bufferSize
      hashLoop hash mem signedLen fuel (soFar + size) (hash.update ctx (bytesAt mem soFar size))
    else ctx

/-- The digest of the signed part; a hash that no key needs gets no data. -/
def digest (hash : Hash) (needed : Bool) (mem : Mem) (signedLen : Nat) : Bytes :=
  hash.final (if needed then hashLoop hash mem signedLen signedLen 0 hash.init else hash.init)

inductive KeyType
  | rsa
  | ec
deriving DecidableEq, Repr

structure ECPublicKey where
  x : Nat
  y : Nat

/-- `Certificate`, with the RSA keys of a parameter type. -/
structure Certificate (RSAPublicKey : Type) where
  hashLen : Nat
  keyType : KeyType
  rsa : RSAPublicKey
  ec : ECPublicKey

/-- What `verify_file` uses of `libmincrypt`. -/
structure Mincrypt (RSAPublicKey : Type) where
  sha1 : Hash
  sha256 : Hash
  rsaVerify : RSAPublicKey → Bytes → Bytes → Nat → Bool
  dsaSigUnpack : Bytes → Option (Nat × Nat)
  p256FromBin : Bytes → Nat
  p256EcdsaVerify : Nat → Nat → Nat → Nat → Nat → Bool

def shaDigestSize : Nat := 20
def sha256DigestSize : Nat := 32
def rsaNumBytes : Nat := 256

inductive VerifyResult
  | success
  | failure
deriving DecidableEq, Repr

section

variable {RSAPublicKey : Type} (crypto : Mincrypt RSAPublicKey)

/-- A round of the loop over the keys: whether the key matches the signature. -/
def keyMatches (sha1 sha256 sigDer : Bytes) (key : Certificate RSAPublicKey) : Bool :=
  if key.hashLen = shaDigestSize ∨ key.hashLen = sha256DigestSize then
    let hash := if key.hashLen = shaDigestSize then sha1 else sha256
    match key.keyType with
    | .rsa =>
      if sigDer.length < rsaNumBytes then false
      else crypto.rsaVerify key.rsa (sigDer.take rsaNumBytes) hash key.hashLen
    | .ec =>
      if key.hashLen = sha256DigestSize then
        match crypto.dsaSigUnpack sigDer with
        | none => false
        | some (r, s) =>
          crypto.p256EcdsaVerify key.ec.x key.ec.y (crypto.p256FromBin hash) r s
      else false
  else false

def verifyFile (mem : Mem) (word length : Nat) (keys : List (Certificate RSAPublicKey)) :
    VerifyResult :=
  match signatureBlock mem length with
  | none => .failure
  | some (start, size) =>
    let needSha1 := keys.any fun key => key.hashLen == shaDigestSize
    let needSha256 := keys.any fun key => key.hashLen == sha256DigestSize
    let sha1 := digest crypto.sha1 needSha1 mem (signedLen mem length)
    let sha256 := digest crypto.sha256 needSha256 mem (signedLen mem length)
    match (readPkcs7 mem word start size).result with
    | none => .failure
    | some sigDer =>
      if keys.any (keyMatches crypto sha1 sha256 sigDer) then .success else .failure

end

end ShieldTv.Recovery.Verifier
