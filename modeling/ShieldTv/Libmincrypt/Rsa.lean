import ShieldTv.Lib.Bytes

/-!
# `libmincrypt/rsa.c`

Verification of 2048-bit RSA signatures. Numbers are little-endian lists of 32-bit
words; 64-bit sums are reduced where the code computes them. All loops run over
`key->len` words, which `RSA_verify` has checked to be all of them.
-/

namespace ShieldTv.Libmincrypt

def rsaNumBytes : Nat := 256
def rsaNumWords : Nat := 64
def shaDigestSize : Nat := 20
def sha256DigestSize : Nat := 32

structure RSAPublicKey where
  len : Nat
  n0inv : UInt32
  n : List UInt32
  rr : List UInt32
  exponent : Nat
  n_length : n.length = rsaNumWords
  rr_length : rr.length = rsaNumWords

/-! ## Multiword arithmetic -/

/-- The loop of `subM`, with the borrow in the signed `A`. -/
def subLoop : Int → List UInt32 → List UInt32 → List UInt32
  | A, a :: as, n :: ns =>
    let A := A + ((a.toNat : Int) - n.toNat)
    UInt32.ofNat (A % 2 ^ 32).toNat :: subLoop (A / 2 ^ 32) as ns
  | _, _, _ => []

def subM (key : RSAPublicKey) (a : List UInt32) : List UInt32 := subLoop 0 a key.n

/-- The loop of `geM`, from the most significant word on. -/
def geLoop : List UInt32 → List UInt32 → Bool
  | a :: as, n :: ns => if a < n then false else if n < a then true else geLoop as ns
  | _, _ => true

def geM (key : RSAPublicKey) (a : List UInt32) : Bool := geLoop a.reverse key.n.reverse

/-- The loop of `montMulAdd`: the words it stores, and `A` and `B` at its end. -/
def montLoop (a d0 : UInt32) : Nat → Nat → List UInt32 → List UInt32 → List UInt32 →
    List UInt32 × Nat × Nat
  | A, B, b :: bs, n :: ns, c :: cs =>
    let A := (A / 2 ^ 32 + a.toNat * b.toNat + c.toNat) % 2 ^ 64
    let B := (B / 2 ^ 32 + d0.toNat * n.toNat + A % 2 ^ 32) % 2 ^ 64
    let rest := montLoop a d0 A B bs ns cs
    (UInt32.ofNat B :: rest.1, rest.2)
  | A, B, _, _, _ => ([], A, B)

/-- The end of `montMulAdd`: the last word and, on a carry, a subtraction. -/
def montFinish (key : RSAPublicKey) (stored : List UInt32) (A B : Nat) : List UInt32 :=
  let A := (A / 2 ^ 32 + B / 2 ^ 32) % 2 ^ 64
  let c := stored ++ [UInt32.ofNat A]
  if A / 2 ^ 32 ≠ 0 then subM key c else c

/-- `montMulAdd`: `c[] += a * b[] / R % mod`, over the words of a number that is not empty. -/
def montMulAdd (key : RSAPublicKey) (c : List UInt32) (a : UInt32) (b : List UInt32) :
    List UInt32 :=
  match b, key.n, c with
  | b0 :: bs, n0 :: ns, c0 :: cs =>
    let A := (a.toNat * b0.toNat + c0.toNat) % 2 ^ 64
    let d0 := UInt32.ofNat A * key.n0inv
    let B := (d0.toNat * n0.toNat + A % 2 ^ 32) % 2 ^ 64
    let (stored, A, B) := montLoop a d0 A B bs ns cs
    montFinish key stored A B
  | _, _, _ => []

/-- `montMul`: `c[] = a[] * b[] / R % mod`. -/
def montMul (key : RSAPublicKey) (a b : List UInt32) : List UInt32 :=
  a.foldl (fun c word => montMulAdd key c word b) (List.replicate rsaNumWords 0)

/-! ## Exponentiation -/

def toWords : Bytes → List UInt32
  | b0 :: b1 :: b2 :: b3 :: bytes =>
    toWords bytes ++
      [UInt32.ofNat (b0.toNat * 2 ^ 24 + b1.toNat * 2 ^ 16 + b2.toNat * 2 ^ 8 + b3.toNat)]
  | _ => []

/-- The four bytes of a word, most significant first. -/
def wordBytes (word : UInt32) : Bytes :=
  [UInt8.ofNat (word.toNat / 2 ^ 24), UInt8.ofNat (word.toNat / 2 ^ 16),
    UInt8.ofNat (word.toNat / 2 ^ 8), UInt8.ofNat word.toNat]

def toBytes (words : List UInt32) : Bytes := words.reverse.flatMap wordBytes

/-- Two squarings of the loop for the exponent 65537. -/
def squareTwice (key : RSAPublicKey) (aR : List UInt32) : List UInt32 :=
  let aaR := montMul key aR aR
  montMul key aaR aaR

/-- The products of `modpow`: `aaa` for the two exponents that are supported. -/
def modpowWords (key : RSAPublicKey) (a : List UInt32) : List UInt32 :=
  let aR := montMul key a key.rr
  if key.exponent = 65537 then montMul key ((squareTwice key)^[8] aR) a
  else montMul key (montMul key aR aR) a

/-- `modpow`: in-place public exponentiation. -/
def modpow (key : RSAPublicKey) (inout : Bytes) : Bytes :=
  let aaa := modpowWords key (toWords inout)
  toBytes (if geM key aaa then subM key aaa else aaa)

/-! ## Verification -/

/-- The PKCS#1 v1.5 padding before a SHA-1 hash, as in the comment of the source. -/
def shaPadding : Bytes :=
  [0x00, 0x01] ++ List.replicate 218 0xff ++
    [0x00, 0x30, 0x21, 0x30, 0x09, 0x06, 0x05, 0x2b, 0x0e, 0x03, 0x02, 0x1a, 0x05, 0x00, 0x04, 0x14]

def sha256Padding : Bytes :=
  [0x00, 0x01] ++ List.replicate 202 0xff ++
    [0x00, 0x30, 0x31, 0x30, 0x0d, 0x06, 0x09, 0x60, 0x86, 0x48, 0x01, 0x65, 0x03, 0x04, 0x02, 0x01,
      0x05, 0x00, 0x04, 0x20]

def expectedPadShaRsa2048 : Bytes :=
  [0xdc, 0xbd, 0xbe, 0x42, 0xd5, 0xf5, 0xa7, 0x2e, 0x6e, 0xfc, 0xf5, 0x5d, 0xaf, 0x9d, 0xea, 0x68,
    0x7c, 0xfb, 0xf1, 0x67]

def expectedPadSha256Rsa2048 : Bytes :=
  [0xab, 0x28, 0x8d, 0x8a, 0xd7, 0xd9, 0x59, 0x92, 0xba, 0xcc, 0xf8, 0x67, 0x20, 0xe1, 0x15, 0x2e,
    0x39, 0x8d, 0x80, 0x36, 0xd6, 0x6f, 0xf0, 0xfd, 0x90, 0xe8, 0x7d, 0x8b, 0xe1, 0x7c, 0x87, 0x59]

/-- The hash functions: `SHA_hash` and `SHA256_hash` of a whole buffer. -/
structure Hashes where
  sha : Bytes → Bytes
  sha256 : Bytes → Bytes

def xorHash (buf hash : Bytes) : Bytes :=
  buf.take (buf.length - hash.length) ++
    List.zipWith (· ^^^ ·) (buf.drop (buf.length - hash.length)) hash

/-- `RSA_verify`; `hash` has `hash_len` bytes. -/
def rsaVerify (hashes : Hashes) (key : RSAPublicKey) (signature hash : Bytes) : Bool :=
  if key.len ≠ rsaNumWords then false
  else if signature.length ≠ rsaNumBytes then false
  else if hash.length ≠ shaDigestSize ∧ hash.length ≠ sha256DigestSize then false
  else if key.exponent ≠ 3 ∧ key.exponent ≠ 65537 then false
  else
    let buf := xorHash (modpow key signature) hash
    if hash.length = shaDigestSize then hashes.sha buf == expectedPadShaRsa2048
    else hashes.sha256 buf == expectedPadSha256Rsa2048

end ShieldTv.Libmincrypt
