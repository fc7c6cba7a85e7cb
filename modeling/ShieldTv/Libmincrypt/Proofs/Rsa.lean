import ShieldTv.Libmincrypt.Proofs.Modpow

/-!
# `RSA_verify` accepts exactly the padded hashes

The buffer is hashed after the expected hash has been xored into its end, and the
digest compared with that of the padding over zeros. Where no other block has the
digest of the padding, this is the comparison of the block itself.
-/

namespace ShieldTv.Libmincrypt

open List

def bigEndian : Nat → Nat → Bytes
  | 0, _ => []
  | k + 1, v => bigEndian k (v / 2 ^ 8) ++ [UInt8.ofNat v]

/-- The block that signs a hash, by PKCS#1 v1.5. -/
def pkcs1Block (hash : Bytes) : Bytes :=
  (if hash.length = shaDigestSize then shaPadding else sha256Padding) ++ hash

/-- What is assumed of the hashes: the constants are the digests of the two paddings over
zeros, and no other block of this size has them. A hash that is injective on blocks of this
size meets the second assumption. -/
structure PadDigests (hashes : Hashes) : Prop where
  sha : hashes.sha (shaPadding ++ List.replicate shaDigestSize 0) = expectedPadShaRsa2048
  sha_only : ∀ block : Bytes, block.length = rsaNumBytes →
    hashes.sha block = hashes.sha (shaPadding ++ List.replicate shaDigestSize 0) →
      block = shaPadding ++ List.replicate shaDigestSize 0
  sha256 : hashes.sha256 (sha256Padding ++ List.replicate sha256DigestSize 0)
    = expectedPadSha256Rsa2048
  sha256_only : ∀ block : Bytes, block.length = rsaNumBytes →
    hashes.sha256 block = hashes.sha256 (sha256Padding ++ List.replicate sha256DigestSize 0) →
      block = sha256Padding ++ List.replicate sha256DigestSize 0

@[simp] theorem length_bigEndian (k v : Nat) : (bigEndian k v).length = k := by
  induction k generalizing v with
  | zero => rfl
  | succ k ih => rw [bigEndian, length_append, ih, length_singleton]

theorem bytesValue_bigEndian (k v : Nat) (h : v < 2 ^ (8 * k)) :
    bytesValue (bigEndian k v) = v := by
  induction k generalizing v with
  | zero =>
    obtain rfl : v = 0 := by simpa using h
    rfl
  | succ k ih =>
    have hquot : v / 2 ^ 8 < 2 ^ (8 * k) := by
      rw [Nat.mul_succ, pow_add] at h
      exact Nat.div_lt_of_lt_mul (by rwa [mul_comm])
    have hlast : bytesValue [UInt8.ofNat v] = v % 2 ^ 8 := by
      simp [bytesValue]
    rw [bigEndian, bytesValue_append, ih _ hquot, hlast, length_singleton]
    exact Nat.mod_add_div v (2 ^ 8)

theorem zipWith_xor_eq_zeros {xs ys : Bytes} (h : xs.length = ys.length) :
    List.zipWith (· ^^^ ·) xs ys = List.replicate ys.length 0 ↔ xs = ys := by
  induction xs generalizing ys with
  | nil =>
    obtain rfl := length_eq_zero_iff.mp h.symm
    simp
  | cons x xs ih =>
    obtain ⟨y, ys, rfl⟩ := exists_cons_of_length_eq_add_one h.symm
    simp only [zipWith_cons_cons, length_cons, replicate_succ, cons.injEq,
      ih (Nat.succ.inj h), UInt8.xor_eq_zero_iff]

/-- The buffer becomes the padding over zeros iff the block was the padding over the hash. -/
theorem xorHash_eq_iff {buf padding hash : Bytes}
    (h : buf.length = padding.length + hash.length) :
    xorHash buf hash = padding ++ List.replicate hash.length 0 ↔ buf = padding ++ hash := by
  have htake : (buf.take (buf.length - hash.length)).length = padding.length := by
    rw [length_take]
    omega
  have hdrop : (buf.drop (buf.length - hash.length)).length = hash.length := by
    rw [length_drop]
    omega
  constructor
  · intro heq
    obtain ⟨hpadding, hzeros⟩ := append_inj heq htake
    calc buf = buf.take (buf.length - hash.length) ++ buf.drop (buf.length - hash.length) :=
          (take_append_drop _ _).symm
      _ = padding ++ hash := by rw [hpadding, (zipWith_xor_eq_zeros hdrop).mp hzeros]
  · intro heq
    obtain ⟨hpadding, hhash⟩ := append_inj ((take_append_drop _ _).trans heq) htake
    rw [xorHash, hpadding, (zipWith_xor_eq_zeros hdrop).mpr hhash]

theorem length_xorHash {buf hash : Bytes} (h : hash.length ≤ buf.length) :
    (xorHash buf hash).length = buf.length := by
  simp only [xorHash, length_append, length_take, length_zipWith, length_drop]
  omega

theorem length_shaPadding : shaPadding.length = 236 := by decide +kernel

theorem length_sha256Padding : sha256Padding.length = 224 := by decide +kernel

theorem length_padding {hash : Bytes}
    (h : hash.length = shaDigestSize ∨ hash.length = sha256DigestSize) :
    rsaNumBytes = (if hash.length = shaDigestSize then shaPadding else sha256Padding).length
      + hash.length := by
  rcases h with h | h
  · rw [if_pos h, length_shaPadding, h]
    rfl
  · rw [if_neg (by rw [h]; decide), length_sha256Padding, h]
    rfl

theorem rsaVerify_iff {hashes : Hashes} (hpads : PadDigests hashes) {key : RSAPublicKey}
    (hkey : WellFormed key) {signature hash : Bytes} (hsig : signature.length = rsaNumBytes)
    (hhash : hash.length = shaDigestSize ∨ hash.length = sha256DigestSize) :
    rsaVerify hashes key signature hash = true ↔ modpow key signature = pkcs1Block hash := by
  have hlength := (hkey.modpow_spec hsig).1.trans (length_padding hhash)
  have hxor : (xorHash (modpow key signature) hash).length = rsaNumBytes :=
    (length_xorHash (by omega)).trans (hkey.modpow_spec hsig).1
  have hlen := hkey.len
  have hexp := hkey.exponent
  rw [rsaVerify, if_neg (by simpa using hlen), if_neg (by simpa using hsig),
    if_neg (by omega), if_neg (by omega), pkcs1Block, ← xorHash_eq_iff hlength]
  split_ifs with hsha
  · rw [beq_iff_eq, ← hpads.sha, hsha]
    exact ⟨hpads.sha_only _ hxor, congrArg hashes.sha⟩
  · rw [beq_iff_eq, ← hpads.sha256, hhash.resolve_left hsha]
    exact ⟨hpads.sha256_only _ hxor, congrArg hashes.sha256⟩

/-- For every key of the supported form, `modpow` leaves the encoding of the exact power, and
`RSA_verify` accepts iff that block is the padding of the hash. -/
theorem rsaVerify_exact (hashes : Hashes) (hpads : PadDigests hashes) (key : RSAPublicKey)
    (hkey : WellFormed key) (signature hash : Bytes)
    (hsig : signature.length = rsaNumBytes)
    (hhash : hash.length = shaDigestSize ∨ hash.length = sha256DigestSize) :
    modpow key signature
        = bigEndian rsaNumBytes (bytesValue signature ^ key.exponent % value key.n) ∧
      (rsaVerify hashes key signature hash = true ↔
        bigEndian rsaNumBytes (bytesValue signature ^ key.exponent % value key.n)
          = pkcs1Block hash) := by
  have hencoding : modpow key signature
      = bigEndian rsaNumBytes (bytesValue signature ^ key.exponent % value key.n) := by
    obtain ⟨hlength, hvalue⟩ := hkey.modpow_spec hsig
    have hpos : 0 < value key.n := by
      have := hkey.odd
      omega
    have hlt : bytesValue signature ^ key.exponent % value key.n < bound :=
      (Nat.mod_lt _ hpos).trans (value_lt_bound key.n_length)
    apply bytesValue_injective
    · rw [hlength, length_bigEndian]
    · have hbits : 8 * rsaNumBytes = 32 * rsaNumWords := rfl
      rw [hvalue, bytesValue_bigEndian]
      rwa [hbits]
  exact ⟨hencoding, hencoding ▸ rsaVerify_iff hpads hkey hsig hhash⟩

/-! ## A key -/

/-- The modulus `2 ^ 2047 + 1`, for which `2 ^ 4096` leaves 4. -/
def fermatKey : RSAPublicKey where
  len := rsaNumWords
  n0inv := 0xffffffff
  n := 1 :: List.replicate 62 0 ++ [0x80000000]
  rr := 4 :: List.replicate 63 0
  exponent := 3
  n_length := rfl
  rr_length := rfl

/-- A hash that tells one block apart from all others. -/
def markHash (pad digest block : Bytes) : Bytes := if block = pad then digest else []

def padHashes : Hashes where
  sha := markHash (shaPadding ++ List.replicate shaDigestSize 0) expectedPadShaRsa2048
  sha256 := markHash (sha256Padding ++ List.replicate sha256DigestSize 0) expectedPadSha256Rsa2048

theorem wellFormed_fermatKey : WellFormed fermatKey where
  len := rfl
  odd := by decide +kernel
  top := by decide +kernel
  n0inv := by decide +kernel
  rr := by decide +kernel
  exponent := Or.inl rfl

theorem markHash_pad (pad digest : Bytes) : markHash pad digest pad = digest := if_pos rfl

theorem eq_pad_of_markHash {pad digest block : Bytes} (hne : [] ≠ digest)
    (h : markHash pad digest block = markHash pad digest pad) : block = pad := by
  by_contra hblock
  rw [markHash_pad, markHash, if_neg hblock] at h
  exact hne h

theorem padDigests_padHashes : PadDigests padHashes := by
  apply PadDigests.mk
  · simp only [padHashes, markHash_pad]
  · intro block _ h
    simp only [padHashes] at h
    exact eq_pad_of_markHash (cons_ne_nil _ _).symm h
  · simp only [padHashes, markHash_pad]
  · intro block _ h
    simp only [padHashes] at h
    exact eq_pad_of_markHash (cons_ne_nil _ _).symm h

/-- Every block of 256 bytes, also one that is not below the modulus. -/
theorem rsaVerify_exact_fermatKey :
    modpow fermatKey (List.replicate rsaNumBytes 0xff)
        = bigEndian rsaNumBytes
            (bytesValue (List.replicate rsaNumBytes 0xff) ^ fermatKey.exponent %
              value fermatKey.n) ∧
      (rsaVerify padHashes fermatKey (List.replicate rsaNumBytes 0xff) (List.replicate 20 7) = true
        ↔ bigEndian rsaNumBytes
            (bytesValue (List.replicate rsaNumBytes 0xff) ^ fermatKey.exponent % value fermatKey.n)
          = pkcs1Block (List.replicate 20 7)) :=
  rsaVerify_exact padHashes padDigests_padHashes fermatKey wellFormed_fermatKey
    (List.replicate rsaNumBytes 0xff) (List.replicate 20 7) length_replicate
    (Or.inl length_replicate)

end ShieldTv.Libmincrypt
