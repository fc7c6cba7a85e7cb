import ShieldTv.Libmincrypt.DsaSig
import ShieldTv.Libmincrypt.Proofs.Rsa

/-!
# Unpacking a DER signature

A DER encoding gives back its integers and other strings are rejected, except that the zeros of an
`s` that is zero are skipped up to the end of the string and beyond it.
-/

namespace ShieldTv.Libmincrypt.DsaSig

open List

@[simp] theorem ok_bind {α β : Type} (x : α) (f : α → Except Stop β) :
    (Except.ok x >>= f) = f x := rfl

@[simp] theorem error_bind {α β : Type} (e : Stop) (f : α → Except Stop β) :
    (Except.error e >>= f) = .error e := rfl

@[simp] theorem rejectIf_bind {β : Type} (c : Prop) [Decidable c] (f : Unit → Except Stop β) :
    (rejectIf c >>= f) = if c then .error .rejected else f () := by
  unfold rejectIf
  split <;> rfl

/-! ## Signatures -/

/-- A sequence of two integers, with lengths that add up. -/
def Frames (sig r s : Bytes) : Prop :=
  r ≠ [] ∧ s ≠ [] ∧ ∃ seqLen rLen sLen : UInt8, seqLen.toNat = 4 + r.length + s.length ∧
    rLen.toNat = r.length ∧ sLen.toNat = s.length ∧
    sig = 0x30 :: seqLen :: 0x02 :: rLen :: (r ++ 0x02 :: sLen :: s)

/-- The fewest bytes that have a clear sign bit. -/
def derInteger (n : Nat) : Bytes := bigEndian (n.size / 8 + 1) n

def derField (tag : UInt8) (bytes : Bytes) : Bytes :=
  tag :: UInt8.ofNat bytes.length :: bytes

def der (r s : Nat) : Bytes :=
  derField 0x30 (derField 0x02 (derInteger r) ++ derField 0x02 (derInteger s))

/-- What unpacking should do with a signature. -/
structure Faithful (sig : Bytes) : Prop where
  inside : dsaSigUnpack sig ≠ .error .outside
  accepts : ∀ r s, 0 < r → r < 2 ^ 256 → 0 < s → s < 2 ^ 256 → sig = der r s →
    ∃ rInt sInt, dsaSigUnpack sig = .ok (rInt, sInt) ∧ value rInt = r ∧ value sInt = s
  rejects : (¬∃ r s, Frames sig r s ∧ bytesValue r < 2 ^ 256 ∧ bytesValue s < 2 ^ 256) →
    dsaSigUnpack sig = .error .rejected

theorem bytesValue_cons (byte : UInt8) (bytes : Bytes) :
    bytesValue (byte :: bytes) = bytesValue bytes + 2 ^ (8 * bytes.length) * byte.toNat := by
  rw [← singleton_append, bytesValue_append]
  simp [bytesValue]

theorem bytesValue_lt (bytes : Bytes) : bytesValue bytes < 2 ^ (8 * bytes.length) := by
  have h := Nat.ofDigits_lt_base_pow_length (b := 2 ^ 8) (by omega)
    (l := bytes.reverse.map UInt8.toNat) fun digit hdigit => by
      obtain ⟨byte, -, rfl⟩ := mem_map.mp hdigit
      exact byte.toNat_lt
  rw [pow_mul]
  simpa [bytesValue] using h

theorem bytesValue_pad (k : Nat) (bytes : Bytes) :
    bytesValue (replicate k 0 ++ bytes) = bytesValue bytes := by
  induction k with
  | zero => rfl
  | succ k ih => simp [replicate_succ, bytesValue_cons, ih]

/-! ## The trimmed integers -/

theorem trim_eq (bytes tail : Bytes) : trimToP256Bytes (bytes ++ tail) bytes.length =
    if bytesValue bytes = 0 then .error (if tail = [] then .outside else .rejected)
    else if bytesValue bytes < 2 ^ 256 then .ok (bigEndian 32 (bytesValue bytes))
    else .error .rejected := by
  have hwidth : p256NBytes = 32 := rfl
  induction bytes with
  | nil => cases tail <;> simp [trimToP256Bytes, skipZeros, bytesValue]
  | cons byte bytes ih =>
    by_cases hzero : byte = 0
    · rw [bytesValue_cons, hzero]
      simpa [trimToP256Bytes, skipZeros] using ih
    · have hbyte : 0 < byte.toNat := Nat.pos_of_ne_zero fun h => hzero (UInt8.toNat_inj.mp h)
      have hlow : 2 ^ (8 * bytes.length) ≤ bytesValue (byte :: bytes) := by
        rw [bytesValue_cons]
        exact le_add_left (Nat.le_mul_of_pos_right _ hbyte)
      have hhigh : bytesValue (byte :: bytes) < 2 ^ (8 * (bytes.length + 1)) := bytesValue_lt _
      have hpos : 0 < 2 ^ (8 * bytes.length) := by positivity
      rw [if_neg (by omega)]
      simp only [trimToP256Bytes, skipZeros, hzero, cons_append, false_and, if_false, ok_bind,
        rejectIf_bind, length_cons, length_append, hwidth]
      by_cases hlen : bytes.length + 1 ≤ 32
      · have hpow : 2 ^ (8 * (bytes.length + 1)) ≤ 2 ^ (8 * 32) :=
          Nat.pow_le_pow_right (by omega) (by omega)
        have hout : replicate (32 - (bytes.length + 1)) 0 ++ byte :: bytes
            = bigEndian 32 (bytesValue (byte :: bytes)) := by
          apply bytesValue_injective
          · simp
            omega
          · rw [bytesValue_pad, bytesValue_bigEndian _ _ (by omega)]
        rw [if_neg (by omega), if_neg (by omega), if_pos (by omega), ← hout]
        simp
      · have hpow : 2 ^ (8 * 32) ≤ 2 ^ (8 * bytes.length) :=
          Nat.pow_le_pow_right (by omega) (by omega)
        rw [if_pos (by omega), if_neg (by omega)]

/-! ## The headers -/

theorem sigLengths_layout {b0 b1 b2 b3 tag len : UInt8} {r s : Bytes}
    (hr : r.length = b3.toNat) : sigLengths (b0 :: b1 :: b2 :: b3 :: (r ++ tag :: len :: s)) =
      if b0 = 0x30 ∧ b2 = 0x02 ∧ tag = 0x02 ∧ 0 < r.length ∧ 0 < s.length ∧
        b1.toNat = 4 + r.length + s.length ∧ len.toNat = s.length
      then .ok (r.length, s.length) else .error .rejected := by
  have hfour : ∀ (sig : Bytes) i,
      load (b0 :: b1 :: b2 :: b3 :: sig) (4 + i) = load sig i := by
    intro sig i
    simp [load, Nat.add_comm 4]
  have htag : load (r ++ tag :: len :: s) r.length = .ok tag := by
    simp [load]
  have hlen : load (b0 :: b1 :: b2 :: b3 :: (r ++ tag :: len :: s)) (5 + r.length) = .ok len := by
    simp [load, Nat.add_comm 5]
  have hfirst : ∀ sig : Bytes, (load (b0 :: b1 :: b2 :: b3 :: sig) 0 = .ok b0 ∧
      load (b0 :: b1 :: b2 :: b3 :: sig) 1 = .ok b1) ∧
      load (b0 :: b1 :: b2 :: b3 :: sig) 2 = .ok b2 ∧
      load (b0 :: b1 :: b2 :: b3 :: sig) 3 = .ok b3 := fun _ => ⟨⟨rfl, rfl⟩, rfl, rfl⟩
  simp only [sigLengths, rejectIf_bind, hfirst, ok_bind, ← hr, hfour, htag, hlen, length_cons,
    length_append]
  symm
  split
  case isTrue hgood =>
    obtain ⟨rfl, rfl, rfl, hrPos, hsPos, hseq, hsLen⟩ := hgood
    rw [if_neg (by omega), if_neg (by simp), if_neg (by simp), if_neg (by omega),
      if_neg (by omega), if_neg (by simp), if_neg (by omega), hsLen]
  case isFalse hbad =>
    split_ifs with h8 hb0 hb2 hseq hrLen htag hsLen
    any_goals rfl
    exact (hbad ⟨by tauto, by tauto, by tauto, by omega, by omega, by omega, by omega⟩).elim

theorem sigLengths_frame {sig r s : Bytes} (h : Frames sig r s) :
    sigLengths sig = .ok (r.length, s.length) := by
  obtain ⟨hr, hs, seqLen, rLen, sLen, hseqLen, hrLen, hsLen, rfl⟩ := h
  rw [sigLengths_layout hrLen.symm, if_pos]
  exact ⟨rfl, rfl, rfl, length_pos_iff.mpr hr, length_pos_iff.mpr hs, hseqLen, hsLen⟩

theorem sigLengths_cases (sig : Bytes) :
    sigLengths sig = .error .rejected ∨ ∃ r s, Frames sig r s := by
  by_cases h8 : sig.length < 8
  · exact .inl (by simp [sigLengths, h8])
  obtain ⟨b0, b1, b2, b3, rest, rfl⟩ :
      ∃ b0 b1 b2 b3 rest, sig = b0 :: b1 :: b2 :: b3 :: rest := by
    match sig, h8 with
    | b0 :: b1 :: b2 :: b3 :: rest, _ => exact ⟨_, _, _, _, _, rfl⟩
    | [], h | [_], h | [_, _], h | [_, _, _], h => simp at h
  by_cases hshort : rest.length < b3.toNat + 2
  · left
    simp [sigLengths, load]
    omega
  · obtain ⟨r, tag, len, s, hr, rfl⟩ :
        ∃ r tag len s, r.length = b3.toNat ∧ rest = r ++ tag :: len :: s :=
      ⟨rest.take b3.toNat, rest[b3.toNat], rest[b3.toNat + 1], rest.drop (b3.toNat + 2),
        by simp; omega, by simp⟩
    rw [sigLengths_layout hr]
    split_ifs with h
    · obtain ⟨rfl, rfl, rfl, hrPos, hsPos, hseq, hlen⟩ := h
      exact .inr ⟨r, s, length_pos_iff.mp hrPos, length_pos_iff.mp hsPos, b1, b3, len, hseq,
        hr.symm, hlen, rfl⟩
    · exact .inl rfl

/-! ## Unpacking -/

theorem unpack_frame {sig r s : Bytes} (h : Frames sig r s) : dsaSigUnpack sig =
    if bytesValue r = 0 ∨ 2 ^ 256 ≤ bytesValue r then .error .rejected
    else if bytesValue s = 0 then .error .outside
    else if bytesValue s < 2 ^ 256 then
      .ok (p256FromBin (bigEndian 32 (bytesValue r)),
        p256FromBin (bigEndian 32 (bytesValue s)))
    else .error .rejected := by
  rw [dsaSigUnpack, sigLengths_frame h, ok_bind]
  obtain ⟨-, -, seqLen, rLen, sLen, -, -, -, rfl⟩ := h
  have hr := trim_eq r (0x02 :: sLen :: s)
  have hs := trim_eq s []
  rw [append_nil] at hs
  have hdrop : (0x30 :: seqLen :: 0x02 :: rLen :: (r ++ 0x02 :: sLen :: s)).drop
      (6 + r.length) = s := by
    simp [Nat.add_comm 6]
  grind [ok_bind, error_bind]

theorem frames_der {r s : Nat} (hr : r < 2 ^ 256) (hs : s < 2 ^ 256) :
    Frames (der r s) (derInteger r) (derInteger s) := by
  have hlen : ∀ n < 2 ^ 256, 0 < (derInteger n).length ∧ (derInteger n).length ≤ 33 := by
    intro n hn
    have hsize := Nat.size_le.mpr hn
    rw [derInteger, length_bigEndian]
    omega
  obtain ⟨hrPos, hr⟩ := hlen r hr
  obtain ⟨hsPos, hs⟩ := hlen s hs
  refine ⟨length_pos_iff.mp hrPos, length_pos_iff.mp hsPos, _, _, _, ?_, ?_, ?_, rfl⟩
  all_goals
    simp [derField]
    omega

theorem bytesValue_derInteger (n : Nat) : bytesValue (derInteger n) = n := by
  apply bytesValue_bigEndian
  calc n < 2 ^ n.size := n.lt_size_self
    _ ≤ 2 ^ (8 * (n.size / 8 + 1)) := Nat.pow_le_pow_right (by omega) (by omega)

theorem value_word (n : Nat) (h : n < 2 ^ 256) : value (p256FromBin (bigEndian 32 n)) = n := by
  rw [p256FromBin, value_toWords 8 _ (length_bigEndian 32 n), bytesValue_bigEndian 32 n h]

theorem faithful_iff (sig : Bytes) : Faithful sig ↔
    ¬∃ r s, Frames sig r s ∧ 0 < bytesValue r ∧ bytesValue r < 2 ^ 256 ∧ bytesValue s = 0 := by
  constructor
  · rintro ⟨hinside, -, -⟩ ⟨r, s, hframes, hpos, hlt, hzero⟩
    apply hinside
    rw [unpack_frame hframes, if_neg (by omega), if_pos hzero]
  · intro hgood
    have hcases : dsaSigUnpack sig = .error .rejected ∨ (∃ out, dsaSigUnpack sig = .ok out) ∧
        ∃ r s, Frames sig r s ∧ bytesValue r < 2 ^ 256 ∧ bytesValue s < 2 ^ 256 := by
      obtain hreject | ⟨r, s, hframes⟩ := sigLengths_cases sig
      · simp [dsaSigUnpack, hreject]
      · rw [unpack_frame hframes]
        split_ifs with hr hzero hs
        · exact .inl rfl
        · exact (hgood ⟨r, s, hframes, by omega, by omega, hzero⟩).elim
        · exact .inr ⟨⟨_, rfl⟩, r, s, hframes, by omega, hs⟩
        · exact .inl rfl
    refine ⟨?_, ?_, fun hbad => hcases.resolve_right fun h => hbad h.2⟩
    · obtain hreject | ⟨⟨out, hok⟩, -⟩ := hcases
      · simp [hreject]
      · simp [hok]
    · rintro r s hrPos hr hsPos hs rfl
      have hunpack := unpack_frame (frames_der hr hs)
      rw [bytesValue_derInteger, bytesValue_derInteger, if_neg (by omega), if_neg (by omega),
        if_pos hs] at hunpack
      exact ⟨_, _, hunpack, value_word r hr, value_word s hs⟩

theorem zero_s_read_outside :
    dsaSigUnpack [0x30, 6, 0x02, 1, 1, 0x02, 1, 0] = .error .outside := by
  decide

end ShieldTv.Libmincrypt.DsaSig
