import ShieldTv.Libmincrypt.Rsa

/-!
# The multiword operations of `rsa.c` on numbers

What `subM`, `geM` and the conversions between bytes and words compute, as numbers.
-/

namespace ShieldTv.Libmincrypt

open List Nat

/-- The number a little-endian list of words stands for. -/
def value (words : List UInt32) : Nat := Nat.ofDigits (2 ^ 32) (words.map UInt32.toNat)

/-- The number a big-endian list of bytes stands for. -/
def bytesValue (bytes : Bytes) : Nat := Nat.ofDigits (2 ^ 8) (bytes.reverse.map UInt8.toNat)

@[simp] theorem value_nil : value [] = 0 := rfl

@[simp] theorem value_cons (word : UInt32) (words : List UInt32) :
    value (word :: words) = word.toNat + 2 ^ 32 * value words := by
  simp [value, ofDigits_cons]

theorem value_append (xs ys : List UInt32) :
    value (xs ++ ys) = value xs + 2 ^ (32 * xs.length) * value ys := by
  simp only [value, map_append, ofDigits_append, length_map, ← pow_mul]

theorem value_lt (words : List UInt32) : value words < 2 ^ (32 * words.length) := by
  induction words with
  | nil => simp
  | cons word words ih =>
    have hword : word.toNat < 2 ^ 32 := word.toNat_lt
    have hpow : 2 ^ (32 * (word :: words).length) = 2 ^ 32 * 2 ^ (32 * words.length) := by
      rw [length_cons, mul_succ, pow_add, mul_comm]
    rw [value_cons, hpow]
    omega

theorem value_replicate_zero (k : Nat) : value (List.replicate k 0) = 0 := by
  induction k with
  | zero => rfl
  | succ k ih => simp [replicate_succ, ih]

/-! ## Subtraction -/

section

variable (A : Int) (as ns : List UInt32) (h : as.length = ns.length)
include h

theorem length_subLoop : (subLoop A as ns).length = ns.length := by
  induction as generalizing A ns with
  | nil =>
    obtain rfl := length_eq_zero_iff.mp h.symm
    rfl
  | cons a as ih =>
    obtain ⟨n, ns, rfl⟩ := exists_cons_of_length_eq_add_one h.symm
    simp [subLoop, ih _ ns (by simpa using h)]

/-- The loop subtracts, up to the borrow that leaves the last word. -/
theorem value_subLoop : ∃ borrow : Int,
      (value (subLoop A as ns) : Int) + 2 ^ (32 * ns.length) * borrow
        = A + value as - value ns := by
  induction as generalizing A ns with
  | nil =>
    obtain rfl := length_eq_zero_iff.mp h.symm
    exact ⟨A, by simp [subLoop]⟩
  | cons a as ih =>
    obtain ⟨n, ns, rfl⟩ := exists_cons_of_length_eq_add_one h.symm
    generalize hA : A + ((a.toNat : Int) - n.toNat) = A'
    obtain ⟨borrow, hborrow⟩ := ih (A' / 2 ^ 32) ns (by simpa using h)
    refine ⟨borrow, ?_⟩
    have hlow : ((UInt32.ofNat (A' % 2 ^ 32).toNat).toNat : Int) = A' % 2 ^ 32 := by
      rw [UInt32.toNat_ofNat']
      omega
    simp only [subLoop, hA, value_cons, length_cons, mul_succ, pow_add, cast_add, cast_mul, hlow,
      cast_pow, cast_ofNat]
    linear_combination 2 ^ 32 * hborrow + Int.emod_add_mul_ediv A' (2 ^ 32) - hA

end

theorem value_subLoop_eq {as ns : List UInt32} {d : Nat} (h : as.length = ns.length)
    (k : Nat) (hd : d < 2 ^ (32 * ns.length))
    (hk : value as + 2 ^ (32 * ns.length) * k = value ns + d) : value (subLoop 0 as ns) = d := by
  obtain ⟨borrow, hborrow⟩ := value_subLoop 0 as ns h
  have hlt : value (subLoop 0 as ns) < 2 ^ (32 * ns.length) := by
    rw [← length_subLoop 0 as ns h]
    exact value_lt _
  have hmod : value (subLoop 0 as ns) ≡ d [MOD 2 ^ (32 * ns.length)] := by
    apply (modEq_iff_dvd).mpr
    refine ⟨borrow + k, ?_⟩
    push_cast
    have := congrArg (Nat.cast (R := Int)) hk
    linarith
  exact Nat.ModEq.eq_of_lt_of_lt hmod hlt hd

/-! ## Comparison -/

theorem geLoop_iff (as ns : List UInt32) (h : as.length = ns.length) :
    geLoop as ns = true ↔ value ns.reverse ≤ value as.reverse := by
  induction as generalizing ns with
  | nil =>
    obtain rfl := length_eq_zero_iff.mp h.symm
    simp [geLoop]
  | cons a as ih =>
    obtain ⟨n, ns, rfl⟩ := exists_cons_of_length_eq_add_one h.symm
    have hlen : as.length = ns.length := by simpa using h
    have has : value as.reverse < 2 ^ (32 * ns.length) := by
      simpa [hlen] using value_lt as.reverse
    have hns : value ns.reverse < 2 ^ (32 * ns.length) := by
      simpa using value_lt ns.reverse
    simp only [reverse_cons, value_append, length_reverse, value_cons, value_nil,
      mul_zero, add_zero, hlen, geLoop]
    split_ifs with hlt hgt
    · have hlt : a.toNat + 1 ≤ n.toNat := UInt32.lt_iff_toNat_lt.mp hlt
      have hmul := mul_le_mul_left (2 ^ (32 * ns.length)) hlt
      simp only [false_iff, not_le]
      rw [mul_add] at hmul
      omega
    · have hgt : n.toNat + 1 ≤ a.toNat := UInt32.lt_iff_toNat_lt.mp hgt
      have hmul := mul_le_mul_left (2 ^ (32 * ns.length)) hgt
      rw [mul_add] at hmul
      simp only [true_iff]
      omega
    · have heq : a.toNat = n.toNat := by
        rw [UInt32.lt_iff_toNat_lt] at hlt hgt
        omega
      rw [ih ns hlen, heq]
      omega

/-! ## Bytes and words -/

theorem bytesValue_append (xs ys : Bytes) :
    bytesValue (xs ++ ys) = bytesValue ys + 2 ^ (8 * ys.length) * bytesValue xs := by
  simp only [bytesValue, reverse_append, map_append, ofDigits_append,
    length_map, length_reverse, ← pow_mul]

theorem bytesValue_four (b0 b1 b2 b3 : UInt8) : bytesValue [b0, b1, b2, b3]
      = b0.toNat * 2 ^ 24 + b1.toNat * 2 ^ 16 + b2.toNat * 2 ^ 8 + b3.toNat := by
  simp [bytesValue, ofDigits_cons]
  omega

section

variable (k : Nat) (bytes : Bytes) (h : bytes.length = 4 * k)
include h

theorem eq_nil_of_short
    (hshort : ∀ b0 b1 b2 b3 rest, bytes = b0 :: b1 :: b2 :: b3 :: rest → False) : bytes = [] := by
  match bytes, hshort, h with
  | [], _, _ => rfl
  | [_], _, h | [_, _], _, h | [_, _, _], _, h => simp at h; omega
  | b0 :: b1 :: b2 :: b3 :: rest, hshort, _ => exact (hshort b0 b1 b2 b3 rest rfl).elim

theorem length_toWords : (toWords bytes).length = k := by
  fun_induction toWords bytes generalizing k with
  | case1 b0 b1 b2 b3 bytes ih =>
    have hk : bytes.length = 4 * (k - 1) := by
      simp only [length_cons] at h
      omega
    rw [length_append, ih (k - 1) hk, length_singleton]
    simp only [length_cons] at h
    omega
  | case2 bytes hshort =>
    obtain rfl := eq_nil_of_short _ _ h hshort
    simp at h ⊢
    omega

theorem value_toWords : value (toWords bytes) = bytesValue bytes := by
  fun_induction toWords bytes generalizing k with
  | case1 b0 b1 b2 b3 bytes ih =>
    have hk : bytes.length = 4 * (k - 1) := by
      simp only [length_cons] at h
      omega
    have hword : b0.toNat * 2 ^ 24 + b1.toNat * 2 ^ 16 + b2.toNat * 2 ^ 8 + b3.toNat < 2 ^ 32 := by
      have := b0.toNat_lt
      have := b1.toNat_lt
      have := b2.toNat_lt
      have := b3.toNat_lt
      omega
    have hsplit : b0 :: b1 :: b2 :: b3 :: bytes = [b0, b1, b2, b3] ++ bytes := rfl
    have hbits : 8 * (4 * (k - 1)) = 32 * (k - 1) := by omega
    rw [hsplit, bytesValue_append, bytesValue_four, value_append, ih _ hk,
      length_toWords _ _ hk, hk, hbits, value_cons, value_nil, UInt32.toNat_ofNat',
      mod_eq_of_lt hword, mul_zero, add_zero]
  | case2 bytes hshort =>
    obtain rfl := eq_nil_of_short _ _ h hshort
    rfl

end

theorem bytesValue_wordBytes (word : UInt32) : bytesValue (wordBytes word) = word.toNat := by
  have hword : word.toNat < 2 ^ 32 := word.toNat_lt
  rw [wordBytes, bytesValue_four]
  simp only [UInt8.toNat_ofNat']
  omega

theorem length_toBytes (words : List UInt32) : (toBytes words).length = 4 * words.length := by
  have hbytes : ∀ words : List UInt32, (words.flatMap wordBytes).length = 4 * words.length := by
    intro words
    induction words with
    | nil => rfl
    | cons word words ih =>
      rw [flatMap_cons, length_append, ih]
      simp only [wordBytes, length_cons, length_nil]
      omega
  rw [toBytes, hbytes, length_reverse]

theorem bytesValue_toBytes (words : List UInt32) : bytesValue (toBytes words) = value words := by
  induction words with
  | nil => rfl
  | cons word words ih =>
    have hcons : toBytes (word :: words) = toBytes words ++ wordBytes word := by
      simp [toBytes]
    rw [hcons, bytesValue_append, bytesValue_wordBytes, ih, value_cons]
    rfl

theorem bytesValue_injective {xs ys : Bytes} (hlen : xs.length = ys.length)
    (h : bytesValue xs = bytesValue ys) : xs = ys := by
  have hmap : xs.reverse.map UInt8.toNat = ys.reverse.map UInt8.toNat := by
    apply ofDigits_inj_of_len_eq (b := 2 ^ 8) (by omega) (by simpa using hlen) _ _ h
    · intro digit hdigit
      obtain ⟨byte, -, rfl⟩ := mem_map.mp hdigit
      exact byte.toNat_lt
    · intro digit hdigit
      obtain ⟨byte, -, rfl⟩ := mem_map.mp hdigit
      exact byte.toNat_lt
  have hinj : Function.Injective UInt8.toNat := fun _ _ => UInt8.toNat_inj.mp
  exact reverse_injective (map_injective_iff.mpr hinj hmap)

end ShieldTv.Libmincrypt
