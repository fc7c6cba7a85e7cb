import ShieldTv.Lib.Montgomery
import ShieldTv.Libmincrypt.Proofs.Words

/-!
# `modpow` computes the power

Words are multiplied without reducing the operands: every product stays below
`2 ^ 2048`, and is congruent to `a * b / 2 ^ 2048` modulo the key's modulus.
-/

namespace ShieldTv.Libmincrypt

open Lib.Montgomery List

/-! ## The inner loop -/

theorem carry_add_mul_lt {x y z : Nat} (sum : Nat) (hsum : sum < 2 ^ 64) (hx : x < 2 ^ 32)
    (hy : y < 2 ^ 32) (hz : z < 2 ^ 32) : sum / 2 ^ 32 + x * y + z < 2 ^ 64 := by
  have hxy : x * y ≤ (2 ^ 32 - 1) * (2 ^ 32 - 1) := Nat.mul_le_mul (by omega) (by omega)
  omega

theorem montLoop_spec (a d0 : UInt32) (A B : Nat) (bs ns cs : List UInt32)
    (hA : A < 2 ^ 64) (hB : B < 2 ^ 64) (hbs : bs.length = ns.length)
    (hcs : cs.length = ns.length) :
    (montLoop a d0 A B bs ns cs).1.length = ns.length ∧
      (montLoop a d0 A B bs ns cs).2.1 < 2 ^ 64 ∧ (montLoop a d0 A B bs ns cs).2.2 < 2 ^ 64 ∧
      value (montLoop a d0 A B bs ns cs).1 + 2 ^ (32 * ns.length) *
          ((montLoop a d0 A B bs ns cs).2.1 / 2 ^ 32 + (montLoop a d0 A B bs ns cs).2.2 / 2 ^ 32)
        = A / 2 ^ 32 + B / 2 ^ 32 + a.toNat * value bs + d0.toNat * value ns + value cs := by
  induction ns generalizing A B bs cs with
  | nil =>
    obtain rfl := length_eq_zero_iff.mp hbs
    obtain rfl := length_eq_zero_iff.mp hcs
    refine ⟨rfl, hA, hB, ?_⟩
    simp [montLoop]
  | cons n ns ih =>
    obtain ⟨b, bs, rfl⟩ := exists_cons_of_length_eq_add_one hbs
    obtain ⟨c, cs, rfl⟩ := exists_cons_of_length_eq_add_one hcs
    have ha : a.toNat < 2 ^ 32 := a.toNat_lt
    have hd0 : d0.toNat < 2 ^ 32 := d0.toNat_lt
    have hb : b.toNat < 2 ^ 32 := b.toNat_lt
    have hn : n.toNat < 2 ^ 32 := n.toNat_lt
    have hc : c.toNat < 2 ^ 32 := c.toNat_lt
    have hA' := carry_add_mul_lt A hA ha hb hc
    generalize hAsum : A / 2 ^ 32 + a.toNat * b.toNat + c.toNat = A' at hA'
    have hlow : A' % 2 ^ 32 < 2 ^ 32 := Nat.mod_lt _ (by omega)
    have hB' := carry_add_mul_lt B hB hd0 hn hlow
    generalize hBsum : B / 2 ^ 32 + d0.toNat * n.toNat + A' % 2 ^ 32 = B' at hB'
    obtain ⟨hlen, hA'', hB'', hvalue⟩ :=
      ih A' B' bs cs hA' hB' (by simpa using hbs) (by simpa using hcs)
    have hstep : montLoop a d0 A B (b :: bs) (n :: ns) (c :: cs)
        = (UInt32.ofNat B' :: (montLoop a d0 A' B' bs ns cs).1,
            (montLoop a d0 A' B' bs ns cs).2) := by
      simp only [montLoop, hAsum, Nat.mod_eq_of_lt hA', hBsum, Nat.mod_eq_of_lt hB']
    rw [hstep]
    refine ⟨by simp [hlen], hA'', hB'', ?_⟩
    have hpow : 2 ^ (32 * (n :: ns).length) = 2 ^ 32 * 2 ^ (32 * ns.length) := by
      rw [length_cons, Nat.mul_succ, pow_add, mul_comm]
    simp only [value_cons, UInt32.toNat_ofNat', hpow, mul_add, Nat.mul_left_comm _ (2 ^ 32),
      Nat.mul_assoc]
    rw [mul_add] at hvalue
    omega

/-! ## A word times a number -/

/-- The numbers the code computes with have as many words as the key. -/
def bound : Nat := 2 ^ (32 * rsaNumWords)

-- the exponents stay variables, so that no power is evaluated
theorem bound_eq {bits : Nat} (h : 32 * rsaNumWords = bits + 1) : bound = 2 * 2 ^ bits := by
  rw [bound, h, Nat.pow_succ']

variable {words a x : List UInt32}

theorem value_lt_bound (h : words.length = rsaNumWords) : value words < bound := by
  rw [bound, ← h]
  exact value_lt words

/-- `n0inv` cancels the lowest word. -/
theorem low_word_cancels {n0 n0inv : UInt32} (h : n0 * n0inv = -1) (A : Nat) :
    ((UInt32.ofNat A * n0inv).toNat * n0.toNat + A % 2 ^ 32) % 2 ^ 32 = 0 := by
  have hword : UInt32.ofNat A * n0inv * n0 + UInt32.ofNat A = 0 := by
    calc UInt32.ofNat A * n0inv * n0 + UInt32.ofNat A
        = UInt32.ofNat A * (n0 * n0inv) + UInt32.ofNat A := by
          rw [UInt32.mul_assoc, UInt32.mul_comm n0inv n0]
      _ = 0 := by rw [h, UInt32.mul_neg, UInt32.mul_one, UInt32.add_left_neg]
  have hnat := congrArg UInt32.toNat hword
  rw [UInt32.toNat_add, UInt32.toNat_mul, UInt32.toNat_ofNat', Nat.mod_add_mod] at hnat
  exact hnat

section

variable (key : RSAPublicKey) (hinv : key.n.headD 0 * key.n0inv = -1) {b c : List UInt32}
  (hc : c.length = rsaNumWords) (hb : b.length = rsaNumWords)
include hinv hc hb

theorem montMulAdd_quotient (a : UInt32) :
    ∃ (words : List UInt32) (carry d : Nat), words.length = rsaNumWords ∧ carry < 2 ∧
      d < 2 ^ 32 ∧
      2 ^ 32 * (value words + bound * carry) = value c + a.toNat * value b + d * value key.n ∧
      montMulAdd key c a b = if carry ≠ 0 then subM key words else words := by
  have hn := key.n_length
  obtain ⟨b0, bs, rfl⟩ := exists_cons_of_length_eq_add_one hb
  obtain ⟨c0, cs, rfl⟩ := exists_cons_of_length_eq_add_one hc
  obtain ⟨n0, ns, hkey⟩ := exists_cons_of_length_eq_add_one hn
  have ha : a.toNat < 2 ^ 32 := a.toNat_lt
  have hA := carry_add_mul_lt 0 (by omega) ha b0.toNat_lt c0.toNat_lt
  rw [Nat.zero_div, zero_add] at hA
  generalize hAsum : a.toNat * b0.toNat + c0.toNat = A at hA
  have hlow := low_word_cancels (A := A) (by simpa [hkey] using hinv)
  generalize hd0 : UInt32.ofNat A * key.n0inv = d0 at hlow
  have hB := carry_add_mul_lt 0 (by omega) d0.toNat_lt n0.toNat_lt
    (Nat.mod_lt A (by omega : 2 ^ 32 > 0))
  rw [Nat.zero_div, zero_add] at hB
  generalize hBsum : d0.toNat * n0.toNat + A % 2 ^ 32 = B at hB hlow
  rw [hkey] at hn
  have hbs : bs.length = ns.length := Nat.succ.inj (hb.trans hn.symm)
  have hcs : cs.length = ns.length := Nat.succ.inj (hc.trans hn.symm)
  obtain ⟨hlen, hA', hB', hvalue⟩ := montLoop_spec a d0 A B bs ns cs hA hB hbs hcs
  have hmont : montMulAdd key (c0 :: cs) a (b0 :: bs) =
      montFinish key (montLoop a d0 A B bs ns cs).1 (montLoop a d0 A B bs ns cs).2.1
        (montLoop a d0 A B bs ns cs).2.2 := by
    simp only [montMulAdd, hkey, hAsum, Nat.mod_eq_of_lt hA, hd0, hBsum, Nat.mod_eq_of_lt hB]
  generalize montLoop a d0 A B bs ns cs = loop at hlen hA' hB' hvalue hmont
  obtain ⟨stored, A', B'⟩ := loop
  dsimp only at hlen hA' hB' hvalue hmont
  have hlast : (A' / 2 ^ 32 + B' / 2 ^ 32) % 2 ^ 64 = A' / 2 ^ 32 + B' / 2 ^ 32 := by omega
  refine ⟨stored ++ [UInt32.ofNat (A' / 2 ^ 32 + B' / 2 ^ 32)],
    (A' / 2 ^ 32 + B' / 2 ^ 32) / 2 ^ 32, d0.toNat, ?_, by omega, d0.toNat_lt, ?_, ?_⟩
  · rw [length_append, hlen, ← hn]
    rfl
  · have hbound : bound = 2 ^ 32 * 2 ^ (32 * ns.length) := by
      rw [bound, ← hn, length_cons, Nat.mul_succ, pow_add, mul_comm]
    rw [value_append, hlen, hbound, hkey]
    simp only [value_cons, value_nil, UInt32.toNat_ofNat', mul_zero, add_zero]
    generalize A' / 2 ^ 32 + B' / 2 ^ 32 = last at hvalue
    have hsplit : 2 ^ (32 * ns.length) * (last % 2 ^ 32) +
        2 ^ 32 * 2 ^ (32 * ns.length) * (last / 2 ^ 32) = 2 ^ (32 * ns.length) * last := by
      rw [mul_comm (2 ^ 32), Nat.mul_assoc, ← mul_add, Nat.mod_add_div]
    rw [add_assoc (value stored), hsplit, hvalue, mul_add a.toNat, mul_add d0.toNat,
      Nat.mul_left_comm a.toNat, Nat.mul_left_comm d0.toNat]
    omega
  · rw [hmont, montFinish, hlast]

/-- One word of the multiplier: the result is again below the bound, whatever was added. -/
theorem montMulAdd_spec (a : UInt32) :
    (montMulAdd key c a b).length = rsaNumWords ∧
      value (montMulAdd key c a b) * 2 ^ 32 ≡ value c + a.toNat * value b [MOD value key.n] := by
  obtain ⟨words, carry, d, hwords, hcarry, hd, hV, hmont⟩ :=
    montMulAdd_quotient key hinv hc hb a
  have hmod := quotient_modEq hV
  have hlt := quotient_lt (value_lt_bound hc) a.toNat_lt (value_lt_bound hb) hd hV
  have hlength : words.length = key.n.length := hwords.trans key.n_length.symm
  rw [hmont]
  split_ifs with h
  · obtain rfl : carry = 1 := by omega
    -- the carry stands for `bound`, which is more than the modulus
    have hn := value_lt_bound key.n_length
    have hsub : value (subM key words) = value words + bound * 1 - value key.n := by
      apply value_subLoop_eq hlength 1
      · rw [key.n_length, ← bound]
        omega
      · rw [key.n_length, ← bound]
        omega
    refine ⟨(length_subLoop 0 words key.n hlength).trans key.n_length, ?_⟩
    calc value (subM key words) * 2 ^ 32
        ≡ (value (subM key words) + value key.n) * 2 ^ 32 [MOD value key.n] := by
          apply Nat.ModEq.mul_right
          simp [Nat.ModEq]
      _ = (value words + bound * 1) * 2 ^ 32 := by
          rw [hsub, Nat.sub_add_cancel (by omega)]
      _ ≡ value c + a.toNat * value b [MOD value key.n] := hmod
  · obtain rfl : carry = 0 := by omega
    exact ⟨hwords, by simpa using hmod⟩

/-! ## Products -/

theorem montMul_foldl (xs done : List UInt32)
    (hdone : value c * (2 ^ 32) ^ done.length ≡ value done * value b [MOD value key.n]) :
    (xs.foldl (fun c word => montMulAdd key c word b) c).length = rsaNumWords ∧
      value (xs.foldl (fun c word => montMulAdd key c word b) c) * (2 ^ 32) ^ (done ++ xs).length
        ≡ value (done ++ xs) * value b [MOD value key.n] := by
  induction xs generalizing done c with
  | nil =>
    rw [append_nil]
    exact ⟨hc, hdone⟩
  | cons x xs ih =>
    obtain ⟨hlength, hstep⟩ := montMulAdd_spec key hinv hc hb x
    have hnext := product_succ hdone hstep
    have hsplit : done ++ x :: xs = done ++ [x] ++ xs := by simp
    rw [hsplit, foldl_cons]
    apply ih hlength (done ++ [x])
    rw [length_append, length_singleton, value_append]
    simpa [pow_mul] using hnext

omit hc in
theorem montMul_spec (ha : a.length = rsaNumWords) :
    (montMul key a b).length = rsaNumWords ∧
      value (montMul key a b) * bound ≡ value a * value b [MOD value key.n] := by
  have h := montMul_foldl key hinv (length_replicate (a := (0 : UInt32))) hb a []
    (by simp [value_replicate_zero, Nat.ModEq])
  simpa [montMul, ha, bound, pow_mul] using h

end

/-! ## The power -/

/-- The keys the code is meant for. -/
structure WellFormed (key : RSAPublicKey) : Prop where
  len : key.len = rsaNumWords
  odd : value key.n % 2 = 1
  top : 2 ^ 2047 ≤ value key.n
  n0inv : key.n.headD 0 * key.n0inv = -1
  rr : value key.rr = 2 ^ 4096 % value key.n
  exponent : key.exponent = 3 ∨ key.exponent = 65537

namespace WellFormed

variable {key : RSAPublicKey} (hkey : WellFormed key)
include hkey

theorem coprime : Nat.Coprime (value key.n) bound := by
  apply Nat.Coprime.pow_right
  exact Nat.coprime_two_right.mpr (Nat.odd_iff.mpr hkey.odd)

/-- A word list in Montgomery form. -/
def Form (key : RSAPublicKey) (x : List UInt32) (y : Nat) : Prop :=
  x.length = rsaNumWords ∧ Represents bound (value key.n) (value x) y

theorem form_mul_rr (ha : a.length = rsaNumWords) : Form key (montMul key a key.rr) (value a) := by
  obtain ⟨hlength, hmul⟩ := montMul_spec key hkey.n0inv key.rr_length ha
  refine ⟨hlength, represents_of_modEq hkey.coprime (hmul.trans ?_)⟩
  have hbits : 32 * rsaNumWords + 32 * rsaNumWords = 4096 := rfl
  rw [hkey.rr, bound, ← pow_add, hbits]
  exact (Nat.mod_modEq _ _).mul_left _

theorem form_mul {y : List UInt32} {a b : Nat} (hx : Form key x a) (hy : Form key y b) :
    Form key (montMul key x y) (a * b) := by
  obtain ⟨hlength, hmul⟩ := montMul_spec key hkey.n0inv hy.1 hx.1
  exact ⟨hlength, represents_mul hkey.coprime hx.2 hy.2 hmul⟩

theorem form_squareTwice {a : Nat} (hx : Form key x a) : Form key (squareTwice key x) (a ^ 4) := by
  have hsquare := hkey.form_mul hx hx
  have hfourth := hkey.form_mul hsquare hsquare
  rwa [show a * a * (a * a) = a ^ 4 by ring] at hfourth

theorem form_iterate {a : Nat} (hx : Form key x a) (k : Nat) :
    Form key ((squareTwice key)^[k] x) (a ^ 4 ^ k) := by
  induction k with
  | zero => simpa using hx
  | succ k ih =>
    rw [Function.iterate_succ_apply', Nat.pow_succ, pow_mul]
    exact hkey.form_squareTwice ih

theorem montMul_leaves {y : Nat} (hx : Form key x y) (ha : a.length = rsaNumWords) :
    (montMul key x a).length = rsaNumWords ∧
      value (montMul key x a) ≡ y * value a [MOD value key.n] := by
  obtain ⟨hlength, hmul⟩ := montMul_spec key hkey.n0inv ha hx.1
  exact ⟨hlength, modEq_of_represents hkey.coprime hx.2 hmul⟩

theorem modpowWords_spec (ha : a.length = rsaNumWords) : (modpowWords key a).length = rsaNumWords ∧
      value (modpowWords key a) ≡ value a ^ key.exponent [MOD value key.n] := by
  have hform := hkey.form_mul_rr ha
  rw [modpowWords]
  split_ifs with h
  · have h16 := hkey.montMul_leaves (hkey.form_iterate hform 8) ha
    rwa [← pow_succ, show 4 ^ 8 + 1 = key.exponent from h.symm] at h16
  · have h3 : key.exponent = 3 := hkey.exponent.resolve_right h
    have hcube := hkey.montMul_leaves (hkey.form_mul hform hform) ha
    rwa [← pow_two, ← pow_succ, show 2 + 1 = key.exponent from h3.symm] at hcube

/-- One subtraction is enough, since the modulus has its top bit set. -/
theorem value_reduced (h : words.length = rsaNumWords) :
    value (if geM key words then subM key words else words) = value words % value key.n := by
  have hlength : words.length = key.n.length := h.trans key.n_length.symm
  have hlt := value_lt_bound h
  have htop : bound ≤ 2 * value key.n := by
    calc bound = 2 * 2 ^ 2047 := bound_eq rfl
      _ ≤ 2 * value key.n := Nat.mul_le_mul_left 2 hkey.top
  have hge : geM key words = true ↔ value key.n ≤ value words := by
    rw [geM, geLoop_iff _ _ (by simpa using hlength), reverse_reverse, reverse_reverse]
  split_ifs with hle
  · have hle := hge.mp hle
    rw [Nat.mod_eq_sub_mod hle, Nat.mod_eq_of_lt (by omega)]
    apply value_subLoop_eq hlength 0
    · rw [key.n_length, ← bound]
      omega
    · omega
  · exact (Nat.mod_eq_of_lt (by simpa [hge] using hle)).symm

omit hkey in
theorem length_reduced (h : words.length = rsaNumWords) :
    (if geM key words then subM key words else words).length = rsaNumWords := by
  split_ifs with hle
  · exact (length_subLoop 0 words key.n (h.trans key.n_length.symm)).trans key.n_length
  · exact h

theorem modpow_spec {inout : Bytes} (h : inout.length = rsaNumBytes) :
    (modpow key inout).length = rsaNumBytes ∧
      bytesValue (modpow key inout) = bytesValue inout ^ key.exponent % value key.n := by
  have hwords := length_toWords rsaNumWords inout h
  obtain ⟨hlength, hpow⟩ := hkey.modpowWords_spec hwords
  constructor
  · rw [modpow, length_toBytes, length_reduced hlength]
    rfl
  · rw [modpow, bytesValue_toBytes, hkey.value_reduced hlength, hpow,
      value_toWords rsaNumWords inout h]

end WellFormed

end ShieldTv.Libmincrypt
