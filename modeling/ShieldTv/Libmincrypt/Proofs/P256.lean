import ShieldTv.Libmincrypt.P256
import ShieldTv.Libmincrypt.Proofs.Words

/-!
# Multiplication modulo a curve constant

Each loop is one pass with a carry; what it computes is read off the values of its digits.
-/

namespace ShieldTv.Libmincrypt.P256

open List

/-! ## The carry -/

/-- The number that eight digits and the one above them stand for. -/
def wide (x : List UInt32 × UInt32) : Nat := value x.1 + 2 ^ 256 * x.2.toNat

/-- Sums that leave a carry between `lo` and `hi` are in the range of the carry's type. -/
structure Carries (fit : Int → Int) (lo hi : Int) : Prop where
  nonpos : lo ≤ 0
  nonneg : 0 ≤ hi
  fit_eq : ∀ x, lo * 2 ^ 32 ≤ x → x < (hi + 1) * 2 ^ 32 → fit x = x

theorem carries_ddigit : Carries ddigit 0 (2 ^ 32 - 1) :=
  ⟨by omega, by omega, fun x hlo hhi => Int.emod_eq_of_lt (by omega) (by omega)⟩

theorem carries_sddigit : Carries sddigit (-1) 0 :=
  ⟨by omega, by omega, fun x hlo hhi => Int.bmod_eq_of_le_mul_two (by omega) (by omega)⟩

theorem toNat_ofInt (x : Int) : ((UInt32.ofInt x).toNat : Int) = x % 2 ^ 32 := by
  rw [UInt32.ofInt, UInt32.toNat_ofNat']
  omega

variable {a c MOD : List UInt32}

section

variable {fit : Int → Int} (term : UInt32 → UInt32 → Int) {v lo hi : Int}
  (hfit : Carries fit lo hi) (hlo : lo ≤ v) (hhi : v ≤ hi)
  (hterm : ∀ c a, term c a = c.toNat + v * a.toNat)
include hfit hlo hhi hterm

theorem carryLoop_spec {carry : Int} {cs as : List UInt32} (hlen : cs.length = as.length)
    (hcarry : lo ≤ carry) (hcarry' : carry ≤ hi) :
    (carryLoop fit term carry cs as).1.length = cs.length ∧
      (value (carryLoop fit term carry cs as).1 : Int)
        + 2 ^ (32 * cs.length) * (carryLoop fit term carry cs as).2
        = carry + (value cs + v * value as) := by
  induction cs generalizing carry as with
  | nil =>
    obtain rfl := length_eq_zero_iff.mp hlen.symm
    simp [carryLoop]
  | cons c cs ih =>
    obtain ⟨a, as, rfl⟩ := exists_cons_of_length_eq_add_one hlen.symm
    have hc := c.toNat_lt
    have ha : (a.toNat : Int) ≤ 2 ^ 32 - 1 := Int.le_sub_one_of_lt (by exact_mod_cast a.toNat_lt)
    have hlower : lo * (2 ^ 32 - 1) ≤ v * a.toNat :=
      (mul_le_mul_of_nonpos_left ha hfit.nonpos).trans (mul_le_mul_of_nonneg_right hlo (by omega))
    have hupper : v * a.toNat ≤ hi * (2 ^ 32 - 1) :=
      (mul_le_mul_of_nonneg_right hhi (by omega)).trans (mul_le_mul_of_nonneg_left ha hfit.nonneg)
    have hsum := hfit.fit_eq (carry + (c.toNat + v * a.toNat)) (by omega) (by omega)
    obtain ⟨hlength, hvalue⟩ := ih (by simpa using hlen)
      (show lo ≤ (carry + (c.toNat + v * a.toNat)) / 2 ^ 32 by omega) (by omega)
    simp only [carryLoop, hterm, hsum, value_cons, length_cons, hlength, true_and]
    rw [Nat.cast_add, Nat.cast_mul, toNat_ofInt, Nat.mul_succ, pow_add]
    simp only [Nat.cast_add, Nat.cast_mul, Nat.cast_pow, Nat.cast_ofNat]
    linear_combination 2 ^ 32 * hvalue
      + Int.emod_add_mul_ediv (carry + (c.toNat + v * a.toNat)) (2 ^ 32)

/-- On eight digits the loop leaves the low 256 bits of the sum and carries the rest. -/
theorem carryLoop_eq (hc : c.length = 8) (ha : a.length = 8) :
    (carryLoop fit term 0 c a).1.length = 8 ∧ value (carryLoop fit term 0 c a).1 < 2 ^ 256 ∧
      value (carryLoop fit term 0 c a).1 + 2 ^ 256 * (carryLoop fit term 0 c a).2
        = value c + v * value a := by
  obtain ⟨hlength, hvalue⟩ := carryLoop_spec term hfit hlo hhi hterm (hc.trans ha.symm)
    hfit.nonpos hfit.nonneg
  have hlt := value_lt (carryLoop fit term 0 c a).1
  rw [hc] at hlength hvalue
  rw [hlength] at hlt
  exact ⟨hlength, hlt, hvalue.trans (zero_add _)⟩

theorem accumulate_spec (top : UInt32) (hc : c.length = 8) (ha : a.length = 8) :
    (accumulate fit term top c a).1.length = 8 ∧ (wide (accumulate fit term top c a) : Int)
      = (wide (c, top) + v * value a) % (2 ^ 256 * 2 ^ 32) := by
  obtain ⟨hlength, hlt, hvalue⟩ := carryLoop_eq term hfit hlo hhi hterm hc ha
  refine ⟨hlength, ?_⟩
  have htop := toNat_ofInt (carryLoop fit term 0 c a).2
  simp only [wide, accumulate, UInt32.toNat_add]
  omega

end

/-! ## The operations -/

theorem value_lt_of_length (hc : c.length = 8) : value c < 2 ^ 256 := by
  have hlt := value_lt c
  rwa [hc] at hlt

theorem mulAdd_spec (b : UInt32) (ha : a.length = 8) (hc : c.length = 8) :
    (mulAdd a b 0 c).1.length = 8 ∧ wide (mulAdd a b 0 c) = value c + b.toNat * value a := by
  have hb := b.toNat_lt
  obtain ⟨hlength, hvalue⟩ := accumulate_spec (fun c a => c.toNat + a.toNat * b.toNat)
    carries_ddigit (Int.natCast_nonneg b.toNat) (by omega) (fun c a => by rw [mul_comm]) 0 hc ha
  refine ⟨hlength, ?_⟩
  have hmul : b.toNat * value a ≤ (2 ^ 32 - 1) * (2 ^ 256 - 1) :=
    Nat.mul_le_mul (by omega) (Nat.le_sub_one_of_lt (value_lt_of_length ha))
  have hlt := value_lt_of_length hc
  rw [← Nat.cast_mul] at hvalue
  simp only [wide, mulAdd, UInt32.toNat_zero] at hvalue ⊢
  omega

theorem subTop_spec {topA topC : UInt32} (ha : a.length = 8) (hc : c.length = 8)
    (hle : wide (a, topA) ≤ wide (c, topC)) :
    ∃ r, subTop topA a topC c = some r ∧ r.1.length = 8 ∧
      wide r + wide (a, topA) = wide (c, topC) := by
  obtain ⟨hlength, hlt, hvalue⟩ := carryLoop_eq (fun c a => c.toNat - a.toNat)
    carries_sddigit le_rfl (by omega) (fun c a => by ring) hc ha
  unfold subTop
  generalize carryLoop sddigit (fun c a => c.toNat - a.toNat) 0 c a = r at hlength hlt hvalue
  have hvc := value_lt_of_length hc
  have htc := topC.toNat_lt
  simp only [wide] at hle ⊢
  have hfit : sddigit (r.2 + topC.toNat - topA.toNat) = r.2 + topC.toNat - topA.toNat :=
    Int.bmod_eq_of_le_mul_two (by omega) (by omega)
  have htop := toNat_ofInt (r.2 + topC.toNat - topA.toNat)
  rw [hfit, if_pos (by omega)]
  exact ⟨_, rfl, hlength, by dsimp only; omega⟩

/-- A mask that keeps a digit, or clears it. -/
def IsMask (mask : UInt32) (e : Int) : Prop := mask = 0 ∧ e = 0 ∨ mask = -1 ∧ e = 1

section

variable {mask : UInt32} {e : Int} (h : IsMask mask e) (top : UInt32)
  (hc : c.length = 8) (hMOD : MOD.length = 8)
include h

theorem IsMask.toNat_and (m : UInt32) : ((m &&& mask).toNat : Int) = e * m.toNat := by
  rcases h with ⟨rfl, rfl⟩ | ⟨rfl, rfl⟩ <;> simp

theorem IsMask.bounds : 0 ≤ e ∧ e ≤ 1 := by
  rcases h with ⟨-, rfl⟩ | ⟨-, rfl⟩ <;> simp

include hc hMOD

theorem subM_spec : (subM MOD top c mask).1.length = 8 ∧
    (wide (subM MOD top c mask) : Int) = (wide (c, top) + -e * value MOD) % (2 ^ 256 * 2 ^ 32) :=
  accumulate_spec _ carries_sddigit (by have := h.bounds; omega) (by have := h.bounds; omega)
    (fun c m => by rw [h.toNat_and m]; ring) top hc hMOD

theorem addM_spec : (addM MOD top c mask).1.length = 8 ∧
    (wide (addM MOD top c mask) : Int) = (wide (c, top) + e * value MOD) % (2 ^ 256 * 2 ^ 32) :=
  accumulate_spec _ carries_ddigit h.bounds.1 (by have := h.bounds; omega)
    (fun c m => by rw [h.toNat_and m]) top hc hMOD

end

/-! ## The loops -/

theorem mulLoop_spec (ha : a.length = 8) (bs : List UInt32) (hc : c.length = 8) :
    (mulLoop a bs c).length = bs.length + 8 ∧
      value (mulLoop a bs c) = value c + value a * value bs := by
  induction bs generalizing c with
  | nil => simp [mulLoop, hc]
  | cons b bs ih =>
    obtain ⟨hlength, hvalue⟩ := mulAdd_spec b ha hc
    obtain ⟨digit, rest, hcons⟩ := exists_cons_of_length_eq_add_one hlength
    have hmul : mulLoop a (b :: bs) c
        = digit :: mulLoop a bs (rest ++ [(mulAdd a b 0 c).2]) := by simp [mulLoop, hcons]
    rw [wide, hcons, value_cons] at hvalue
    have hrest : rest.length = 7 := by simpa [hcons] using hlength
    obtain ⟨hlength', hvalue'⟩ := ih (c := rest ++ [(mulAdd a b 0 c).2]) (by simp [hrest])
    rw [hmul, length_cons, hlength', value_cons, hvalue', value_append, hrest, value_cons,
      value_cons, value_nil]
    refine ⟨by simp, ?_⟩
    linear_combination hvalue

/-- What the reduction needs of the modulus: its most significant digit is -1. -/
structure Wide (MOD : List UInt32) : Prop where
  length : MOD.length = 8
  le_value : (2 ^ 32 - 1) * 2 ^ 224 ≤ value MOD

theorem wide_of_curve (h : MOD = secp256r1N ∨ MOD = secp256r1P) : Wide MOD := by
  rcases h with rfl | rfl
  · exact ⟨rfl, by decide +kernel⟩
  · exact ⟨rfl, by decide +kernel⟩

section

variable (hMOD : Wide MOD)
include hMOD

theorem reduceDigit_spec (top : UInt32) (hc : c.length = 8) :
    ∃ digits, reduceDigit MOD top c = some digits ∧ digits.length = 8 ∧
      value digits ≡ wide (c, top) [MOD value MOD] := by
  obtain ⟨hlength, hreducer⟩ := mulAdd_spec top hMOD.length (c := replicate 8 0) (by simp)
  rw [value_replicate_zero, zero_add] at hreducer
  unfold reduceDigit
  generalize mulAdd MOD top 0 (replicate 8 0) = r at hlength hreducer
  have hle := hMOD.le_value
  have hlt := value_lt_of_length hMOD.length
  have hlow := value_lt_of_length hc
  have htop := top.toNat_lt
  -- `top * MOD` misses `top * 2 ^ 256` by at most the modulus
  have hupper : top.toNat * value MOD ≤ top.toNat * 2 ^ 256 := Nat.mul_le_mul_left _ hlt.le
  have hmiss : top.toNat * 2 ^ 256 ≤ top.toNat * value MOD + value MOD := calc
    top.toNat * 2 ^ 256 = top.toNat * ((2 ^ 32 - 1) * 2 ^ 224) + top.toNat * 2 ^ 224 := by
      rw [← Nat.mul_add]
      norm_num
    _ ≤ top.toNat * value MOD + (2 ^ 32 - 1) * 2 ^ 224 :=
      Nat.add_le_add (Nat.mul_le_mul_left _ hle) (Nat.mul_le_mul_right _ (by omega))
    _ ≤ top.toNat * value MOD + value MOD := Nat.add_le_add_left hle _
  have hfits : wide r ≤ wide (c, top) :=
    hreducer.trans_le (show _ ≤ value c + 2 ^ 256 * top.toNat by omega)
  obtain ⟨s, hsub, hs, hvalue⟩ := subTop_spec hlength hc hfits
  rw [hreducer] at hvalue
  have hs' := value_lt_of_length hs
  simp only [wide] at hvalue ⊢
  have hbit : s.2.toNat = 0 ∨ s.2.toNat = 1 := by omega
  have htop' : s.2 = 0 ∨ s.2 = 1 := hbit.imp UInt32.toNat_inj.mp UInt32.toNat_inj.mp
  have hmask : IsMask (~~~(s.2 - 1)) s.2.toNat ∧ s.2 ≤ 1 := by
    rcases htop' with h | h <;> rw [h]
    · exact ⟨.inl ⟨rfl, rfl⟩, by decide⟩
    · exact ⟨.inr ⟨rfl, rfl⟩, by decide⟩
  obtain ⟨hdigits, hvalue'⟩ := subM_spec hmask.1 s.2 hs hMOD.length
  simp only [wide] at hvalue'
  have hzero : (subM MOD s.2 s.1 (~~~(s.2 - 1))).2.toNat = 0 ∧
      (value (subM MOD s.2 s.1 (~~~(s.2 - 1))).1 : Int)
        = value s.1 + 2 ^ 256 * s.2.toNat - s.2.toNat * value MOD := by
    rcases hbit with h | h <;> rw [h] at hvalue hvalue' ⊢ <;> omega
  refine ⟨_, by simp [hsub, hmask.2, ← UInt32.toNat_inj, hzero.1], hdigits, ?_⟩
  apply Nat.modEq_iff_dvd.mpr
  refine ⟨top.toNat + s.2.toNat, ?_⟩
  rw [← hvalue, hzero.2]
  push_cast
  ring

/-- The last subtraction, undone when it borrows. -/
theorem addM_subM_spec (hc : c.length = 8) :
    (addM MOD 0 (subM MOD 0 c (-1)).1 (subM MOD 0 c (-1)).2).1.length = 8 ∧
      value (addM MOD 0 (subM MOD 0 c (-1)).1 (subM MOD 0 c (-1)).2).1 = value c % value MOD := by
  obtain ⟨hlength, hvalue⟩ := subM_spec (.inr ⟨rfl, rfl⟩) 0 hc hMOD.length
  generalize subM MOD 0 c (-1) = r at hlength hvalue
  have hle := hMOD.le_value
  have hlt := value_lt_of_length hMOD.length
  have hlow := value_lt_of_length hc
  have hlow' := value_lt_of_length hlength
  simp only [wide, UInt32.toNat_zero] at hvalue
  by_cases hless : value c < value MOD
  · have hborrow : r.2 = -1 := UInt32.toNat_inj.mp (show r.2.toNat = 2 ^ 32 - 1 by omega)
    obtain ⟨hlength', hvalue'⟩ := addM_spec (.inr ⟨hborrow, rfl⟩) 0 hlength hMOD.length
    refine ⟨hlength', ?_⟩
    have := value_lt_of_length hlength'
    simp only [wide, UInt32.toNat_zero] at hvalue'
    rw [Nat.mod_eq_of_lt hless]
    omega
  · have hborrow : r.2 = 0 := UInt32.toNat_inj.mp (show r.2.toNat = 0 by omega)
    obtain ⟨hlength', hvalue'⟩ := addM_spec (.inl ⟨hborrow, rfl⟩) 0 hlength hMOD.length
    refine ⟨hlength', ?_⟩
    have := value_lt_of_length hlength'
    simp only [wide, UInt32.toNat_zero] at hvalue'
    rw [Nat.mod_eq_sub_mod (not_lt.mp hless), Nat.mod_eq_of_lt (by omega)]
    omega

theorem reduceLoop_spec {high : List UInt32} (hhigh : high.length = 8) (tmp : List UInt32) :
    ∃ digits, reduceLoop MOD high tmp = some digits ∧ digits.length = 8 ∧
      value digits ≡ value (tmp ++ high) [MOD value MOD] := by
  induction tmp with
  | nil => exact ⟨high, rfl, hhigh, rfl⟩
  | cons digit tmp ih =>
    obtain ⟨above, hloop, habove, hmod⟩ := ih
    obtain rfl | ⟨below, top, rfl⟩ := eq_nil_or_concat' above
    · simp at habove
    have hbelow : (digit :: below).length = 8 := by simpa using habove
    obtain ⟨digits, hreduce, hdigits, hmod'⟩ := reduceDigit_spec hMOD top hbelow
    refine ⟨digits, by simp [reduceLoop, hloop, hreduce], hdigits, hmod'.trans ?_⟩
    have hvalue : wide (digit :: below, top)
        = digit.toNat + 2 ^ 32 * value (below ++ [top]) := by
      have hlength : below.length = 7 := by simpa using habove
      rw [wide, value_append, hlength, value_cons, value_cons, value_nil]
      ring
    rw [hvalue, cons_append, value_cons]
    exact (hmod.mul_left _).add_left _

end

theorem p256Modmul_spec {ι : Type} [DecidableEq ι] (h : MOD = secp256r1N ∨ MOD = secp256r1P)
    {mem : ι → List UInt32} {a b : ι} (ha : (mem a).length = 8) (hb : (mem b).length = 8)
    (topB : UInt32) (c : ι) :
    ∃ out, p256Modmul MOD mem a topB b c = some (Function.update mem c out) ∧ out.length = 8 ∧
      value out < value MOD ∧
      value out = value (mem a) * (topB.toNat * 2 ^ 256 + value (mem b)) % value MOD := by
  have hMOD := wide_of_curve h
  have hpos : 0 < value MOD := lt_of_lt_of_le (by decide) hMOD.le_value
  obtain ⟨hlength, hproduct⟩ := mulLoop_spec ha (mem b ++ [topB]) (length_replicate (n := 8))
  unfold p256Modmul
  generalize mulLoop (mem a) (mem b ++ [topB]) (replicate 8 0) = tmp at hlength hproduct
  have hhigh : (tmp.drop 9).length = 8 := by simp [hlength, hb]
  obtain ⟨digits, hreduce, hdigits, hmod⟩ := reduceLoop_spec hMOD hhigh (tmp.take 9)
  obtain ⟨hout, hvalue⟩ := addM_subM_spec hMOD hdigits
  refine ⟨_, by simp only [hreduce]; rfl, hout, ?_, ?_⟩
  · rw [hvalue]
    exact Nat.mod_lt _ hpos
  · rw [take_append_drop, hproduct, value_replicate_zero, value_append, hb] at hmod
    rw [hvalue, hmod]
    simp [add_comm, mul_comm]

theorem p256Modmul_order_in_place :
    ∃ out, p256Modmul secp256r1N (fun _ : Unit => secp256r1P) () 1 () ()
        = some (Function.update (fun _ => secp256r1P) () out) ∧ out.length = 8 ∧
      value out < value secp256r1N ∧ value out = value secp256r1P
        * ((1 : UInt32).toNat * 2 ^ 256 + value secp256r1P) % value secp256r1N :=
  p256Modmul_spec (.inl rfl) rfl rfl 1 ()

end ShieldTv.Libmincrypt.P256
