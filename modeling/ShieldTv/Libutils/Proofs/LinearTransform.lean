import ShieldTv.Libutils.LinearTransform

/-!
# What a linear transform returns

The scaled difference is exact. Results that fit are refused in two cases, where the scaled
difference has 64 bits: the least result, and any result if the base is the least one.
-/

namespace ShieldTv.Libutils.LinearTransform

/-! ## The division in two steps -/

variable {D scaled w : Nat} {isNeg : Bool} {b q val basis1 N num : Int}

/-- The quotient of a product in two words: of the upper one, and of its remainder and the lower
one. -/
theorem div_two_steps (hi lo : Nat) (hD : 0 < D) :
    (hi * 2 ^ 32 + lo) / D = hi / D * 2 ^ 32 + (hi % D * 2 ^ 32 + lo) / D ∧
      (hi * 2 ^ 32 + lo) % D = (hi % D * 2 ^ 32 + lo) % D := by
  have hsplit : hi * 2 ^ 32 + lo = (hi % D * 2 ^ 32 + lo) + D * (hi / D * 2 ^ 32) := by
    conv_lhs => rw [← Nat.div_add_mod hi D]
    ring
  rw [hsplit, Nat.add_mul_div_left _ _ hD, Nat.add_mul_mod_self_left]
  exact ⟨add_comm _ _, rfl⟩

theorem shiftLeft_or {a b : Nat} (ha : a < 2 ^ 32) : b <<< 32 ||| a = b * 2 ^ 32 + a := by
  rw [← Nat.shiftLeft_add_eq_or_of_lt ha, Nat.shiftLeft_eq]

theorem and_uint32Max (n : Nat) : n &&& uint32Max = n % 2 ^ 32 :=
  Nat.and_two_pow_sub_one_eq_mod n 32

theorem product_words {val N : Nat} (hval : val < 2 ^ 64) (hN : N < 2 ^ 32) :
    (val &&& uint32Max) * N % 2 ^ 64 &&& uint32Max = val * N % 2 ^ 32 ∧
      ((val >>> 32) * N % 2 ^ 64 + ((val &&& uint32Max) * N % 2 ^ 64) >>> 32) % 2 ^ 64 =
        val * N / 2 ^ 32 := by
  have hlow : val % 2 ^ 32 * N < 2 ^ 64 := calc
    val % 2 ^ 32 * N < 2 ^ 32 * 2 ^ 32 :=
      Nat.mul_lt_mul'' (Nat.mod_lt _ (by decide)) hN
    _ = 2 ^ 64 := by norm_num
  have hhigh : val / 2 ^ 32 * N < 2 ^ 64 := calc
    val / 2 ^ 32 * N < 2 ^ 32 * 2 ^ 32 :=
      Nat.mul_lt_mul'' (Nat.div_lt_of_lt_mul (by omega)) hN
    _ = 2 ^ 64 := by norm_num
  have hproduct : val * N = val % 2 ^ 32 * N + 2 ^ 32 * (val / 2 ^ 32 * N) := by
    conv_lhs => rw [← Nat.div_add_mod val (2 ^ 32)]
    ring
  have hsum : val * N / 2 ^ 32 < 2 ^ 64 := by
    apply Nat.div_lt_of_lt_mul
    calc val * N < 2 ^ 64 * 2 ^ 32 := Nat.mul_lt_mul'' hval hN
      _ = 2 ^ 32 * 2 ^ 64 := mul_comm _ _
  rw [and_uint32Max, and_uint32Max, Nat.shiftRight_eq_div_pow, Nat.shiftRight_eq_div_pow,
    Nat.mod_eq_of_lt hlow, Nat.mod_eq_of_lt hhigh]
  rw [hproduct, Nat.add_mul_div_left _ _ (by decide)] at hsum
  rw [hproduct, Nat.add_mul_mod_self_left, Nat.add_mul_div_left _ _ (by decide), add_comm]
  exact ⟨rfl, Nat.mod_eq_of_lt hsum⟩

def quotient (m D : Nat) (roundUpNotDown : Bool) : Nat :=
  if m % D ≠ 0 ∧ roundUpNotDown then m / D + 1 else m / D

theorem scaleU64ToU64_eq {val N : Nat} (hval : val < 2 ^ 64) (hN : N < 2 ^ 32) (hD : 0 < D)
    (roundUpNotDown : Bool) :
    scaleU64ToU64 val N D roundUpNotDown = if quotient (val * N) D roundUpNotDown < 2 ^ 64 then
        some (quotient (val * N) D roundUpNotDown)
      else
        none := by
  obtain ⟨hlo, hhi⟩ := product_words hval hN
  unfold scaleU64ToU64 quotient
  dsimp only
  rw [hlo, hhi]
  generalize val * N = m
  obtain ⟨hquot, hrem⟩ := div_two_steps (m / 2 ^ 32) (m % 2 ^ 32) hD
  rw [Nat.div_add_mod'] at hquot hrem
  have htop : (m / 2 ^ 32) >>> 32 = m / 2 ^ 64 := by
    rw [Nat.shiftRight_eq_div_pow, Nat.div_div_eq_div_mul, ← pow_add]
  rw [htop]
  by_cases hover : D ≤ m / 2 ^ 64
  · have hbig : 2 ^ 64 ≤ m / D := by
      rw [Nat.le_div_iff_mul_le (by decide)] at hover
      rwa [Nat.le_div_iff_mul_le hD, mul_comm]
    rw [if_pos hover, if_neg]
    split_ifs <;> omega
  · have hsmall : m / D < 2 ^ 64 := by
      rw [Nat.not_le, Nat.div_lt_iff_lt_mul (by decide)] at hover
      rwa [Nat.div_lt_iff_lt_mul hD, mul_comm]
    have hsecond : (m / 2 ^ 32 % D * 2 ^ 32 + m % 2 ^ 32) / D < 2 ^ 32 := by
      have hmod := Nat.mod_lt (m / 2 ^ 32) hD
      have hlow := Nat.mod_lt m (show 2 ^ 32 > 0 by decide)
      rw [Nat.div_lt_iff_lt_mul hD, mul_comm]
      nlinarith
    rw [if_neg hover, Nat.or_comm, shiftLeft_or (Nat.mod_lt m (by decide)),
      shiftLeft_or hsecond, ← hquot, ← hrem]
    by_cases hround : m % D ≠ 0 ∧ roundUpNotDown = true
    · simp only [if_pos hround]
      by_cases hlast : m / D + 1 < 2 ^ 64
      · rw [Nat.mod_eq_of_lt hlast, if_neg (Nat.succ_ne_zero _), if_pos hlast]
      · rw [show m / D + 1 = 2 ^ 64 by omega, if_pos (Nat.mod_self _), if_neg (by omega)]
    · rw [if_neg hround, if_neg hround, if_pos hsmall]

/-- Rounding away from zero below zero, and towards it above, is rounding down. -/
theorem quotient_eq_ediv (m : Nat) (hD : 0 < D) (isNeg : Bool) :
    (if isNeg then -(quotient m D isNeg : Int) else quotient m D isNeg) =
      (if isNeg then -(m : Int) else m) / D := by
  cases isNeg with
  | false =>
    simp only [quotient, Bool.false_eq_true, and_false, if_false]
    exact Int.natCast_ediv m D
  | true =>
    have hsign : Int.sign D = 1 := Int.sign_eq_one_of_pos (by exact_mod_cast hD)
    simp only [quotient, and_true, if_true, Int.neg_ediv, Int.natCast_dvd_natCast, hsign]
    by_cases hdvd : D ∣ m
    · rw [if_pos hdvd, if_neg (not_not_intro (Nat.mod_eq_zero_of_dvd hdvd))]
      push_cast
      ring
    · rw [if_neg hdvd, if_pos (fun h => hdvd (Nat.dvd_of_mod_eq_zero h))]
      push_cast
      ring

/-! ## The sum of two words -/

theorem testBit_sign (hw : w < 2 ^ 64) : w.testBit 63 = decide (2 ^ 63 ≤ w) := by
  rw [Nat.testBit_eq_decide_div_mod_eq]
  apply decide_eq_decide.mpr
  omega

theorem and_int64Min_ne_zero (w : Nat) : w &&& int64Min ≠ 0 ↔ w.testBit 63 = true := by
  unfold int64Min
  rw [Nat.and_two_pow]
  cases w.testBit 63 with
  | false | true => simp

theorem u64_lt (x : Int) : u64 x < 2 ^ 64 := by
  unfold u64
  omega

theorem s64_eq {x y : Int} (hxy : x % 2 ^ 64 = y % 2 ^ 64) (hlo : -2 ^ 63 ≤ y) (hhi : y < 2 ^ 63) :
    s64 x = y := by
  unfold s64
  rw [Int.bmod_def]
  omega

theorem s64_sum (hq : q = if isNeg then -(scaled : Int) else scaled)
    (h : -2 ^ 63 ≤ q + b ∧ q + b < 2 ^ 63) :
    s64 ((if isNeg then u64 (-scaled) else scaled) + u64 b : Nat) = q + b := by
  refine s64_eq ?_ h.1 h.2
  unfold u64
  rw [hq]
  cases isNeg with
  | false =>
    simp only [Bool.false_eq_true, if_false]
    omega
  | true =>
    simp only [if_true]
    omega

theorem and_int64Min_eq_zero (hw : w < 2 ^ 63) : w &&& int64Min = 0 := by
  by_contra h
  rw [← ne_eq, and_int64Min_ne_zero, testBit_sign (by omega), decide_eq_true_eq] at h
  omega

/-- With a sign bit in the difference, only the other base can bring the sum back. -/
theorem addBasis_large (hscaled : scaled < 2 ^ 64) (hlarge : 2 ^ 63 ≤ scaled) (hlo : -2 ^ 63 ≤ b)
    (hhi : b < 2 ^ 63) (hq : q = if isNeg then -(scaled : Int) else scaled) :
    addBasis scaled isNeg b =
      if (isNeg = true ∧ -2 ^ 63 < q + b) ∨ (isNeg = false ∧ b ≠ -2 ^ 63 ∧ q + b < 2 ^ 63) then
        some (q + b)
      else
        none := by
  have hbit : scaled &&& int64Min ≠ 0 := by
    rw [and_int64Min_ne_zero, testBit_sign hscaled]
    exact decide_eq_true hlarge
  have hrest : scaled &&& int64Max = scaled - 2 ^ 63 := by
    have hmod : scaled &&& int64Max = scaled % 2 ^ 63 := Nat.and_two_pow_sub_one_eq_mod scaled 63
    omega
  have hsum := s64_sum (b := b) hq
  unfold addBasis
  rw [if_pos hbit, hrest]
  unfold abs64
  cases isNeg with
  | false =>
    simp only [Bool.false_eq_true, if_false] at hq
    simp only [Bool.false_eq_true, not_false_eq_true, false_and, true_and, false_or,
      if_false] at hsum ⊢
    by_cases hb : 0 ≤ b
    · rw [if_pos hb, if_neg (by omega)]
    · rw [if_neg hb, if_pos (show b < 0 by omega)]
      by_cases hmin : b = -2 ^ 63
      · have hwrap : s64 (-b) = b := s64_eq (by omega) hlo hhi
        rw [hwrap, if_pos (by omega), if_neg (by omega)]
      · have hneg : s64 (-b) = -b := s64_eq rfl (by omega) (by omega)
        rw [hneg]
        by_cases hle : -b ≤ (scaled - 2 ^ 63 : Nat)
        · rw [if_pos hle, if_neg (by omega)]
        · rw [if_neg hle, if_pos (by omega), hsum (by omega)]
  | true =>
    simp only [if_true] at hq
    simp only [not_true_eq_false, true_and, false_and, reduceCtorEq, or_false, if_true,
      if_false] at hsum ⊢
    by_cases hb : b < 0
    · rw [if_pos hb, if_neg (by omega)]
    · rw [if_neg hb, if_neg hb]
      by_cases hle : b ≤ (scaled - 2 ^ 63 : Nat)
      · rw [if_pos hle, if_neg (by omega)]
      · rw [if_neg hle, if_pos (by omega), hsum (by omega)]

/-- Two signed words: the sum does not fit if it has the sign that neither of them has. -/
theorem addBasis_small (hsmall : scaled < 2 ^ 63) (hlo : -2 ^ 63 ≤ b) (hhi : b < 2 ^ 63)
    (hq : q = if isNeg then -(scaled : Int) else scaled) :
    addBasis scaled isNeg b = if -2 ^ 63 ≤ q + b ∧ q + b < 2 ^ 63 then some (q + b) else none := by
  have hsum := s64_sum (b := b) hq
  unfold addBasis
  rw [if_neg (not_not_intro (and_int64Min_eq_zero hsmall))]
  dsimp only
  have hword : (if isNeg then u64 (-scaled) else scaled) = u64 q := by
    rw [hq]
    unfold u64
    cases isNeg with
    | false =>
      simp only [Bool.false_eq_true, if_false]
      omega
    | true => rfl
  have hqlo : -2 ^ 63 < q ∧ q < 2 ^ 63 := by
    rw [hq]
    split_ifs <;> omega
  rw [hword] at hsum ⊢
  have hres : (u64 q + u64 b) % 2 ^ 64 = u64 (q + b) := by
    unfold u64
    omega
  rw [hres]
  have hcond : (u64 q ^^^ u64 b ^^^ int64Min) &&& (u64 q ^^^ u64 (q + b)) &&& int64Min ≠ 0 ↔
      ¬ (-2 ^ 63 ≤ q + b ∧ q + b < 2 ^ 63) := by
    have hmin : int64Min.testBit 63 = true := by decide +kernel
    rw [and_int64Min_ne_zero, Nat.testBit_and, Nat.testBit_xor, Nat.testBit_xor, Nat.testBit_xor,
      hmin, testBit_sign (u64_lt q), testBit_sign (u64_lt b), testBit_sign (u64_lt (q + b))]
    simp only [Bool.xor_true, Bool.and_eq_true, Bool.not_eq_true', bne_iff_ne, bne_eq_false_iff_eq,
      ne_eq, decide_eq_decide]
    unfold u64
    omega
  by_cases hfit : -2 ^ 63 ≤ q + b ∧ q + b < 2 ^ 63
  · rw [if_neg (fun h => hcond.mp h hfit), if_pos hfit]
    exact congrArg some (s64_eq (by unfold u64; omega) hfit.1 hfit.2)
  · rw [if_pos (hcond.mpr hfit), if_neg hfit]

/-! ## The whole transform -/

/-- The exact value with the difference `x` scaled and rounded down, if everything fits. -/
def exact (x num den basis2 : Int) : Option Int :=
  let q := ⌊(x * num : ℚ) / den⌋
  if |q| < 2 ^ 64 ∧ -2 ^ 63 ≤ q + basis2 ∧ q + basis2 < 2 ^ 63 then some (q + basis2) else none

/-- The quotient `p / den` has 64 bits, and either it makes the sum the least number, or the base
is the least number. -/
def Missed (p den basis2 : Int) : Prop :=
  0 ≤ basis2 ∧ (-2 ^ 63 - basis2) * den ≤ p ∧ p < (-2 ^ 63 - basis2 + 1) * den ∨
    basis2 = -2 ^ 63 ∧ 2 ^ 63 * den ≤ p ∧ p < 2 ^ 64 * den

theorem missed_iff {p den : Int} (hden : 0 < den) : Missed p den b ↔
      0 ≤ b ∧ p / den + b = -2 ^ 63 ∨ b = -2 ^ 63 ∧ 2 ^ 63 ≤ p / den ∧ p / den < 2 ^ 64 := by
  unfold Missed
  rw [← Int.le_ediv_iff_mul_le hden, ← Int.ediv_lt_iff_lt_mul hden, ← Int.le_ediv_iff_mul_le hden,
    ← Int.ediv_lt_iff_lt_mul hden]
  omega

theorem addBasis_eq_iff (hscaled : scaled < 2 ^ 64) (hlo : -2 ^ 63 ≤ b) (hhi : b < 2 ^ 63)
    (hq : q = if isNeg then -(scaled : Int) else scaled) :
    addBasis scaled isNeg b =
        (if -2 ^ 63 ≤ q + b ∧ q + b < 2 ^ 63 then some (q + b) else none) ↔
      ¬ (0 ≤ b ∧ q + b = -2 ^ 63 ∨ b = -2 ^ 63 ∧ 2 ^ 63 ≤ q ∧ q < 2 ^ 64) := by
  by_cases hlarge : 2 ^ 63 ≤ scaled
  · rw [addBasis_large hscaled hlarge hlo hhi hq]
    cases isNeg with
    | false =>
      simp only [Bool.false_eq_true, if_false] at hq
      simp only [Bool.false_eq_true, false_and, true_and, false_or]
      split_ifs <;> simp <;> omega
    | true =>
      simp only [if_true] at hq
      simp only [true_and, reduceCtorEq, false_and, or_false]
      split_ifs <;> simp <;> omega
  · rw [addBasis_small (by omega) hlo hhi hq]
    refine iff_of_true rfl ?_
    omega

theorem u64_distance (hval : -2 ^ 63 ≤ val ∧ val < 2 ^ 63)
    (hbasis : -2 ^ 63 ≤ basis1 ∧ basis1 < 2 ^ 63) :
    u64 (s64 (if val < basis1 then basis1 - val else val - basis1)) = (val - basis1).natAbs := by
  unfold u64 s64
  rw [Int.bmod_def]
  split_ifs <;> omega

/-- The sign of the product is kept apart. -/
theorem signed_product (hneg : N < 0 → num ≤ 0) (hpos : ¬ N < 0 → 0 ≤ num) :
    (if (if N < 0 then !decide (val < basis1) else decide (val < basis1)) then
        -(((val - basis1).natAbs * num.natAbs : Nat) : Int)
      else ((val - basis1).natAbs * num.natAbs : Nat)) = (val - basis1) * num := by
  push_cast
  by_cases hN : N < 0
  · have hnum := hneg hN
    rw [if_pos hN, abs_of_nonpos hnum]
    by_cases hlt : val < basis1
    · rw [abs_of_neg (by omega), decide_eq_true hlt]
      simp [← neg_mul]
    · rw [abs_of_nonneg (by omega), decide_eq_false hlt]
      simp
  · have hnum := hpos hN
    rw [if_neg hN, abs_of_nonneg hnum]
    by_cases hlt : val < basis1
    · rw [abs_of_neg (by omega), decide_eq_true hlt]
      simp [← neg_mul]
    · rw [abs_of_nonneg (by omega), decide_eq_false hlt]
      simp

/-- A transform whose fraction is `num / den`, with the sign at `num`. -/
theorem transform_eq_iff {den : Nat} {invertFrac : Bool} (hval : -2 ^ 63 ≤ val ∧ val < 2 ^ 63)
    (hbasis : -2 ^ 63 ≤ basis1 ∧ basis1 < 2 ^ 63)
    (hnum : (if invertFrac then D else u32 (abs32 N)) = num.natAbs)
    (hden : (if invertFrac then u32 (abs32 N) else D) = den) (hneg : N < 0 → num ≤ 0)
    (hpos : ¬ N < 0 → 0 ≤ num) (hnumlt : num.natAbs < 2 ^ 32) (hdenpos : 0 < den)
    (hdenlt : den < 2 ^ 32) (hlo : -2 ^ 63 ≤ b) (hhi : b < 2 ^ 63) :
    linearTransformS64ToS64 val basis1 N D invertFrac b = exact (val - basis1) num den b ↔
      ¬ Missed ((val - basis1) * num) den b := by
  have hfloor : ⌊((val - basis1 : Int) * num : ℚ) / (den : Int)⌋ = (val - basis1) * num / den := by
    rw [← Rat.floor_intCast_div_natCast]
    push_cast
    rfl
  have hdistance : (val - basis1).natAbs < 2 ^ 64 := by omega
  have hproduct := @signed_product val basis1 N num hneg hpos
  rw [missed_iff (by omega)]
  unfold linearTransformS64ToS64 exact
  dsimp only
  rw [u64_distance hval hbasis, hnum, hden, hfloor,
    scaleU64ToU64_eq hdistance hnumlt hdenpos, ← hproduct]
  generalize (if N < 0 then !decide (val < basis1) else decide (val < basis1)) = isNeg
  rw [← quotient_eq_ediv _ hdenpos isNeg]
  generalize quotient ((val - basis1).natAbs * num.natAbs) den isNeg = scaled
  generalize hq : (if isNeg = true then -(scaled : Int) else scaled) = q
  have habs : |q| = scaled := by
    rw [← hq]
    split_ifs <;> simp
  by_cases hfits : scaled < 2 ^ 64
  · have hfits' : |q| < 2 ^ 64 := by omega
    simp only [if_pos hfits, hfits', true_and]
    exact addBasis_eq_iff hfits hlo hhi hq.symm
  · have hfits' : ¬ |q| < 2 ^ 64 := by omega
    simp only [if_neg hfits, hfits', false_and, if_false, true_iff]
    rcases abs_cases q with h | h <;> omega

theorem u32_abs32 (hN : -2 ^ 31 ≤ N ∧ N < 2 ^ 31) : u32 (abs32 N) = N.natAbs := by
  unfold u32 abs32 s32
  rw [Int.bmod_def]
  split_ifs <;> omega

/-- The fraction upside down, with the sign at its numerator. -/
theorem exact_sign (x den b : Int) (hnum : num ≠ 0) :
    exact x den num b = exact x (den * num.sign) num.natAbs b := by
  have hfraction : (x * den : ℚ) / num = (x * (den * num.sign : Int) : ℚ) / (num.natAbs : Int) := by
    rcases lt_or_gt_of_ne hnum with h | h
    · rw [Int.sign_eq_neg_one_of_neg h, Int.ofNat_natAbs_of_nonpos h.le]
      push_cast
      rw [mul_neg_one, mul_neg, neg_div_neg_eq]
    · rw [Int.sign_eq_one_of_pos h, Int.natAbs_of_nonneg h.le]
      push_cast
      rw [mul_one]
  unfold exact
  rw [hfraction]

/-- A transform is exact unless the scaled difference has 64 bits and the result is the least
number, or the base is the least number. -/
theorem transforms_exact_iff (t : LinearTransform) (x : Int64) :
    (t.aToBDenom ≠ 0 →
      (t.doForwardTransform x = exact (x.toInt - t.aZero.toInt) t.aToBNumer.toInt
          t.aToBDenom.toNat t.bZero.toInt ↔
        ¬ Missed ((x.toInt - t.aZero.toInt) * t.aToBNumer.toInt) t.aToBDenom.toNat
          t.bZero.toInt)) ∧
    (t.aToBNumer ≠ 0 →
      (t.doReverseTransform x = exact (x.toInt - t.bZero.toInt) t.aToBDenom.toNat
          t.aToBNumer.toInt t.aZero.toInt ↔
        ¬ Missed ((x.toInt - t.bZero.toInt) * (t.aToBDenom.toNat * t.aToBNumer.toInt.sign))
          t.aToBNumer.toInt.natAbs t.aZero.toInt)) := by
  have hword : ∀ y : Int64, -2 ^ 63 ≤ y.toInt ∧ y.toInt < 2 ^ 63 :=
    fun y => ⟨y.le_toInt, y.toInt_lt⟩
  have hnumer : -2 ^ 31 ≤ t.aToBNumer.toInt ∧ t.aToBNumer.toInt < 2 ^ 31 :=
    ⟨t.aToBNumer.le_toInt, t.aToBNumer.toInt_lt⟩
  have hdenom : t.aToBDenom.toNat < 2 ^ 32 := t.aToBDenom.toNat_lt
  constructor
  · intro hden
    have hpos : 0 < t.aToBDenom.toNat :=
      Nat.pos_of_ne_zero fun h => hden (UInt32.toNat_inj.mp h)
    unfold doForwardTransform
    rw [if_neg hden]
    exact transform_eq_iff (hword x) (hword _) (u32_abs32 hnumer) rfl (fun h => h.le)
      (fun h => not_lt.mp h) (by omega) hpos hdenom (hword _).1 (hword _).2
  · intro hnum
    have hne : t.aToBNumer.toInt ≠ 0 := fun h => hnum (Int32.toInt_inj.mp h)
    have habs : (t.aToBDenom.toNat * t.aToBNumer.toInt.sign).natAbs = t.aToBDenom.toNat := by
      rw [Int.natAbs_mul, Int.natAbs_sign_of_ne_zero hne, mul_one, Int.natAbs_natCast]
    unfold doReverseTransform
    rw [if_neg hnum, exact_sign _ _ _ hne]
    refine transform_eq_iff (hword x) (hword _) habs.symm (u32_abs32 hnumer) ?_ ?_
      (habs.trans_lt hdenom) (by omega) (by omega) (hword _).1 (hword _).2
    · intro hneg
      rw [Int.sign_eq_neg_one_of_neg hneg]
      omega
    · intro hpos
      rw [Int.sign_eq_one_of_pos (by omega)]
      omega

/-- The transform that changes nothing refuses the least number. -/
theorem identity_refuses_least :
    doForwardTransform ⟨0, 0, 1, 1⟩ Int64.minValue = none ∧
      exact (Int64.minValue.toInt - 0) 1 1 0 = some (-2 ^ 63) ∧
      Missed ((Int64.minValue.toInt - 0) * 1) 1 0 := by
  refine ⟨by decide +kernel, by decide +kernel, ?_⟩
  unfold Missed
  decide +kernel

end ShieldTv.Libutils.LinearTransform
