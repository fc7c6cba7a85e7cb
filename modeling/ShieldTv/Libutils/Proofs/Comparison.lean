import ShieldTv.Libutils.Unicode

/-!
# The order of 16-bit strings

`strzcmp16` orders strings as a dictionary does, but for a string that is continued by a zero: it
compares equal to its continuation.
-/

namespace ShieldTv.Libutils.Unicode

theorem strzcmp16_cons_self (u : UInt16) (s1 s2 : List UInt16) :
    strzcmp16 (u :: s1) (u :: s2) = strzcmp16 s1 s2 := by
  rw [strzcmp16, Int.sub_self]
  rfl

theorem strzcmp16_cons_of_ne {u1 u2 : UInt16} (h : u1 ≠ u2) (s1 s2 : List UInt16) :
    strzcmp16 (u1 :: s1) (u2 :: s2) = u1.toNat - u2.toNat := by
  have hne : (u1.toNat : Int) - u2.toNat ≠ 0 := by
    intro hzero
    apply h
    apply UInt16.toNat_inj.mp
    omega
  rw [strzcmp16]
  exact if_pos hne

theorem strzcmp16_swap (s1 s2 : List UInt16) : strzcmp16 s2 s1 = -strzcmp16 s1 s2 := by
  induction s1 generalizing s2 with
  | nil =>
    cases s2 with
    | nil => rfl
    | cons u2 s2 => simp [strzcmp16]
  | cons u1 s1 ih =>
    cases s2 with
    | nil => simp [strzcmp16]
    | cons u2 s2 =>
      by_cases h : u1 = u2
      · subst h
        rw [strzcmp16_cons_self, strzcmp16_cons_self, ih]
      · rw [strzcmp16_cons_of_ne h, strzcmp16_cons_of_ne (Ne.symm h)]
        omega

/-- The sign of a comparison says how the strings stand to each other in the dictionary order. -/
structure Exact (s1 s2 : List UInt16) (c : Int) : Prop where
  eq : c = 0 ↔ s1 = s2
  lt : c < 0 ↔ s1 < s2
  gt : 0 < c ↔ s2 < s1

/-- One string is the other one, a zero and more. -/
def ZeroTail (s1 s2 : List UInt16) : Prop :=
  (∃ rest, s2 = s1 ++ 0 :: rest) ∨ ∃ rest, s1 = s2 ++ 0 :: rest

variable {u : UInt16} {s1 s2 : List UInt16}

theorem exact_cons_self_iff {c : Int} : Exact (u :: s1) (u :: s2) c ↔ Exact s1 s2 c := by
  constructor
  · intro h
    refine ⟨?_, ?_, ?_⟩
    · simpa using h.eq
    · simpa using h.lt
    · simpa using h.gt
  · intro h
    refine ⟨?_, ?_, ?_⟩
    · simpa using h.eq
    · simpa using h.lt
    · simpa using h.gt

theorem zeroTail_cons_self_iff : ZeroTail (u :: s1) (u :: s2) ↔ ZeroTail s1 s2 := by
  simp [ZeroTail]

theorem exact_cons_of_ne {u1 u2 : UInt16} (h : u1 ≠ u2) (s1 s2 : List UInt16) :
    Exact (u1 :: s1) (u2 :: s2) (u1.toNat - u2.toNat) := by
  have hnat : u1.toNat ≠ u2.toNat := fun heq => h (UInt16.toNat_inj.mp heq)
  refine ⟨?_, ?_, ?_⟩
  · simp only [List.cons.injEq, h, false_and, iff_false]
    omega
  · rw [List.cons_lt_cons_iff, UInt16.lt_iff_toNat_lt]
    simp only [h, false_and, or_false]
    omega
  · rw [List.cons_lt_cons_iff, UInt16.lt_iff_toNat_lt]
    simp only [Ne.symm h, false_and, or_false]
    omega

theorem exact_nil_cons_iff {s : List UInt16} : Exact [] (u :: s) (0 - u.toNat) ↔ u ≠ 0 := by
  have hzero : u = 0 ↔ u.toNat = 0 := UInt16.toNat_inj.symm
  constructor
  · intro h hu
    rw [hu] at h
    exact nomatch h.eq.mp rfl
  · intro hu
    have hpos : u.toNat ≠ 0 := fun h => hu (hzero.mpr h)
    refine ⟨?_, ?_, ?_⟩
    · simp
      omega
    · simp
      omega
    · simp

theorem Exact.swap {c : Int} (h : Exact s1 s2 c) : Exact s2 s1 (-c) := by
  refine ⟨?_, ?_, ?_⟩
  · rw [Int.neg_eq_zero, h.eq, eq_comm]
  · rw [Int.neg_neg_iff_pos, h.gt]
  · rw [Int.neg_pos, h.lt]

theorem exact_strzcmp16_swap_iff :
    Exact s2 s1 (strzcmp16 s2 s1) ↔ Exact s1 s2 (strzcmp16 s1 s2) := by
  constructor
  · intro h
    rw [strzcmp16_swap s2 s1]
    exact h.swap
  · intro h
    rw [strzcmp16_swap s1 s2]
    exact h.swap

theorem exact_strzcmp16_nil_iff (s : List UInt16) :
    Exact [] s (strzcmp16 [] s) ↔ ¬ ZeroTail [] s := by
  cases s with
  | nil => simp [strzcmp16, ZeroTail, Exact.mk]
  | cons u s =>
    rw [strzcmp16, exact_nil_cons_iff]
    simp [ZeroTail]

/-- The comparison is exact for all strings but those where one is the other, a zero and more; and
it always changes its sign with the order of its arguments. -/
theorem strzcmp16_exact_iff (s1 s2 : List UInt16) :
    (Exact s1 s2 (strzcmp16 s1 s2) ↔ ¬ ZeroTail s1 s2) ∧ strzcmp16 s2 s1 = -strzcmp16 s1 s2 := by
  refine ⟨?_, strzcmp16_swap s1 s2⟩
  induction s1 generalizing s2 with
  | nil => exact exact_strzcmp16_nil_iff s2
  | cons u1 s1 ih =>
    cases s2 with
    | nil =>
      rw [exact_strzcmp16_swap_iff, exact_strzcmp16_nil_iff, ZeroTail, ZeroTail, or_comm]
    | cons u2 s2 =>
      by_cases h : u1 = u2
      · subst h
        rw [strzcmp16_cons_self, exact_cons_self_iff, zeroTail_cons_self_iff]
        exact ih s2
      · have hapart : ¬ ZeroTail (u1 :: s1) (u2 :: s2) := by
          simp [ZeroTail, h, Ne.symm h]
        rw [strzcmp16_cons_of_ne h]
        exact iff_of_true (exact_cons_of_ne h s1 s2) hapart

/-- The empty string and a zero compare equal. -/
theorem strzcmp16_zero_equal : strzcmp16 [] [0] = 0 ∧ ([] : List UInt16) ≠ [0] := by
  decide

end ShieldTv.Libutils.Unicode
