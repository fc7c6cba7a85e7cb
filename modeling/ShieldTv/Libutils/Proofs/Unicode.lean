import ShieldTv.Libutils.Unicode

/-!
# The size of a conversion

Both loops agree on everything but a low surrogate that follows an even number of high ones:
`utf16_to_utf8` makes a pair of the last two, `utf16_to_utf8_length` has passed them by in
twos and takes the low one for a unit on its own.
-/

namespace ShieldTv.Libutils.Unicode

open List

/-! ## Units -/

variable {unit : UInt16} {rest : List UInt16} {highs : Nat}

theorem toNat_of_masked {mask : UInt16} (h : unit &&& 0xFC00 == mask) :
    unit.toNat / 2 ^ 10 = mask.toNat / 2 ^ 10 := by
  have hnat : unit.toNat &&& 0xFC00 = mask.toNat := congrArg UInt16.toNat (beq_iff_eq.mp h)
  have hlt : unit.toNat < 2 ^ 16 := unit.toNat_lt
  calc unit.toNat / 2 ^ 10 = (unit.toNat / 2 ^ 10) % 2 ^ 6 := by omega
    _ = (unit.toNat >>> 10) &&& (0xFC00 >>> 10) := by
        rw [← Nat.and_two_pow_sub_one_eq_mod, Nat.shiftRight_eq_div_pow]
        rfl
    _ = mask.toNat / 2 ^ 10 := by
        rw [← Nat.shiftRight_and_distrib, hnat, Nat.shiftRight_eq_div_pow]

theorem isHighSurrogate_range (h : isHighSurrogate unit) :
    0xD800 ≤ unit.toNat ∧ unit.toNat < 0xDC00 := by
  have hdiv := toNat_of_masked h
  have hmask : (0xD800 : UInt16).toNat / 2 ^ 10 = 54 := by decide
  omega

theorem isLowSurrogate_range (h : isLowSurrogate unit) :
    0xDC00 ≤ unit.toNat ∧ unit.toNat < 0xE000 := by
  have hdiv := toNat_of_masked h
  have hmask : (0xDC00 : UInt16).toNat / 2 ^ 10 = 55 := by decide
  omega

theorem not_isLowSurrogate (h : isHighSurrogate unit) : isLowSurrogate unit = false := by
  by_contra hlow
  have hhigh := isHighSurrogate_range h
  have hlow := isLowSurrogate_range (Bool.eq_true_of_not_eq_false hlow)
  omega

theorem length_surrogate (hstart : 0xD800 ≤ unit.toNat)
    (hend : unit.toNat < 0xE000) : utf32CodepointUtf8Length unit.toUInt32 = 0 := by
  unfold utf32CodepointUtf8Length kUnicodeSurrogateStart kUnicodeSurrogateEnd
  simp only [UInt32.lt_iff_toNat_lt, gt_iff_lt, UInt16.toNat_toUInt32, UInt32.reduceToNat]
  rw [if_neg (by omega), if_neg (by omega), if_pos (by omega), if_neg (by omega)]

theorem length_high (h : isHighSurrogate unit) : utf32CodepointUtf8Length unit.toUInt32 = 0 := by
  have hrange := isHighSurrogate_range h
  exact length_surrogate hrange.1 (by omega)

theorem length_low (h : isLowSurrogate unit) : utf32CodepointUtf8Length unit.toUInt32 = 0 := by
  have hrange := isLowSurrogate_range h
  exact length_surrogate (by omega) hrange.2

/-! ## What is written -/

theorem length_writeBytes (mark srcChar : UInt32) (bytes : Nat) (after : Bytes) :
    (writeBytes mark bytes srcChar after).length = bytes + after.length := by
  induction bytes using Nat.strongRecOn generalizing srcChar after with
  | ind bytes ih =>
    match bytes with
    | 0 => rw [writeBytes, zero_add]
    | 1 => rw [writeBytes, length_cons, add_comm]
    | bytes + 2 =>
      rw [writeBytes, ih (bytes + 1) (by omega), length_cons]
      omega

theorem length_encode (utf32 : UInt32) :
    (encode utf32).length = utf32CodepointUtf8Length utf32 := by
  rw [encode, utf32CodepointToUtf8, length_writeBytes, length_nil, add_zero]

theorem length_pair {high low : UInt16} (hhigh : isHighSurrogate high) (hlow : isLowSurrogate low) :
    utf32CodepointUtf8Length (pairCodepoint high low) = 4 := by
  have hhigh := isHighSurrogate_range hhigh
  have hlow := isLowSurrogate_range hlow
  have hh : (high.toUInt32 - 0xD800).toNat = high.toNat - 0xD800 := by
    rw [UInt32.toNat_sub_of_le]
    · rfl
    · rw [UInt32.le_iff_toNat_le]
      exact hhigh.1
  have hl : (low.toUInt32 - 0xDC00).toNat = low.toNat - 0xDC00 := by
    rw [UInt32.toNat_sub_of_le]
    · rfl
    · rw [UInt32.le_iff_toNat_le]
      exact hlow.1
  have hbits : ((high.toUInt32 - 0xD800) <<< 10 ||| (low.toUInt32 - 0xDC00)).toNat < 2 ^ 20 := by
    rw [UInt32.toNat_or]
    apply Nat.or_lt_two_pow
    · rw [UInt32.toNat_shiftLeft, hh, Nat.shiftLeft_eq]
      refine (Nat.mod_le _ _).trans_lt ?_
      change (high.toNat - 0xD800) * 2 ^ 10 < 2 ^ 20
      omega
    · omega
  have hpair : (pairCodepoint high low).toNat
      = ((high.toUInt32 - 0xD800) <<< 10 ||| (low.toUInt32 - 0xDC00)).toNat + 0x10000 := by
    rw [pairCodepoint, UInt32.toNat_add]
    apply Nat.mod_eq_of_lt
    change _ + 65536 < 2 ^ 32
    omega
  unfold utf32CodepointUtf8Length kUnicodeMaxCodepoint
  simp only [UInt32.lt_iff_toNat_lt, UInt32.le_iff_toNat_le, UInt32.reduceToNat]
  rw [if_neg (by omega), if_neg (by omega), if_neg (by omega), if_pos (by omega)]

def written (src : List UInt16) : Nat := (utf16ToUtf8Loop src).length

@[simp] theorem written_nil : written [] = 0 := rfl

theorem written_pair {high low : UInt16} (hhigh : isHighSurrogate high) (hlow : isLowSurrogate low)
    (rest : List UInt16) : written (high :: low :: rest) = 4 + written rest := by
  rw [written, utf16ToUtf8Loop, if_pos (by rw [hhigh, hlow]; rfl), length_append,
    length_encode, length_pair hhigh hlow]
  rfl

def NotLow (src : List UInt16) : Prop := ∀ unit ∈ src.head?, isLowSurrogate unit = false

theorem notLow_nil : NotLow [] := by simp [NotLow]

theorem notLow_cons (h : isLowSurrogate unit = false) (rest : List UInt16) :
    NotLow (unit :: rest) := by simpa [NotLow] using h

theorem written_single (h : isHighSurrogate unit = false ∨ NotLow rest) :
    written (unit :: rest) = utf32CodepointUtf8Length unit.toUInt32 + written rest := by
  cases rest with
  | nil => rw [written, utf16ToUtf8Loop, length_encode, written_nil, add_zero]
  | cons next rest =>
    have hnot : ¬(isHighSurrogate unit && isLowSurrogate next) = true := by
      rcases h with h | h
      · simp [h]
      · simp [h next rfl]
    rw [written, utf16ToUtf8Loop, if_neg hnot, length_append, length_encode]
    rfl

/-! ## What is counted -/

theorem counted_high {next : UInt16} (h : isHighSurrogate unit) (hnext : ¬isLowSurrogate next)
    (rest : List UInt16) : utf16ToUtf8LengthLoop (unit :: next :: rest)
      = utf32CodepointUtf8Length next.toUInt32 + utf16ToUtf8LengthLoop rest := by
  rw [utf16ToUtf8LengthLoop, if_pos h, if_neg hnext]

theorem counted_single (h : isHighSurrogate unit = false) (rest : List UInt16) :
    utf16ToUtf8LengthLoop (unit :: rest)
      = utf32CodepointUtf8Length unit.toUInt32 + utf16ToUtf8LengthLoop rest := by
  cases rest with
  | nil => rfl
  | cons next rest => rw [utf16ToUtf8LengthLoop, if_neg (by simp [h])]

/-- The low surrogates that follow an even number of high ones, at least two; `highs` is the
number of them just before. -/
def lostPairs (highs : Nat) : List UInt16 → Nat
  | [] => 0
  | unit :: rest =>
    if isHighSurrogate unit then lostPairs (highs + 1) rest
    else (if isLowSurrogate unit ∧ highs ≠ 0 ∧ highs % 2 = 0 then 1 else 0) + lostPairs 0 rest

/-- A high surrogate that the conversion has still to look at and the count has passed by. -/
theorem written_after_high (hhigh : isHighSurrogate unit) (hne : highs ≠ 0) (heven : highs % 2 = 0)
    (ih : ∀ src : List UInt16, src.length ≤ rest.length → ∀ {highs : Nat}, highs % 2 = 0 →
      highs = 0 ∨ NotLow src → written src = utf16ToUtf8LengthLoop src + 4 * lostPairs highs src) :
    written (unit :: rest) = utf16ToUtf8LengthLoop rest + 4 * lostPairs highs rest := by
  by_cases hnext : NotLow rest
  · rw [written_single (.inr hnext), length_high hhigh, zero_add]
    exact ih rest le_rfl heven (.inr hnext)
  · match rest with
    | [] => exact absurd notLow_nil hnext
    | next :: rest =>
      have hlow : isLowSurrogate next = true := by
        by_contra hlow
        exact hnext (notLow_cons (Bool.eq_false_of_not_eq_true hlow) rest)
      have hsingle : isHighSurrogate next = false := by
        by_contra hsingle
        simp [not_isLowSurrogate (Bool.eq_true_of_not_eq_false hsingle)] at hlow
      rw [written_pair hhigh hlow, counted_single hsingle, length_low hlow, lostPairs,
        if_neg (by simp [hsingle]), if_pos ⟨hlow, hne, heven⟩, ih rest (by simp) rfl (.inl rfl)]
      omega

/-- Both loops are at the same place after an even number of high surrogates, unless a low one
is next; each lost pair costs four bytes. -/
theorem written_eq (heven : highs % 2 = 0) {src : List UInt16} (hnext : highs = 0 ∨ NotLow src) :
    written src = utf16ToUtf8LengthLoop src + 4 * lostPairs highs src := by
  induction hlen : src.length using Nat.strongRecOn generalizing highs src with
  | ind n ih =>
    match src with
    | [] => rfl
    | unit :: rest =>
      subst hlen
      cases hhigh : isHighSurrogate unit with
      | false =>
        have hlost : lostPairs highs (unit :: rest) = lostPairs 0 rest := by
          rw [lostPairs, if_neg (by simp [hhigh]), if_neg, zero_add]
          rintro ⟨hlow, hne, -⟩
          simp [hnext.resolve_left hne unit rfl] at hlow
        rw [written_single (.inl hhigh), counted_single hhigh, hlost,
          ih rest.length (by simp) rfl (.inl rfl) rfl, add_assoc]
      | true =>
        match rest with
        | [] => rw [written_single (.inr notLow_nil), lostPairs, if_pos hhigh]; rfl
        | next :: rest =>
          have hrest : rest.length < (unit :: next :: rest).length := by simp
          rw [lostPairs, if_pos hhigh]
          cases hlow : isLowSurrogate next with
          | true =>
            have hnext : isHighSurrogate next = false := by
              by_contra hnext
              simp [not_isLowSurrogate (Bool.eq_true_of_not_eq_false hnext)] at hlow
            rw [written_pair hhigh hlow, utf16ToUtf8LengthLoop, if_pos hhigh, if_pos hlow,
              lostPairs, if_neg (by simp [hnext]), if_neg (by omega), zero_add,
              ih rest.length hrest rfl (.inl rfl) rfl, add_assoc]
          | false =>
            rw [counted_high hhigh (by simp [hlow]),
              written_single (.inr (notLow_cons hlow rest)), length_high hhigh,
              zero_add]
            cases hnext : isHighSurrogate next with
            | false =>
              rw [written_single (.inl hnext), lostPairs, if_neg (by simp [hnext]),
                if_neg (by simp [hlow]), zero_add,
                ih rest.length hrest rfl (.inl rfl) rfl, add_assoc]
            | true =>
              rw [lostPairs, if_pos hnext, length_high hnext, zero_add]
              exact written_after_high hnext (by omega) (by omega)
                fun src hle _ heven hnext => ih src.length (by omega) heven hnext rfl

/-- Every low surrogate that follows high ones follows an odd number of them. -/
def OddRuns (src : List UInt16) : Prop :=
  ∀ before low after, src = before ++ low :: after → isLowSurrogate low →
    (before.rtakeWhile isHighSurrogate).length = 0 ∨
      (before.rtakeWhile isHighSurrogate).length % 2 = 1

/-- What `OddRuns` asks of the units before a low surrogate. -/
def OddRun (before : List UInt16) : Prop :=
  (before.rtakeWhile isHighSurrogate).length = 0 ∨
    (before.rtakeWhile isHighSurrogate).length % 2 = 1

theorem lostPairs_eq_zero_iff (before src : List UInt16) :
    lostPairs (before.rtakeWhile isHighSurrogate).length src = 0 ↔
      ∀ between low after, src = between ++ low :: after → isLowSurrogate low →
        OddRun (before ++ between) := by
  induction src generalizing before with
  | nil => simp [lostPairs]
  | cons unit rest ih =>
    have hlater : (∀ between low after, unit :: rest = between ++ low :: after →
          isLowSurrogate low → OddRun (before ++ between)) ↔
        (isLowSurrogate unit → OddRun before) ∧
        lostPairs ((before ++ [unit]).rtakeWhile isHighSurrogate).length rest = 0 := by
      rw [ih]
      constructor
      · intro h
        refine ⟨fun hlow => by simpa using h [] unit rest rfl hlow, ?_⟩
        intro between low after heq hlow
        simpa using h (unit :: between) low after (by rw [heq]; rfl) hlow
      · rintro ⟨hfirst, hrest⟩ between low after heq hlow
        cases between with
        | nil =>
          cases heq
          simpa using hfirst hlow
        | cons head between =>
          cases heq
          simpa using hrest between low after rfl hlow
    rw [hlater, lostPairs]
    cases hhigh : isHighSurrogate unit with
    | true =>
      rw [if_pos rfl, rtakeWhile_concat_pos _ _ _ hhigh, length_append, length_singleton]
      simp [not_isLowSurrogate hhigh]
    | false =>
      rw [if_neg (by simp), rtakeWhile_concat_neg _ _ _ (by simp [hhigh]), length_nil,
        Nat.add_eq_zero_iff]
      refine and_congr_left fun _ => ?_
      rw [ite_eq_right_iff]
      unfold OddRun
      constructor
      · intro h hlow
        by_contra hnot
        exact absurd (h ⟨hlow, by omega, by omega⟩) one_ne_zero
      · intro h hlow
        have := h hlow.1
        omega

theorem lostPairs_zero_iff (src : List UInt16) : lostPairs 0 src = 0 ↔ OddRuns src :=
  lostPairs_eq_zero_iff [] src

/-- `utf16_to_utf8_length` says how many bytes `utf16_to_utf8` writes before the terminator, for
the sources that are not empty and in which no low surrogate follows an even number of high
ones; and those are, but for the empty one, the sources for which a buffer of that size and a
terminator is enough. -/
theorem utf16ToUtf8Length_exact_iff (src : List UInt16) :
    (utf16ToUtf8Length src = (utf16ToUtf8 src).dropLast.length ↔ src ≠ [] ∧ OddRuns src) ∧
      (((utf16ToUtf8 src).length : Int) ≤ utf16ToUtf8Length src + 1 ↔ OddRuns src) := by
  rw [← lostPairs_zero_iff]
  by_cases hempty : src = []
  · subst hempty
    simp [utf16ToUtf8Length, utf16ToUtf8, lostPairs]
  · have hwritten : written src = utf16ToUtf8LengthLoop src + 4 * lostPairs 0 src :=
      written_eq rfl (.inl rfl)
    rw [written] at hwritten
    rw [utf16ToUtf8Length, utf16ToUtf8, if_neg hempty, if_neg hempty, dropLast_concat,
      length_append, length_singleton]
    constructor
    · constructor
      · intro h
        exact ⟨hempty, by omega⟩
      · rintro ⟨-, h⟩
        omega
    · omega

/-- Two high surrogates and a low one: no room is counted, four bytes are written. -/
theorem utf16ToUtf8_overruns :
    utf16ToUtf8Length [0xD800, 0xD800, 0xDC00] = 0 ∧
      utf16ToUtf8 [0xD800, 0xD800, 0xDC00] = [0xF0, 0x90, 0x80, 0x80, 0] := by
  decide

end ShieldTv.Libutils.Unicode
