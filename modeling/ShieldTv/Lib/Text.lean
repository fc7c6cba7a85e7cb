import Mathlib

/-!
# Words, numbers and `strtok`

Text as lists of characters: joining with a separator, the tokens that
`strtok_r` hands out one at a time, decimal numerals, and the numbers that
`strtol` with base 0 reads back from them.
-/

namespace ShieldTv.Lib.Text

open List

abbrev Word := List Char

def join (sep : Char) : List Word → List Char
  | [] => []
  | [w] => w
  | w :: ws => w ++ sep :: join sep ws

/-- `strtok_r` with one delimiter: the next token and what is left. -/
def strtok (sep : Char) (text : List Char) : Option (Word × List Char) :=
  match text.dropWhile (· = sep) with
  | [] => none
  | c :: rest => some ((c :: rest).takeWhile (· ≠ sep), ((c :: rest).dropWhile (· ≠ sep)).tail)

/-- The tokens of a loop over `strtok_r`; a token takes at least one
character, so the length of the text bounds their number. -/
def wordsUpTo (sep : Char) : Nat → List Char → List Word
  | 0, _ => []
  | fuel + 1, text =>
    match strtok sep text with
    | none => []
    | some (w, rest) => w :: wordsUpTo sep fuel rest

def words (sep : Char) (text : List Char) : List Word := wordsUpTo sep text.length text

/-- `"%d"`. -/
def decimal : Int → Word
  | .ofNat n => Nat.toDigits 10 n
  | .negSucc n => '-' :: Nat.toDigits 10 (n + 1)

/-- The value of a character as a digit, in any base up to 16. -/
def digitValue (c : Char) : Nat :=
  if c.isDigit then c.toNat - '0'.toNat
  else if 'a' ≤ c ∧ c ≤ 'f' then c.toNat - 'a'.toNat + 10
  else if 'A' ≤ c ∧ c ≤ 'F' then c.toNat - 'A'.toNat + 10
  else 16

/-- Read digits up to the first character that is none. -/
def readDigits (base acc : Nat) : List Char → Nat
  | [] => acc
  | c :: text =>
    if digitValue c < base then readDigits base (acc * base + digitValue c) text else acc

/-- A numeral whose base is told by its first characters. -/
def readNumeral : List Char → Nat
  | '0' :: 'x' :: c :: text =>
    if digitValue c < 16 then readDigits 16 0 (c :: text) else 0
  | '0' :: 'X' :: c :: text =>
    if digitValue c < 16 then readDigits 16 0 (c :: text) else 0
  | '0' :: text => readDigits 8 0 text
  | text => readDigits 10 0 text

/-- `strtol(text, NULL, 0)`, before the result is cut to the range of `long`. -/
def readInt (text : List Char) : Int :=
  match text.dropWhile Char.isWhitespace with
  | '-' :: text => -(readNumeral text : Int)
  | '+' :: text => readNumeral text
  | text => readNumeral text

/-- `strtol(text, NULL, 0)` with a 64-bit `long`. -/
def strtol (text : List Char) : Int := max (-(2 ^ 63)) (min (2 ^ 63 - 1) (readInt text))

/-- `strtoul(text, NULL, 0)` with a 64-bit `unsigned long`. -/
def strtoul (text : List Char) : Nat :=
  (max (-(2 ^ 64 - 1)) (min (2 ^ 64 - 1) (readInt text)) % 2 ^ 64).toNat

def toInt (n : Int) : Int := n.bmod (2 ^ 32)

/-! ## Tokens -/

/-- A word that `strtok` returns whole. -/
structure IsToken (sep : Char) (w : Word) : Prop where
  nonempty : w ≠ []
  notMem : sep ∉ w

variable {sep c : Char} {w : Word} {n : Nat}

theorem join_cons_cons (w v : Word) (ws : List Word) :
    join sep (w :: v :: ws) = w ++ sep :: join sep (v :: ws) := rfl

@[simp] theorem strtok_nil : strtok sep [] = none := rfl

theorem dropWhile_token (hw : IsToken sep w) (rest : List Char) :
    (w ++ rest).dropWhile (· = sep) = w ++ rest := by
  cases w with
  | nil => exact absurd rfl hw.nonempty
  | cons c w =>
    have hc : c ≠ sep := fun h => hw.notMem (by simp [h])
    simp [hc]

theorem ne_of_mem_token (hw : IsToken sep w) : ∀ c ∈ w, decide (c ≠ sep) = true :=
  fun _ hc => decide_eq_true fun h => hw.notMem (h ▸ hc)

section

variable (hw : IsToken sep w)
include hw

theorem strtok_append (rest : List Char) : strtok sep (w ++ rest) =
      some (w ++ rest.takeWhile (· ≠ sep), (rest.dropWhile (· ≠ sep)).tail) := by
  unfold strtok
  rw [dropWhile_token hw]
  cases h : w ++ rest with
  | nil =>
    have hnil := append_eq_nil_iff.mp h
    exact absurd hnil.1 hw.nonempty
  | cons c text =>
    simp only
    rw [← h, takeWhile_append_of_pos (ne_of_mem_token hw),
      dropWhile_append_of_pos (ne_of_mem_token hw)]

theorem strtok_word (rest : List Char) : strtok sep (w ++ sep :: rest) = some (w, rest) := by
  rw [strtok_append hw]
  simp

theorem strtok_last : strtok sep w = some (w, []) := by
  have h := strtok_append hw []
  simpa using h

theorem strtok_join (ws : List Word) : strtok sep (join sep (w :: ws)) = some (w, join sep ws) := by
  cases ws with
  | nil => exact strtok_last hw
  | cons v ws =>
    rw [join_cons_cons]
    exact strtok_word hw _

end

theorem join_ne_nil {sep : Char} {w : Word} (hw : w ≠ []) (ws : List Word) :
    join sep (w :: ws) ≠ [] := by
  cases ws with
  | nil => exact hw
  | cons v ws => simp [join_cons_cons]

theorem notMem_join {sep : Char} (hc : c ≠ sep) (ws : List Word) (h : ∀ w ∈ ws, c ∉ w) :
    c ∉ join sep ws := by
  induction ws with
  | nil => simp [join]
  | cons w ws ih =>
    have hw := h w (by simp)
    have hrest := ih fun v hv => h v (by simp [hv])
    cases ws with
    | nil => exact hw
    | cons v ws =>
      rw [join_cons_cons, mem_append, mem_cons]
      rintro (hmem | hmem | hmem)
      · exact hw hmem
      · exact hc hmem
      · exact hrest hmem

/-- A text that `strtok` takes apart word by word. -/
theorem words_eq {text : List Word → List Char} (hnil : text [] = [])
    (hcons : ∀ w ws, IsToken sep w → strtok sep (text (w :: ws)) = some (w, text ws) ∧
      (text ws).length < (text (w :: ws)).length)
    (ws : List Word) (h : ∀ w ∈ ws, IsToken sep w) : words sep (text ws) = ws := by
  have hfuel : ∀ fuel, (text ws).length ≤ fuel → wordsUpTo sep fuel (text ws) = ws := by
    induction ws with
    | nil => intro fuel _; cases fuel <;> simp [wordsUpTo, hnil]
    | cons w ws ih =>
      obtain ⟨hw, hws⟩ := forall_mem_cons.mp h
      obtain ⟨hstrtok, hlt⟩ := hcons w ws hw
      intro fuel hle
      cases fuel with
      | zero => omega
      | succ fuel =>
        rw [wordsUpTo, hstrtok]
        simp only
        rw [ih hws fuel (by omega)]
  exact hfuel _ le_rfl

theorem words_join (ws : List Word) (h : ∀ w ∈ ws, IsToken sep w) :
    words sep (join sep ws) = ws := by
  refine words_eq rfl (fun w ws hw => ⟨strtok_join hw ws, ?_⟩) ws h
  cases ws with
  | nil => exact length_pos_iff.mpr hw.nonempty
  | cons v ws =>
    rw [join_cons_cons, length_append, length_cons]
    omega

theorem words_lines (lines : List Word) (h : ∀ w ∈ lines, IsToken sep w) :
    words sep (lines.flatMap fun line => line ++ [sep]) = lines := by
  refine words_eq rfl (fun line lines hline => ?_) lines h
  rw [flatMap_cons, append_assoc, singleton_append]
  exact ⟨strtok_word hline _, by rw [length_append, length_cons]; omega⟩

/-! ## Numerals -/

theorem digitValue_of_isDigit (h : c.isDigit = true) :
    digitValue c = c.toNat - '0'.toNat := if_pos h

theorem digitValue_lt (h : c.isDigit = true) : digitValue c < 10 := by
  rw [digitValue_of_isDigit h]
  have hle : c.toNat ≤ 57 := by
    simp only [Char.isDigit, Bool.and_eq_true, decide_eq_true_eq] at h
    exact h.2
  have h0 : '0'.toNat = 48 := rfl
  omega

theorem readDigits_eq (acc : Nat) (text : List Char) (h : ∀ c ∈ text, c.isDigit = true) :
    readDigits 10 acc text = Nat.ofDigitChars 10 text acc := by
  induction text generalizing acc with
  | nil => rfl
  | cons c text ih =>
    have hc := h c (by simp)
    rw [readDigits, if_pos (digitValue_lt hc), ih _ fun d hd => h d (by simp [hd]),
      digitValue_of_isDigit hc, mul_comm]
    rfl

theorem isDigit_of_mem_numeral (h : c ∈ Nat.toDigits 10 n) : c.isDigit = true :=
  Nat.isDigit_of_mem_toDigits (by omega) le_rfl h

/-- A numeral other than `0` does not look like an octal one. -/
theorem numeral_cons (hn : 0 < n) : ∃ c text, Nat.toDigits 10 n = c :: text ∧ c ≠ '0' := by
  induction n using Nat.strong_induction_on with
  | _ n ih =>
    rw [Nat.toDigits_eq_if (by omega)]
    split_ifs with hlt
    · refine ⟨_, _, rfl, ?_⟩
      interval_cases n <;> decide
    · obtain ⟨c, text, htext, hc⟩ := ih (n / 10) (by omega) (by omega)
      exact ⟨c, _, by rw [htext]; rfl, hc⟩

theorem readNumeral_toDigits (n : Nat) : readNumeral (Nat.toDigits 10 n) = n := by
  rcases Nat.eq_zero_or_pos n with rfl | hn
  · rfl
  obtain ⟨c, text, htext, hc⟩ := numeral_cons hn
  have hread : readNumeral (Nat.toDigits 10 n) = readDigits 10 0 (Nat.toDigits 10 n) := by
    rw [htext]
    unfold readNumeral
    split <;> simp_all
  rw [hread, readDigits_eq _ _ fun d hd => isDigit_of_mem_numeral hd, Nat.ofDigitChars_ten_toDigits]

theorem readInt_toDigits (n : Nat) : readInt (Nat.toDigits 10 n) = n := by
  cases htext : Nat.toDigits 10 n with
  | nil => exact absurd htext Nat.toDigits_ne_nil
  | cons c text =>
    have hc : c.isDigit = true := isDigit_of_mem_numeral (n := n) (by simp [htext])
    have hspace : c.isWhitespace = false := by
      by_contra h
      simp only [Char.isWhitespace, Bool.not_eq_false, Bool.or_eq_true, decide_eq_true_eq] at h
      rcases h with ((rfl | rfl) | rfl) | rfl <;> simp at hc
    have hread : readInt (c :: text) = readNumeral (c :: text) := by
      unfold readInt
      rw [dropWhile_cons_of_neg (by simp [hspace])]
      split
      · simp_all
      · simp_all
      · rfl
    rw [hread, ← htext, readNumeral_toDigits]

theorem decimal_ofNat (n : Nat) : decimal (n : Int) = Nat.toDigits 10 n := rfl

theorem strtol_decimal {n : Int} (h₀ : 0 ≤ n) (h : n < 2 ^ 63) : strtol (decimal n) = n := by
  lift n to Nat using h₀
  unfold strtol
  rw [decimal_ofNat, readInt_toDigits]
  omega

theorem strtoul_decimal (h : n < 2 ^ 64) : strtoul (decimal n) = n := by
  unfold strtoul
  rw [decimal_ofNat, readInt_toDigits]
  omega

theorem toInt_of_lt {n : Int} (h₀ : 0 ≤ n) (h : n < 2 ^ 31) : toInt n = n := by
  unfold toInt
  rw [Int.bmod_eq_of_le] <;> omega

theorem toInt_strtol_decimal {n : Int} (h₀ : 0 ≤ n) (h : n < 2 ^ 31) :
    toInt (strtol (decimal n)) = n := by
  rw [strtol_decimal h₀ (by omega), toInt_of_lt h₀ h]

theorem isToken_decimal (n : Int) (hsep : sep.isDigit = false ∧ sep ≠ '-') :
    IsToken sep (decimal n) := by
  have hnum : ∀ m : Nat, sep ∉ Nat.toDigits 10 m := by
    intro m hmem
    have := hsep.1
    rw [isDigit_of_mem_numeral hmem] at this
    exact Bool.noConfusion this
  cases n with
  | ofNat m => exact ⟨Nat.toDigits_ne_nil, hnum m⟩
  | negSucc m =>
    refine ⟨by simp [decimal], ?_⟩
    rw [decimal, mem_cons, not_or]
    exact ⟨hsep.2, hnum _⟩

end ShieldTv.Lib.Text
