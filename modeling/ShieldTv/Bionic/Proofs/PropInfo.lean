import ShieldTv.Bionic.PropInfo

/-!
# Reads of a property are not torn

The serial of a clean state encodes the length of the current value and, modulo
`2 ^ 23`, the number of updates that have ended. A reader that sees one clean serial
twice has therefore seen no update in between, and has copied the value that was current
when it loaded the serial first.
-/

namespace ShieldTv.Bionic.PropInfo

open List Function

/-! ## The serial -/

/-- The clean serial after `n` updates, for a value of length `len`. -/
def cleanSerial (len n : Nat) : UInt32 := UInt32.ofNat (len * 2 ^ 24 + 2 * n % 2 ^ 24)

variable {len updates n₀ i : Nat} {m : Memory} {current value : Value} {past : Value → Prop}
  {reader : Reader} {writer : Writer} {serial : UInt32}

theorem toNat_cleanSerial (h : len < propValueMax) (n : Nat) :
    (cleanSerial len n).toNat = len * 2 ^ 24 + 2 * n % 2 ^ 24 := by
  rw [propValueMax] at h
  rw [cleanSerial, UInt32.toNat_ofNat']
  omega

theorem toNat_cleanSerial_or_one (h : len < propValueMax) (n : Nat) :
    (cleanSerial len n ||| 1).toNat = len * 2 ^ 24 + 2 * n % 2 ^ 24 + 1 := by
  have heven : len * 2 ^ 24 + 2 * n % 2 ^ 24 = (len * 2 ^ 23 + n % 2 ^ 23) <<< 1 := by
    rw [Nat.shiftLeft_eq]
    omega
  rw [UInt32.toNat_or, toNat_cleanSerial h, heven, UInt32.toNat_one,
    ← Nat.shiftLeft_add_eq_or_of_lt (by omega)]

theorem serialValueLen_cleanSerial (h : len < propValueMax) (n : Nat) :
    serialValueLen (cleanSerial len n) = len := by
  have hshift : (24 : UInt32).toNat % 32 = 24 := rfl
  rw [serialValueLen, UInt32.toNat_shiftRight, toNat_cleanSerial h, hshift,
    Nat.shiftRight_eq_div_pow]
  omega

theorem serialDirty_iff (serial : UInt32) : serialDirty serial = true ↔ serial.toNat % 2 = 1 := by
  rw [serialDirty, bne_iff_ne, Ne, ← UInt32.toNat_inj, UInt32.toNat_and]
  have hmod : serial.toNat &&& 1 = serial.toNat % 2 := Nat.and_one_is_mod _
  rw [UInt32.toNat_one, hmod, UInt32.toNat_zero]
  omega

theorem cleanSerial_zero (h : len < propValueMax) :
    UInt32.ofNat len <<< 24 = cleanSerial len 0 := by
  rw [propValueMax] at h
  rw [← UInt32.toNat_inj, toNat_cleanSerial h, UInt32.toNat_shiftLeft, UInt32.toNat_ofNat']
  have hshift : (24 : UInt32).toNat % 32 = 24 := rfl
  rw [hshift, Nat.shiftLeft_eq]
  omega

/-- The end of an update clears the lowest bit, drops the carry and sets the length. -/
theorem nextSerial_eq {len' : Nat} (h : len < propValueMax) (h' : len' < propValueMax) (n : Nat) :
    nextSerial len' (cleanSerial len n ||| 1) = cleanSerial len' (n + 1) := by
  have hmask : (0xffffff : UInt32).toNat = 2 ^ 24 - 1 := rfl
  have hone : (1 : UInt32).toNat = 1 := rfl
  have hversion : ((cleanSerial len n ||| 1) + 1 &&& 0xffffff).toNat = 2 * (n + 1) % 2 ^ 24 := by
    rw [UInt32.toNat_and, UInt32.toNat_add, toNat_cleanSerial_or_one h, hmask, hone,
      Nat.and_two_pow_sub_one_eq_mod]
    rw [propValueMax] at h
    omega
  have hlen : (UInt32.ofNat len' <<< 24).toNat = len' <<< 24 := by
    rw [cleanSerial_zero h', toNat_cleanSerial h', Nat.shiftLeft_eq]
    omega
  rw [← UInt32.toNat_inj, nextSerial, UInt32.toNat_or, hversion, hlen, toNat_cleanSerial h',
    ← Nat.shiftLeft_add_eq_or_of_lt (Nat.mod_lt _ (by omega)), Nat.shiftLeft_eq]

/-! ## The writer -/

def Clean (m : Memory) (current : Value) (updates : Nat) : Prop :=
  m.serial = cleanSerial current.len updates ∧
    ∀ i byte, current.bytes[i]? = some byte → m.value i = byte

def Writer.dirty : Writer → Bool
  | .copying _ _ _ => true
  | _ => false

/-- What holds of the memory wherever the writer stands. -/
def WriterInv (m : Memory) (current : Value) (updates : Nat) : Writer → Prop
  | .idle => Clean m current updates
  | .started value => value.len < propValueMax ∧ Clean m current updates
  | .loaded value serial =>
    value.len < propValueMax ∧ Clean m current updates ∧
      serial = cleanSerial current.len updates ||| 1
  | .copying value serial i =>
    value.len < propValueMax ∧ m.serial = serial ∧
      serial = cleanSerial current.len updates ||| 1 ∧
      ∀ j byte, j < i → value.bytes[j]? = some byte → m.value j = byte
  | .stored => Clean m current updates
  | .bumping _ => Clean m current updates

theorem WriterInv.clean (h : WriterInv m current updates writer) (hdirty : writer.dirty = false) :
    Clean m current updates := by
  cases writer with
  | idle | stored | bumping areaSerial => exact h
  | started value => exact h.2
  | loaded value serial => exact h.2.1
  | copying value serial i => simp [Writer.dirty] at hdirty

theorem WriterInv.serial_of_dirty (h : WriterInv m current updates writer)
    (hdirty : writer.dirty = true) : m.serial = cleanSerial current.len updates ||| 1 := by
  cases writer with
  | copying value serial i => exact h.2.1.trans h.2.2.1
  | idle | started | loaded | stored | bumping => simp [Writer.dirty] at hdirty

theorem writerInv_copy {byte : UInt8} (h : WriterInv m current updates (.copying value serial i))
    (hbyte : value.bytes[i]? = some byte) :
    WriterInv { m with value := Function.update m.value i byte } current updates
      (.copying value serial (i + 1)) := by
  obtain ⟨hlen, hm, hserial, hcopied⟩ := h
  refine ⟨hlen, hm, hserial, ?_⟩
  intro j byte' hj hbyte'
  dsimp only
  rcases Nat.lt_succ_iff_lt_or_eq.mp hj with hlt | rfl
  · rw [update_of_ne (by omega)]
    exact hcopied j byte' hlt hbyte'
  · rw [update_self]
    exact Option.some.inj (hbyte.symm.trans hbyte')

theorem clean_finish (hcurrent : current.len < propValueMax)
    (h : WriterInv m current updates (.copying value serial i)) (hend : value.bytes[i]? = none) :
    Clean { m with serial := nextSerial value.len serial } value (updates + 1) := by
  obtain ⟨hlen, hm, hserial, hcopied⟩ := h
  refine ⟨?_, ?_⟩
  · rw [hserial, nextSerial_eq hcurrent hlen]
  · intro j byte hbyte
    refine hcopied j byte ?_ hbyte
    have hj := (List.getElem?_eq_some_iff.mp hbyte).1
    have hi := getElem?_eq_none_iff.mp hend
    omega

/-! ## States -/

variable {ι : Type*}

structure Inv (s : State ι) : Prop where
  len : s.current.len < propValueMax
  writer : WriterInv s.memory s.current s.updates s.writer

/-- What a step may change, as seen by a reader. -/
def Later (s s' : State ι) : Prop :=
  (s'.updates = s.updates ∧ s'.current = s.current ∧
      (s.writer.dirty = true → s'.writer.dirty = true)) ∨
    s'.updates = s.updates + 1

theorem later_refl (s : State ι) : Later s s := .inl ⟨rfl, rfl, id⟩

theorem inv_newPropInfo (h : value.len < propValueMax) : Inv (newPropInfo value : State ι) := by
  refine ⟨h, cleanSerial_zero h, ?_⟩
  intro i byte hbyte
  have hbyte : value.bytes[i]? = some byte := hbyte
  simp [newPropInfo, getD_eq_getElem?_getD, hbyte]

/-! ## A read -/

/-- What a reader knows that began when `n₀` updates had ended; `past` are the values that
have been current since. -/
def ReadInv (past : Value → Prop) (n₀ : Nat) (s : State ι) : Reader → Prop
  | .idle => False
  | .waiting => True
  | .copying serial bytes =>
    ∃ value n, past value ∧ value.len < propValueMax ∧ serial = cleanSerial value.len n ∧
      n₀ ≤ n ∧ n ≤ s.updates ∧ bytes.length ≤ value.len + 1 ∧
      (n = s.updates →
        s.current = value ∧ (s.writer.dirty = false → bytes = value.bytes.take bytes.length))
  | .returned len bytes =>
    s.updates < n₀ + 2 ^ 23 → ∃ value, past value ∧ len = value.len ∧ bytes = value.bytes

variable {s : State ι}

theorem readInv_mono {past' : Value → Prop} (hpast : ∀ value, past value → past' value)
    (h : ReadInv past n₀ s reader) : ReadInv past' n₀ s reader := by
  cases reader with
  | idle => exact h
  | waiting => trivial
  | copying serial bytes =>
    obtain ⟨value, n, hvalue, hrest⟩ := h
    exact ⟨value, n, hpast value hvalue, hrest⟩
  | returned len bytes =>
    intro hfew
    obtain ⟨value, hvalue, hrest⟩ := h hfew
    exact ⟨value, hpast value hvalue, hrest⟩

/-- A step of someone else keeps what a reader knows. -/
theorem readInv_later {s' : State ι} (hlater : Later s s') (h : ReadInv past n₀ s reader) :
    ReadInv past n₀ s' reader := by
  cases reader with
  | idle => exact h
  | waiting => trivial
  | copying serial bytes =>
    obtain ⟨value, n, hvalue, hlen, hserial, hn₀, hn, hbytes, hsame⟩ := h
    rcases hlater with ⟨hupdates, hcurrent, hdirty⟩ | hupdates
    · refine ⟨value, n, hvalue, hlen, hserial, hn₀, by omega, hbytes, ?_⟩
      intro heq
      obtain ⟨hv, hcopied⟩ := hsame (by omega)
      refine ⟨hcurrent.trans hv, ?_⟩
      intro hclean
      apply hcopied
      cases hs : s.writer.dirty with
      | false => rfl
      | true => exact absurd (hdirty hs) (by simp [hclean])
    · exact ⟨value, n, hvalue, hlen, hserial, hn₀, by omega, hbytes, fun _ => by omega⟩
  | returned len bytes =>
    intro hfew
    apply h
    rcases hlater with ⟨hupdates, -, -⟩ | hupdates <;> omega

/-- Fewer than `2 ^ 23` updates do not bring a clean serial back. -/
theorem updates_eq_of_serial (h : Inv s) {n : Nat} (hlen : value.len < propValueMax) (hn₀ : n₀ ≤ n)
    (hn : n ≤ s.updates) (hfew : s.updates < n₀ + 2 ^ 23)
    (hserial : cleanSerial value.len n = s.memory.serial) :
    n = s.updates ∧ s.writer.dirty = false := by
  cases hdirty : s.writer.dirty with
  | true =>
    have heq := congrArg UInt32.toNat (hserial.trans (h.writer.serial_of_dirty hdirty))
    rw [toNat_cleanSerial hlen, toNat_cleanSerial_or_one h.len] at heq
    omega
  | false =>
    have heq := congrArg UInt32.toNat (hserial.trans (h.writer.clean hdirty).1)
    rw [toNat_cleanSerial hlen, toNat_cleanSerial h.len] at heq
    exact ⟨by omega, rfl⟩

theorem readInv_stepReader (h : Inv s) (hpast : past s.current) (hn₀ : n₀ ≤ s.updates)
    (hread : ReadInv past n₀ s reader) : ReadInv past n₀ s (stepReader s.memory reader) := by
  cases reader with
  | idle | returned len bytes => exact hread
  | waiting =>
    rw [stepReader]
    split_ifs with hdirty
    · trivial
    · have hwriter : s.writer.dirty = false := by
        by_contra hw
        have hserial := h.writer.serial_of_dirty (by simpa using hw)
        rw [serialDirty_iff, hserial, toNat_cleanSerial_or_one h.len] at hdirty
        omega
      exact ⟨s.current, s.updates, hpast, h.len, (h.writer.clean hwriter).1, hn₀, le_rfl,
        Nat.zero_le _, fun _ => ⟨rfl, fun _ => rfl⟩⟩
  | copying serial bytes =>
    obtain ⟨value, n, hvalue, hlen, rfl, hn, hle, hbytes, hsame⟩ := hread
    rw [stepReader, serialValueLen_cleanSerial hlen]
    split_ifs with hmore hserial
    · refine ⟨value, n, hvalue, hlen, rfl, hn, hle, by simpa using hmore, ?_⟩
      intro heq
      obtain ⟨hcurrent, hcopied⟩ := hsame heq
      refine ⟨hcurrent, ?_⟩
      intro hclean
      have hmem := (h.writer.clean hclean).2 bytes.length (value.bytes.get ⟨bytes.length, by
        rw [value.length_bytes]
        omega⟩) (by simp [hcurrent])
      rw [hmem, length_append, length_singleton, take_succ_eq_append_getElem (by
        rw [value.length_bytes]
        omega), ← hcopied hclean]
      rfl
    · intro hfew
      obtain ⟨heq, hclean⟩ := updates_eq_of_serial h hlen hn hle hfew hserial
      refine ⟨value, hvalue, rfl, ?_⟩
      rw [(hsame heq).2 hclean, take_of_length_le]
      rw [value.length_bytes]
      omega
    · trivial

/-! ## Runs -/

variable [DecidableEq ι]

theorem inv_write (h : Inv s) : Inv (step s .write) ∧ Later s (step s .write) := by
  obtain ⟨m, writer, readers, current, updates⟩ := s
  obtain ⟨hlen, hwriter⟩ := h
  cases writer with
  | idle => exact ⟨⟨hlen, hwriter⟩, later_refl _⟩
  | started value =>
    obtain ⟨hvalue, hclean⟩ := hwriter
    exact ⟨⟨hlen, hvalue, hclean, congrArg (· ||| 1) hclean.1⟩, Or.inl ⟨rfl, rfl, id⟩⟩
  | loaded value serial =>
    obtain ⟨hvalue, hclean, hserial⟩ := hwriter
    refine ⟨⟨hlen, hvalue, rfl, hserial, ?_⟩, .inl ⟨rfl, rfl, fun _ => rfl⟩⟩
    intro j byte hj
    omega
  | copying value serial i =>
    cases hbyte : value.bytes[i]? with
    | some byte =>
      simp only [step, stepWriter, hbyte]
      exact ⟨⟨hlen, writerInv_copy hwriter hbyte⟩, .inl ⟨rfl, rfl, fun _ => rfl⟩⟩
    | none =>
      simp only [step, stepWriter, hbyte]
      exact ⟨⟨hwriter.1, clean_finish hlen hwriter hbyte⟩, .inr rfl⟩
  | stored | bumping areaSerial => exact ⟨⟨hlen, hwriter⟩, .inl ⟨rfl, rfl, id⟩⟩

theorem inv_update (h : Inv s) (value : Value) :
    Inv (step s (.update value)) ∧ Later s (step s (.update value)) := by
  obtain ⟨m, writer, readers, current, updates⟩ := s
  obtain ⟨hlen, hwriter⟩ := h
  cases writer with
  | idle =>
    simp only [step, beginUpdate]
    split_ifs with hvalue
    · exact ⟨⟨hlen, hwriter⟩, later_refl _⟩
    · exact ⟨⟨hlen, by omega, hwriter⟩, .inl ⟨rfl, rfl, id⟩⟩
  | _ => exact ⟨⟨hlen, hwriter⟩, later_refl _⟩

theorem inv_step (h : Inv s) (action : Action ι) :
    Inv (step s action) ∧ Later s (step s action) := by
  cases action with
  | update value => exact inv_update h value
  | write => exact inv_write h
  | beginRead i | read i => exact ⟨⟨h.len, h.writer⟩, later_refl _⟩

theorem inv_run (h : Inv s) (actions : List (Action ι)) : Inv (run s actions) := by
  induction actions generalizing s with
  | nil => exact h
  | cons action actions ih => exact ih (inv_step h action).1

@[simp] theorem step_update_readers (s : State ι) (value : Value) :
    (step s (.update value)).readers = s.readers := by
  rw [step]
  split <;> rfl

@[simp] theorem step_write_readers (s : State ι) : (step s .write).readers = s.readers := by
  rw [step]
  split <;> rfl

/-- Along a read, the reader only ever copies a value that has been current since it began. -/
theorem readInv_run (h : Inv s) {i : ι} (n₀ : Nat) (hn₀ : n₀ ≤ s.updates)
    (hwaiting : s.readers i = .waiting) (during : List (Action ι))
    (hno : Action.beginRead i ∉ during) :
    n₀ ≤ (run s during).updates ∧
      ReadInv (fun value => ∃ k ≤ during.length, (run s (during.take k)).current = value) n₀
        (run s during) ((run s during).readers i) := by
  induction during using List.reverseRecOn with
  | nil => exact ⟨hn₀, by simp [run, hwaiting, ReadInv]⟩
  | append_singleton during action ih =>
    obtain ⟨hle, hread⟩ := ih (fun hmem => hno (mem_append_left _ hmem))
    have hrun : run s (during ++ [action]) = step (run s during) action := by
      simp [run]
    have hinv := inv_run h during
    have hlater := (inv_step hinv action).2
    have hpast : ∀ value, (∃ k ≤ during.length, (run s (during.take k)).current = value) →
        ∃ k ≤ (during ++ [action]).length,
          (run s ((during ++ [action]).take k)).current = value := by
      intro value ⟨k, hk, hvalue⟩
      refine ⟨k, by simp; omega, ?_⟩
      rwa [take_append_of_le_length hk]
    rw [hrun]
    constructor
    · rcases hlater with ⟨hupdates, -, -⟩ | hupdates <;> omega
    · refine readInv_mono hpast (readInv_later hlater ?_)
      cases action with
      | update value => rwa [step_update_readers]
      | write => rwa [step_write_readers]
      | beginRead j =>
        have hij : i ≠ j := by
          rintro rfl
          exact hno (by simp)
        simp only [step]
        rwa [update_of_ne hij]
      | read j =>
        simp only [step]
        by_cases hij : i = j
        · subst hij
          rw [update_self]
          exact readInv_stepReader hinv ⟨during.length, le_rfl, by rw [take_length]⟩ hle
            hread
        · rwa [update_of_ne hij]

def Reader.resting : Reader → Prop
  | .idle => True
  | .returned _ _ => True
  | _ => False

theorem beginRead_of_resting (h : reader.resting) : beginRead reader = .waiting := by
  cases reader with
  | idle | returned len bytes => rfl
  | waiting | copying serial bytes => exact h.elim

/-- In every interleaving, the length and the bytes that a read returns are those of one value
that was current at a moment of this read. -/
theorem read_returns_current (initial : Value) (hinitial : initial.len < propValueMax)
    (before during : List (Action ι)) (i : ι) (len : Nat) (bytes : Bytes)
    (hresting : ((run (newPropInfo initial) before).readers i).resting)
    (hno : Action.beginRead i ∉ during)
    (hreturned : (run (newPropInfo initial) (before ++ .beginRead i :: during)).readers i
      = .returned len bytes)
    (hfew : (run (newPropInfo initial) (before ++ .beginRead i :: during)).updates
      < (run (newPropInfo initial) before).updates + 2 ^ 23) :
    ∃ k ≤ during.length,
      (run (newPropInfo initial) (before ++ .beginRead i :: during.take k)).current.len = len ∧
      (run (newPropInfo initial) (before ++ .beginRead i :: during.take k)).current.bytes
        = bytes := by
  have hsplit : ∀ actions : List (Action ι),
      run (newPropInfo initial) (before ++ .beginRead i :: actions)
        = run (step (run (newPropInfo initial) before) (.beginRead i)) actions := by
    intro actions
    simp [run]
  have hinv := inv_run (inv_newPropInfo hinitial : Inv (newPropInfo initial : State ι)) before
  have hwaiting : (step (run (newPropInfo initial) before) (.beginRead i)).readers i =
      .waiting := by
    simp only [step, update_self]
    exact beginRead_of_resting hresting
  have hread := (readInv_run (inv_step hinv (.beginRead i)).1
    (run (newPropInfo initial : State ι) before).updates le_rfl hwaiting during hno).2
  rw [hsplit] at hreturned hfew
  rw [hreturned] at hread
  obtain ⟨value, ⟨k, hk, hvalue⟩, hlen, hbytes⟩ := hread hfew
  refine ⟨k, hk, ?_⟩
  rw [hsplit, hvalue]
  exact ⟨hlen.symm, hbytes.symm⟩

def valueA : Value := ⟨1, [0x61, 0], rfl⟩
def valueB : Value := ⟨2, [0x62, 0x63, 0], rfl⟩

/-- A reader that copies one byte of the old value, then an update, then the rest of the read. -/
def overtaken : List (Action Unit) :=
  [.read (), .read (), .update valueB, .write, .write, .write, .read (), .write, .write, .write,
    .read (), .read (), .read (), .read (), .read (), .read ()]

theorem read_returns_current_overtaken :
    ∃ k ≤ overtaken.length,
      (run (newPropInfo valueA) ([] ++ .beginRead () :: overtaken.take k)).current.len = 2 ∧
      (run (newPropInfo valueA) ([] ++ .beginRead () :: overtaken.take k)).current.bytes
        = [0x62, 0x63, 0] :=
  read_returns_current valueA (by decide) [] overtaken () 2 [0x62, 0x63, 0] trivial
    (by simp [overtaken]) rfl (by decide)

end ShieldTv.Bionic.PropInfo
