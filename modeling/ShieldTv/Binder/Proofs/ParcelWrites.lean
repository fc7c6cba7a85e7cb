import ShieldTv.Binder.Proofs.ParcelRoom

/-!
# Runs of writes

The calls that write a length and a payload, and what they report in a run of writes and moves
of the position.
-/

namespace ShieldTv.Binder

open Lib.Bytes Lib.Memory List

variable {p p₁ p₂ : Parcel} {first : Bytes} {reason : Prop} {result : Option (Parcel × Status)}
  {len : Nat}

namespace Parcel

/-! ## A length and a payload -/

theorem padSize_add {m : Nat} (hm : padSize m = m) (n : Nat) : padSize (m + n) = m + padSize n := by
  simp only [padSize] at hm ⊢
  omega

theorem read_add (mem : Mem) (offset m n : Nat) : Lib.Memory.read mem offset (m + n)
      = Lib.Memory.read mem offset m ++ Lib.Memory.read mem (offset + m) n := by
  simp only [Lib.Memory.read, range_add, map_append, map_map]
  congr 1
  apply map_congr_left
  intro i _
  simp [add_assoc]

theorem Stored.append {rest : Bytes} (h : Stored p p₁ first)
    (hfirst : padSize first.length = first.length) (h' : Stored p₁ p₂ rest) :
    Stored p p₂ (first ++ rest) := by
  have hpos₁ := h.pos
  have hpos₂ := h'.pos
  rw [hfirst] at hpos₁
  have hkept : Lib.Memory.read p₂.data p.dataPos first.length = first := by
    rw [← h.stored]
    simp only [length_read]
    apply read_congr
    intro i _ hlt
    exact h'.kept i (by omega)
  refine ⟨h'.ready, ?_, ?_, h'.error.trans h.error, h.capacity.trans h'.capacity, ?_, ?_,
    ?_⟩
  · rw [hpos₂, hpos₁, length_append, padSize_add hfirst, add_assoc]
  · rw [h'.size, h.size]
    omega
  · intro i hi
    rw [h'.kept i (by omega), h.kept i hi]
  · rw [length_append, read_add, hkept, ← hpos₁, h'.stored]
  · intro i hle hlt
    rw [length_append] at hle
    exact h'.padding i (by omega) hlt

theorem stored_nil (hp : Ready p) : Stored p p [] where
  ready := hp
  pos := rfl
  size := (max_eq_left hp.pos).symm
  error := rfl
  capacity := le_rfl
  kept := fun _ _ => rfl
  stored := rfl
  padding := by
    intro i hle hlt
    exact absurd hlt (not_lt.mpr hle)

theorem Failed.after (h : Stored p p₁ first) (h' : Failed p₁ p₂) : Failed p p₂ := by
  refine ⟨h'.ready, ?_⟩
  intro i hi
  have hpos := h.pos
  rw [h'.kept i (by omega), h.kept i hi]

theorem Outcome.append {rest : Bytes} (h : Stored p p₁ first)
    (hfirst : padSize first.length = first.length) (h' : Outcome reason p₁ rest result) :
    Outcome reason p (first ++ rest) result := by
  cases h' with
  | stored h' => exact .stored (h.append hfirst h')
  | failed hstatus hreason h' => exact .failed hstatus hreason (h'.after h)

theorem Fits.of_le {m n : Nat} (h : Fits p n) (hle : m ≤ n)
    (hroom : p.dataPos + n ≤ p.dataCapacity → p₁.dataPos + m ≤ p₁.dataCapacity)
    (hsize : p₁.dataSize + m ≤ p.dataSize + n) : Fits p₁ m := by
  refine ⟨hle.trans h.1, h.2.imp hroom fun hgrow => le_trans ?_ hgrow⟩
  rw [growTo, growTo]
  omega

theorem padSize_leBytes (val : Nat) :
    padSize (leBytes 4 val).length = (leBytes 4 val).length := by
  rw [length_leBytes]
  decide

theorem Fits.rest {val n : Nat} (hp : Ready p) (h : Stored p p₁ (leBytes 4 val))
    (hfits : Fits p (4 + n)) : Fits p₁ n := by
  have hpos := hp.pos
  have hpos₁ := h.pos
  have hsize₁ := h.size
  have hcapacity := h.capacity
  rw [padSize_leBytes, length_leBytes] at hpos₁
  exact hfits.of_le (by omega) (by omega) (by omega)

theorem Outcome.weaken {bytes : Bytes} {reason' : Prop} (h : Outcome reason p bytes result)
    (hreason : reason → reason') : Outcome reason' p bytes result := by
  cases h with
  | stored h => exact .stored h
  | failed hstatus hcause h => exact .failed hstatus (hreason hcause) h

section

variable (a : Alloc) (hp : Ready p)
include hp

theorem writeInt32_spec (val : Nat) :
    Outcome (a.Fails ∨ ¬ Fits p 4) p (leBytes 4 val) (p.writeInt32 a val) := by
  have hlength := length_leBytes 4 val
  have hspec := writeAligned_spec a hp (padSize_leBytes val) (by rw [hlength]; decide)
  rw [hlength] at hspec
  exact hspec

theorem writeInt32_then (val : Nat) {rest : Bytes} (hreason : a.Fails ∨ ¬ Fits p 4 → reason)
    {next : Parcel → Option (Parcel × Status)}
    (hnext : ∀ p₁, Stored p p₁ (leBytes 4 val) → Outcome reason p₁ rest (next p₁)) :
    Outcome reason p (leBytes 4 val ++ rest)
      (match p.writeInt32 a val with
        | some (p, .noError) => next p
        | result => result) := by
  have hspec := writeInt32_spec a hp val
  generalize p.writeInt32 a val = result at hspec
  cases hspec with
  | stored h => exact (hnext _ h).append h (padSize_leBytes val)
  | @failed p' status hstatus hcause h =>
    cases status with
    | noError => exact absurd rfl hstatus
    | _ => exact .failed (by decide) (hreason hcause) h

theorem write_outcome (src : Mem) (hreason : a.Fails ∨ p.error ≠ .noError → reason)
    (hlong : int32Max < len → reason) (hfits : int32Max < len ∨ Fits p (padSize len)) :
    Outcome reason p (Lib.Memory.read src 0 len) (p.write a src len) := by
  by_cases hlen : len ≤ int32Max
  · have hfits := hfits.resolve_left (by omega)
    exact (write_spec a hp src hlen hfits).weaken hreason
  · rw [write, if_pos (by omega)]
    exact .failed (by decide) (hlong (by omega)) (failed_error hp _)

end

theorem writeInt32_write (a b : Alloc) (hp : Ready p) (val : Nat) (src : Mem)
    (hreason : a.Fails ∨ b.Fails ∨ p.error ≠ .noError → reason) (hlong : int32Max < len → reason)
    (hfits : int32Max < len ∨ Fits p (4 + padSize len)) :
    Outcome reason p (leBytes 4 val ++ Lib.Memory.read src 0 len)
      (match p.writeInt32 a val with
        | some (p, .noError) => p.write b src len
        | result => result) := by
  apply writeInt32_then a hp val
  · rintro (hfails | hlarge)
    · exact hreason (.inl hfails)
    · exact hlong (hfits.resolve_right fun hfits =>
        hlarge (hfits.of_le (by omega) (by omega) (by omega)))
  · intro p₁ hstored
    apply write_outcome b hstored.ready src
    · rw [hstored.error]
      exact fun h => hreason (.inr h)
    · exact hlong
    · exact hfits.imp_right (Fits.rest hp hstored)

theorem storeString16_spec (a : Alloc) (hp : Ready p) (str : Mem)
    (hfits : Fits p (padSize (len + 2))) :
    Outcome (a.Fails ∨ p.error ≠ .noError) p (Lib.Memory.read str 0 len ++ [0, 0])
      (match p.writeInplace a (len + 2) with
        | none => none
        | some (p, none) => some (p, p.error)
        | some (p, some pointer) =>
          (p.storeString16 pointer str len).map fun p => (p, .noError)) := by
  have hle := Read.le_padSize (len + 2)
  have hmax := hfits.1
  rcases writeInplace_spec a hp (by omega) hfits with ⟨hfails, hrun⟩ | ⟨p', hroom, hrun⟩
  · rw [hrun]
    exact .failed (show Status.noMemory ≠ .noError by decide) (.inl hfails) (failed_error hp _)
  · have hspace := hroom.room
    rw [hrun, if_pos (hroom.hasData (by omega))]
    dsimp only
    rw [storeString16, store, if_neg (by simp only [placed]; omega), Option.bind_some, store,
      if_neg (by simp only [placed]; omega)]
    apply Outcome.stored
    apply hroom.stored_placed hp (by simp [length_read])
    · intro i hi
      rw [memcpy_of_lt _ _ (by omega)]
      exact memcpy_of_lt _ _ hi
    · rw [read_add, read_memcpy]
      congr 1
      rw [← read_memcpy (placed p p' (len + 2)).data str p.dataPos len]
      apply read_congr
      intro i _ hlt
      exact memcpy_of_lt _ _ hlt
    · intro i hi
      rw [memcpy_of_le _ _ (by omega)]
      exact memcpy_of_le _ _ (by omega)

end Parcel

/-! ## Calls -/

inductive WriteCall where
  | write (src : Mem) (len : Nat)
  | writeByteArray (len : Nat) (val : Option Mem)
  | writeInt32Array (len : Nat) (val : Option Mem)
  | writeCString (str : Mem) (len : Nat)
  | writeString8 (str : Mem) (bytes : Nat)
  | writeString16 (str : Option Mem) (len : Nat)

namespace WriteCall

open Parcel
open Read (bufferMax)

def run (a b : Alloc) (p : Parcel) : WriteCall → Option (Parcel × Status)
  | write src len => p.write a src len
  | writeByteArray len val => p.writeByteArray a b len val
  | writeInt32Array len val => p.writeInt32Array a b len val
  | writeCString str len => p.writeCString a str len
  | writeString8 str bytes => p.writeString8 a b str bytes
  | writeString16 str len => p.writeString16 a b str len

/-- An array: its length and its bytes, or -1. -/
def arrayBytes (width len : Nat) : Option Mem → Bytes
  | none => leBytes 4 (2 ^ 32 - 1)
  | some val => leBytes 4 len ++ Lib.Memory.read val 0 (len * width)

def bytes : WriteCall → Bytes
  | write src len => Lib.Memory.read src 0 len
  | writeByteArray len val => arrayBytes 1 len val
  | writeInt32Array len val => arrayBytes 4 len val
  | writeCString str len => Lib.Memory.read str 0 (len + 1)
  | writeString8 str bytes =>
    leBytes 4 bytes ++ if bytes > 0 then Lib.Memory.read str 0 (bytes + 1) else []
  | writeString16 none _ => leBytes 4 (2 ^ 32 - 1)
  | writeString16 (some str) len => leBytes 4 len ++ (Lib.Memory.read str 0 (len * 2) ++ [0, 0])

/-- A length that the call itself tests and refuses. -/
def TooLong : WriteCall → Prop
  | write _ len => int32Max < len
  | writeByteArray len _ => int32Max < len
  | writeInt32Array len _ => int32Max < len * 4
  | writeCString _ len => int32Max < len + 1
  | writeString8 _ bytes => int32Max < bytes + 1
  | writeString16 _ _ => False

def Reason (a b : Alloc) (p : Parcel) (call : WriteCall) : Prop :=
  a.Fails ∨ b.Fails ∨ p.error ≠ .noError ∨ call.TooLong

section

variable (a b : Alloc) (hp : Ready p)
include hp

theorem writeArray_spec {width : Nat} (hwidth : 0 < width) (val : Option Mem)
    (hreason : a.Fails ∨ b.Fails ∨ p.error ≠ .noError → reason)
    (hlong : int32Max < len * width → reason)
    (hfits : int32Max < len * width ∨ Fits p (padSize (arrayBytes width len val).length)) :
    Outcome reason p (arrayBytes width len val) (p.writeArray a b width len val) := by
  have hle : len ≤ len * width := Nat.le_mul_of_pos_right len hwidth
  unfold Parcel.writeArray
  split_ifs with hlen
  · exact .failed (by decide) (hlong (by omega)) (failed_error hp _)
  · cases val with
    | none =>
      rw [arrayBytes, length_leBytes] at hfits
      refine (writeInt32_spec a hp _).weaken ?_
      rintro (hfails | hlarge)
      · exact hreason (.inl hfails)
      · exact hlong (hfits.resolve_right hlarge)
    | some val =>
      rw [arrayBytes, length_append, length_leBytes, length_read, padSize_add (by decide)] at hfits
      exact writeInt32_write a b hp len val hreason hlong hfits

theorem writeString8_spec (str : Mem) {bytes : Nat}
    (hreason : a.Fails ∨ b.Fails ∨ p.error ≠ .noError → reason)
    (hlong : int32Max < bytes + 1 → reason)
    (hfits : int32Max < bytes + 1 ∨ Fits p (padSize (writeString8 str bytes).bytes.length)) :
    Outcome reason p (writeString8 str bytes).bytes (p.writeString8 a b str bytes) := by
  rw [WriteCall.bytes] at hfits ⊢
  unfold Parcel.writeString8
  by_cases hbytes : bytes > 0
  · simp only [if_pos hbytes] at hfits ⊢
    rw [length_append, length_leBytes, length_read, padSize_add (by decide)] at hfits
    exact writeInt32_write a b hp bytes str hreason hlong hfits
  · simp only [if_neg hbytes] at hfits ⊢
    rw [length_append, length_leBytes, length_nil] at hfits
    apply writeInt32_then a hp bytes
    · rintro (hfails | hlarge)
      · exact hreason (.inl hfails)
      · exact hlong (hfits.resolve_right hlarge)
    · intro p₁ hstored
      exact .stored (stored_nil hstored.ready)

theorem writeString16_spec (str : Option Mem)
    (hfits : Fits p (padSize (writeString16 str len).bytes.length)) :
    Outcome (a.Fails ∨ b.Fails ∨ p.error ≠ .noError) p (writeString16 str len).bytes
      (p.writeString16 a b str len) := by
  cases str with
  | none =>
    rw [WriteCall.bytes, length_leBytes] at hfits
    refine (writeInt32_spec a hp _).weaken ?_
    rintro (hfails | hlarge)
    · exact .inl hfails
    · exact absurd hfits hlarge
  | some str =>
    rw [WriteCall.bytes, length_append, length_leBytes, padSize_add (by decide),
      length_append, length_read] at hfits
    simp only [length_cons, length_nil, Nat.reduceAdd] at hfits
    have hint : int32Max < 2 ^ 32 := by decide
    have hmax := hfits.1
    have hle := Read.le_padSize (len * 2 + 2)
    have hlen : len * 2 % 2 ^ 64 = len * 2 := Nat.mod_eq_of_lt (by omega)
    have hadd : addSize (len * 2) 2 = len * 2 + 2 := Nat.mod_eq_of_lt (by omega)
    unfold Parcel.writeString16
    simp only [hlen, hadd]
    apply writeInt32_then a hp len
    · rintro (hfails | hlarge)
      · exact .inl hfails
      · exact absurd (hfits.of_le (by omega) (by omega) (by omega)) hlarge
    · intro p₁ hstored
      rw [← hstored.error]
      exact (storeString16_spec b hstored.ready str (hfits.rest hp hstored)).weaken Or.inr

theorem run_spec {call : WriteCall} (hfits : call.TooLong ∨ Fits p (padSize call.bytes.length)) :
    Outcome (call.Reason a b p) p call.bytes (call.run a b p) := by
  have hreason : a.Fails ∨ b.Fails ∨ p.error ≠ .noError → call.Reason a b p := by
    rintro (h | h | h)
    · exact .inl h
    · exact .inr (.inl h)
    · exact .inr (.inr (.inl h))
  have hlong : call.TooLong → call.Reason a b p := fun h => .inr (.inr (.inr h))
  cases call with
  | write src len =>
    rw [bytes, length_read] at hfits
    exact write_outcome a hp src (fun h => hreason (h.imp id .inr)) hlong hfits
  | writeByteArray len val =>
    refine writeArray_spec a b hp (by decide) val hreason ?_ ?_
    · rw [mul_one]
      exact hlong
    · rw [mul_one]
      exact hfits
  | writeInt32Array len val => exact writeArray_spec a b hp (by decide) val hreason hlong hfits
  | writeCString str len =>
    rw [bytes, length_read] at hfits
    exact write_outcome a hp str (fun h => hreason (h.imp id .inr)) hlong hfits
  | writeString8 str bytes => exact writeString8_spec a b hp str hreason hlong hfits
  | writeString16 str len =>
    exact (writeString16_spec a b hp str (hfits.resolve_left not_false)).weaken hreason

end

end WriteCall

/-! ## Runs -/

open Parcel

/-- What the caller of a write may rely on. -/
structure Written (p p' : Parcel) (bytes : Bytes) : Prop where
  stored : Lib.Memory.read p'.data p.dataPos bytes.length = bytes
  pos : p'.dataPos = p.dataPos + padSize bytes.length
  covered : p'.dataPos ≤ p'.dataSize
  inBuffer : p'.dataSize ≤ p'.dataCapacity

/-- `NO_ERROR` means that the bytes are written, and an error that those before are kept. -/
def Contract (p : Parcel) (bytes : Bytes) : Option (Parcel × Status) → Prop
  | none => False
  | some (p', .noError) => Written p p' bytes
  | some (p', _) => ∀ i < p.dataPos, p'.data i = p.data i

theorem Parcel.Outcome.contract {bytes : Bytes} (h : Outcome reason p bytes result) :
    Contract p bytes result := by
  cases h with
  | stored h => exact ⟨h.stored, h.pos, h.ready.pos, h.ready.size⟩
  | @failed p' status hstatus _ h =>
    cases status with
    | noError => exact absurd rfl hstatus
    | _ => exact h.kept

theorem Parcel.Outcome.sound {p' : Parcel} {bytes : Bytes} {status : Status}
    (h : Outcome reason p bytes (some (p', status))) : Sound p' := by
  cases h with
  | stored h | failed _ _ h => exact h.ready.toSound

/-- A write, with what the allocator answers, or a move of the position. -/
inductive ParcelStep where
  | write (a b : Alloc) (call : WriteCall)
  | move (pos hint : Nat)

/-- Every write of a run does what its caller may rely on. -/
def ContractRun (p : Parcel) : List ParcelStep → Prop
  | [] => True
  | .write a b call :: steps => Contract p call.bytes (call.run a b p) ∧
      ∀ p' status, call.run a b p = some (p', status) → ContractRun p' steps
  | .move pos hint :: steps => ContractRun { p with dataPos := pos, nextObjectHint := hint } steps

/-- The position is in the data, and the call refuses its length or there is room for what it
writes. -/
def WriteCall.FitsAt (p : Parcel) (call : WriteCall) : Prop :=
  p.dataPos ≤ p.dataSize ∧ (call.TooLong ∨ Fits p (padSize call.bytes.length))

def FitsRun (p : Parcel) : List ParcelStep → Prop
  | [] => True
  | .write a b call :: steps => call.FitsAt p ∧
      ∀ p' status, call.run a b p = some (p', status) → FitsRun p' steps
  | .move pos hint :: steps => FitsRun { p with dataPos := pos, nextObjectHint := hint } steps

/-- The parcels that a run starts from. -/
inductive Initial : Parcel → Prop
  | empty : Initial {}
  | received (data : Mem) {size : Nat} (hsize : size < Read.bufferMax) (objects : List Nat) :
      Initial (ipcSetDataReference data size objects).1

theorem Initial.sound (h : Initial p) : Sound p := by
  cases h with
  | empty => exact ⟨le_rfl, by decide, fun _ => rfl⟩
  | received data hsize objects => exact ⟨le_rfl, hsize, nofun⟩

/-- In every run in which each write starts in the data and has room, or refuses its length,
`NO_ERROR` means that the bytes are in the parcel. -/
theorem writes_report_faithfully {p : Parcel} (hp : Sound p) {steps : List ParcelStep}
    (hfits : FitsRun p steps) : ContractRun p steps := by
  induction steps generalizing p with
  | nil => trivial
  | cons step steps ih =>
    cases step with
    | write a b call =>
      obtain ⟨⟨hpos, hcall⟩, hrest⟩ := hfits
      have houtcome := call.run_spec a b ⟨hp, hpos⟩ hcall
      refine ⟨houtcome.contract, ?_⟩
      intro p' status hrun
      rw [hrun] at houtcome
      exact ih houtcome.sound (hrest p' status hrun)
    | move pos hint => exact ih ⟨hp.size, hp.capacity, hp.empty⟩ hfits

/-- Five bytes, a string behind them, and two bytes over the first ones. -/
def threeWrites : List ParcelStep :=
  [.write ⟨some fun _ => 0, true⟩ ⟨none, false⟩ (.write (fun _ => 7) 5),
    .write ⟨none, false⟩ ⟨none, false⟩ (.writeCString (fun i => if i < 3 then 65 else 0) 3),
    .move 0 0, .write ⟨none, false⟩ ⟨none, false⟩ (.write (fun _ => 9) 2)]

theorem fitsRun_threeWrites : FitsRun {} threeWrites := by
  refine ⟨⟨by decide, .inr ⟨by decide, .inr (by decide)⟩⟩, fun p₁ status₁ hrun => ?_⟩
  change some (_, Status.noError) = some (p₁, status₁) at hrun
  cases hrun
  refine ⟨⟨by decide, .inr ⟨by decide, .inl (by decide)⟩⟩, fun p₂ status₂ hrun => ?_⟩
  change some (_, Status.noError) = some (p₂, status₂) at hrun
  cases hrun
  exact ⟨⟨by decide, .inr ⟨by decide, .inl (by decide)⟩⟩, fun _ _ _ => trivial⟩

theorem writes_report_faithfully_threeWrites : ContractRun {} threeWrites :=
  writes_report_faithfully Initial.empty.sound fitsRun_threeWrites

/-- A new parcel refuses to grow to more than `INT32_MAX` bytes, and reports success. -/
theorem write_reports_success_unwritten :
    (WriteCall.write (fun _ => 7) 1431655768).run ⟨some fun _ => 0, true⟩ ⟨none, false⟩ {}
        = some ({}, .noError) ∧
      ¬ ContractRun {} [.write ⟨some fun _ => 0, true⟩ ⟨none, false⟩
        (.write (fun _ => 7) 1431655768)] := by
  have hrun : (WriteCall.write (fun _ => 7) 1431655768).run ⟨some fun _ => 0, true⟩ ⟨none, false⟩ {}
      = some ({}, .noError) := by
    have hready : Ready {} := ⟨Initial.empty.sound, le_rfl⟩
    have hlarge : ¬ Fits {} (padSize 1431655768) := by
      rintro ⟨_, hroom | hgrow⟩
      · exact absurd hroom (by decide)
      · exact absurd hgrow (by decide)
    rw [WriteCall.run]
    exact write_tooLarge _ hready _ (by decide) (by decide) hlarge
  refine ⟨hrun, ?_⟩
  rintro ⟨hcontract, _⟩
  rw [hrun] at hcontract
  have hpos := hcontract.pos
  rw [WriteCall.bytes, length_read] at hpos
  exact absurd hpos (by decide)

end ShieldTv.Binder
