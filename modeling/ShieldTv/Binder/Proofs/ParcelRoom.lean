import ShieldTv.Binder.Proofs.ParcelReads

/-!
# One write to a parcel

A write first makes room: it stays in the buffer, or the buffer grows to one and a half times
what is needed. From a position in the data, and if the grown buffer is at most `INT32_MAX`
bytes long, a write either stores its bytes and moves the position behind them, or reports
that there was no memory.
-/

namespace ShieldTv.Binder

open Lib.Bytes Lib.Memory

def Alloc.Fails (a : Alloc) : Prop := a.data = none ∨ a.objects = false

variable {len i n desired : Nat}

variable {p p' : Parcel} {bytes : Bytes}

namespace Parcel

open Read (bufferMax le_padSize)

/-! ## Copies -/

section

variable (mem src : Mem) {dst : Nat}

theorem memcpy_of_lt (h : i < dst) : memcpy mem dst src len i = mem i := if_neg (by omega)

theorem memcpy_of_le (h : dst + len ≤ i) : memcpy mem dst src len i = mem i := if_neg (by omega)

theorem memcpy_prefix (h : i < len) : memcpy mem 0 src len i = src i := by
  rw [memcpy, if_pos (by omega), Nat.sub_zero]

theorem read_memcpy (dst len : Nat) :
    Lib.Memory.read (memcpy mem dst src len) dst len = Lib.Memory.read src 0 len := by
  apply List.map_congr_left
  intro i hi
  have hlt := List.mem_range.mp hi
  rw [memcpy, if_pos (by omega), Nat.add_sub_cancel_left, zero_add]

end

/-! ## Growing -/

/-- A parcel with its data in the buffer. -/
structure Sound (p : Parcel) : Prop where
  size : p.dataSize ≤ p.dataCapacity
  capacity : p.dataCapacity < bufferMax
  empty : p.hasData = false → p.dataCapacity = 0

/-- A sound parcel with its position in the data. -/
structure Ready (p : Parcel) : Prop extends Sound p where
  pos : p.dataPos ≤ p.dataSize

/-- The capacity that makes room for `n` bytes more than the data. -/
def growTo (p : Parcel) (n : Nat) : Nat := (p.dataSize + n) * 3 / 2

structure Grown (p p' : Parcel) (capacity : Nat) : Prop where
  pos : p'.dataPos = p.dataPos
  size : p'.dataSize = p.dataSize
  error : p'.error = p.error
  capacity : p'.dataCapacity = capacity
  hasData : p'.hasData = true
  data : ∀ i < p.dataSize, p'.data i = p.data i

theorem growSize_eq (hp : Ready p) (hn : n < 2 ^ 32) : p.growSize n = p.growTo n := by
  have hsize := hp.size
  have hcapacity := hp.capacity
  simp only [bufferMax] at hcapacity
  simp only [growSize, growTo, addSize]
  omega

theorem keepObjects_eq (h : p.dataSize ≤ desired) :
    p.keepObjects desired = p.objects := if_neg (by omega)

/-- A call that needs memory: it fails for lack of it, or succeeds with a parcel that has `P`. -/
def Tries (a : Alloc) (p : Parcel) (P : Parcel → Prop) (result : Parcel × Status) : Prop :=
  a.Fails ∧ result = ({ p with error := .noMemory }, .noMemory) ∨
    ∃ p', result = (p', .noError) ∧ P p'

section

variable (a : Alloc)

theorem takeOwnership_spec (hsize : p.dataSize < desired)
    (hdata : p.hasData = false → p.dataSize = 0) :
    Tries a p (Grown p · desired) (p.takeOwnership a desired) := by
  rw [takeOwnership, keepObjects_eq (by omega), if_neg (by omega)]
  cases hfresh : a.data with
  | none => exact .inl ⟨.inl hfresh, rfl⟩
  | some fresh =>
    by_cases hobjects : p.objects ≠ [] ∧ ¬ a.objects
    · exact .inl ⟨.inr (by simpa using hobjects.2), if_pos hobjects⟩
    · refine .inr ⟨_, if_neg hobjects, rfl, ?_, rfl, rfl, rfl, ?_⟩
      · exact Nat.min_eq_left (by omega)
      · intro i hi
        have hhas : p.hasData = true := by
          by_contra hnone
          have := hdata (by simpa using hnone)
          omega
        rw [if_pos hhas]
        exact memcpy_prefix fresh p.data (by omega)

theorem resize_spec (hdata : p.hasData = true) (hsize : p.dataSize ≤ p.dataCapacity)
    (hcapacity : p.dataCapacity < desired) :
    Tries a p (Grown p · desired) (p.resize a desired) := by
  rw [resize, keepObjects_eq (by omega), if_neg (lt_irrefl _), if_pos hcapacity]
  cases hfresh : a.data with
  | none => exact .inl ⟨.inl hfresh, rfl⟩
  | some fresh =>
    refine .inr ⟨_, rfl, rfl, rfl, rfl, rfl, hdata, ?_⟩
    intro i hi
    exact memcpy_prefix fresh p.data (by omega)

theorem firstData_spec (desired : Nat) (hpos : p.dataPos = 0) (hsize : p.dataSize = 0) :
    Tries a p (Grown p · desired) (p.firstData a desired) := by
  rw [firstData]
  cases hfresh : a.data with
  | none => exact .inl ⟨.inl hfresh, rfl⟩
  | some fresh =>
    refine .inr ⟨_, rfl, hpos.symm, hsize.symm, rfl, rfl, rfl, ?_⟩
    intro i hi
    omega

/-- Growing beyond the capacity keeps the parcel but for an error, or gives it a new buffer. -/
theorem continueWrite_spec (hp : Ready p) (hcapacity : p.dataCapacity < desired)
    (hmax : desired ≤ int32Max) :
    Tries a p (Grown p · desired) (p.continueWrite a desired) := by
  have hpos := hp.pos
  have hsize := hp.size
  rw [continueWrite, if_neg (by omega)]
  by_cases howner : p.owner = true
  · rw [if_pos howner]
    apply takeOwnership_spec a (by omega)
    intro hnone
    have := hp.empty hnone
    omega
  · rw [if_neg howner]
    by_cases hdata : p.hasData = true
    · rw [if_pos hdata]
      exact resize_spec a hdata hsize hcapacity
    · rw [if_neg hdata]
      have := hp.empty (by simpa using hdata)
      exact firstData_spec a desired (by omega) (by omega)

end

/-! ## Making room -/

/-- There is room for `n` bytes at the position, or a buffer with room is not too long. -/
def Fits (p : Parcel) (n : Nat) : Prop :=
  n ≤ int32Max ∧ (p.dataPos + n ≤ p.dataCapacity ∨ p.growTo n ≤ int32Max)

/-- The part that `writeInplace` and `writeAligned` share. -/
def reserve (a : Alloc) (p : Parcel) (n : Nat) : Parcel × Status :=
  if p.dataPos + n ≤ p.dataCapacity then (p, .noError) else p.growData a n

structure Reserved (p p' : Parcel) (n : Nat) : Prop where
  ready : Ready p'
  pos : p'.dataPos = p.dataPos
  size : p'.dataSize = p.dataSize
  error : p'.error = p.error
  capacity : p.dataCapacity ≤ p'.dataCapacity
  room : p.dataPos + n ≤ p'.dataCapacity
  hasData : 0 < n → p'.hasData = true
  data : ∀ i < p.dataSize, p'.data i = p.data i

theorem addSize_of_ready (hp : Ready p) (hn : n < 2 ^ 32) :
    addSize p.dataPos n = p.dataPos + n := by
  have hpos := hp.pos
  have hsize := hp.size
  have hcapacity := hp.capacity
  simp only [bufferMax] at hcapacity
  simp only [addSize]
  omega

theorem Grown.reserved (hp : Ready p) (hroom : ¬ p.dataPos + n ≤ p.dataCapacity)
    (hmax : p.growTo n ≤ int32Max) (h : Grown p p' (p.growTo n)) : Reserved p p' n := by
  have hpos := hp.pos
  have hgrow : p.dataSize + n ≤ p.growTo n := by
    rw [growTo]
    omega
  have hbuffer : int32Max < bufferMax := by decide
  refine ⟨⟨⟨?_, ?_, ?_⟩, ?_⟩, h.pos, h.size, h.error, ?_, ?_, fun _ => h.hasData, h.data⟩
  · rw [h.size, h.capacity]
    omega
  · rw [h.capacity]
    omega
  · intro hnone
    rw [h.hasData] at hnone
    cases hnone
  · rw [h.pos, h.size]
    exact hpos
  · rw [h.capacity]
    omega
  · rw [h.capacity]
    omega

theorem reserve_spec (a : Alloc) (hp : Ready p) (hn : Fits p n) :
    Tries a p (Reserved p · n) (reserve a p n) := by
  obtain ⟨hmax, hfits⟩ := hn
  rw [reserve]
  by_cases hroom : p.dataPos + n ≤ p.dataCapacity
  · rw [if_pos hroom]
    refine .inr ⟨p, rfl, hp, rfl, rfl, rfl, le_rfl, hroom, ?_, fun _ _ => rfl⟩
    intro hn
    by_contra hnone
    have := hp.empty (by simpa using hnone)
    omega
  · have hgrow := hfits.resolve_left hroom
    have hint : int32Max < 2 ^ 32 := by decide
    have hpos := hp.pos
    have hsize := hp.size
    have hlarger : p.dataCapacity < p.growTo n := by
      rw [growTo]
      omega
    rw [if_neg hroom, growData, if_neg (by omega), growSize_eq hp (by omega), if_neg (by omega)]
    rcases continueWrite_spec a hp hlarger hgrow with hrefused | ⟨p', hrun, hgrown⟩
    · exact .inl hrefused
    · exact .inr ⟨p', hrun, hgrown.reserved hp hroom hgrow⟩

theorem reserve_tooLarge (a : Alloc) (hp : Ready p) (hn : n ≤ int32Max) (hlarge : ¬ Fits p n) :
    reserve a p n = (p, .badValue) := by
  have hint : int32Max < 2 ^ 32 := by decide
  have hpos := hp.pos
  have hsize := hp.size
  obtain ⟨hroom, hgrow⟩ := not_or.mp (not_and.mp hlarge hn)
  have hlarger : p.dataSize < p.growTo n := by
    rw [growTo]
    omega
  rw [reserve, if_neg hroom, growData, if_neg (by omega), growSize_eq hp (by omega),
    if_neg (by omega), continueWrite, if_pos (by omega)]

/-! ## Storing -/

/-- What a successful write of `bytes` does, with the padding that follows them. -/
structure Stored (p p' : Parcel) (bytes : Bytes) : Prop where
  ready : Ready p'
  pos : p'.dataPos = p.dataPos + padSize bytes.length
  size : p'.dataSize = max p.dataSize p'.dataPos
  error : p'.error = p.error
  capacity : p.dataCapacity ≤ p'.dataCapacity
  kept : ∀ i < p.dataPos, p'.data i = p.data i
  stored : Lib.Memory.read p'.data p.dataPos bytes.length = bytes
  padding : ∀ i, p.dataPos + bytes.length ≤ i → i < p'.dataPos → p'.data i = 0

theorem Reserved.finishWrite (h : Reserved p p' n) (hn : n ≤ int32Max) (mem : Mem) :
    { p' with data := mem }.finishWrite n
      = ({ p' with data := mem
                   dataPos := p.dataPos + n
                   dataSize := max p.dataSize (p.dataPos + n) }, .noError) := by
  have hint : int32Max < 2 ^ 32 := by decide
  rw [Parcel.finishWrite, if_neg (by omega)]
  rw [addSize_of_ready h.ready (by omega), h.pos, h.size]

theorem Reserved.stored (hp : Ready p) (h : Reserved p p' (padSize bytes.length)) (mem : Mem)
    (hkept : ∀ i < p.dataPos, mem i = p'.data i)
    (hbytes : Lib.Memory.read mem p.dataPos bytes.length = bytes)
    (hpadding : ∀ i, p.dataPos + bytes.length ≤ i → i < p.dataPos + padSize bytes.length →
      mem i = 0) :
    Stored p { p' with data := mem
                       dataPos := p.dataPos + padSize bytes.length
                       dataSize := max p.dataSize (p.dataPos + padSize bytes.length) } bytes where
  ready := by
    have hsize := h.ready.size
    have hroom := h.room
    rw [h.size] at hsize
    exact ⟨⟨max_le hsize hroom, h.ready.capacity, h.ready.empty⟩, le_max_right _ _⟩
  pos := rfl
  size := rfl
  error := h.error
  capacity := h.capacity
  kept := by
    intro i hi
    have hpos := hp.pos
    exact (hkept i hi).trans (h.data i (by omega))
  stored := hbytes
  padding := hpadding

structure Failed (p p' : Parcel) : Prop where
  ready : Ready p'
  kept : ∀ i < p.dataPos, p'.data i = p.data i

/-- A write stores its bytes or says that it fails, for a reason. -/
inductive Outcome (reason : Prop) (p : Parcel) (bytes : Bytes) :
    Option (Parcel × Status) → Prop
  | stored {p' : Parcel} (h : Stored p p' bytes) : Outcome reason p bytes (some (p', .noError))
  | failed {p' : Parcel} {status : Status} (hstatus : status ≠ .noError) (hreason : reason)
      (h : Failed p p') : Outcome reason p bytes (some (p', status))

theorem failed_error (hp : Ready p) (error : Status) : Failed p { p with error := error } :=
  ⟨⟨⟨hp.size, hp.capacity, hp.empty⟩, hp.pos⟩, fun _ _ => rfl⟩

theorem writeAligned_eq (a : Alloc) {p : Parcel} (hp : Ready p) {val : Bytes}
    (hmax : val.length ≤ int32Max) : p.writeAligned a val = match reserve a p val.length with
      | (p, .noError) => p.placeAligned val
      | (p, err) => some (p, err) := by
  have hint : int32Max < 2 ^ 32 := by decide
  rw [writeAligned, reserve, addSize_of_ready hp (by omega)]
  split_ifs <;> rfl

theorem writeAligned_spec (a : Alloc) {p : Parcel} (hp : Ready p) {val : Bytes}
    (haligned : padSize val.length = val.length) (hmax : val.length ≤ int32Max) :
    Outcome (a.Fails ∨ ¬ Fits p val.length) p val (p.writeAligned a val) := by
  have hint : int32Max < 2 ^ 32 := by decide
  have hrun := writeAligned_eq a hp hmax
  by_cases hfits : Fits p val.length
  · rcases reserve_spec a hp hfits with ⟨hfails, hreserve⟩ | ⟨p', hreserve, hroom⟩
    · rw [hrun, hreserve]
      exact .failed (by decide) (.inl hfails) (failed_error hp _)
    · have hspace := hroom.room
      rw [← hroom.pos] at hspace
      rw [hrun, hreserve]
      dsimp only
      rw [placeAligned, if_neg (by omega), hroom.finishWrite hmax, hroom.pos]
      rw [← haligned] at hroom
      have hstored := hroom.stored hp (Lib.Memory.write p'.data p.dataPos val)
        (fun i hi => write_of_lt _ _ hi) (read_write _ _ _) (by omega)
      rw [haligned] at hstored
      exact .stored hstored
  · rw [hrun, reserve_tooLarge a hp hmax hfits]
    exact .failed (by decide) (.inr hfits) (failed_error hp _)

def placed (p p' : Parcel) (len : Nat) : Parcel :=
  { p' with data := memcpy p'.data (p.dataPos + len) (fun _ => 0) (padSize len - len)
            dataPos := p.dataPos + padSize len
            dataSize := max p.dataSize (p.dataPos + padSize len) }

section

variable (a : Alloc) (hp : Ready p) (hlen : len ≤ int32Max)
include hp hlen

theorem writeInplace_reserve (hmax : padSize len ≤ int32Max) :
    p.writeInplace a len = match reserve a p (padSize len) with
      | (p, .noError) => p.placeInplace len
      | (p, _) => some (p, none) := by
  have hint : int32Max < 2 ^ 32 := by decide
  rw [writeInplace, if_neg (by omega), reserve]
  dsimp only
  rw [addSize_of_ready hp (by omega), if_neg (by omega)]
  split_ifs <;> rfl

theorem writeInplace_spec (hfits : Fits p (padSize len)) :
    (a.Fails ∧ p.writeInplace a len = some ({ p with error := .noMemory }, none)) ∨
      ∃ p', Reserved p p' (padSize len) ∧ p.writeInplace a len
        = some (placed p p' len, if p'.hasData then some p.dataPos else none) := by
  have hmax := hfits.1
  have hrun := writeInplace_reserve a hp hlen hmax
  rcases reserve_spec a hp hfits with ⟨hfails, hreserve⟩ | ⟨p', hreserve, hroom⟩
  · rw [hrun, hreserve]
    exact .inl ⟨hfails, rfl⟩
  · have hspace := hroom.room
    rw [← hroom.pos] at hspace
    refine .inr ⟨p', hroom, ?_⟩
    rw [hrun, hreserve]
    dsimp only
    rw [placeInplace, if_neg (by omega)]
    dsimp only
    rw [hroom.finishWrite hmax, hroom.pos, placed]

end

theorem Reserved.stored_placed (h : Reserved p p' (padSize len)) (hp : Ready p)
    (hlength : bytes.length = len) (mem : Mem)
    (hkept : ∀ i < p.dataPos, mem i = (placed p p' len).data i)
    (hbytes : Lib.Memory.read mem p.dataPos len = bytes)
    (hafter : ∀ i, p.dataPos + len ≤ i → mem i = (placed p p' len).data i) :
    Stored p { placed p p' len with data := mem } bytes := by
  subst hlength
  apply h.stored hp mem
  · intro i hi
    rw [hkept i hi]
    exact if_neg (by omega)
  · exact hbytes
  · intro i hle hlt
    rw [hafter i hle]
    exact if_pos ⟨hle, by omega⟩

section

variable (a : Alloc) (hp : Ready p) (src : Mem) (hlen : len ≤ int32Max)
include hp hlen

theorem write_spec (hfits : Fits p (padSize len)) :
    Outcome (a.Fails ∨ p.error ≠ .noError) p (Lib.Memory.read src 0 len) (p.write a src len) := by
  rw [write, if_neg (by omega)]
  rcases writeInplace_spec a hp hlen hfits with ⟨hfails, hrun⟩ | ⟨p', hroom, hrun⟩
  · rw [hrun]
    exact .failed (show Status.noMemory ≠ .noError by decide) (.inl hfails) (failed_error hp _)
  · have hspace := hroom.room
    have hle := le_padSize len
    rw [hrun]
    by_cases hdata : p'.hasData = true
    · rw [if_pos hdata]
      dsimp only
      rw [store, if_neg (by simp only [placed]; omega)]
      apply Outcome.stored
      apply hroom.stored_placed hp (length_read src 0 len)
      · exact fun i hi => memcpy_of_lt _ _ hi
      · exact read_memcpy _ _ _ _
      · exact fun i hi => memcpy_of_le _ _ hi
    · -- Nothing is written to a parcel without a buffer.
      have hzero : len = 0 := by
        by_contra hne
        exact hdata (hroom.hasData (by omega))
      subst hzero
      have hstored : Stored p (placed p p' 0) [] :=
        hroom.stored_placed hp rfl _ (fun _ _ => rfl) rfl (fun _ _ => rfl)
      rw [if_neg hdata]
      dsimp only
      cases herror : (placed p p' 0).error with
      | noError => exact .stored hstored
      | _ =>
        have hreason : p.error ≠ .noError := by
          rw [← hstored.error, herror]
          decide
        exact .failed (by decide) (.inr hreason) ⟨hstored.ready, hstored.kept⟩

/-- Without room, and without an error from before, `write` says that all is well. -/
theorem write_tooLarge (hmax : padSize len ≤ int32Max) (hlarge : ¬ Fits p (padSize len)) :
    p.write a src len = some (p, p.error) := by
  rw [write, if_neg (by omega), writeInplace_reserve a hp hlen hmax,
    reserve_tooLarge a hp hmax hlarge]

end

end Parcel

end ShieldTv.Binder
