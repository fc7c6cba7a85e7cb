import ShieldTv.Binder.Proofs.ParcelWrites

/-!
# Reading back what was written

The wire format of a parcel: each value is a sequence of padded words. Writing a value appends
its encoding, and reading it takes its encoding from the position on.
-/

namespace ShieldTv.Binder

open Lib.Bytes Lib.Memory Parcel List

/-! ## The wire format -/

inductive Kind where
  | int32
  | int64
  | byteArray
  | cString
  | string8
  | string16

inductive Value where
  | int32 (val : Int)
  | int64 (val : Int)
  | byteArray (bytes : Bytes)
  | cString (bytes : Bytes)
  | string8 (bytes : Bytes)
  | string16 (units : List UInt16)
  deriving DecidableEq

def unitBytes (units : List UInt16) : Bytes :=
  units.flatMap fun unit => leBytes 2 unit.toNat

def bytesUnits : Bytes → List UInt16
  | low :: high :: bytes => UInt16.ofNat (leValue [low, high]) :: bytesUnits bytes
  | _ => []

namespace Value

def kind : Value → Kind
  | int32 _ => .int32
  | int64 _ => .int64
  | byteArray _ => .byteArray
  | cString _ => .cString
  | string8 _ => .string8
  | string16 _ => .string16

/-- The values that the C++ types have; a C string ends at its first zero. -/
def Valid : Value → Prop
  | int32 val => -2 ^ 31 ≤ val ∧ val < 2 ^ 31
  | int64 val => -2 ^ 63 ≤ val ∧ val < 2 ^ 63
  | cString bytes => 0 ∉ bytes
  | _ => True

def payload : Value → Bytes
  | int32 val => leBytes 4 (val % 2 ^ 32).toNat
  | int64 val => leBytes 8 (val % 2 ^ 64).toNat
  | byteArray bytes => leBytes 4 bytes.length ++ bytes
  | cString bytes => bytes ++ [0]
  | string8 bytes => leBytes 4 bytes.length ++ if bytes.length > 0 then bytes ++ [0] else []
  | string16 units => leBytes 4 units.length ++ (unitBytes units ++ [0, 0])

def size (value : Value) : Nat := padSize value.payload.length

/-- The caller's memory with a string and its terminator at the start. -/
def source (outside : Mem) (bytes : Bytes) : Mem := Lib.Memory.write outside 0 (bytes ++ [0])

def write (a b : Alloc) (outside : Mem) (p : Parcel) : Value → Option (Parcel × Status)
  | int32 val => p.writeInt32 a (val % 2 ^ 32).toNat
  | int64 val => p.writeInt64 a (val % 2 ^ 64).toNat
  | byteArray bytes => p.writeByteArray a b bytes.length (some (source outside bytes))
  | cString bytes => p.writeCString a (source outside bytes) bytes.length
  | string8 bytes => p.writeString8 a b (source outside bytes) bytes.length
  | string16 units =>
    p.writeString16 a b (some (source outside (unitBytes units))) units.length

end Value

/-- A value of the kind, or `none` where the reader returns an error or `NULL`. A byte array is
read as it is written, by its length and its bytes. -/
def Kind.read : Kind → Read (Option Value)
  | int32 => do return some (.int32 (← Read.readInt32))
  | int64 => do return some (.int64 (← Read.readInt64))
  | byteArray => do
    let len ← Read.readInt32
    let (status, bytes) ← Read.read len.toNat
    return if status = .noError then some (.byteArray bytes) else none
  | cString => do return (← Read.readCString).map .cString
  | string8 => do return some (.string8 (← Read.readString8))
  | string16 => do return (← Read.readString16).map fun bytes => .string16 (bytesUnits bytes)

def writeValues (alloc : Nat → Alloc × Alloc) (outside : Mem) (p : Parcel) :
    List Value → Option (Parcel × Status)
  | [] => some (p, .noError)
  | value :: values =>
    match value.write (alloc 0).1 (alloc 0).2 outside p with
    | some (p, .noError) => writeValues (fun i => alloc (i + 1)) outside p values
    | result => result

def readValues : List Kind → Read (List (Option Value))
  | [] => return []
  | kind :: kinds => do
    let value ← kind.read
    let values ← readValues kinds
    return value :: values

/-! ## Writing appends the encoding -/

namespace Value

def encode (value : Value) : Bytes :=
  value.payload ++ List.replicate (value.size - value.payload.length) 0

theorem length_encode (value : Value) : value.encode.length = value.size := by
  have := Read.le_padSize value.payload.length
  rw [encode, length_append, length_replicate]
  exact Nat.add_sub_cancel' this

theorem read_source (outside : Mem) (bytes : Bytes) :
    Lib.Memory.read (source outside bytes) 0 (bytes.length + 1) = bytes ++ [0] := by
  have h := read_write outside 0 (bytes ++ [0])
  rw [length_append] at h
  exact h

theorem read_source_bytes (outside : Mem) (bytes : Bytes) :
    Lib.Memory.read (source outside bytes) 0 bytes.length = bytes := by
  have h := read_source outside bytes
  rw [read_add] at h
  exact (append_inj h (length_read _ _ _)).1

theorem length_unitBytes (units : List UInt16) : (unitBytes units).length = units.length * 2 := by
  induction units with
  | nil => rfl
  | cons unit units ih =>
    rw [unitBytes, flatMap_cons, length_append, length_leBytes, ← unitBytes, ih, length_cons]
    omega

theorem call_bytes (outside : Mem) (bytes : Bytes) (units : List UInt16) :
    (WriteCall.writeByteArray bytes.length (some (source outside bytes))).bytes
        = (byteArray bytes).payload ∧
      (WriteCall.writeCString (source outside bytes) bytes.length).bytes = (cString bytes).payload ∧
      (WriteCall.writeString8 (source outside bytes) bytes.length).bytes = (string8 bytes).payload ∧
      (WriteCall.writeString16 (some (source outside (unitBytes units))) units.length).bytes
        = (string16 units).payload := by
  refine ⟨?_, ?_, ?_, ?_⟩
  · rw [WriteCall.bytes, WriteCall.arrayBytes, mul_one, read_source_bytes, payload]
  · rw [WriteCall.bytes, read_source, payload]
  · rw [WriteCall.bytes, read_source, payload]
  · rw [WriteCall.bytes, ← length_unitBytes, read_source_bytes, payload]

end Value

variable {p p' : Parcel} {bytes : Bytes} {a b : Alloc} {value : Value} {n pos : Nat}
  {values : List Value} {α β : Type} {x : Read α} {mem : Mem}

theorem Parcel.Outcome.success {reason : Prop} {result : Option (Parcel × Status)}
    (h : Outcome reason p bytes result) (hok : ¬ reason) :
    ∃ p', result = some (p', .noError) ∧ Stored p p' bytes := by
  cases h with
  | stored h => exact ⟨_, rfl, h⟩
  | failed _ hreason _ => exact absurd hreason hok

theorem WriteCall.run_success (ha : ¬ a.Fails) (hb : ¬ b.Fails) (hp : Ready p)
    (herror : p.error = .noError) {call : WriteCall} (hbytes : call.bytes = bytes)
    (hlong : ¬ call.TooLong) (hfits : Fits p (padSize bytes.length)) :
    ∃ p', call.run a b p = some (p', .noError) ∧ Stored p p' bytes := by
  subst hbytes
  apply (call.run_spec a b hp (Or.inr hfits)).success
  rintro (h | h | h | h)
  · exact ha h
  · exact hb h
  · exact h herror
  · exact hlong h

theorem writeAligned_success (ha : ¬ a.Fails) (hp : Ready p) {val : Bytes}
    (haligned : padSize val.length = val.length) (hfits : Fits p (padSize val.length)) :
    ∃ p', p.writeAligned a val = some (p', .noError) ∧ Stored p p' val := by
  rw [haligned] at hfits
  apply (writeAligned_spec a hp haligned hfits.1).success
  rintro (h | h)
  · exact ha h
  · exact h hfits

theorem Value.write_spec (ha : ¬ a.Fails) (hb : ¬ b.Fails) (outside : Mem) (hp : Ready p)
    (herror : p.error = .noError) (hfits : Fits p value.size) :
    ∃ p', value.write a b outside p = some (p', .noError) ∧ Stored p p' value.payload := by
  have hmax : value.payload.length ≤ int32Max :=
    (Read.le_padSize value.payload.length).trans hfits.1
  cases value with
  | int32 val | int64 val =>
    apply writeAligned_success ha hp _ hfits
    rw [payload, length_leBytes]
    decide
  | byteArray bytes =>
    apply WriteCall.run_success ha hb hp herror (call_bytes outside bytes []).1 _ hfits
    simp only [payload, length_append, length_leBytes, WriteCall.TooLong] at hmax ⊢
    omega
  | cString bytes =>
    apply WriteCall.run_success ha hb hp herror (call_bytes outside bytes []).2.1 _ hfits
    simp only [payload, length_append, length_singleton, WriteCall.TooLong] at hmax ⊢
    omega
  | string8 bytes =>
    apply WriteCall.run_success ha hb hp herror (call_bytes outside bytes []).2.2.1 _ hfits
    simp only [payload, length_append, length_leBytes, WriteCall.TooLong] at hmax ⊢
    split_ifs at hmax
    · rw [length_append, length_singleton] at hmax
      omega
    · rw [length_nil] at hmax
      omega
  | string16 units =>
    exact WriteCall.run_success ha hb hp herror (call_bytes outside [] units).2.2.2 not_false hfits

/-- A parcel that holds these bytes and is at their end. -/
structure Holds (p : Parcel) (bytes : Bytes) : Prop where
  ready : Ready p
  error : p.error = .noError
  pos : p.dataPos = bytes.length
  size : p.dataSize = bytes.length
  data : Lib.Memory.read p.data 0 bytes.length = bytes

theorem read_zeros {offset len : Nat} (h : ∀ i, offset ≤ i → i < offset + len → mem i = 0) :
    Lib.Memory.read mem offset len = List.replicate len 0 := by
  rw [eq_replicate_iff]
  refine ⟨length_read mem offset len, ?_⟩
  intro byte hmem
  obtain ⟨i, hi, rfl⟩ := mem_map.mp hmem
  have hlt := mem_range.mp hi
  exact h _ (by omega) (by omega)

theorem Parcel.Stored.encode (h : Stored p p' value.payload) :
    Lib.Memory.read p'.data p.dataPos value.size = value.encode := by
  have hpos := h.pos
  have hle := Read.le_padSize value.payload.length
  have hsize : value.size = value.payload.length + (value.size - value.payload.length) :=
    (Nat.add_sub_cancel' hle).symm
  have hzeros : Lib.Memory.read p'.data (p.dataPos + value.payload.length)
      (value.size - value.payload.length) =
        List.replicate (value.size - value.payload.length) 0 := by
    apply read_zeros
    intro i hi hlt
    refine h.padding i hi ?_
    rw [hpos, ← Value.size]
    omega
  rw [hsize, read_add, h.stored, hzeros, Value.encode]

theorem Holds.append (hp : Holds p bytes) (h : Stored p p' value.payload) :
    Holds p' (bytes ++ value.encode) := by
  have hpos := h.pos
  have hlength : (bytes ++ value.encode).length = bytes.length + value.size := by
    rw [length_append, value.length_encode]
  rw [hp.pos, ← Value.size] at hpos
  refine ⟨h.ready, h.error.trans hp.error, by omega, ?_, ?_⟩
  · rw [h.size, hp.size]
    omega
  · have hencode := h.encode
    rw [hp.pos] at hencode
    rw [hlength, read_add, zero_add, hencode]
    congr 1
    nth_rewrite 2 [← hp.data]
    apply read_congr
    intro i _ hlt
    exact h.kept i (by rw [hp.pos]; omega)

theorem Holds.fits (hp : Holds p bytes) (hn : bytes.length + n < 2 ^ 30) : Fits p n := by
  have hsize := hp.size
  have hint : int32Max = 2 ^ 31 - 1 := rfl
  refine ⟨by omega, Or.inr ?_⟩
  rw [growTo]
  omega

theorem writeValues_spec {alloc : Nat → Alloc × Alloc}
    (halloc : ∀ i, ¬ (alloc i).1.Fails ∧ ¬ (alloc i).2.Fails) (outside : Mem) (hp : Holds p bytes)
    (hsize : (bytes ++ values.flatMap Value.encode).length < 2 ^ 30) :
    ∃ p', writeValues alloc outside p values = some (p', .noError) ∧
      Holds p' (bytes ++ values.flatMap Value.encode) := by
  induction values generalizing p bytes alloc with
  | nil =>
    refine ⟨p, rfl, ?_⟩
    rw [flatMap_nil, append_nil]
    exact hp
  | cons value values ih =>
    rw [flatMap_cons, ← append_assoc] at hsize ⊢
    have hfits : Fits p value.size := by
      apply hp.fits
      rw [length_append, length_append, value.length_encode] at hsize
      omega
    obtain ⟨p₁, hrun, hstored⟩ :=
      value.write_spec (halloc 0).1 (halloc 0).2 outside hp.ready hp.error hfits
    obtain ⟨p', hrest, hholds⟩ := ih (fun i => halloc (i + 1)) (hp.append hstored) hsize
    refine ⟨p', ?_, hholds⟩
    rw [writeValues, hrun]
    exact hrest

/-! ## Reading takes the encoding -/

namespace Read

/-- A read returns a value and moves to a position. -/
def Returns {α : Type} (x : Read α) (p : Parcel) (a : α) (pos : Nat) : Prop :=
  ∃ examined, x p = some (a, { p with dataPos := pos }, examined)

theorem returns_pure (p : Parcel) (a : α) : Returns (pure a) p a p.dataPos :=
  ⟨[], rfl⟩

theorem Returns.bind {f : α → Read β} {a : α} {b : β} {mid : Nat} (hx : Returns x p a mid)
    (hf : Returns (f a) { p with dataPos := mid } b pos) : Returns (x >>= f) p b pos := by
  obtain ⟨first, hx⟩ := hx
  obtain ⟨second, hf⟩ := hf
  refine ⟨first ++ second, ?_⟩
  rw [bind_run hx, hf]
  rfl

theorem Returns.map {a : α} (hx : Returns x p a pos) (f : α → β) :
    Returns (x >>= fun a => pure (f a)) p (f a) pos :=
  hx.bind (returns_pure { p with dataPos := pos } (f a))

def At (p : Parcel) (bytes : Bytes) : Prop :=
  Lib.Memory.read p.data p.dataPos bytes.length = bytes ∧ p.dataPos + bytes.length ≤ p.dataSize

section

variable {first rest : Bytes} (h : At p (first ++ rest))
include h

theorem At.split : At p first ∧ At { p with dataPos := p.dataPos + first.length } rest := by
  obtain ⟨hread, hfits⟩ := h
  rw [length_append] at hread hfits
  rw [read_add] at hread
  obtain ⟨hfirst, hrest⟩ := append_inj hread (length_read _ _ _)
  exact ⟨⟨hfirst, by omega⟩, hrest, by dsimp only; omega⟩

theorem At.left : At p first := h.split.1

theorem At.right : At { p with dataPos := p.dataPos + first.length } rest := h.split.2

end

theorem At.inside (hp : Inside p) (h : At p bytes) :
    Inside { p with dataPos := p.dataPos + bytes.length } := ⟨h.2, hp.2⟩

theorem readInt32_returns (hp : Inside p) (h : At p (leBytes 4 n)) :
    Returns readInt32 p (toInt32 (n % 2 ^ 32)) (p.dataPos + 4) := by
  obtain ⟨hread, hfits⟩ := h
  rw [length_leBytes] at hread hfits
  refine ⟨[(p.dataPos, 4)], ?_⟩
  simp only [readInt32_run hp, int32At, if_pos hfits]
  rw [hread, leValue_leBytes, show (256 : Nat) ^ 4 = 2 ^ 32 by norm_num]

theorem readInt64_returns (hp : Inside p) (h : At p (leBytes 8 n)) :
    Returns readInt64 p (((n % 2 ^ 64 : Nat) : Int).bmod (2 ^ 64)) (p.dataPos + 8) := by
  obtain ⟨hread, hfits⟩ := h
  rw [length_leBytes] at hread hfits
  have haligned : Returns (readAligned 8) p (n % 2 ^ 64) (p.dataPos + 8) := by
    refine ⟨[(p.dataPos, 8)], ?_⟩
    rw [readAligned_run hp (by omega)]
    simp only [if_pos hfits]
    rw [hread, leValue_leBytes, show (256 : Nat) ^ 8 = 2 ^ 64 by norm_num]
  exact haligned.map fun bits : Nat => (bits : Int).bmod (2 ^ 64)

theorem bmod_bits {w : Nat} {val : Int} (hlow : -2 ^ w ≤ val) (hhigh : val < 2 ^ w) :
    (((val % 2 ^ (w + 1)).toNat % 2 ^ (w + 1) : Nat) : Int).bmod (2 ^ (w + 1)) = val := by
  have hbits : (((val % 2 ^ (w + 1)).toNat % 2 ^ (w + 1) : Nat) : Int) = val % 2 ^ (w + 1) := by
    rw [Int.natCast_mod, Int.toNat_of_nonneg (Int.emod_nonneg _ (by omega))]
    exact Int.emod_emod_of_dvd val dvd_rfl
  have hcast : ((2 ^ (w + 1) : Nat) : Int) = 2 ^ (w + 1) := by push_cast; rfl
  rw [hbits, ← hcast, Int.emod_bmod]
  apply Int.bmod_eq_of_le_mul_two
  · rw [hcast]
    omega
  · rw [hcast]
    omega

theorem toInt32_of_lt (hn : n < 2 ^ 31) : toInt32 (n % 2 ^ 32) = n := by
  have hmod : n % 2 ^ 32 = n := Nat.mod_eq_of_lt (by omega)
  simp only [hmod]
  apply Int.bmod_eq_of_le_mul_two
  · omega
  · omega

section

variable (hp : Inside p) {len : Nat} (h : At p bytes) (hlen : padSize len = bytes.length)
include hp h hlen

theorem fits_of_at :
    fits p len ∧ addSize p.dataPos (padSize len) = p.dataPos + bytes.length := by
  have hfits := h.2
  have hsize := hp.2
  have hpad := le_padSize len
  simp only [bufferMax] at hsize
  have hsum : addSize p.dataPos (padSize len) = p.dataPos + bytes.length := by
    rw [hlen, addSize]
    omega
  refine ⟨⟨?_, ?_, hpad⟩, hsum⟩
  · rw [hsum]
    omega
  · rw [hsum]
    exact hfits

variable (hmax : len ≤ int32Max)
include hmax

theorem read_returns : Returns (read len) p (.noError, Lib.Memory.read p.data p.dataPos len)
      (p.dataPos + bytes.length) := by
  obtain ⟨hfits, hsum⟩ := fits_of_at hp h hlen
  refine ⟨[(p.dataPos, len)], ?_⟩
  rw [read, parcel_bind, if_neg (by omega), if_pos hfits, hsum]
  rfl

theorem readInplace_returns :
    Returns (readInplace len) p (some p.dataPos) (p.dataPos + bytes.length) := by
  obtain ⟨hfits, hsum⟩ := fits_of_at hp h hlen
  refine ⟨[(p.dataPos, len)], ?_⟩
  rw [readInplace, parcel_bind, if_neg (by omega), if_pos hfits, hsum]
  rfl

end

theorem At.length_then {rest : Bytes} {zeros : Bytes} (hp : Inside p) (hn : n < 2 ^ 31)
    (h : At p (leBytes 4 n ++ rest ++ zeros)) :
    Returns readInt32 p n (p.dataPos + 4) ∧ Inside { p with dataPos := p.dataPos + 4 } ∧
      At { p with dataPos := p.dataPos + 4 } (rest ++ zeros) := by
  rw [append_assoc] at h
  have hlength := readInt32_returns hp h.left
  rw [toInt32_of_lt hn] at hlength
  have hinside := h.left.inside hp
  have hrest := h.right
  rw [length_leBytes] at hinside hrest
  exact ⟨hlength, hinside, hrest⟩

theorem read_succ (mem : Mem) (offset len : Nat) : Lib.Memory.read mem offset (len + 1)
      = mem offset :: Lib.Memory.read mem (offset + 1) len := by
  rw [add_comm len 1, read_add]
  rfl

theorem memchr_terminator {str avail : Nat}
    (hread : Lib.Memory.read mem str (bytes.length + 1) = bytes ++ [0]) (hzero : 0 ∉ bytes)
    (havail : bytes.length < avail) : memchr mem str avail = some bytes.length := by
  induction bytes generalizing str avail with
  | nil =>
    obtain ⟨avail, rfl⟩ := Nat.exists_eq_add_of_lt havail
    rw [read_succ] at hread
    have hbyte := (cons.inj hread).1
    rw [memchr, if_pos hbyte]
    rfl
  | cons byte bytes ih =>
    obtain ⟨avail, rfl⟩ := Nat.exists_eq_add_of_lt (Nat.zero_lt_of_lt havail)
    rw [zero_add] at havail ⊢
    rw [length_cons, read_succ, cons_append] at hread
    obtain ⟨hbyte, hrest⟩ := cons.inj hread
    obtain ⟨hne, hzero⟩ := not_or.mp (mt mem_cons.mpr hzero)
    rw [length_cons] at havail
    rw [memchr, if_neg (by rw [hbyte]; exact fun h => hne h.symm), ih hrest hzero (by omega)]
    rfl

section

variable (hp : Inside p) {zeros : Bytes}
include hp

theorem readCString_returns (hzero : 0 ∉ bytes) (h : At p (bytes ++ [0] ++ zeros))
    (hlen : padSize (bytes.length + 1) = (bytes ++ [0] ++ zeros).length) :
    Returns readCString p (some bytes) (p.dataPos + (bytes ++ [0] ++ zeros).length) := by
  obtain ⟨hread, hfits⟩ := h.left
  have hsize := hp.2
  have hall := h.2
  simp only [bufferMax] at hsize
  rw [length_append, length_singleton] at hread hfits
  have havail : addSize p.dataSize (2 ^ 64 - p.dataPos) = p.dataSize - p.dataPos := by
    rw [addSize]
    omega
  have hchr : memchr p.data p.dataPos (addSize p.dataSize (2 ^ 64 - p.dataPos))
      = some bytes.length := by
    rw [havail]
    exact memchr_terminator hread hzero (by omega)
  have hsum : addSize p.dataPos (padSize (bytes.length + 1))
      = p.dataPos + (bytes ++ [0] ++ zeros).length := by
    rw [hlen, addSize]
    omega
  refine ⟨[(p.dataPos, bytes.length + 1)], ?_⟩
  rw [readCString_run hchr, hsum, h.left.left.1]

theorem readString8_returns (hne : 0 < bytes.length) (hmax : bytes.length < int32Max)
    (h : At p (leBytes 4 bytes.length ++ (bytes ++ [0]) ++ zeros))
    (hlen : padSize (bytes.length + 1) = (bytes ++ [0] ++ zeros).length) :
    Returns readString8 p bytes (p.dataPos + 4 + (bytes ++ [0] ++ zeros).length) := by
  have hint : int32Max < 2 ^ 31 := by decide
  obtain ⟨hlength, hinside, hrest⟩ := At.length_then hp (by omega) h
  apply hlength.bind
  rw [if_pos (by omega), Int.toNat_natCast]
  apply (readInplace_returns hinside hrest hlen (by omega)).bind
  refine ⟨[], ?_⟩
  dsimp only
  rw [parcel_bind]
  dsimp only
  rw [hrest.left.left.1]
  rfl

theorem readString16_returns (hbytes : bytes.length = n * 2) (hmax : n * 2 + 2 ≤ int32Max)
    (h : At p (leBytes 4 n ++ (bytes ++ [0, 0]) ++ zeros))
    (hlen : padSize (n * 2 + 2) = (bytes ++ [0, 0] ++ zeros).length) :
    Returns readString16 p (some bytes) (p.dataPos + 4 + (bytes ++ [0, 0] ++ zeros).length) := by
  have hint : int32Max < 2 ^ 31 := by decide
  have htwice : (n + 1) * 2 = n * 2 + 2 := by omega
  obtain ⟨hlength, hinside, hrest⟩ := At.length_then hp (by omega) h
  apply hlength.bind
  rw [if_pos (by omega), Int.toNat_natCast, htwice]
  apply (readInplace_returns hinside hrest hlen hmax).bind
  refine ⟨[], ?_⟩
  dsimp only
  rw [parcel_bind]
  dsimp only
  rw [← hbytes, hrest.left.left.1]
  rfl

end

end Read

theorem bytesUnits_unitBytes (units : List UInt16) : bytesUnits (unitBytes units) = units := by
  induction units with
  | nil => rfl
  | cons unit units ih =>
    have hunit : UInt16.ofNat (leValue (leBytes 2 unit.toNat)) = unit := by
      rw [leValue_leBytes_of_lt unit.toNat_lt, UInt16.ofNat_toNat]
    rw [unitBytes, flatMap_cons, ← unitBytes]
    exact congrArg₂ List.cons hunit ih

open Read

theorem Value.size_of_length (value : Value) {tail : Bytes}
    (hpayload : value.payload = leBytes 4 n ++ tail) :
    value.size = 4 + padSize tail.length ∧ padSize tail.length
        = (tail ++ List.replicate (value.size - value.payload.length) 0).length := by
  have hlength : value.payload.length = 4 + tail.length := by
    rw [hpayload, length_append, length_leBytes]
  have hsize : value.size = 4 + padSize tail.length := by
    rw [Value.size, hlength, padSize_add (by decide)]
  have hle := le_padSize tail.length
  refine ⟨hsize, ?_⟩
  rw [length_append, length_replicate, hsize, hlength]
  omega

/-- A reader takes the encoding of a value of its kind. -/
theorem Kind.read_returns (hp : Inside p) (hvalid : value.Valid) (hsize : value.size ≤ int32Max)
    (h : At p value.encode) : Returns value.kind.read p (some value) (p.dataPos + value.size) := by
  have hint : int32Max < 2 ^ 31 := by decide
  rw [Value.encode] at h
  cases value with
  | int32 val =>
    have hreturns := readInt32_returns hp h.left
    have hval : toInt32 ((val % 2 ^ 32).toNat % 2 ^ 32) = val := bmod_bits hvalid.1 hvalid.2
    have hfour : (Value.int32 val).size = 4 := by
      rw [Value.size, Value.payload, length_leBytes]
      decide
    rw [hval] at hreturns
    rw [hfour]
    exact hreturns.map fun val => some (Value.int32 val)
  | int64 val =>
    have hreturns := readInt64_returns hp h.left
    have height : (Value.int64 val).size = 8 := by
      rw [Value.size, Value.payload, length_leBytes]
      decide
    rw [bmod_bits hvalid.1 hvalid.2] at hreturns
    rw [height]
    exact hreturns.map fun val => some (Value.int64 val)
  | byteArray bytes =>
    obtain ⟨htotal, hpad⟩ := Value.size_of_length (.byteArray bytes) rfl
    have hle := le_padSize bytes.length
    obtain ⟨hlength, hinside, hrest⟩ := At.length_then hp (by omega) h
    have hread := Read.read_returns hinside hrest hpad (by omega)
    rw [hrest.left.1] at hread
    rw [htotal, hpad, ← add_assoc]
    apply hlength.bind
    rw [Int.toNat_natCast]
    exact hread.map fun result =>
      if result.1 = Status.noError then some (Value.byteArray result.2) else none
  | cString bytes =>
    have htotal : (Value.cString bytes).size = padSize (bytes.length + 1) := by
      rw [Value.size, Value.payload, length_append, length_singleton]
    have hpad := htotal.symm.trans (Value.length_encode (.cString bytes)).symm
    have hreturns := readCString_returns hp hvalid h hpad
    rw [htotal, hpad]
    exact hreturns.map fun str => str.map Value.cString
  | string8 bytes =>
    by_cases hne : 0 < bytes.length
    · have hbytes : (Value.string8 bytes).payload
          = leBytes 4 bytes.length ++ (bytes ++ [0]) := by rw [Value.payload, if_pos hne]
      obtain ⟨htotal, hpad⟩ := Value.size_of_length (.string8 bytes) hbytes
      have hle := le_padSize (bytes ++ [0]).length
      rw [hbytes] at h
      rw [length_append, length_singleton] at htotal hle
      rw [hbytes, length_append, length_singleton] at hpad
      have hreturns := readString8_returns hp hne (by omega) h hpad
      rw [htotal, ← add_assoc, hpad]
      exact hreturns.map fun str => some (Value.string8 str)
    · obtain rfl : bytes = [] := eq_nil_of_length_eq_zero (by omega)
      have hreturns := readInt32_returns hp h.left.left
      rw [toInt32_of_lt (by decide)] at hreturns
      have hstring : Returns readString8 p [] (p.dataPos + 4) := hreturns.bind ⟨[], rfl⟩
      exact hstring.map fun str => some (Value.string8 str)
  | string16 units =>
    obtain ⟨htotal, hpad⟩ := Value.size_of_length (.string16 units) rfl
    have hlength := Value.length_unitBytes units
    have hle := le_padSize (unitBytes units ++ [0, 0]).length
    have htwo : (unitBytes units ++ [0, 0]).length = units.length * 2 + 2 := by
      rw [length_append, hlength]
      rfl
    rw [htwo] at hpad hle htotal
    have hreturns := readString16_returns hp hlength (by omega) h hpad
    have hvalue := hreturns.map fun str => str.map fun bytes => Value.string16 (bytesUnits bytes)
    rw [Option.map_some, bytesUnits_unitBytes] at hvalue
    rw [htotal, ← add_assoc, hpad]
    exact hvalue

theorem readValues_returns (hp : Inside p) (hvalid : ∀ value ∈ values, value.Valid)
    (hsize : (values.flatMap Value.encode).length ≤ int32Max)
    (h : At p (values.flatMap Value.encode)) :
    Returns (readValues (values.map Value.kind)) p (values.map some)
      (p.dataPos + (values.flatMap Value.encode).length) := by
  induction values generalizing p with
  | nil => exact returns_pure p []
  | cons value values ih =>
    have hfirst : value.Valid := hvalid value mem_cons_self
    have hrest : ∀ value ∈ values, value.Valid := fun value hmem =>
      hvalid value (mem_cons_of_mem _ hmem)
    rw [flatMap_cons] at h hsize ⊢
    rw [length_append] at hsize ⊢
    have hvalue := Kind.read_returns hp hfirst (by rw [← value.length_encode]; omega) h.left
    have hvalues := ih (h.left.inside hp) hrest (by omega) h.right
    rw [value.length_encode] at hvalues ⊢
    rw [← add_assoc]
    exact hvalue.bind (hvalues.map fun values => some value :: values)

/-- Everything that a parcel holds is read back from its start, and nothing is left. -/
theorem Holds.read_back (p₀ : Parcel) (hp : Holds p (values.flatMap Value.encode))
    (hvalid : ∀ value ∈ values, value.Valid) (hsize : (values.flatMap Value.encode).length < 2 ^ 30)
    (hpos : p₀.dataPos = 0) (hdataSize : p₀.dataSize = p.dataSize)
    (hdata : Lib.Memory.read p₀.data 0 p.dataSize = Lib.Memory.read p.data 0 p.dataSize) :
    ∃ p' examined, readValues (values.map Value.kind) p₀ = some (values.map some, p', examined) ∧
      p'.dataAvail = 0 := by
  have hint : 2 ^ 30 ≤ int32Max := by decide
  have hbuffer : 2 ^ 30 ≤ bufferMax := by decide
  have hlength := hp.size
  have hinside : Inside p₀ := ⟨by omega, by omega⟩
  have hat : At p₀ (values.flatMap Value.encode) := by
    refine ⟨?_, by omega⟩
    rw [hpos, ← hlength, hdata, hlength]
    exact hp.data
  obtain ⟨examined, hread⟩ := readValues_returns hinside hvalid (by omega) hat
  refine ⟨_, examined, hread, ?_⟩
  rw [dataAvail, totalSize]
  dsimp only
  omega

/-- Values that are written to a new parcel are read back from its start, and from a parcel that
has received its bytes. -/
theorem values_read_back {alloc : Nat → Alloc × Alloc}
    (halloc : ∀ i, ¬ (alloc i).1.Fails ∧ ¬ (alloc i).2.Fails) (outside : Mem)
    {values : List Value} (hvalid : ∀ value ∈ values, value.Valid)
    (hsize : (values.flatMap Value.encode).length < 2 ^ 30) :
    ∃ p, writeValues alloc outside {} values = some (p, .noError) ∧
      (∃ p₀ p' examined, p.setDataPosition 0 = some p₀ ∧
        readValues (values.map Value.kind) p₀ = some (values.map some, p', examined) ∧
        p'.dataAvail = 0) ∧
      ∀ received : Mem,
        Lib.Memory.read received 0 p.dataSize = Lib.Memory.read p.data 0 p.dataSize →
        ∃ p' examined, readValues (values.map Value.kind)
            (ipcSetDataReference received p.dataSize []).1 = some (values.map some, p', examined) ∧
          p'.dataAvail = 0 := by
  have hempty : Holds {} [] := ⟨⟨Initial.empty.sound, le_rfl⟩, rfl, rfl, rfl, rfl⟩
  obtain ⟨p, hwrite, hholds⟩ := writeValues_spec halloc outside hempty hsize
  rw [nil_append] at hholds
  refine ⟨p, hwrite, ?_, ?_⟩
  · obtain ⟨p', examined, hread⟩ := hholds.read_back { p with dataPos := 0, nextObjectHint := 0 }
      hvalid hsize rfl rfl rfl
    exact ⟨_, p', examined, rfl, hread⟩
  · intro received hreceived
    exact hholds.read_back (ipcSetDataReference received p.dataSize []).1 hvalid hsize rfl rfl
      hreceived

/-- An allocator that always gives memory, which is not cleared. -/
def plentiful : Nat → Alloc × Alloc := fun _ =>
  (⟨some fun _ => 7, true⟩, ⟨some fun _ => 7, true⟩)

theorem values_read_back_three :
    ∃ p p₀ p' examined,
      writeValues plentiful (fun _ => 9) {}
        [.int32 (-5), .string8 [], .string16 [0x61, 0]] = some (p, .noError) ∧
      p.setDataPosition 0 = some p₀ ∧
      readValues [.int32, .string8, .string16] p₀
        = some ([some (.int32 (-5)), some (.string8 []), some (.string16 [0x61, 0])],
          p', examined) := by
  have hvalid : ∀ value ∈ [Value.int32 (-5), .string8 [], .string16 [0x61, 0]], value.Valid := by
    simp [Value.Valid]
  have halloc : ∀ i, ¬ (plentiful i).1.Fails ∧ ¬ (plentiful i).2.Fails := by
    simp [plentiful, Alloc.Fails]
  obtain ⟨p, hwrite, ⟨p₀, p', examined, hpos, hread, _⟩, _⟩ :=
    values_read_back halloc (fun _ => 9) hvalid (by decide)
  exact ⟨p, p₀, p', examined, hwrite, hpos, hread⟩

end ShieldTv.Binder
