import ShieldTv.Bionic.SystemProperties

/-!
# Updating and reading one property

The protocol between `__system_property_update`, run by the single writer, and
`__system_property_read`. The upper 8 bits of the serial hold the length of the value,
the lower 24 a version whose lowest bit says that an update is going on. Each access to a
serial and each byte of a copy is one step; a step that is not enabled changes nothing.
-/

namespace ShieldTv.Bionic.PropInfo

/-- What a caller passes: `len` bytes and the terminator after them. -/
structure Value where
  len : Nat
  bytes : Bytes
  length_bytes : bytes.length = len + 1

/-- The fields of `prop_info` and `prop_area` that change. -/
structure Memory where
  serial : UInt32
  value : Nat → UInt8
  areaSerial : UInt32

def serialValueLen (serial : UInt32) : Nat := (serial >>> 24).toNat

def serialDirty (serial : UInt32) : Bool := serial &&& 1 != 0

/-! ## The writer -/

/-- Where the writer stands in `__system_property_update`. -/
inductive Writer where
  | idle
  /-- The length has been checked. -/
  | started (value : Value)
  /-- `serial |= 1` has been computed. -/
  | loaded (value : Value) (serial : UInt32)
  /-- `serial` has been stored, and the first `i` bytes. -/
  | copying (value : Value) (serial : UInt32) (i : Nat)
  | stored
  /-- `pa->serial` has been loaded. -/
  | bumping (areaSerial : UInt32)

def nextSerial (len : Nat) (serial : UInt32) : UInt32 :=
  (UInt32.ofNat len <<< 24) ||| ((serial + 1) &&& 0xffffff)

def beginUpdate (value : Value) : Writer :=
  if value.len ≥ propValueMax then .idle else .started value

/-- One access of the writer; also the value of an update that ends with it. -/
def stepWriter (m : Memory) : Writer → Memory × Writer × Option Value
  | .idle => (m, .idle, none)
  | .started value => (m, .loaded value (m.serial ||| 1), none)
  | .loaded value serial => ({ m with serial := serial }, .copying value serial 0, none)
  | .copying value serial i =>
    match value.bytes[i]? with
    | some byte =>
      ({ m with value := Function.update m.value i byte }, .copying value serial (i + 1), none)
    | none => ({ m with serial := nextSerial value.len serial }, .stored, some value)
  | .stored => (m, .bumping m.areaSerial, none)
  | .bumping areaSerial => ({ m with areaSerial := areaSerial + 1 }, .idle, none)

/-! ## A reader -/

/-- Where a reader stands in `__system_property_read`. -/
inductive Reader where
  | idle
  /-- In `__system_property_serial`, before a load; `__futex_wait` may end at any time. -/
  | waiting
  /-- A clean serial has been loaded and these bytes copied. -/
  | copying (serial : UInt32) (bytes : Bytes)
  | returned (len : Nat) (bytes : Bytes)

def stepReader (m : Memory) : Reader → Reader
  | .idle => .idle
  | .waiting => if serialDirty m.serial then .waiting else .copying m.serial []
  | .copying serial bytes =>
    if bytes.length < serialValueLen serial + 1 then
      .copying serial (bytes ++ [m.value bytes.length])
    else if serial = m.serial then .returned (serialValueLen serial) bytes
    else .waiting
  | .returned len bytes => .returned len bytes

def beginRead : Reader → Reader
  | .idle => .waiting
  | .returned _ _ => .waiting
  | reader => reader

/-! ## Interleavings -/

/-- The writer, the readers and what they share. No step of the code reads `current`, the
value of the last update that has ended, or `updates`, their number. -/
structure State (ι : Type*) where
  memory : Memory
  writer : Writer
  readers : ι → Reader
  current : Value
  updates : Nat

inductive Action (ι : Type*) where
  | update (value : Value)
  | write
  | beginRead (i : ι)
  | read (i : ι)

variable {ι : Type*} [DecidableEq ι]

def step (s : State ι) : Action ι → State ι
  | .update value =>
    match s.writer with
    | .idle => { s with writer := beginUpdate value }
    | _ => s
  | .write =>
    match stepWriter s.memory s.writer with
    | (m, writer, none) => { s with memory := m, writer := writer }
    | (m, writer, some value) =>
      { s with memory := m, writer := writer, current := value, updates := s.updates + 1 }
  | .beginRead i => { s with readers := Function.update s.readers i (beginRead (s.readers i)) }
  | .read i =>
    { s with readers := Function.update s.readers i (stepReader s.memory (s.readers i)) }

def run (s : State ι) (actions : List (Action ι)) : State ι := actions.foldl step s

def newPropInfo (value : Value) : State ι where
  memory :=
    { serial := UInt32.ofNat value.len <<< 24
      value := fun i => value.bytes.getD i 0
      areaSerial := 0 }
  writer := .idle
  readers := fun _ => .idle
  current := value
  updates := 0

end ShieldTv.Bionic.PropInfo
