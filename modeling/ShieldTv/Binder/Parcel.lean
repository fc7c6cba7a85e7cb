import ShieldTv.Lib.Memory

/-!
# `Parcel`

A parcel on a 64-bit little-endian machine: its buffer, the position in it and the offsets of
the binder objects in it. References to binder objects are left out.

The memory behind `mData` is a function from offsets; `mDataCapacity` says how much of it
belongs to the parcel. A write that leaves it is undefined and has the result `none`.
-/

namespace ShieldTv.Binder

open Lib.Bytes Lib.Memory

inductive Status where
  | noError
  | badValue
  | noMemory
  | notEnoughData
  deriving DecidableEq, Repr

def int32Max : Nat := 2 ^ 31 - 1

def addSize (a b : Nat) : Nat := (a + b) % 2 ^ 64

/-- `pad_size`, for sizes that are at most `INT32_MAX`. -/
def padSize (s : Nat) : Nat := (s + 3) / 4 * 4

def memcpy (mem : Mem) (dst : Nat) (src : Mem) (len : Nat) : Mem := fun i =>
  if dst ≤ i ∧ i < dst + len then src (i - dst) else mem i

structure Parcel where
  error : Status := .noError
  /-- `mData != NULL`. -/
  hasData : Bool := false
  data : Mem := fun _ => 0
  dataSize : Nat := 0
  dataCapacity : Nat := 0
  dataPos : Nat := 0
  objects : List Nat := []
  nextObjectHint : Nat := 0
  /-- `mOwner != NULL`: the buffer belongs to someone else. -/
  owner : Bool := false
  hasFds : Bool := false

/-- What the allocator answers in one call of `continueWrite`: the contents of the new memory
or `NULL`, and whether the object list is allocated. -/
structure Alloc where
  data : Option Mem
  objects : Bool

namespace Parcel

/-! ## Growing -/

def keepObjects (p : Parcel) (desired : Nat) : List Nat :=
  if desired < p.dataSize then
    if desired = 0 then []
    else (p.objects.reverse.dropWhile (fun offset => desired ≤ offset)).reverse
  else p.objects

def takeOwnership (a : Alloc) (p : Parcel) (desired : Nat) : Parcel × Status :=
  let objects := p.keepObjects desired
  if desired = 0 then ({}, .noError)
  else
    match a.data with
    | none => ({ p with error := .noMemory }, .noMemory)
    | some fresh =>
      if objects ≠ [] ∧ ¬ a.objects then ({ p with error := .noMemory }, .noMemory)
      else
        ({ p with
            owner := false
            hasData := true
            data := if p.hasData then memcpy fresh 0 p.data (min p.dataSize desired) else fresh
            dataSize := min p.dataSize desired
            dataCapacity := desired
            objects := objects
            nextObjectHint := 0 }, .noError)

def resize (a : Alloc) (p : Parcel) (desired : Nat) : Parcel × Status :=
  let objects := p.keepObjects desired
  let p := if objects.length < p.objects.length
    then { p with objects := objects, nextObjectHint := 0 } else p
  if desired > p.dataCapacity then
    match a.data with
    | some fresh =>
      ({ p with data := memcpy fresh 0 p.data p.dataCapacity, dataCapacity := desired }, .noError)
    | none => ({ p with error := .noMemory }, .noMemory)
  else
    ({ p with dataSize := min p.dataSize desired, dataPos := min p.dataPos desired }, .noError)

def firstData (a : Alloc) (p : Parcel) (desired : Nat) : Parcel × Status :=
  match a.data with
  | none => ({ p with error := .noMemory }, .noMemory)
  | some fresh =>
    ({ p with hasData := true, data := fresh, dataSize := 0, dataPos := 0,
              dataCapacity := desired }, .noError)

def continueWrite (a : Alloc) (p : Parcel) (desired : Nat) : Parcel × Status :=
  if desired > int32Max then (p, .badValue)
  else if p.owner then p.takeOwnership a desired
  else if p.hasData then p.resize a desired
  else p.firstData a desired

def growSize (p : Parcel) (len : Nat) : Nat := addSize p.dataSize len * 3 % 2 ^ 64 / 2

def growData (a : Alloc) (p : Parcel) (len : Nat) : Parcel × Status :=
  if len > int32Max then (p, .badValue)
  else if p.growSize len ≤ p.dataSize then (p, .noMemory)
  else p.continueWrite a (p.growSize len)

/-! ## Writing -/

def finishWrite (p : Parcel) (len : Nat) : Parcel × Status :=
  if len > int32Max then (p, .badValue)
  else
    let pos := addSize p.dataPos len
    ({ p with dataPos := pos, dataSize := max p.dataSize pos }, .noError)

/-- `writeInplace` after `restart_write`: the word that is padded and the new position. The
result is the offset of the pointer that is returned; without a buffer it is `NULL`. -/
def placeInplace (p : Parcel) (len : Nat) : Option (Parcel × Option Nat) :=
  let padded := padSize len
  if padded ≠ len ∧ p.dataCapacity < p.dataPos + padded then none
  else
    let mem := memcpy p.data (p.dataPos + len) (fun _ => 0) (padded - len)
    let pointer := if p.hasData then some p.dataPos else none
    some (({ p with data := mem }.finishWrite padded).1, pointer)

def writeInplace (a : Alloc) (p : Parcel) (len : Nat) : Option (Parcel × Option Nat) :=
  if len > int32Max then some (p, none)
  else
    let padded := padSize len
    if addSize p.dataPos padded < p.dataPos then some (p, none)
    else if addSize p.dataPos padded ≤ p.dataCapacity then p.placeInplace len
    else
      match p.growData a padded with
      | (p, .noError) => p.placeInplace len
      | (p, _) => some (p, none)

/-- A copy into memory that a pointer of `writeInplace` leads to. -/
def store (p : Parcel) (offset : Nat) (src : Mem) (len : Nat) : Option Parcel :=
  if 0 < len ∧ p.dataCapacity < offset + len then none
  else some { p with data := memcpy p.data offset src len }

def write (a : Alloc) (p : Parcel) (src : Mem) (len : Nat) : Option (Parcel × Status) :=
  if len > int32Max then some (p, .badValue)
  else
    match p.writeInplace a len with
    | none => none
    | some (p, none) => some (p, p.error)
    | some (p, some pointer) => (p.store pointer src len).map fun p => (p, .noError)

def placeAligned (p : Parcel) (val : Bytes) : Option (Parcel × Status) :=
  if p.dataCapacity < p.dataPos + val.length then none
  else some ({ p with data := Lib.Memory.write p.data p.dataPos val }.finishWrite val.length)

def writeAligned (a : Alloc) (p : Parcel) (val : Bytes) : Option (Parcel × Status) :=
  if addSize p.dataPos val.length ≤ p.dataCapacity then p.placeAligned val
  else
    match p.growData a val.length with
    | (p, .noError) => p.placeAligned val
    | (p, err) => some (p, err)

/-- `writeInt32` and `writeInt64`, of the bits of the number. -/
def writeInt32 (a : Alloc) (p : Parcel) (val : Nat) : Option (Parcel × Status) :=
  p.writeAligned a (leBytes 4 val)

def writeInt64 (a : Alloc) (p : Parcel) (val : Nat) : Option (Parcel × Status) :=
  p.writeAligned a (leBytes 8 val)

/-- A length and then the data: the part that `writeByteArray` and `writeInt32Array` share. -/
def writeArray (a b : Alloc) (p : Parcel) (width len : Nat) (val : Option Mem) :
    Option (Parcel × Status) :=
  if len > int32Max then some (p, .badValue)
  else
    match val with
    | none => p.writeInt32 a (2 ^ 32 - 1)
    | some val =>
      match p.writeInt32 a len with
      | some (p, .noError) => p.write b val (len * width)
      | result => result

def writeByteArray (a b : Alloc) (p : Parcel) (len : Nat) (val : Option Mem) :
    Option (Parcel × Status) := p.writeArray a b 1 len val

def writeInt32Array (a b : Alloc) (p : Parcel) (len : Nat) (val : Option Mem) :
    Option (Parcel × Status) := p.writeArray a b 4 len val

def writeCString (a : Alloc) (p : Parcel) (str : Mem) (len : Nat) : Option (Parcel × Status) :=
  p.write a str (len + 1)

/-- `writeString8`; an empty string is only its length. -/
def writeString8 (a b : Alloc) (p : Parcel) (str : Mem) (bytes : Nat) :
    Option (Parcel × Status) :=
  match p.writeInt32 a bytes with
  | some (p, .noError) => if bytes > 0 then p.write b str (bytes + 1) else some (p, .noError)
  | result => result

/-- The end of `writeString16`: the characters, as bytes, and a terminator. -/
def storeString16 (p : Parcel) (pointer : Nat) (str : Mem) (len : Nat) : Option Parcel :=
  (p.store pointer str len).bind fun p => p.store (pointer + len) (fun _ => 0) 2

/-- `writeString16`, of the bytes of `len` characters. -/
def writeString16 (a b : Alloc) (p : Parcel) (str : Option Mem) (len : Nat) :
    Option (Parcel × Status) :=
  match str with
  | none => p.writeInt32 a (2 ^ 32 - 1)
  | some str =>
    match p.writeInt32 a len with
    | some (p, .noError) =>
      let len := len * 2 % 2 ^ 64
      match p.writeInplace b (addSize len 2) with
      | none => none
      | some (p, none) => some (p, p.error)
      | some (p, some pointer) => (p.storeString16 pointer str len).map fun p => (p, .noError)
    | result => result

/-! ## Position -/

def setDataPosition (p : Parcel) (pos : Nat) : Option Parcel :=
  if pos > int32Max then none else some { p with dataPos := pos, nextObjectHint := 0 }

/-- `dataSize()` and `dataAvail()`. -/
def totalSize (p : Parcel) : Nat := max p.dataSize p.dataPos

def dataAvail (p : Parcel) : Nat := p.totalSize - p.dataPos

end Parcel

/-! ## Reading -/

/-- A part of the buffer: an offset and a length. -/
abbrev Extent := Nat × Nat

/-- A read: its result, the parcel with its new position, and the parts of the buffer that were
examined or returned. `none` is `abort()`. -/
def Read (α : Type) : Type := Parcel → Option (α × Parcel × List Extent)

namespace Read

instance : Monad Read where
  pure a := fun p => some (a, p, [])
  bind x f := fun p =>
    match x p with
    | none => none
    | some (a, p, first) =>
      match f a p with
      | none => none
      | some (b, p, second) => some (b, p, first ++ second)

def parcel : Read Parcel := fun p => some (p, p, [])

def examine (offset len : Nat) : Read Unit := fun p => some ((), p, [(offset, len)])

def moveTo (pos : Nat) : Read Unit := fun p => some ((), { p with dataPos := pos }, [])

def fits (p : Parcel) (len : Nat) : Prop :=
  addSize p.dataPos (padSize len) ≥ p.dataPos ∧ addSize p.dataPos (padSize len) ≤ p.dataSize ∧
    len ≤ padSize len

instance (p : Parcel) (len : Nat) : Decidable (fits p len) := by
  unfold fits
  infer_instance

def readInplace (len : Nat) : Read (Option Nat) := do
  let p ← parcel
  if len > int32Max then return none
  else if fits p len then
    examine p.dataPos len
    moveTo (addSize p.dataPos (padSize len))
    return some p.dataPos
  else return none

def read (len : Nat) : Read (Status × Bytes) := do
  let p ← parcel
  if len > int32Max then return (.badValue, [])
  else if fits p len then
    examine p.dataPos len
    moveTo (addSize p.dataPos (padSize len))
    return (.noError, Lib.Memory.read p.data p.dataPos len)
  else return (.notEnoughData, [])

def readAligned (size : Nat) : Read Nat := do
  let p ← parcel
  if addSize p.dataPos size ≤ p.dataSize then
    examine p.dataPos size
    moveTo (addSize p.dataPos size)
    return leValue (Lib.Memory.read p.data p.dataPos size)
  else return 0

def toInt32 (bits : Nat) : Int := (bits : Int).bmod (2 ^ 32)

def readInt32 : Read Int := do return toInt32 (← readAligned 4)

def readInt64 : Read Int := do return ((← readAligned 8 : Nat) : Int).bmod (2 ^ 64)

/-- `memchr(str, 0, avail)`: how far the first zero is. -/
def memchr (mem : Mem) (str : Nat) : Nat → Option Nat
  | 0 => none
  | avail + 1 => if mem str = 0 then some 0 else (memchr mem (str + 1) avail).map (· + 1)

def readCString : Read (Option Bytes) := do
  let p ← parcel
  let avail := addSize p.dataSize (2 ^ 64 - p.dataPos)
  if avail > 0 then
    match memchr p.data p.dataPos avail with
    | some len =>
      examine p.dataPos (len + 1)
      moveTo (addSize p.dataPos (padSize (len + 1)))
      return some (Lib.Memory.read p.data p.dataPos len)
    | none =>
      examine p.dataPos avail
      return none
  else return none

def readString8 : Read Bytes := do
  let size ← readInt32
  if size > 0 ∧ size < int32Max then
    match ← readInplace (size.toNat + 1) with
    | some str => return Lib.Memory.read (← parcel).data str size.toNat
    | none => return []
  else return []

/-- `readString16` and `readString16Inplace`: the bytes of the characters. -/
def readString16 : Read (Option Bytes) := do
  let size ← readInt32
  if size ≥ 0 ∧ size < int32Max then
    match ← readInplace ((size.toNat + 1) * 2) with
    | some str => return some (Lib.Memory.read (← parcel).data str (size.toNat * 2))
    | none => return none
  else return none

def setDataPosition (pos : Nat) : Read Unit := fun p =>
  (p.setDataPosition pos).map fun p => ((), p, [])

/-- The reply header that starts at `start`: its size is read and the position moved behind it.
The sum of the two `int32_t` is converted to `size_t`. -/
def skipHeader (start : Int) : Read Int := do
  let headerSize ← readInt32
  setDataPosition ((start + headerSize).bmod (2 ^ 32) % 2 ^ 64).toNat
  return 0

def readExceptionCode : Read Int := do
  let code ← readInt32
  if code = -128 then skipHeader (toInt32 (← parcel).dataPos)
  else return code

/-! ## Objects -/

def sizeofFlatBinderObject : Nat := 24

def binderTypeFd : Nat := 0x66642a85

/-- The forward search of `readObject`, from `opos` on. -/
def searchForward (objects : List Nat) (pos : Nat) : Nat → Nat → Nat
  | 0, opos => opos
  | rounds + 1, opos =>
    if opos < objects.length - 1 ∧ objects.getD opos 0 < pos then
      searchForward objects pos rounds (opos + 1)
    else opos

def searchBackward (objects : List Nat) (pos : Nat) : Nat → Nat
  | 0 => 0
  | opos + 1 =>
    if objects.getD (opos + 1) 0 > pos then searchBackward objects pos opos else opos + 1

/-- `readObject` after its test for null: the object at `pos`, if it is in the list. -/
def findObject (pos : Nat) : Read (Option Nat) := do
  let p ← parcel
  let n := p.objects.length
  if n > 0 then
    let opos := if p.nextObjectHint < n
      then searchForward p.objects pos n p.nextObjectHint else n - 1
    if p.objects.getD opos 0 = pos then
      fun p => some (some pos, { p with nextObjectHint := opos + 1 }, [])
    else
      let opos := searchBackward p.objects pos opos
      if p.objects.getD opos 0 = pos then
        fun p => some (some pos, { p with nextObjectHint := opos + 1 }, [])
      else return none
  else return none

def readObject (nullMetaData : Bool) : Read (Option Nat) := do
  let p ← parcel
  let pos := p.dataPos
  if addSize pos sizeofFlatBinderObject ≤ p.dataSize then
    examine pos sizeofFlatBinderObject
    moveTo (addSize pos sizeofFlatBinderObject)
    let binder := leValue (Lib.Memory.read p.data (pos + 8) 8)
    let cookie := leValue (Lib.Memory.read p.data (pos + 16) 8)
    if !nullMetaData ∧ cookie = 0 ∧ binder = 0 then return some pos
    else findObject pos
  else return none

end Read

namespace Parcel

/-- The loop of `ipcSetDataReference`: offsets that leave room for each other. -/
def objectsInOrder : Nat → List Nat → Bool
  | _, [] => true
  | minOffset, offset :: offsets =>
    if offset < minOffset then false
    else objectsInOrder (addSize offset Read.sizeofFlatBinderObject) offsets

def scanForFds (mem : Mem) : List Nat → Bool × List Extent
  | [] => (false, [])
  | offset :: offsets =>
    if leValue (Lib.Memory.read mem offset 4) = Read.binderTypeFd then (true, [(offset, 4)])
    else
      let rest := scanForFds mem offsets
      (rest.1, (offset, 4) :: rest.2)

def ipcSetDataReference (data : Mem) (dataSize : Nat) (objects : List Nat) :
    Parcel × List Extent :=
  let objects := if objectsInOrder 0 objects then objects else []
  let scan := scanForFds data objects
  ({ hasData := true, data := data, dataSize := dataSize, dataCapacity := dataSize,
     objects := objects, owner := true, hasFds := scan.1 }, scan.2)

end Parcel

end ShieldTv.Binder
