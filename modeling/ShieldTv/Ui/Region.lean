import ShieldTv.Lib.Bytes

/-!
# Regions on the wire

`Rect::reduce`, and `Region::flatten`, `unflatten` and `validate` (`Region.cpp`).  The storage of
a region holds its rectangles followed by their bounds, or one rectangle alone.  `none` stands for
a read or a write outside the buffer or the storage, and `w` is the width of `size_t`.
-/

namespace ShieldTv.Ui

open Lib.Bytes List

/-! ## Rectangles -/

structure Rect where
  left : Int32
  top : Int32
  right : Int32
  bottom : Int32
  deriving DecidableEq

namespace Rect

def isValid (r : Rect) : Bool := r.right - r.left ≥ 0 && r.bottom - r.top ≥ 0

def invalidRect : Rect := ⟨0, 0, -1, -1⟩

def lt (r rhs : Rect) : Bool :=
  if r.top < rhs.top then true
  else if r.top = rhs.top then
    if r.left < rhs.left then true
    else if r.left = rhs.left then
      if r.bottom < rhs.bottom then true
      else if r.bottom = rhs.bottom then r.right < rhs.right
      else false
    else false
  else false

def sizeofRect : Nat := 16

/-- The object as it lies in memory. -/
def toBytes (r : Rect) : Bytes :=
  leBytes 4 r.left.toUInt32.toNat ++ (leBytes 4 r.top.toUInt32.toNat ++
    (leBytes 4 r.right.toUInt32.toNat ++ leBytes 4 r.bottom.toUInt32.toNat))

def int32At (bytes : Bytes) (offset : Nat) : Int32 :=
  (UInt32.ofNat (leValue (slice bytes offset 4))).toInt32

def ofBytes (bytes : Bytes) : Rect :=
  ⟨int32At bytes 0, int32At bytes 4, int32At bytes 8, int32At bytes 12⟩

/-! ## `Rect::reduce` -/

def reduce (r exclude : Rect) : Rect :=
  let mask :=
    (if exclude.left > r.left then 1 else 0) ||| (if exclude.top > r.top then 2 else 0) |||
    (if exclude.right < r.right then 4 else 0) ||| (if exclude.bottom < r.bottom then 8 else 0)
  if mask = 0 then ⟨0, 0, 0, 0⟩
  else if mask &&& (mask - 1) = 0 then
    if mask &&& 1 ≠ 0 then { r with right := exclude.left }
    else if mask &&& 2 ≠ 0 then { r with bottom := exclude.top }
    else if mask &&& 4 ≠ 0 then { r with left := exclude.right }
    else if mask &&& 8 ≠ 0 then { r with top := exclude.bottom }
    else r
  else r

end Rect

/-! ## Regions -/

structure Region where
  mStorage : List Rect
  deriving DecidableEq

inductive Status
  | noError
  | noMemory
  | badValue
  deriving DecidableEq

namespace Region

open Rect

def isRect (reg : Region) : Bool := reg.mStorage.length = 1

/-- The rectangles between `begin()` and `end()`. -/
def rects (reg : Region) : List Rect :=
  reg.mStorage.take (if reg.isRect then 1 else reg.mStorage.length - 1)

def getBounds (reg : Region) : Option Rect := reg.mStorage[reg.mStorage.length - 1]?

def maxValue : Int32 := 0x7FFFFFF

def checkRect (cur : Rect) : Bool :=
  (cur.isValid || cur = invalidRect) && !(cur.right > maxValue) && !(cur.bottom > maxValue)

def checkNext (prev cur : Rect) : Bool :=
  prev.lt cur &&
    if cur.top = prev.top then cur.bottom = prev.bottom && !(cur.left < prev.right)
    else !(cur.top < prev.bottom)

def enclose (b cur : Rect) : Rect where
  left := if b.left < cur.left then b.left else cur.left
  top := if b.top < cur.top then b.top else cur.top
  right := if b.right > cur.right then b.right else cur.right
  bottom := if b.bottom > cur.bottom then b.bottom else cur.bottom

/-- The rounds of `validate` after the first, with the bounds so far. -/
def validateFrom : Rect → Rect → List Rect → Bool × Rect
  | _, b, [] => (true, b)
  | prev, b, cur :: rest =>
    let (result, b) := validateFrom cur (enclose b cur) rest
    (checkRect cur && checkNext prev cur && result, b)

def validate (reg : Region) : Option Bool := do
  let first ← reg.mStorage[0]?
  let bounds ← reg.getBounds
  let (result, b) := validateFrom first first (reg.rects.drop 1)
  some (checkRect first && result && b = bounds && reg.mStorage.length ≠ 2)

variable (w : Nat)

def getFlattenedSize (reg : Region) : Nat := (4 + reg.mStorage.length * sizeofRect) % 2 ^ w

def flattenRects : List Rect → Bytes → Status × Bytes
  | [], buffer => (.noError, buffer)
  | rect :: rects, buffer =>
    if buffer.length < sizeofRect then (.noMemory, buffer)
    else
      let (status, rest) := flattenRects rects (buffer.drop sizeofRect)
      (status, rect.toBytes ++ rest)

def flatten (reg : Region) (buffer : Bytes) : Option (Status × Bytes) :=
  if buffer.length < reg.getFlattenedSize w then some (.noMemory, buffer)
  else if buffer.length < 4 then none
  else
    let (status, rest) := flattenRects reg.mStorage (buffer.drop 4)
    some (status, leBytes 4 reg.mStorage.length ++ rest)

def numRects (buffer : Bytes) : Nat := leValue (slice buffer 0 4)

/-- `Rect::unflatten` takes the bytes without looking at the size that is left. -/
def unflattenRects : Nat → Bytes → Option (List Rect)
  | 0, _ => some []
  | n + 1, buffer =>
    if buffer.length < sizeofRect then none
    else (unflattenRects n (buffer.drop sizeofRect)).map (ofBytes buffer :: ·)

def unflatten (reg : Region) (buffer : Bytes) : Option (Status × Region) :=
  if buffer.length < 4 then some (.noMemory, reg)
  else if buffer.length - 4 < numRects buffer * sizeofRect % 2 ^ w then some (.noMemory, reg)
  else do
    let storage ← unflattenRects (numRects buffer) (buffer.drop 4)
    if ← validate ⟨storage⟩ then some (.noError, ⟨storage⟩) else some (.badValue, reg)

end Region

end ShieldTv.Ui
