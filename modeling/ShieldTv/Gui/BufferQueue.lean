import Mathlib

/-!
# `BufferQueue`

The state that the producer and the consumer of a queue of graphic buffers share, and the
sections of their calls that run under its mutex. A call that drops the mutex, to wait or to
allocate, is left pending and goes on in another section.

EGL synchronisation objects, the listeners' callbacks and what an item only carries along
(transform, scaling mode, data space, damage) are left out.
-/

namespace ShieldTv.Gui

def numBufferSlots : Nat := 64

structure GraphicBuffer where
  handle : Nat
  width : Nat
  height : Nat
  format : Nat
  usage : Nat
  generationNumber : Nat := 0
  deriving DecidableEq

def GraphicBuffer.needsReallocation (buffer : GraphicBuffer)
    (width height format usage : Nat) : Bool :=
  buffer.width ≠ width || buffer.height ≠ height || buffer.format ≠ format ||
    (buffer.usage &&& usage) ≠ usage

inductive BufferState where
  | free
  | dequeued
  | queued
  | acquired
  deriving DecidableEq

/-- A fence; 0 is `NO_FENCE`. -/
abbrev Fence := Nat

structure BufferSlot where
  graphicBuffer : Option GraphicBuffer := none
  bufferState : BufferState := .free
  requestBufferCalled : Bool := false
  frameNumber : Nat := 0
  fence : Fence := 0
  acquireCalled : Bool := false
  needsCleanupOnRelease : Bool := false
  attachedByConsumer : Bool := false
  deriving DecidableEq

structure Rect where
  left : Int
  top : Int
  right : Int
  bottom : Int
  deriving DecidableEq

def Rect.intersect (rect other : Rect) : Rect :=
  ⟨max rect.left other.left, max rect.top other.top, min rect.right other.right,
    min rect.bottom other.bottom⟩

structure BufferItem where
  slot : Nat
  graphicBuffer : GraphicBuffer
  crop : Rect
  timestamp : Int
  isAutoTimestamp : Bool
  frameNumber : Nat
  fence : Fence
  isDroppable : Bool
  acquireCalled : Bool
  deriving DecidableEq

inductive Status where
  | noError
  | noInit
  | badValue
  | invalidOperation
  | wouldBlock
  | noMemory
  | staleBufferSlot
  | noBufferAvailable
  | presentLater
  deriving DecidableEq

/-- `BufferQueueCore`. A `std::set` of slots is its membership test. -/
structure Core where
  isAbandoned : Bool := false
  consumerControlledByApp : Bool := false
  consumerListener : Bool := false
  consumerUsageBits : Nat := 0
  connectedApi : Nat := 0
  slots : Nat → BufferSlot := fun _ => {}
  queue : List BufferItem := []
  freeSlots : Nat → Bool := fun slot => slot < numBufferSlots
  freeBuffers : List Nat := []
  overrideMaxBufferCount : Nat := 0
  useAsyncBuffer : Bool := true
  dequeueBufferCannotBlock : Bool := false
  defaultBufferFormat : Nat := 1
  defaultWidth : Nat := 1
  defaultHeight : Nat := 1
  defaultMaxBufferCount : Nat := 2
  maxAcquiredBufferCount : Nat := 1
  bufferHasBeenQueued : Bool := false
  frameCounter : Nat := 0
  isAllocating : Bool := false
  allowAllocation : Bool := true
  generationNumber : Nat := 0

namespace Core

variable (core : Core)

/-! ## `BufferQueueCore` -/

def modifySlot (slot : Nat) (f : BufferSlot → BufferSlot) : Core :=
  { core with slots := Function.update core.slots slot (f (core.slots slot)) }

def getMinUndequeuedBufferCountLocked (async : Bool) : Nat :=
  if !core.useAsyncBuffer then core.maxAcquiredBufferCount
  else if core.dequeueBufferCannotBlock || async then core.maxAcquiredBufferCount + 1
  else core.maxAcquiredBufferCount

def getMinMaxBufferCountLocked (async : Bool) : Nat :=
  core.getMinUndequeuedBufferCountLocked async + 1

def getMaxBufferCountLocked (async : Bool) : Nat :=
  let maxBufferCount := if core.overrideMaxBufferCount ≠ 0 then core.overrideMaxBufferCount
    else max core.defaultMaxBufferCount (core.getMinMaxBufferCountLocked async)
  (List.range' maxBufferCount (numBufferSlots - maxBufferCount)).foldl
    (fun count slot =>
      if (core.slots slot).bufferState = .queued ∨ (core.slots slot).bufferState = .dequeued
      then slot + 1 else count)
    maxBufferCount

def setDefaultMaxBufferCountLocked (count : Int) : Status × Core :=
  let minBufferCount : Int := if core.useAsyncBuffer then 2 else 1
  if count < minBufferCount ∨ count > numBufferSlots then (.badValue, core)
  else (.noError, { core with defaultMaxBufferCount := count.toNat })

def freeBufferLocked (slot : Nat) : Core :=
  let hadBuffer := (core.slots slot).graphicBuffer.isSome
  let state := (core.slots slot).bufferState
  let core :=
    if state ≠ .free then { core with freeSlots := Function.update core.freeSlots slot true }
    else if hadBuffer then
      { core with
        freeBuffers := core.freeBuffers.filter (· ≠ slot)
        freeSlots := Function.update core.freeSlots slot true }
    else core
  core.modifySlot slot fun s =>
    { s with
      graphicBuffer := none
      needsCleanupOnRelease := if state = .acquired then true else s.needsCleanupOnRelease
      bufferState := .free
      acquireCalled := false
      frameNumber := 0
      fence := 0 }

def freeAllBuffersLocked : Core :=
  (List.range numBufferSlots).foldl freeBufferLocked { core with bufferHasBeenQueued := false }

def stillTracking (item : BufferItem) : Bool :=
  match (core.slots item.slot).graphicBuffer with
  | none => false
  | some buffer => item.graphicBuffer.handle = buffer.handle

/-- `validateConsistencyLocked` has nothing to report. -/
def validateConsistencyLocked : Bool :=
  (List.range numBufferSlots).all fun slot =>
    let isInFreeSlots := core.freeSlots slot
    let isInFreeBuffers := core.freeBuffers.contains slot
    if (core.slots slot).bufferState = .free then
      if (core.slots slot).graphicBuffer.isNone then isInFreeSlots && !isInFreeBuffers
      else isInFreeBuffers && !isInFreeSlots
    else !isInFreeSlots && !isInFreeBuffers

def countState (state : BufferState) (bound : Nat) : Nat :=
  (List.range bound).countP fun slot => (core.slots slot).bufferState = state

/-- `mFreeSlots.begin()`. -/
def firstFreeSlot : Option Nat := (List.range numBufferSlots).find? core.freeSlots

/-- A slot goes back to `mFreeBuffers`, at the front. -/
def releaseFront (slot : Nat) : Core :=
  { core.modifySlot slot fun s => { s with bufferState := .free } with
    freeBuffers := slot :: core.freeBuffers }

/-- A slot goes back to `mFreeBuffers`, at the back. -/
def releaseBack (slot : Nat) : Core :=
  { core.modifySlot slot fun s => { s with bufferState := .free } with
    freeBuffers := core.freeBuffers ++ [slot] }

end Core

end ShieldTv.Gui
