import ShieldTv.Gui.BufferQueue

/-!
# `BufferQueueProducer`

The calls of the producer, one function for each section that holds the mutex. Pointers for
results are not `NULL`.
-/

namespace ShieldTv.Gui

/-- What a section returns: a status, what it writes through its pointers, or nothing yet. -/
inductive Reply where
  | done (status : Status)
  | buffer (buffer : Option GraphicBuffer)
  | slot (slot : Nat) (needsReallocation releaseAllBuffers : Bool)
  | item (item : BufferItem)
  | waits
  deriving DecidableEq

/-- How `waitForFreeSlotThenRelock` leaves its loop, or that it waits. -/
inductive Found where
  | slot (slot : Nat)
  | error (status : Status)
  | wait

/-- What a caller of `dequeueBuffer` or `allocateBuffers` asks for. -/
structure Request where
  async : Bool
  width : Nat
  height : Nat
  format : Nat
  usage : Nat

structure QueueBufferInput where
  timestamp : Int
  isAutoTimestamp : Bool
  crop : Rect
  scalingMode : Int
  async : Bool
  fence : Option Fence

namespace Core

variable (core : Core)

def requestBuffer (slot : Int) : Reply × Core :=
  if core.isAbandoned then (.done .noInit, core)
  else if slot < 0 ∨ slot ≥ numBufferSlots then (.done .badValue, core)
  else if (core.slots slot.toNat).bufferState ≠ .dequeued then (.done .badValue, core)
  else
    (.buffer (core.slots slot.toNat).graphicBuffer,
      core.modifySlot slot.toNat fun s => { s with requestBufferCalled := true })

def setBufferCount (bufferCount : Int) : Reply × Core :=
  if core.isAllocating then (.waits, core)
  else if core.isAbandoned then (.done .noInit, core)
  else if bufferCount > numBufferSlots then (.done .badValue, core)
  else if core.countState .dequeued numBufferSlots ≠ 0 then (.done .badValue, core)
  else if bufferCount = 0 then (.done .noError, { core with overrideMaxBufferCount := 0 })
  else if bufferCount < core.getMinMaxBufferCountLocked false then (.done .badValue, core)
  else
    (.done .noError,
      { core.freeAllBuffersLocked with overrideMaxBufferCount := bufferCount.toNat })

/-! ## Waiting for a slot -/

/-- The slots beyond the limit lose their buffers; says whether there were any. -/
def freeBeyond (maxBufferCount : Nat) : Bool × Core :=
  (List.range' maxBufferCount (numBufferSlots - maxBufferCount)).foldl
    (fun result slot =>
      if (result.2.slots slot).graphicBuffer.isSome then (true, result.2.freeBufferLocked slot)
      else result)
    (false, core)

def takeFree (maxBufferCount : Nat) : Option (Nat × Core) :=
  if core.queue.length > maxBufferCount then none
  else
    match core.freeBuffers with
    | slot :: rest => some (slot, { core with freeBuffers := rest })
    | [] =>
      if core.allowAllocation then
        match core.firstFreeSlot with
        | some slot =>
          if slot < maxBufferCount then
            some (slot, { core with freeSlots := Function.update core.freeSlots slot false })
          else none
        | none => none
      else none

def waitForFreeSlotThenRelock (async : Bool) : Found × Bool × Core :=
  if core.isAbandoned then (.error .noInit, false, core)
  else
    let maxBufferCount := core.getMaxBufferCountLocked async
    if async ∧ core.overrideMaxBufferCount ≠ 0 ∧ core.overrideMaxBufferCount < maxBufferCount then
      (.error .badValue, false, core)
    else
      let freed := core.freeBeyond maxBufferCount
      let core := freed.2
      let dequeuedCount := core.countState .dequeued maxBufferCount
      let acquiredCount := core.countState .acquired maxBufferCount
      if core.overrideMaxBufferCount = 0 ∧ dequeuedCount ≠ 0 then
        (.error .invalidOperation, freed.1, core)
      else if core.bufferHasBeenQueued ∧
          (maxBufferCount : Int) - (dequeuedCount + 1)
            < core.getMinUndequeuedBufferCountLocked async then
        (.error .invalidOperation, freed.1, core)
      else
        match core.takeFree maxBufferCount with
        | some (slot, core) => (.slot slot, freed.1, core)
        | none =>
          if core.dequeueBufferCannotBlock ∧ acquiredCount ≤ core.maxAcquiredBufferCount then
            (.error .wouldBlock, freed.1, core)
          else (.wait, freed.1, core)

/-! ## `dequeueBuffer` -/

/-- The loop of `dequeueBuffer`. Without allocation a buffer that does not fit is freed and
another one is looked for, so that each round but the last shortens `mFreeBuffers`. `none` is the
use of a `NULL` buffer. -/
def findSlot (request : Request) : Nat → Bool → Core → Option (Found × Bool × Core)
  | 0, releaseAll, core => some (.wait, releaseAll, core)
  | fuel + 1, releaseAll, core =>
    match core.waitForFreeSlotThenRelock request.async with
    | (.slot slot, freed, core) =>
      if core.allowAllocation then some (.slot slot, releaseAll || freed, core)
      else
        match (core.slots slot).graphicBuffer with
        | none => none
        | some buffer =>
          if buffer.needsReallocation request.width request.height request.format
              request.usage then
            findSlot request fuel (releaseAll || freed) (core.freeBufferLocked slot)
          else some (.slot slot, releaseAll || freed, core)
    | (result, freed, core) => some (result, releaseAll || freed, core)

def resolve (request : Request) : Request :=
  { request with
    format := if request.format = 0 then core.defaultBufferFormat else request.format
    usage := request.usage ||| core.consumerUsageBits
    width := if request.width = 0 ∧ request.height = 0 then core.defaultWidth else request.width
    height := if request.width = 0 ∧ request.height = 0 then core.defaultHeight
      else request.height }

/-- The buffer in a slot is missing or does not fit. -/
def needsBuffer (slot : Nat) (request : Request) : Bool :=
  match (core.slots slot).graphicBuffer with
  | none => true
  | some buffer =>
    buffer.needsReallocation request.width request.height request.format request.usage

def dequeueSlot (slot : Nat) (request : Request) : Core :=
  core.modifySlot slot fun s =>
    if core.needsBuffer slot request then
      { s with
        bufferState := .dequeued
        acquireCalled := false
        graphicBuffer := none
        requestBufferCalled := false
        fence := 0 }
    else { s with bufferState := .dequeued, fence := 0 }

/-- The second section of `dequeueBuffer`; says whether it goes on. -/
def dequeueAllocated (slot : Nat) (buffer : GraphicBuffer) : Bool × Core :=
  if core.isAbandoned then (false, core)
  else
    (true, core.modifySlot slot fun s =>
      { s with graphicBuffer := some { buffer with generationNumber := core.generationNumber } })

/-! ## Buffers that change hands -/

def detachBufferP (slot : Int) : Reply × Core :=
  if core.isAbandoned then (.done .noInit, core)
  else if slot < 0 ∨ slot ≥ numBufferSlots then (.done .badValue, core)
  else if (core.slots slot.toNat).bufferState ≠ .dequeued then (.done .badValue, core)
  else if !(core.slots slot.toNat).requestBufferCalled then (.done .badValue, core)
  else (.done .noError, core.freeBufferLocked slot.toNat)

def detachNextBuffer : Reply × Core :=
  if core.isAllocating then (.waits, core)
  else if core.isAbandoned then (.done .noInit, core)
  else
    match core.freeBuffers with
    | [] => (.done .noMemory, core)
    | found :: _ =>
      (.buffer (core.slots found).graphicBuffer,
        { core with freeBuffers := core.freeBuffers.filter (· ≠ found) }.freeBufferLocked found)

def attachSlotP (slot : Nat) (buffer : GraphicBuffer) : Core :=
  core.modifySlot slot fun s =>
    { s with
      graphicBuffer := some buffer
      bufferState := .dequeued
      fence := 0
      requestBufferCalled := true }

def queueItem (slot : Nat) (input : QueueBufferInput) (fence : Fence)
    (buffer : GraphicBuffer) : BufferItem where
  slot := slot
  graphicBuffer := buffer
  crop := input.crop
  timestamp := input.timestamp
  isAutoTimestamp := input.isAutoTimestamp
  frameNumber := (core.frameCounter + 1) % 2 ^ 64
  fence := fence
  isDroppable := core.dequeueBufferCannotBlock || input.async
  acquireCalled := (core.slots slot).acquireCalled

/-- The slot is queued, with a new frame number. -/
def queueSlot (slot : Nat) (fence : Fence) : Core :=
  { core.modifySlot slot fun s =>
      { s with
        fence := fence
        bufferState := .queued
        frameNumber := (core.frameCounter + 1) % 2 ^ 64 } with
    frameCounter := (core.frameCounter + 1) % 2 ^ 64
    bufferHasBeenQueued := true }

/-- The item is appended, or takes the place of a droppable front item. -/
def pushItem (item : BufferItem) : Core :=
  match core.queue with
  | [] => { core with queue := [item] }
  | front :: rest =>
    if front.isDroppable then
      { (if core.stillTracking front then core.releaseFront front.slot else core) with
        queue := item :: rest }
    else { core with queue := front :: rest ++ [item] }

/-- `queueBuffer`; `none` is the use of a `NULL` buffer. -/
def queueBuffer (slot : Int) (input : QueueBufferInput) : Option (Reply × Core) :=
  match input.fence with
  | none => some (.done .badValue, core)
  | some fence =>
    let maxBufferCount := core.getMaxBufferCountLocked input.async
    if input.scalingMode < 0 ∨ input.scalingMode > 3 then some (.done .badValue, core)
    else if core.isAbandoned then some (.done .noInit, core)
    else if input.async ∧ core.overrideMaxBufferCount ≠ 0 ∧
        core.overrideMaxBufferCount < maxBufferCount then some (.done .badValue, core)
    else if slot < 0 ∨ slot ≥ maxBufferCount then some (.done .badValue, core)
    else if (core.slots slot.toNat).bufferState ≠ .dequeued then some (.done .badValue, core)
    else if !(core.slots slot.toNat).requestBufferCalled then some (.done .badValue, core)
    else
      match (core.slots slot.toNat).graphicBuffer with
      | none => none
      | some buffer =>
        if input.crop.intersect ⟨0, 0, buffer.width, buffer.height⟩ ≠ input.crop then
          some (.done .badValue, core)
        else
          some (.done .noError, (core.queueSlot slot.toNat fence).pushItem
            (core.queueItem slot.toNat input fence buffer))

def cancelBuffer (slot : Int) (fence : Option Fence) : Reply × Core :=
  if core.isAbandoned then (.done .noError, core)
  else if slot < 0 ∨ slot ≥ numBufferSlots then (.done .noError, core)
  else if (core.slots slot.toNat).bufferState ≠ .dequeued then (.done .noError, core)
  else
    match fence with
    | none => (.done .noError, core)
    | some fence =>
      (.done .noError,
        (core.releaseFront slot.toNat).modifySlot slot.toNat fun s => { s with fence := fence })

/-! ## Connecting -/

/-- The APIs: EGL, CPU, media and camera. -/
def isApi (api : Nat) : Bool := 1 ≤ api && api ≤ 4

/-- An unknown API is refused, but only after the flags have been set. -/
def connectP (api : Nat) (producerControlledByApp : Bool) : Reply × Core :=
  if core.isAbandoned then (.done .noInit, core)
  else if !core.consumerListener then (.done .noInit, core)
  else if core.connectedApi ≠ 0 then (.done .badValue, core)
  else
    (.done (if isApi api then .noError else .badValue),
      { core with
        connectedApi := if isApi api then api else core.connectedApi
        bufferHasBeenQueued := false
        dequeueBufferCannotBlock := core.consumerControlledByApp && producerControlledByApp
        allowAllocation := true })

def disconnectP (api : Nat) : Reply × Core :=
  if core.isAllocating then (.waits, core)
  else if core.isAbandoned then (.done .noError, core)
  else if !isApi api then (.done .badValue, core)
  else if core.connectedApi = api then
    (.done .noError, { core.freeAllBuffersLocked with connectedApi := 0 })
  else (.done (if core.connectedApi ≠ 0 then .badValue else .noError), core)

/-! ## `allocateBuffers` -/

/-- What one round of `allocateBuffers` has decided before it drops the mutex. -/
structure Allocation where
  request : Request
  freeSlots : List Nat
  newBufferCount : Nat
  width : Nat
  height : Nat
  format : Nat
  usage : Nat

def allocationParameters (request : Request) : Nat × Nat × Nat × Nat :=
  (if request.width > 0 then request.width else core.defaultWidth,
    if request.height > 0 then request.height else core.defaultHeight,
    if request.format ≠ 0 then request.format else core.defaultBufferFormat,
    request.usage ||| core.consumerUsageBits)

/-- The first section of a round; `none` if there is nothing to allocate. -/
def beginAllocation (request : Request) : Option (Allocation × Core) :=
  if !core.allowAllocation then none
  else
    let currentBufferCount := (List.range numBufferSlots).countP fun slot =>
      (core.slots slot).graphicBuffer.isSome
    let freeSlots := (List.range numBufferSlots).filter fun slot =>
      (core.slots slot).graphicBuffer.isNone && (core.slots slot).bufferState = .free
    let maxBufferCount := core.getMaxBufferCountLocked request.async
    let newBufferCount := maxBufferCount - currentBufferCount
    if maxBufferCount ≤ currentBufferCount ∨ freeSlots.length < newBufferCount then none
    else
      let (width, height, format, usage) := core.allocationParameters request
      some (⟨request, freeSlots, newBufferCount, width, height, format, usage⟩,
        { core with isAllocating := true })

/-- A new buffer for a slot, if it is still free. -/
def populate (slot : Nat) (buffer : GraphicBuffer) : Core :=
  if (core.slots slot).bufferState ≠ .free then core
  else
    let core := (core.freeBufferLocked slot).modifySlot slot fun s =>
      { s with graphicBuffer := some buffer, fence := 0 }
    { core with
      freeSlots := Function.update core.freeSlots slot false
      freeBuffers := slot :: core.freeBuffers }

/-- The last section of a round, with the new buffers. -/
def finishAllocation (allocation : Allocation) (buffers : List GraphicBuffer) : Core :=
  let core :=
    if core.allocationParameters allocation.request
        ≠ (allocation.width, allocation.height, allocation.format, allocation.usage) then core
    else ((allocation.freeSlots.take allocation.newBufferCount).zip buffers).foldl
      (fun core (slot, buffer) => core.populate slot buffer) core
  { core with isAllocating := false }

end Core

end ShieldTv.Gui
