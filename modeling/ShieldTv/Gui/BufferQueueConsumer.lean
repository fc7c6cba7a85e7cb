import ShieldTv.Gui.BufferQueueProducer

/-!
# `BufferQueueConsumer`

The calls of the consumer. Each runs under the mutex from start to end.
-/

namespace ShieldTv.Gui

namespace Core

variable (core : Core)

/-! ## `acquireBuffer` -/

def maxReasonableNsec : Int := 1000000000

/-- The front item is dropped in favour of the next one. -/
def dropsFront (front next : BufferItem) (expectedPresent : Int) (maxFrameNumber : Nat) : Bool :=
  !front.isAutoTimestamp && !(maxFrameNumber ≠ 0 && next.frameNumber > maxFrameNumber) &&
    !(next.timestamp < expectedPresent - maxReasonableNsec || next.timestamp > expectedPresent)

/-- The front item leaves the queue and its slot, if it is still the item's, is free. -/
def dropFront (front : BufferItem) (rest : List BufferItem) : Core :=
  { (if core.stillTracking front then core.releaseBack front.slot else core) with queue := rest }

/-- The loop that drops items in favour of later ones; `rest` is what follows the front. -/
def dropItems (expectedPresent : Int) (maxFrameNumber : Nat) :
    Core → BufferItem → List BufferItem → Core × BufferItem × List BufferItem
  | core, front, [] => (core, front, [])
  | core, front, next :: rest =>
    if dropsFront front next expectedPresent maxFrameNumber then
      dropItems expectedPresent maxFrameNumber (core.dropFront front (next :: rest)) next rest
    else (core, front, next :: rest)

/-- The front item is due, and the consumer is ready for it. -/
def isDue (front : BufferItem) (expectedPresent : Int) (maxFrameNumber : Nat) : Bool :=
  (front.timestamp ≤ expectedPresent || front.timestamp > expectedPresent + maxReasonableNsec) &&
    (maxFrameNumber = 0 || front.frameNumber ≤ maxFrameNumber)

/-- The front item is taken out of the queue, and its slot, if it is still the item's, is the
consumer's. -/
def takeFront (front : BufferItem) (rest : List BufferItem) : Core :=
  { (if core.stillTracking front then
      core.modifySlot front.slot fun s =>
        { s with
          acquireCalled := true
          needsCleanupOnRelease := false
          bufferState := .acquired
          fence := 0 }
     else core) with queue := rest }

/-- The item is returned with its buffer; the source leaves it out of the copy for a consumer that
has seen it before. -/
def acquireBuffer (expectedPresent : Int) (maxFrameNumber : Nat) : Reply × Core :=
  if core.countState .acquired numBufferSlots ≥ core.maxAcquiredBufferCount + 1 then
    (.done .invalidOperation, core)
  else
    match core.queue with
    | [] => (.done .noBufferAvailable, core)
    | front :: rest =>
      if expectedPresent ≠ 0 then
        let (core, front, rest) := dropItems expectedPresent maxFrameNumber core front rest
        if isDue front expectedPresent maxFrameNumber then
          (.item front, core.takeFront front rest)
        else (.done .presentLater, core)
      else (.item front, core.takeFront front rest)

/-! ## Buffers that change hands -/

def detachBufferC (slot : Int) : Reply × Core :=
  if core.isAbandoned then (.done .noInit, core)
  else if slot < 0 ∨ slot ≥ numBufferSlots then (.done .badValue, core)
  else if (core.slots slot.toNat).bufferState ≠ .acquired then (.done .badValue, core)
  else (.done .noError, core.freeBufferLocked slot.toNat)

/-- A free slot for a buffer of the consumer, without regard to the limits. -/
def takeFreeC : Option (Nat × Core) :=
  match core.firstFreeSlot with
  | some slot =>
    some (slot, { core with freeSlots := Function.update core.freeSlots slot false })
  | none =>
    match core.freeBuffers with
    | [] => none
    | slot :: _ => some (slot, { core with freeBuffers := core.freeBuffers.filter (· ≠ slot) })

def attachSlotC (slot : Nat) (buffer : GraphicBuffer) : Core :=
  core.modifySlot slot fun s =>
    { s with
      graphicBuffer := some buffer
      bufferState := .acquired
      attachedByConsumer := true
      needsCleanupOnRelease := false
      fence := 0
      frameNumber := 0
      acquireCalled := false }

def attachBufferC (buffer : Option GraphicBuffer) : Reply × Core :=
  match buffer with
  | none => (.done .badValue, core)
  | some buffer =>
    if core.countState .acquired numBufferSlots ≥ core.maxAcquiredBufferCount + 1 then
      (.done .invalidOperation, core)
    else if buffer.generationNumber ≠ core.generationNumber then (.done .badValue, core)
    else
      match core.takeFreeC with
      | none => (.done .noMemory, core)
      | some (slot, core) => (.slot slot false false, core.attachSlotC slot buffer)

def releaseBuffer (slot : Int) (frameNumber : Nat) (releaseFence : Option Fence) : Reply × Core :=
  if slot < 0 ∨ slot ≥ numBufferSlots then (.done .badValue, core)
  else
    match releaseFence with
    | none => (.done .badValue, core)
    | some fence =>
      let s := core.slots slot.toNat
      if frameNumber ≠ s.frameNumber then (.done .staleBufferSlot, core)
      else if core.queue.any (·.slot = slot.toNat) then (.done .badValue, core)
      else if s.bufferState = .acquired then
        (.done .noError,
          (core.modifySlot slot.toNat fun s => { s with fence := fence }).releaseBack slot.toNat)
      else if s.needsCleanupOnRelease then
        (.done .staleBufferSlot,
          core.modifySlot slot.toNat fun s => { s with needsCleanupOnRelease := false })
      else (.done .badValue, core)

/-! ## Connecting and settings -/

def connectC (controlledByApp : Bool) : Reply × Core :=
  if core.isAbandoned then (.done .noInit, core)
  else
    (.done .noError,
      { core with consumerListener := true, consumerControlledByApp := controlledByApp })

def disconnectC : Reply × Core :=
  if !core.consumerListener then (.done .badValue, core)
  else
    (.done .noError,
      freeAllBuffersLocked
        { core with isAbandoned := true, consumerListener := false, queue := [] })

def setDefaultMaxBufferCount (bufferCount : Int) : Reply × Core :=
  let result := core.setDefaultMaxBufferCountLocked bufferCount
  (.done result.1, result.2)

def disableAsyncBuffer : Reply × Core :=
  if core.consumerListener then (.done .invalidOperation, core)
  else (.done .noError, { core with useAsyncBuffer := false })

def setMaxAcquiredBufferCount (maxAcquiredBuffers : Int) : Reply × Core :=
  if maxAcquiredBuffers < 1 ∨ maxAcquiredBuffers > numBufferSlots - 2 then (.done .badValue, core)
  else if core.connectedApi ≠ 0 then (.done .invalidOperation, core)
  else (.done .noError, { core with maxAcquiredBufferCount := maxAcquiredBuffers.toNat })

def setDefaultBufferSize (width height : Nat) : Reply × Core :=
  if width = 0 ∨ height = 0 then (.done .badValue, core)
  else (.done .noError, { core with defaultWidth := width, defaultHeight := height })

def setDefaultBufferFormat (format : Nat) : Reply × Core :=
  (.done .noError, { core with defaultBufferFormat := format })

def setConsumerUsageBits (usage : Nat) : Reply × Core :=
  (.done .noError, { core with consumerUsageBits := usage })

end Core

end ShieldTv.Gui
