import ShieldTv.Gui.BufferQueueConsumer

/-!
# Runs of a buffer queue

Any number of calls may be under way. A call that waits for a slot, or that allocates, is
pending; a run is a list of steps, each of which starts a call or lets a pending one go on.
-/

namespace ShieldTv.Gui

/-- A call between two of its sections. -/
inductive Pending where
  /-- `dequeueBuffer` waits for a slot. -/
  | dequeue (request : Request) (releaseAll : Bool)
  /-- `dequeueBuffer` allocates a buffer for its slot. -/
  | dequeueAllocate (slot : Nat) (releaseAll : Bool)
  /-- The producer's `attachBuffer` waits for a slot. -/
  | attach (buffer : GraphicBuffer) (releaseAll : Bool)
  /-- `allocateBuffers` is at the start of its loop. -/
  | allocate (request : Request)
  /-- `allocateBuffers` allocates. -/
  | allocating (allocation : Core.Allocation)

structure BufferQueue where
  core : Core := {}
  pending : List Pending := []

inductive Call where
  | requestBuffer (slot : Int)
  | setBufferCount (bufferCount : Int)
  | dequeueBuffer (request : Request)
  | detachBufferP (slot : Int)
  | detachNextBuffer
  | attachBufferP (buffer : Option GraphicBuffer)
  | queueBuffer (slot : Int) (input : QueueBufferInput)
  | cancelBuffer (slot : Int) (fence : Option Fence)
  | connectP (api : Nat) (producerControlledByApp : Bool)
  | disconnectP (api : Nat)
  | allocateBuffers (request : Request)
  | allowAllocation (allow : Bool)
  | setGenerationNumber (generationNumber : Nat)
  | acquireBuffer (expectedPresent : Int) (maxFrameNumber : Nat)
  | detachBufferC (slot : Int)
  | attachBufferC (buffer : Option GraphicBuffer)
  | releaseBuffer (slot : Int) (frameNumber : Nat) (releaseFence : Option Fence)
  | connectC (controlledByApp : Bool)
  | disconnectC
  | setDefaultMaxBufferCount (bufferCount : Int)
  | disableAsyncBuffer
  | setMaxAcquiredBufferCount (maxAcquiredBuffers : Int)
  | setDefaultBufferSize (width height : Nat)
  | setDefaultBufferFormat (format : Nat)
  | setConsumerUsageBits (usage : Nat)

/-- A call starts, or the pending call at an index goes on; the allocator has given it the
buffers, or nothing. -/
inductive Step where
  | start (call : Call)
  | resume (index : Nat) (buffers : Option (List GraphicBuffer))

namespace BufferQueue

variable (bq : BufferQueue)

/-- The first section of `dequeueBuffer`, from the loop on. -/
def dequeueFrom (request : Request) (releaseAll : Bool) : Option (Reply × BufferQueue) :=
  match bq.core.findSlot request (bq.core.freeBuffers.length + 1) releaseAll with
  | none => none
  | some (.error status, _, core) => some (.done status, { bq with core := core })
  | some (.wait, releaseAll, core) =>
    some (.waits, ⟨core, bq.pending ++ [.dequeue request releaseAll]⟩)
  | some (.slot slot, releaseAll, core) =>
    let attachedByConsumer := (core.slots slot).attachedByConsumer
    if core.needsBuffer slot request then
      some (.waits, ⟨core.dequeueSlot slot request,
        bq.pending ++ [.dequeueAllocate slot releaseAll]⟩)
    else
      some (.slot slot attachedByConsumer releaseAll,
        { bq with core := core.dequeueSlot slot request })

/-- The producer's `attachBuffer`, from its wait for a slot on. -/
def attachFrom (buffer : GraphicBuffer) (releaseAll : Bool) : Reply × BufferQueue :=
  match bq.core.waitForFreeSlotThenRelock false with
  | (.error status, _, core) => (.done status, { bq with core := core })
  | (.wait, freed, core) => (.waits, ⟨core, bq.pending ++ [.attach buffer (releaseAll || freed)]⟩)
  | (.slot slot, freed, core) =>
    (.slot slot false (releaseAll || freed), { bq with core := core.attachSlotP slot buffer })

def allocateFrom (request : Request) : Reply × BufferQueue :=
  if bq.core.isAllocating then
    (.waits, { bq with pending := bq.pending ++ [.allocate request] })
  else
    match bq.core.beginAllocation request with
    | none => (.done .noError, bq)
    | some (allocation, core) => (.waits, ⟨core, bq.pending ++ [.allocating allocation]⟩)

def returning (result : Reply × Core) : Option (Reply × BufferQueue) :=
  some (result.1, { bq with core := result.2 })

def start : Call → Option (Reply × BufferQueue)
  | .requestBuffer slot => bq.returning (bq.core.requestBuffer slot)
  | .setBufferCount bufferCount => bq.returning (bq.core.setBufferCount bufferCount)
  | .dequeueBuffer request =>
    if (request.width ≠ 0 ∧ request.height = 0) ∨ (request.width = 0 ∧ request.height ≠ 0) then
      some (.done .badValue, bq)
    else if bq.core.isAllocating then some (.waits, bq)
    else bq.dequeueFrom (bq.core.resolve request) false
  | .detachBufferP slot => bq.returning (bq.core.detachBufferP slot)
  | .detachNextBuffer => bq.returning bq.core.detachNextBuffer
  | .attachBufferP none => some (.done .badValue, bq)
  | .attachBufferP (some buffer) =>
    if bq.core.isAllocating then some (.waits, bq)
    else if buffer.generationNumber ≠ bq.core.generationNumber then
      some (.done .badValue, bq)
    else some (bq.attachFrom buffer false)
  | .queueBuffer slot input => (bq.core.queueBuffer slot input).bind bq.returning
  | .cancelBuffer slot fence => bq.returning (bq.core.cancelBuffer slot fence)
  | .connectP api byApp => bq.returning (bq.core.connectP api byApp)
  | .disconnectP api => bq.returning (bq.core.disconnectP api)
  | .allocateBuffers request => some (bq.allocateFrom request)
  | .allowAllocation allow =>
    bq.returning (.done .noError, { bq.core with allowAllocation := allow })
  | .setGenerationNumber n =>
    bq.returning (.done .noError, { bq.core with generationNumber := n })
  | .acquireBuffer expectedPresent maxFrameNumber =>
    bq.returning (bq.core.acquireBuffer expectedPresent maxFrameNumber)
  | .detachBufferC slot => bq.returning (bq.core.detachBufferC slot)
  | .attachBufferC buffer => bq.returning (bq.core.attachBufferC buffer)
  | .releaseBuffer slot frameNumber fence =>
    bq.returning (bq.core.releaseBuffer slot frameNumber fence)
  | .connectC byApp => bq.returning (bq.core.connectC byApp)
  | .disconnectC => bq.returning bq.core.disconnectC
  | .setDefaultMaxBufferCount n => bq.returning (bq.core.setDefaultMaxBufferCount n)
  | .disableAsyncBuffer => bq.returning bq.core.disableAsyncBuffer
  | .setMaxAcquiredBufferCount n => bq.returning (bq.core.setMaxAcquiredBufferCount n)
  | .setDefaultBufferSize width height =>
    bq.returning (bq.core.setDefaultBufferSize width height)
  | .setDefaultBufferFormat format =>
    bq.returning (bq.core.setDefaultBufferFormat format)
  | .setConsumerUsageBits usage => bq.returning (bq.core.setConsumerUsageBits usage)

def go (buffers : Option (List GraphicBuffer)) : Pending → Option (Reply × BufferQueue)
  | .dequeue request releaseAll => bq.dequeueFrom request releaseAll
  | .dequeueAllocate slot releaseAll =>
    match buffers with
    | some [buffer] =>
      let result := bq.core.dequeueAllocated slot buffer
      some (if result.1 then .slot slot true releaseAll else .done .noInit,
        { bq with core := result.2 })
    | _ => some (.done .noMemory, bq)
  | .attach buffer releaseAll => some (bq.attachFrom buffer releaseAll)
  | .allocate request => some (bq.allocateFrom request)
  | .allocating allocation =>
    match buffers with
    | none =>
      some (.done .noError, { bq with core := { bq.core with isAllocating := false } })
    | some buffers =>
      if buffers.length = allocation.newBufferCount then
        some (.waits, ⟨bq.core.finishAllocation allocation buffers,
          bq.pending ++ [.allocate allocation.request]⟩)
      else none

/-- One step; `none` if there is no such call, or if a `NULL` buffer is used. -/
def step : Step → Option (Reply × BufferQueue)
  | .start call => bq.start call
  | .resume index buffers =>
    match bq.pending[index]? with
    | none => none
    | some call => { bq with pending := bq.pending.eraseIdx index }.go buffers call

/-- The replies of a run and the state it leads to. -/
def run : BufferQueue → List Step → Option (List Reply × BufferQueue)
  | bq, [] => some ([], bq)
  | bq, step :: steps =>
    match bq.step step with
    | none => none
    | some (reply, bq) => (run bq steps).map fun result => (reply :: result.1, result.2)

end BufferQueue

end ShieldTv.Gui
