import ShieldTv.Gui.Proofs.Sections

/-!
# Buffers have one owner

Over every run, the free lists agree with the slots and an item of the queue that is tracked has
a queued slot of its own, as long as three things are kept to. A slot that was dequeued is not
cancelled before it has a buffer. A buffer that comes into the queue from outside is not one that
an item still in the queue carries. And a slot whose buffer is being allocated is not freed in
the meantime.
-/

namespace ShieldTv.Gui

open List
open Option hiding all_eq_true

variable {core : Core} {reply : Reply} {replies : List Reply} {steps : List Step}

namespace BufferQueue

open Gui.Core

/-! ## What the callers keep to -/

def CallFits (core : Core) : Call → Prop
  | .cancelBuffer slot _ => 0 ≤ slot → (core.slots slot.toNat).bufferState = .dequeued →
      (core.slots slot.toNat).graphicBuffer.isSome
  | .attachBufferP buffer => ∀ b ∈ buffer, core.NotQueued b
  | .attachBufferC buffer => ∀ b ∈ buffer, core.NotQueued b
  | _ => True

def ResumeFits (core : Core) (buffers : Option (List GraphicBuffer)) : Pending → Prop
  | .dequeueAllocate slot _ =>
    match buffers with
    | some [buffer] => core.isAbandoned = false →
        (core.slots slot).bufferState ≠ .free ∧ core.NotQueued buffer
    | _ => True
  | .attach buffer _ => core.NotQueued buffer
  | .allocating _ => ∀ buffer ∈ buffers.getD [], core.NotQueued buffer
  | _ => True

def StepFits (bq : BufferQueue) : Step → Prop
  | .start call => CallFits bq.core call
  | .resume index buffers => ∀ call ∈ bq.pending[index]?, ResumeFits bq.core buffers call

def RunFits : BufferQueue → List Step → Prop
  | _, [] => True
  | bq, step :: steps => StepFits bq step ∧ ∀ result ∈ bq.step step, RunFits result.2 steps

instance (core : Core) (buffer : GraphicBuffer) : Decidable (core.NotQueued buffer) :=
  inferInstanceAs (Decidable (∀ item ∈ core.queue, item.graphicBuffer.handle ≠ buffer.handle))

instance (core : Core) (call : Call) : Decidable (CallFits core call) := by
  cases call <;> unfold CallFits <;> infer_instance

instance (core : Core) (buffers : Option (List GraphicBuffer)) (call : Pending) :
    Decidable (ResumeFits core buffers call) := by
  unfold ResumeFits
  split <;> try infer_instance
  split <;> infer_instance

instance (bq : BufferQueue) (step : Step) : Decidable (StepFits bq step) := by
  cases step <;> unfold StepFits <;> infer_instance

instance RunFits.decidable : ∀ bq steps, Decidable (RunFits bq steps)
  | _, [] => inferInstanceAs (Decidable True)
  | bq, step :: steps =>
    have : DecidablePred fun result : Reply × BufferQueue => RunFits result.2 steps :=
      fun result => RunFits.decidable result.2 steps
    inferInstanceAs
      (Decidable (StepFits bq step ∧ ∀ result ∈ bq.step step, RunFits result.2 steps))

/-! ## One step -/

def PendingValid : Pending → Prop
  | .allocating allocation => ∀ s ∈ allocation.freeSlots, s < numBufferSlots
  | _ => True

/-- What a step can do. -/
structure Stepped (t : Terms) (bq : BufferQueue) (reply : Reply) (bq' : BufferQueue) :
    Prop where
  noItem : reply.isItem = true →
    ∃ expected maxFrame, t.step = .start (.acquireBuffer expected maxFrame)
  moves : Moves t bq.core bq'.core
  pending : ∀ call ∈ bq'.pending, call ∈ bq.pending ∨ PendingValid call

section

variable {t : Terms} {bq bq' : BufferQueue} {request : Request} {call : Pending}

theorem stepped_returns (h : Settles t bq.core (reply, core)) :
    Stepped t bq reply { bq with core := core } :=
  ⟨h.noItem, h.moves, fun _ => .inl⟩

theorem stepped_waits (h : Moves t bq.core core) (hcall : PendingValid call) :
    Stepped t bq .waits ⟨core, bq.pending ++ [call]⟩ := by
  refine ⟨nofun, h, ?_⟩
  exact forall_mem_append.mpr ⟨fun _ => .inl, forall_mem_singleton.mpr (.inr hcall)⟩

theorem stepped_done (status : Status) : Stepped t bq (.done status) bq :=
  stepped_returns (settles_done bq.core status)

/-- Until it has found a slot, `dequeueBuffer` only tidies up. -/
theorem dequeueFrom_stepped {releaseAll : Bool}
    (h : bq.dequeueFrom request releaseAll = some (reply, bq')) :
    Stepped t bq reply bq' ∧
      ∀ status, reply = .done status → Tidied bq.core bq'.core := by
  unfold dequeueFrom at h
  split at h
  · cases h
  · rename_i hfind
    cases h
    have htidied := findSlot_found hfind
    exact ⟨stepped_returns (settles_moves rfl (.tidied htidied)), fun _ _ => htidied⟩
  · rename_i hfind
    cases h
    exact ⟨stepped_waits (.tidied (findSlot_found hfind)) trivial, nofun⟩
  · rename_i hfind
    have hfound := findSlot_found hfind
    split_ifs at h
    · cases h
      exact ⟨stepped_waits (dequeueSlot_moves hfound) trivial, nofun⟩
    · cases h
      exact ⟨stepped_returns (settles_moves rfl (dequeueSlot_moves hfound)), nofun⟩

theorem attachFrom_stepped {buffer : GraphicBuffer} {releaseAll : Bool}
    (hfresh : t.fits → bq.core.NotQueued buffer)
    (h : bq.attachFrom buffer releaseAll = (reply, bq')) : Stepped t bq reply bq' := by
  unfold attachFrom at h
  split at h
  · rename_i hwait
    cases h
    exact stepped_returns
      (settles_moves rfl (.tidied (waitForFreeSlotThenRelock_found hwait)))
  · rename_i hwait
    cases h
    exact stepped_waits (.tidied (waitForFreeSlotThenRelock_found hwait)) trivial
  · rename_i hwait
    cases h
    refine stepped_returns (settles_moves rfl ?_)
    exact (waitForFreeSlotThenRelock_found hwait).moves rfl (.inr (.inr ⟨_, rfl, hfresh⟩))

theorem allocateFrom_stepped (h : bq.allocateFrom request = (reply, bq')) :
    Stepped t bq reply bq' := by
  unfold allocateFrom at h
  split at h
  · cases h
    exact stepped_waits (.refl bq.core) trivial
  · split at h
    · cases h
      exact stepped_done _
    · rename_i hbegin
      cases h
      obtain ⟨hsame, hslots⟩ := beginAllocation_cases hbegin
      exact stepped_waits (.tidied (.same hsame)) hslots

theorem start_stepped {call : Call} (hcall : t.step = .start call)
    (hfits : t.fits → CallFits bq.core call) (h : bq.start call = some (reply, bq')) :
    Stepped t bq reply bq' := by
  have hreturns : ∀ {result}, Settles t bq.core result →
      bq.returning result = some (reply, bq') → Stepped t bq reply bq' := by
    intro result hsettles h
    cases h
    exact stepped_returns hsettles
  cases call with
  | requestBuffer slot => exact hreturns (requestBuffer_settles _ slot) h
  | setBufferCount n => exact hreturns (setBufferCount_settles _ n) h
  | dequeueBuffer request =>
    rw [start] at h
    split_ifs at h
    · cases h
      exact stepped_done _
    · cases h
      exact stepped_returns (settles_moves rfl (.refl bq.core))
    · exact (dequeueFrom_stepped h).1
  | detachBufferP slot => exact hreturns (detachBufferP_settles _ slot) h
  | detachNextBuffer => exact hreturns (detachNextBuffer_settles _) h
  | attachBufferP buffer =>
    cases buffer with
    | none =>
      cases h
      exact stepped_done _
    | some buffer =>
      rw [start] at h
      split_ifs at h
      · cases h
        exact stepped_returns (settles_moves rfl (.refl bq.core))
      · cases h
        exact stepped_done _
      · exact attachFrom_stepped (fun hfit => hfits hfit buffer rfl) (some.inj h)
  | queueBuffer slot input =>
    obtain ⟨result, hqueue, h⟩ := bind_eq_some_iff.mp h
    exact hreturns (queueBuffer_settles _ hcall hqueue) h
  | cancelBuffer slot fence => exact hreturns (cancelBuffer_settles _ fence hfits) h
  | connectP api byApp => exact hreturns (connectP_settles _ api byApp) h
  | disconnectP api => exact hreturns (disconnectP_settles _ api) h
  | allocateBuffers request => exact allocateFrom_stepped (some.inj h)
  | allowAllocation | setGenerationNumber | setDefaultBufferFormat | setConsumerUsageBits =>
    cases h
    exact stepped_returns (settles_same rfl {})
  | acquireBuffer expected maxFrame =>
    exact hreturns ⟨fun _ => ⟨_, _, hcall⟩, (acquireBuffer_spec hcall rfl).1⟩ h
  | detachBufferC slot => exact hreturns (detachBufferC_settles _ slot) h
  | attachBufferC buffer => exact hreturns (attachBufferC_settles _ hfits) h
  | releaseBuffer slot frame fence =>
    exact hreturns (releaseBuffer_settles _ slot frame fence) h
  | connectC byApp => exact hreturns (connectC_settles _ byApp) h
  | disconnectC => exact hreturns (disconnectC_settles _) h
  | setDefaultMaxBufferCount n => exact hreturns (setDefaultMaxBufferCount_settles _ n) h
  | disableAsyncBuffer => exact hreturns (disableAsyncBuffer_settles _) h
  | setMaxAcquiredBufferCount n => exact hreturns (setMaxAcquiredBufferCount_settles _ n) h
  | setDefaultBufferSize width height =>
    exact hreturns (setDefaultBufferSize_settles _ width height) h

theorem go_stepped {buffers : Option (List GraphicBuffer)}
    (hfits : t.fits → ResumeFits bq.core buffers call ∧ PendingValid call)
    (h : bq.go buffers call = some (reply, bq')) : Stepped t bq reply bq' := by
  cases call with
  | dequeue request releaseAll => exact (dequeueFrom_stepped h).1
  | dequeueAllocate slot releaseAll =>
    unfold go at h
    dsimp only at h
    split at h
    · cases h
      refine stepped_returns (settles_moves ?_ ?_)
      · split_ifs <;> rfl
      · exact dequeueAllocated_moves fun hfit => (hfits hfit).1
    · cases h
      exact stepped_done _
  | attach buffer releaseAll => exact attachFrom_stepped (fun hfit => (hfits hfit).1) (some.inj h)
  | allocate request => exact allocateFrom_stepped (some.inj h)
  | allocating allocation =>
    unfold go at h
    dsimp only at h
    split at h
    · cases h
      exact stepped_returns (settles_same rfl {})
    · split_ifs at h
      cases h
      exact stepped_waits (finishAllocation_moves fun hfit => (hfits hfit).symm) trivial

theorem step_stepped
    (hfits : t.fits → StepFits bq t.step ∧ ∀ call ∈ bq.pending, PendingValid call)
    (h : bq.step t.step = some (reply, bq')) : Stepped t bq reply bq' := by
  cases hcall : t.step with
  | start call =>
    rw [hcall] at hfits h
    exact start_stepped hcall (fun hfit => (hfits hfit).1) h
  | resume index buffers =>
    rw [hcall] at hfits
    rw [hcall, BufferQueue.step] at h
    split at h
    · cases h
    · rename_i call hcall
      have hgo : Stepped t { bq with pending := bq.pending.eraseIdx index } reply bq' :=
        go_stepped (fun hfit => ⟨(hfits hfit).1 call hcall,
          (hfits hfit).2 call (mem_of_getElem? hcall)⟩) h
      exact { hgo with
        pending := fun other hother => (hgo.pending other hother).imp_left mem_of_mem_eraseIdx }

theorem run_preserves {P : BufferQueue → List Step → Prop}
    (hstep : ∀ {bq bq' : BufferQueue} {step : Step} {steps : List Step} {reply : Reply},
      P bq (step :: steps) → bq.step step = some (reply, bq') → P bq' steps) (hbq : P bq steps)
    (h : bq.run steps = some (replies, bq')) : P bq' [] := by
  induction steps generalizing bq replies with
  | nil =>
    cases h
    exact hbq
  | cons step steps ih =>
    rw [run] at h
    split at h
    · cases h
    · rename_i hfirst
      obtain ⟨rest, hrest, heq⟩ := map_eq_some_iff.mp h
      cases heq
      exact ih (hstep hbq hfirst) hrest

end

/-! ## The invariant over runs -/

structure Inv (bq : BufferQueue) : Prop where
  core : Core.Inv bq.core
  pending : ∀ call ∈ bq.pending, PendingValid call

theorem inv_initial : Inv {} := ⟨Core.inv_initial, by simp⟩

theorem step_inv {bq bq' : BufferQueue} {step : Step} (hinv : Inv bq) (hfits : StepFits bq step)
    (h : bq.step step = some (reply, bq')) : Inv bq' := by
  have hstepped : Stepped ⟨step, True⟩ bq reply bq' :=
    step_stepped (fun _ => ⟨hfits, hinv.pending⟩) h
  refine ⟨hstepped.moves.inv trivial hinv.core, fun call hcall => ?_⟩
  exact (hstepped.pending call hcall).elim (hinv.pending call) id

theorem run_inv {bq bq' : BufferQueue} (hinv : Inv bq) (hfits : RunFits bq steps)
    (h : bq.run steps = some (replies, bq')) : Inv bq' := by
  refine (run_preserves (P := fun bq steps => Inv bq ∧ RunFits bq steps) ?_ ⟨hinv, hfits⟩ h).1
  intro bq bq' step steps reply ⟨hinv, hfits, hrest⟩ hstep
  exact ⟨step_inv hinv hfits hstep, hrest (reply, bq') hstep⟩

def sampleRequest : Request := ⟨false, 8, 8, 1, 0⟩

def sampleBuffer (handle : Nat) : GraphicBuffer := ⟨handle, 8, 8, 1, 0, 0⟩

def sampleInput (async : Bool) : QueueBufferInput := ⟨0, true, ⟨0, 0, 8, 8⟩, 0, async, some 1⟩

def connectSteps : List Step := [.start (.connectC false), .start (.connectP 1 false)]

def dequeueSteps (slot handle : Nat) : List Step :=
  [.start (.dequeueBuffer sampleRequest), .resume 0 (some [sampleBuffer handle]),
    .start (.requestBuffer slot)]

theorem validateConsistencyLocked_of_inv (hinv : core.Inv) :
    core.validateConsistencyLocked = true := by
  unfold validateConsistencyLocked
  rw [all_eq_true]
  intro s hs
  obtain ⟨hfreeSlots, hfreeBuffers, -⟩ := hinv s
  dsimp only [view] at hfreeSlots hfreeBuffers
  have hmem : core.freeBuffers.contains s = true ↔ 0 < core.freeBuffers.count s := by
    rw [contains_iff_mem, count_pos_iff]
  cases hstate : (core.slots s).bufferState <;> cases hbuffer : (core.slots s).graphicBuffer <;>
    cases hin : core.freeSlots s <;>
    cases hcontains : core.freeBuffers.contains s <;>
    simp_all

theorem freeBuffers_nodup_of_inv (hinv : core.Inv) : core.freeBuffers.Nodup := by
  rw [nodup_iff_count_le_one]
  intro s
  refine (hinv s).freeBuffers.trans_le ?_
  split_ifs
  · exact le_rfl
  · exact Nat.zero_le 1

/-- The free lists agree with the slots in every state that a fitting run reaches; no slot is
twice in `mFreeBuffers`. -/
theorem run_consistent {steps : List Step} (hfits : RunFits {} steps) {replies : List Reply}
    {bq : BufferQueue} (h : BufferQueue.run {} steps = some (replies, bq)) :
    bq.core.validateConsistencyLocked = true ∧ bq.core.freeBuffers.Nodup := by
  have hinv := (run_inv inv_initial hfits h).core
  exact ⟨validateConsistencyLocked_of_inv hinv, freeBuffers_nodup_of_inv hinv⟩

/-- A buffer is queued, acquired and released; the next one is cancelled. -/
def releaseSteps : List Step :=
  connectSteps ++ dequeueSteps 0 10 ++
    [.start (.queueBuffer 0 (sampleInput false)), .start (.acquireBuffer 0 0),
      .start (.releaseBuffer 0 1 (some 0)), .start (.dequeueBuffer sampleRequest),
      .start (.cancelBuffer 0 (some 0))]

theorem run_consistent_release : (BufferQueue.run {} releaseSteps).isSome ∧
    ∀ result ∈ BufferQueue.run {} releaseSteps,
      result.2.core.validateConsistencyLocked = true ∧ result.2.core.freeBuffers.Nodup :=
  ⟨by decide +kernel, fun _ h => run_consistent (by decide +kernel) h⟩

def cancelSteps : List Step :=
  connectSteps ++ [.start (.dequeueBuffer sampleRequest), .resume 0 none,
    .start (.cancelBuffer 0 (some 0))]

theorem cancel_leaves_lists_inconsistent :
    ((BufferQueue.run {} cancelSteps).map fun result =>
      (result.2.core.validateConsistencyLocked, result.2.core.freeBuffers))
      = some (false, [0]) := by
  decide +kernel

/-- In every state that a fitting run reaches, an item that is tracked has a queued slot of its
own, so `acquireBuffer` takes no slot away from the producer, and neither it nor `queueBuffer`
frees a slot that somebody holds. -/
theorem run_one_owner {steps : List Step} (hfits : RunFits {} steps) {replies : List Reply}
    {bq : BufferQueue} (h : BufferQueue.run {} steps = some (replies, bq)) :
    (∀ item ∈ bq.core.queue, bq.core.stillTracking item →
      (bq.core.slots item.slot).bufferState = .queued) ∧
    (bq.core.queue.Pairwise fun a b =>
      bq.core.stillTracking a → bq.core.stillTracking b → a.slot ≠ b.slot) ∧
    (∀ expectedPresent maxFrameNumber s, (bq.core.slots s).bufferState = .dequeued →
      ((bq.core.acquireBuffer expectedPresent maxFrameNumber).2.slots s).bufferState
        = .dequeued) ∧
    (∀ expectedPresent maxFrameNumber,
      ∀ s ∈ (bq.core.acquireBuffer expectedPresent maxFrameNumber).2.freeBuffers,
      s ∈ bq.core.freeBuffers ∨ (bq.core.slots s).bufferState = .queued) ∧
    (∀ slot input reply core', bq.core.queueBuffer slot input = some (reply, core') →
      ∀ s ∈ core'.freeBuffers,
      s ∈ bq.core.freeBuffers ∨ (bq.core.slots s).bufferState = .queued) := by
  have hinv := (run_inv inv_initial hfits h).core
  have hacquire : ∀ expectedPresent maxFrameNumber,
      bq.core.KeepsHeld (bq.core.acquireBuffer expectedPresent maxFrameNumber).2 :=
    fun _ _ => (acquireBuffer_spec (t := ⟨_, True⟩) rfl rfl).2.2.1 hinv
  refine ⟨fun _ => hinv.tracked, hinv.unique, ?_, ?_, ?_⟩
  · intro expectedPresent maxFrameNumber s hstate
    have hkept := hacquire expectedPresent maxFrameNumber
    rw [(hkept s (by rw [hstate]; decide)).1, hstate]
  · intro expectedPresent maxFrameNumber s hs
    by_cases hqueued : (bq.core.slots s).bufferState = .queued
    · exact Or.inr hqueued
    · have hkept := hacquire expectedPresent maxFrameNumber
      rw [← count_pos_iff, (hkept s hqueued).2, count_pos_iff] at hs
      exact Or.inl hs
  · intro slot input reply core' hqueue s hs
    exact queueBuffer_freeBuffers hinv hqueue hs

/-- Two buffers wait in the queue, and the producer holds a third one. -/
def waitingSteps : List Step :=
  connectSteps ++ [.start (.setBufferCount 5)] ++ dequeueSteps 0 10 ++ dequeueSteps 1 11 ++
    dequeueSteps 2 12 ++
    [.start (.queueBuffer 0 (sampleInput false)), .start (.queueBuffer 1 (sampleInput false))]

theorem run_one_owner_waiting :
    ((BufferQueue.run {} waitingSteps).map fun result =>
      result.2.core.queue.map fun item => (item.slot, result.2.core.stillTracking item))
        = some [(0, true), (1, true)] ∧
    ∀ result ∈ BufferQueue.run {} waitingSteps,
      (∀ item ∈ result.2.core.queue, result.2.core.stillTracking item →
        (result.2.core.slots item.slot).bufferState = .queued) ∧
      result.2.core.queue.Pairwise fun a b =>
        result.2.core.stillTracking a → result.2.core.stillTracking b → a.slot ≠ b.slot := by
  refine ⟨by decide +kernel, fun result h => ?_⟩
  obtain ⟨hqueued, hunique, -⟩ := run_one_owner (by decide +kernel) h
  exact ⟨hqueued, hunique⟩

/-- A queued buffer, whose slot has been freed, is attached again. -/
def reattachSteps : List Step :=
  connectSteps ++ dequeueSteps 0 10 ++
    [.start (.queueBuffer 0 (sampleInput false)), .start (.setBufferCount 3),
      .start (.attachBufferP (some (sampleBuffer 10)))]

/-- The old item is tracked although the producer holds its slot, and the consumer acquires it. -/
theorem reattached_buffer_has_two_owners :
    ((BufferQueue.run {} reattachSteps).map fun result =>
      ((result.2.core.queue.map fun item => (item.slot, result.2.core.stillTracking item)),
        (result.2.core.slots 0).bufferState,
        ((result.2.core.acquireBuffer 0 0).2.slots 0).bufferState))
      = some ([(0, true)], .dequeued, .acquired) := by
  decide +kernel

end BufferQueue

end ShieldTv.Gui
