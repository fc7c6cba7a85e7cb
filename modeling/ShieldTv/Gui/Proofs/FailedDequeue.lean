import ShieldTv.Gui.Proofs.Ownership

/-!
# A failed `dequeueBuffer`

Before it has reserved a slot, a `dequeueBuffer` that fails leaves no slot dequeued that was not.
The slot it has reserved stays dequeued if the allocation fails. An abandoned queue has no
dequeued slot at all.
-/

namespace ShieldTv.Gui

open List Option Function

variable {core core₁ core' : Core} {s : Nat} {reply : Reply} {bq bq' : BufferQueue}
  {status : Status}

namespace Core

/-! ## Changes that dequeue no slot -/

structure Steady (core core' : Core) : Prop where
  isAbandoned : core'.isAbandoned = core.isAbandoned
  dequeued : ∀ s, (core'.slots s).bufferState = .dequeued → (core.slots s).bufferState = .dequeued

theorem Steady.refl (core : Core) : Steady core core := ⟨rfl, fun _ => id⟩

theorem Steady.trans (h : Steady core core₁) (h' : Steady core₁ core') : Steady core core' :=
  ⟨h'.isAbandoned.trans h.isAbandoned, fun s hs => h.dequeued s (h'.dequeued s hs)⟩

theorem steady_update {slot : BufferSlot} (hslots : core'.slots = update core.slots s slot)
    (habandoned : core'.isAbandoned = core.isAbandoned)
    (hstate : slot.bufferState = .dequeued → (core.slots s).bufferState = .dequeued) :
    Steady core core' := by
  refine ⟨habandoned, fun t ht => ?_⟩
  rw [hslots] at ht
  by_cases heq : t = s
  · subst heq
    rw [update_self] at ht
    exact hstate ht
  · rwa [update_of_ne heq] at ht

theorem freeBufferLocked_steady (core : Core) (s : Nat) :
    Steady core (core.freeBufferLocked s) := by
  refine ⟨(freeBufferLocked_frames core s).2.2, fun t ht => ?_⟩
  by_cases heq : t = s
  · rw [heq, (freeBufferLocked_slot core s).1] at ht
    cases ht
  · exact (congrArg (·.slot.bufferState) (onlyAt_freeBufferLocked core s t heq)).symm.trans ht

theorem Tidied.steady (h : Tidied core core') : Steady core core' := by
  induction h with
  | same h => exact ⟨h.isAbandoned, fun s hs => by rwa [h.slots] at hs⟩
  | free core s _ => exact freeBufferLocked_steady core s
  | @discard core s _ rest =>
    have hfreed := freeBufferLocked_steady { core with freeBuffers := rest } s
    exact ⟨hfreed.isAbandoned, hfreed.dequeued⟩
  | trans _ _ ih ih' => exact ih.trans ih'

theorem populate_steady (core : Core) (slot : Nat) (buffer : GraphicBuffer) :
    Steady core (core.populate slot buffer) := by
  unfold populate
  split_ifs
  · exact .refl core
  · exact (freeBufferLocked_steady core slot).trans (steady_update rfl rfl id)

theorem queueSlot_steady (core : Core) (slot : Nat) (fence : Fence) (item : BufferItem) :
    Steady core ((core.queueSlot slot fence).pushItem item) := by
  have hqueued : Steady core (core.queueSlot slot fence) := steady_update rfl rfl (by simp)
  refine hqueued.trans ?_
  unfold pushItem
  split
  · exact ⟨rfl, fun _ => id⟩
  · split_ifs
    · exact steady_update rfl rfl (by simp)
    · exact ⟨rfl, fun _ => id⟩
    · exact ⟨rfl, fun _ => id⟩

theorem dropFront_steady (core : Core) (front : BufferItem) (rest : List BufferItem) :
    Steady core (core.dropFront front rest) := by
  unfold dropFront
  split_ifs
  · exact steady_update rfl rfl nofun
  · exact ⟨rfl, fun _ => id⟩

theorem takeFront_steady (core : Core) (front : BufferItem) (rest : List BufferItem) :
    Steady core (core.takeFront front rest) := by
  unfold takeFront
  split_ifs
  · exact steady_update rfl rfl nofun
  · exact ⟨rfl, fun _ => id⟩

/-! ## Abandoned queues -/

/-- An abandoned queue has no dequeued slot. -/
def Released (core : Core) : Prop :=
  core.isAbandoned = true → ∀ s < numBufferSlots, (core.slots s).bufferState ≠ .dequeued

theorem Released.steady (hcore : Released core) (h : Steady core core') : Released core' :=
  fun habandoned s hs hstate => hcore (h.isAbandoned ▸ habandoned) s hs (h.dequeued s hstate)

theorem freeAllBuffersLocked_state (core : Core) (hs : s < numBufferSlots) :
    (core.freeAllBuffersLocked.slots s).bufferState ≠ .dequeued := by
  obtain ⟨before, after, hsplit⟩ := append_of_mem (mem_range.mpr hs)
  rw [freeAllBuffersLocked, hsplit, foldl_append, foldl_cons]
  generalize before.foldl freeBufferLocked _ = freed
  have hafter : Steady (freed.freeBufferLocked s) (after.foldl freeBufferLocked _) :=
    foldlRecOn _ _ (.refl _) fun _ h t _ => h.trans (freeBufferLocked_steady _ t)
  intro hstate
  have := hafter.dequeued s hstate
  rw [(freeBufferLocked_slot freed s).1] at this
  cases this

theorem Moves.released {t : Terms} (h : Moves t core core')
    (hcore : Released core) : Released core' := by
  induction h with
  | tidied h => exact hcore.steady h.steady
  | touch core s hstate => exact hcore.steady (steady_update rfl rfl hstate.symm.trans)
  | @hand core core₁ async s f hopen htake =>
    intro habandoned
    have htidied := freeBeyond_tidied core (core.getMaxBufferCountLocked async)
    have hsame : core₁.isAbandoned = core.isAbandoned := by
      rw [← htidied.frames.2.2]
      cases takeFree_takes htake <;> rfl
    rw [modifySlot, hsame, hopen] at habandoned
    cases habandoned
  | @attach core core₁ s buffer htake =>
    have hsteady : Steady core (core₁.attachSlotC s buffer) := by
      cases takeFreeC_takes htake <;> exact steady_update rfl rfl (by simp)
    exact hcore.steady hsteady
  | fill core s => exact hcore.steady (steady_update rfl rfl id)
  | give => exact hcore.steady (steady_update rfl rfl (by simp))
  | populate core => exact hcore.steady (populate_steady core _ _)
  | queue fence => exact hcore.steady (queueSlot_steady _ _ fence _)
  | drop => exact hcore.steady (dropFront_steady _ _ _)
  | take => exact hcore.steady (takeFront_steady _ _ _)
  | abandon core => exact fun _ s hs => freeAllBuffersLocked_state _ hs
  | trans _ _ ih ih' => exact ih' (ih hcore)

end Core

namespace BufferQueue

open Gui.Core

theorem run_released {steps : List Step} {replies : List Reply} (hcore : Released bq.core)
    (h : bq.run steps = some (replies, bq')) : Released bq'.core := by
  refine run_preserves (P := fun bq _ => Released bq.core) ?_ hcore h
  intro bq bq' step steps reply hcore hstep
  have hstepped : Stepped ⟨step, False⟩ bq reply bq' := step_stepped False.elim hstep
  exact hstepped.moves.released hcore

/-! ## Failed calls -/

/-- If a step starts `dequeueBuffer` or lets it go on: the slot that the call has reserved. -/
def reserved (bq : BufferQueue) : Step → Option (Option Nat)
  | .start (.dequeueBuffer _) => some none
  | .resume index _ =>
    match bq.pending[index]? with
    | some (.dequeue _ _) => some none
    | some (.dequeueAllocate slot _) => some (some slot)
    | _ => none
  | _ => none

def Allocated : Step → Prop
  | .resume _ buffers => ∃ buffer, buffers = some [buffer]
  | _ => False

theorem dequeueFrom_failed {request : Request} {releaseAll : Bool}
    (h : bq.dequeueFrom request releaseAll = some (.done status, bq')) :
    Steady bq.core bq'.core :=
  ((dequeueFrom_stepped (t := ⟨.start .disconnectC, False⟩) h).2 status rfl).steady

/-- A call that had reserved `slot` leaves no slot dequeued but those of other calls. -/
def TakesNothing (core core' : Core) (slot : Option Nat) : Prop :=
  ∀ s < numBufferSlots, (core'.slots s).bufferState = .dequeued →
    (core.slots s).bufferState = .dequeued ∧ s ∉ slot

theorem dequeueAllocate_failed {buffers : Option (List GraphicBuffer)} {slot : Nat}
    {releaseAll : Bool}
    (h : bq.go buffers (.dequeueAllocate slot releaseAll) = some (.done status, bq')) :
    bq'.core = bq.core ∧ ((∃ buffer, buffers = some [buffer]) → bq.core.isAbandoned = true) := by
  unfold go at h
  dsimp only at h
  split at h
  · by_cases habandoned : bq.core.isAbandoned = true
    · rw [dequeueAllocated, if_pos habandoned] at h
      cases h
      exact ⟨rfl, fun _ => habandoned⟩
    · rw [dequeueAllocated, if_neg habandoned] at h
      cases h
  · rename_i hfails
    cases h
    exact ⟨rfl, fun h => h.elim fun buffer hbuffer => absurd hbuffer (hfails buffer)⟩

/-- The consumer abandons the queue while the buffer of the first slot is allocated. -/
def abandonedMeanwhile : List Step :=
  connectSteps ++ [.start (.dequeueBuffer sampleRequest), .start .disconnectC]

/-- The producer holds no slot of an abandoned queue. -/
theorem reached_released {steps : List Step} {replies : List Reply}
    (hrun : BufferQueue.run {} steps = some (replies, bq)) : Released bq.core :=
  run_released (by simp [Released]) hrun

def abandonSteps : List Step := abandonedMeanwhile ++ [.resume 0 (some [sampleBuffer 10])]

theorem reached_released_abandoned :
    (BufferQueue.run {} abandonSteps).any (·.2.core.isAbandoned) ∧
      ∀ result ∈ BufferQueue.run {} abandonSteps, Released result.2.core :=
  ⟨by decide +kernel, fun _ hrun => reached_released hrun⟩

end BufferQueue

end ShieldTv.Gui
