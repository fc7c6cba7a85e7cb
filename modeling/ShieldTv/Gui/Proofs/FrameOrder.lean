import ShieldTv.Gui.Proofs.Ownership

/-!
# The order of frames

The frame numbers in the queue increase and are above the last one that was acquired, as long as
`queueBuffer` replaces no item that others wait behind. Every other section leaves the queue as
it is or empties it.
-/

namespace ShieldTv.Gui

open List Option

variable {core core₁ core' : Core} {request : Request} {last : Nat} {reply : Reply}
  {bq bq' : BufferQueue} {steps : List Step}

namespace Core

/-! ## Sections that leave the queue alone -/

/-- The queue is the same or empty, and so is the frame counter. -/
structure KeepsQueue (core core' : Core) : Prop where
  queue : core'.queue = core.queue ∨ core'.queue = []
  frameCounter : core'.frameCounter = core.frameCounter

theorem KeepsQueue.refl (core : Core) : KeepsQueue core core := ⟨.inl rfl, rfl⟩

theorem KeepsQueue.trans {core₂ : Core} (h : KeepsQueue core core₁) (h' : KeepsQueue core₁ core₂) :
    KeepsQueue core core₂ := by
  refine ⟨?_, h'.frameCounter.trans h.frameCounter⟩
  rcases h'.queue with hqueue | hqueue
  · rw [hqueue]
    exact h.queue
  · exact .inr hqueue

theorem Tidied.keepsQueue (h : Tidied core core') : KeepsQueue core core' :=
  ⟨.inl h.frames.1, h.frames.2.1⟩

theorem populate_keepsQueue (core : Core) (s : Nat) (buffer : GraphicBuffer) :
    KeepsQueue core (core.populate s buffer) := by
  obtain ⟨hqueue, hcounter, -⟩ := freeBufferLocked_frames core s
  unfold populate
  split
  · exact KeepsQueue.refl core
  · exact ⟨.inl hqueue, hcounter⟩

theorem Moves.keepsQueue {t : Terms} (h : Moves t core core')
    (hqueue : ∀ slot input, t.step ≠ .start (.queueBuffer slot input))
    (hacquire : ∀ expected maxFrame, t.step ≠ .start (.acquireBuffer expected maxFrame)) :
    KeepsQueue core core' := by
  induction h with
  | tidied h => exact h.keepsQueue
  | touch | fill | give => exact ⟨.inl rfl, rfl⟩
  | @hand core core₁ async s f _ htake =>
    have htidied := freeBeyond_tidied core (core.getMaxBufferCountLocked async)
    refine htidied.keepsQueue.trans ?_
    cases takeFree_takes htake <;> exact ⟨.inl rfl, rfl⟩
  | attach htake => cases takeFreeC_takes htake <;> exact ⟨.inl rfl, rfl⟩
  | populate core => exact populate_keepsQueue core _ _
  | queue _ hstep => exact absurd hstep (hqueue _ _)
  | drop hstep | take hstep => exact absurd hstep (hacquire _ _)
  | abandon core =>
    obtain ⟨hqueue, hcounter, -⟩ := (freeAllBuffersLocked_tidied
      { core with isAbandoned := true, consumerListener := false, queue := [] }).frames
    exact ⟨.inr hqueue, hcounter⟩
  | trans _ _ ih ih' => exact ih.trans ih'

/-! ## The order -/

/-- The frame numbers in the queue increase from the last one acquired on, and have all been
issued. -/
structure Ordered (core : Core) (last : Nat) : Prop where
  increasing : (last :: core.queue.map (·.frameNumber)).Pairwise (· < ·)
  issued : ∀ n ∈ last :: core.queue.map (·.frameNumber), n ≤ core.frameCounter

theorem ordered_initial : Ordered {} 0 := ⟨by simp, by simp⟩

theorem Ordered.sublist {core core' : Core} {last last' : Nat} (h : Ordered core last)
    (hsub : (last' :: core'.queue.map (·.frameNumber)).Sublist
      (last :: core.queue.map (·.frameNumber)))
    (hcounter : core'.frameCounter = core.frameCounter) : Ordered core' last' := by
  refine ⟨h.increasing.sublist hsub, ?_⟩
  intro n hn
  rw [hcounter]
  exact h.issued n (hsub.subset hn)

theorem Ordered.keeps (h : Ordered core last) (hkeeps : KeepsQueue core core') :
    Ordered core' last := by
  apply h.sublist _ hkeeps.frameCounter
  rcases hkeeps.queue with hqueue | hqueue
  · rw [hqueue]
  · rw [hqueue]
    simp

/-- `queueBuffer` replaces no item that others wait behind, and the frame counter does not
overflow. -/
def FrontAlone (core : Core) : Prop :=
  core.frameCounter + 1 < 2 ^ 64 ∧ ((core.queue.head?.any (·.isDroppable)) → core.queue.length = 1)

theorem pushItem_frames (core : Core) (item : BufferItem)
    (halone : (core.queue.head?.any (·.isDroppable)) → core.queue.length = 1) :
    (core.pushItem item).frameCounter = core.frameCounter ∧
      ∃ kept, kept.Sublist core.queue ∧ (core.pushItem item).queue = kept ++ [item] := by
  unfold pushItem
  cases hqueue : core.queue with
  | nil => exact ⟨rfl, [], Sublist.refl [], rfl⟩
  | cons front rest =>
    dsimp only
    split_ifs with hdrop htrack
    · have hrest : rest = [] := by simpa [hqueue, hdrop] using halone
      exact ⟨rfl, [], nil_sublist _, by simp [hrest]⟩
    · have hrest : rest = [] := by simpa [hqueue, hdrop] using halone
      exact ⟨rfl, [], nil_sublist _, by simp [hrest]⟩
    · exact ⟨rfl, front :: rest, Sublist.refl _, rfl⟩

theorem Ordered.queueBuffer (h : Ordered core last) (halone : FrontAlone core) {slot : Int}
    {input : QueueBufferInput} (hqueue : core.queueBuffer slot input = some (reply, core')) :
    Ordered core' last := by
  obtain ⟨hbound, halone⟩ := halone
  obtain ⟨-, rfl | ⟨fence, buffer, -, -, rfl⟩⟩ := queueBuffer_cases hqueue
  · exact h
  · obtain ⟨hcounter, kept, hkept, hitems⟩ := pushItem_frames (core.queueSlot slot.toNat fence)
      (core.queueItem slot.toNat input fence buffer) halone
    have hnumber : (core.queueItem slot.toNat input fence buffer).frameNumber
        = core.frameCounter + 1 := Nat.mod_eq_of_lt hbound
    have hcounter' : (core.queueSlot slot.toNat fence).frameCounter = core.frameCounter + 1 :=
      Nat.mod_eq_of_lt hbound
    have hold : Ordered { core with queue := kept } last :=
      h.sublist ((hkept.map _).cons_cons last) rfl
    constructor
    · rw [hitems, map_append, ← cons_append, pairwise_append]
      refine ⟨hold.increasing, pairwise_singleton _ _, ?_⟩
      intro n hn m hm
      rw [map_singleton, mem_singleton] at hm
      have := hold.issued n hn
      dsimp only at this
      omega
    · intro n hn
      rw [hitems, map_append, ← cons_append, mem_append] at hn
      rw [hcounter, hcounter']
      rcases hn with hn | hn
      · exact Nat.le_succ_of_le (hold.issued n hn)
      · rw [map_singleton, mem_singleton] at hn
        omega

end Core

namespace BufferQueue

open Gui.Core

/-! ## One step -/

def frames (replies : List Reply) : List Nat :=
  replies.filterMap fun reply =>
    match reply with
    | .item item => some item.frameNumber
    | _ => none

/-- A `queueBuffer` finds a droppable front item alone. -/
def StepAlone (bq : BufferQueue) : Step → Prop
  | .start (.queueBuffer _ _) => FrontAlone bq.core
  | _ => True

def RunAlone : BufferQueue → List Step → Prop
  | _, [] => True
  | bq, step :: steps => StepAlone bq step ∧ ∀ result ∈ bq.step step, RunAlone result.2 steps

instance (core : Core) : Decidable core.FrontAlone :=
  inferInstanceAs (Decidable (_ ∧ (_ → _)))

instance RunAlone.decidable : ∀ bq steps, Decidable (RunAlone bq steps)
  | _, [] => inferInstanceAs (Decidable True)
  | bq, step :: steps =>
    have : DecidablePred fun result : Reply × BufferQueue => RunAlone result.2 steps :=
      fun result => RunAlone.decidable result.2 steps
    have : Decidable (StepAlone bq step) := by unfold StepAlone; split <;> infer_instance
    inferInstanceAs
      (Decidable (StepAlone bq step ∧ ∀ result ∈ bq.step step, RunAlone result.2 steps))

theorem frames_eq_nil (h : reply.isItem = false) : frames [reply] = [] := by
  cases reply with
  | item item => cases h
  | _ => rfl

/-- A step keeps the order: what it returns is above the last frame and becomes the last one. -/
theorem step_ordered (h : Ordered bq.core last) {step : Step} (halone : RunAlone bq (step :: steps))
    (hstep : bq.step step = some (reply, bq')) :
    (frames [reply] = [] ∧ Ordered bq'.core last) ∨
      ∃ n, frames [reply] = [n] ∧ last < n ∧ Ordered bq'.core n := by
  have hstepped : Stepped ⟨step, False⟩ bq reply bq' := step_stepped False.elim hstep
  by_cases hacquire : ∃ expected maxFrame, step = .start (.acquireBuffer expected maxFrame)
  · obtain ⟨expected, maxFrame, rfl⟩ := hacquire
    cases hcall : bq.core.acquireBuffer expected maxFrame with
    | mk reply' core' =>
      obtain ⟨-, hcounter, -, hcase⟩ := acquireBuffer_spec
        (t := ⟨.start (.acquireBuffer expected maxFrame), False⟩) rfl hcall
      rw [BufferQueue.step, start, hcall] at hstep
      cases hstep
      rcases hcase with ⟨status, hreply, hsub⟩ | ⟨item, hreply, hsub⟩
      · rw [hreply]
        exact .inl ⟨rfl, h.sublist ((hsub.map _).cons_cons last) hcounter⟩
      · have hsub' := hsub.map BufferItem.frameNumber
        have hincreasing := h.increasing.sublist (hsub'.cons_cons last)
        rw [hreply]
        refine .inr ⟨item.frameNumber, rfl, ?_, h.sublist (hsub'.cons last) hcounter⟩
        exact (pairwise_cons.mp hincreasing).1 _ mem_cons_self
  · refine .inl ⟨frames_eq_nil (Bool.eq_false_iff.mpr (mt hstepped.noItem hacquire)), ?_⟩
    by_cases hqueue : ∃ slot input, step = .start (.queueBuffer slot input)
    · obtain ⟨slot, input, rfl⟩ := hqueue
      obtain ⟨⟨reply', core'⟩, hcall, hreturn⟩ := bind_eq_some_iff.mp hstep
      cases hreturn
      exact h.queueBuffer halone.1 hcall
    · apply h.keeps
      exact hstepped.moves.keepsQueue (fun slot input heq => hqueue ⟨slot, input, heq⟩)
        fun expected maxFrame heq => hacquire ⟨expected, maxFrame, heq⟩

/-! ## Runs -/

theorem frames_cons (reply : Reply) (replies : List Reply) :
    frames (reply :: replies) = frames [reply] ++ frames replies := by
  rw [frames, frames, frames, ← filterMap_append, singleton_append]

theorem run_chain (h : Ordered bq.core last) (halone : RunAlone bq steps) {replies : List Reply}
    (hrun : bq.run steps = some (replies, bq')) : (last :: frames replies).IsChain (· < ·) := by
  induction steps generalizing bq last replies with
  | nil =>
    cases hrun
    exact isChain_singleton last
  | cons step steps ih =>
    rw [run] at hrun
    split at hrun
    · cases hrun
    · rename_i reply bq₁ hstep
      obtain ⟨⟨rest, bq₂⟩, hrest, heq⟩ := map_eq_some_iff.mp hrun
      cases heq
      have halone' := halone.2 (reply, bq₁) hstep
      rw [frames_cons]
      rcases step_ordered h halone hstep with ⟨hnone, hordered⟩ | ⟨n, hone, hlt, hordered⟩
      · rw [hnone, nil_append]
        exact ih hordered halone' hrest
      · rw [hone, singleton_append]
        exact (ih hordered halone' hrest).cons_cons hlt

/-- The frame numbers of the items that `acquireBuffer` returns increase, if no `queueBuffer` of
the run replaces an item that others wait behind and the frame counter does not overflow. -/
theorem acquired_frames_increase {steps : List Step} (halone : RunAlone {} steps)
    {replies : List Reply} {bq : BufferQueue}
    (h : BufferQueue.run {} steps = some (replies, bq)) :
    (frames replies).Pairwise (· < ·) := by
  have hchain := run_chain ordered_initial halone h
  exact (pairwise_cons.mp hchain.pairwise).2

/-- The second buffer takes the place of the first one, and the third waits behind it. -/
def replacingSteps : List Step :=
  connectSteps ++ [.start (.setBufferCount 5)] ++ dequeueSteps 0 10 ++ dequeueSteps 1 11 ++
    dequeueSteps 2 12 ++
    [.start (.queueBuffer 0 (sampleInput true)), .start (.queueBuffer 1 (sampleInput true)),
      .start (.acquireBuffer 0 0), .start (.queueBuffer 2 (sampleInput true)),
      .start (.acquireBuffer 0 0)]

theorem acquired_frames_increase_replacing :
    (BufferQueue.run {} replacingSteps).map (fun result => frames result.1) = some [2, 3] ∧
      ∀ result ∈ BufferQueue.run {} replacingSteps, (frames result.1).Pairwise (· < ·) :=
  ⟨by decide +kernel, fun _ h => acquired_frames_increase (by decide +kernel) h⟩

/-- A droppable item comes to the front with another one behind it, and the next `queueBuffer`
takes its place. -/
def overtakingSteps : List Step :=
  connectSteps ++ [.start (.setBufferCount 5)] ++ dequeueSteps 0 10 ++ dequeueSteps 1 11 ++
    dequeueSteps 2 12 ++ dequeueSteps 3 13 ++
    [.start (.queueBuffer 0 (sampleInput false)), .start (.queueBuffer 1 (sampleInput true)),
      .start (.queueBuffer 2 (sampleInput true)), .start (.acquireBuffer 0 0),
      .start (.queueBuffer 3 (sampleInput false)), .start (.releaseBuffer 0 1 (some 0)),
      .start (.acquireBuffer 0 0), .start (.acquireBuffer 0 0)]

theorem later_frame_overtakes :
    (BufferQueue.run {} overtakingSteps).map (fun result => frames result.1)
      = some [1, 4, 3] := by
  decide +kernel

end BufferQueue

end ShieldTv.Gui
