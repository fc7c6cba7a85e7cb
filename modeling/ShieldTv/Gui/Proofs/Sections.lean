import ShieldTv.Gui.Proofs.Slots

/-!
# What the sections do

Every section of the producer's and of the consumer's calls is a sequence of a few kinds of
changes. What the changes keep, every run keeps. Three of the sections keep the invariant only if
their caller sees to more: `cancelBuffer` needs a slot with a buffer, the second section of
`dequeueBuffer` a slot that is not free, and whatever brings a buffer into a slot a buffer that no
item of the queue has.
-/

namespace ShieldTv.Gui

open List Function

variable {core core₁ core' : Core} {s maxBufferCount maxFrame : Nat} {buffer : GraphicBuffer}
  {input : QueueBufferInput} {async freed : Bool} {reply : Reply} {request : Request}
  {slot expected : Int} {f : BufferSlot → BufferSlot} {found : Found}
  {allocation : Core.Allocation} {result : Reply × Core}

def Reply.isItem : Reply → Bool
  | .item _ => true
  | _ => false

namespace Core

/-! ## Small changes -/

theorem Inv.modify_same (hinv : Inv core) (s : Nat)
    (hstate : (f (core.slots s)).bufferState = (core.slots s).bufferState)
    (hbuffer : (f (core.slots s)).graphicBuffer = (core.slots s).graphicBuffer) :
    Inv (core.modifySlot s f) := by
  apply hinv.update (onlyAt_modifySlot core s f)
  have hcount : (core.modifySlot s f).trackedAt s = core.trackedAt s :=
    trackedAt_eq (by rw [modifySlot_same, hbuffer]) rfl
  rw [view, hcount, modifySlot_same, View.valid_iff, hstate, hbuffer]
  exact (View.valid_iff _ _).mp (hinv s)

/-! ## Tidying up -/

structure SameBuffers (core core' : Core) : Prop where
  slots : core'.slots = core.slots := by rfl
  freeSlots : core'.freeSlots = core.freeSlots := by rfl
  freeBuffers : core'.freeBuffers = core.freeBuffers := by rfl
  queue : core'.queue = core.queue := by rfl
  frameCounter : core'.frameCounter = core.frameCounter := by rfl
  isAbandoned : core'.isAbandoned = core.isAbandoned := by rfl

/-- Settings change and slots are freed, also one that was just taken out of `mFreeBuffers`. -/
inductive Tidied : Core → Core → Prop
  | same {core core' : Core} (h : SameBuffers core core') : Tidied core core'
  | free (core : Core) (s : Nat) (hs : s < numBufferSlots) : Tidied core (core.freeBufferLocked s)
  | discard {core : Core} {s : Nat} (hmem : s ∈ core.freeBuffers) {rest : List Nat}
      (hrest : ∀ t ≠ s, rest.count t = core.freeBuffers.count t) :
      Tidied core (Core.freeBufferLocked { core with freeBuffers := rest } s)
  | trans {core core₁ core₂ : Core} (h : Tidied core core₁) (h' : Tidied core₁ core₂) :
      Tidied core core₂

theorem freeBufferLocked_frames (core : Core) (s : Nat) :
    (core.freeBufferLocked s).queue = core.queue ∧
      (core.freeBufferLocked s).frameCounter = core.frameCounter ∧
      (core.freeBufferLocked s).isAbandoned = core.isAbandoned := by
  unfold freeBufferLocked
  dsimp only
  split_ifs <;> exact ⟨rfl, rfl, rfl⟩

namespace Tidied

theorem refl (core : Core) : Tidied core core := .same {}

theorem inv (h : Tidied core core') (hinv : Inv core) : Inv core' := by
  induction h with
  | same h => exact hinv.congr h.slots h.freeSlots h.freeBuffers h.queue
  | free core s hs => exact freeBufferLocked_inv hinv hs
  | discard hmem hrest =>
    obtain ⟨hs, hstate, hsome, -⟩ := hinv.of_mem_freeBuffers hmem
    exact hinv.freed (onlyAt_of_eq (fun _ _ => rfl) (fun _ _ => rfl) hrest rfl) hs
      (.inr (.inl hsome)) (.inl ⟨hstate, hsome⟩)
  | trans _ _ ih ih' => exact ih' (ih hinv)

theorem frames (h : Tidied core core') :
    core'.queue = core.queue ∧ core'.frameCounter = core.frameCounter ∧
      core'.isAbandoned = core.isAbandoned := by
  induction h with
  | same h => exact ⟨h.queue, h.frameCounter, h.isAbandoned⟩
  | free core s _ => exact freeBufferLocked_frames core s
  | discard => exact freeBufferLocked_frames _ _
  | trans _ _ ih ih' => rwa [ih.1, ih.2.1, ih.2.2] at ih'

end Tidied

section

variable (core : Core)

theorem freeAllBuffersLocked_tidied : Tidied core core.freeAllBuffersLocked := by
  have hfirst : Tidied core { core with bufferHasBeenQueued := false } :=
    .same {}
  exact foldlRecOn _ _ hfirst fun _ h s hs => h.trans (.free _ s (mem_range.mp hs))

theorem freeBeyond_tidied (maxBufferCount : Nat) :
    Tidied core (core.freeBeyond maxBufferCount).2 := by
  refine foldlRecOn (motive := fun result : Bool × Core => Tidied core result.2) _ _
    (.refl core) ?_
  intro result hresult s hs
  rw [mem_range'_1] at hs
  split_ifs
  · exact hresult.trans (.free _ s (by omega))
  · exact hresult

end

/-! ## Waiting for a slot -/

theorem firstFreeSlot_spec (h : core.firstFreeSlot = some s) :
    core.freeSlots s = true := find?_some h

theorem takeFree_cases (h : core.takeFree maxBufferCount = some (s, core₁)) :
    (∃ rest, core.freeBuffers = s :: rest ∧ core₁ = { core with freeBuffers := rest }) ∨
      (core.freeSlots s = true ∧ s < maxBufferCount ∧ core.allowAllocation = true ∧
        core₁ = { core with freeSlots := Function.update core.freeSlots s false }) := by
  unfold takeFree at h
  split at h
  · cases h
  · split at h
    · rename_i hbuffers
      cases h
      exact .inl ⟨_, hbuffers, rfl⟩
    · split_ifs at h with hallow
      split at h
      · rename_i hfirst
        split_ifs at h with hlt
        cases h
        exact .inr ⟨firstFreeSlot_spec hfirst, hlt, hallow, rfl⟩
      · cases h

theorem takeFree_takes (h : core.takeFree maxBufferCount = some (s, core₁)) :
    Takes core s core₁ := by
  obtain ⟨rest, hbuffers, rfl⟩ | ⟨hfree, -, -, rfl⟩ := takeFree_cases h
  · refine .buffer (by simp [hbuffers]) fun t ht => ?_
    rw [hbuffers, count_cons_of_ne (Ne.symm ht)]
  · exact .slot hfree

/-- The wait has only tidied up, or a slot was taken below the limit of some later state. -/
def FoundFrom (async : Bool) (core core₁ : Core) : Found → Prop
  | .slot s => ∃ core₀, Tidied core core₀ ∧ core₀.isAbandoned = false ∧
      (core₀.freeBeyond (core₀.getMaxBufferCountLocked async)).2.takeFree
        (core₀.getMaxBufferCountLocked async) = some (s, core₁)
  | _ => Tidied core core₁

theorem waitForFreeSlotThenRelock_found
    (h : core.waitForFreeSlotThenRelock async = (found, freed, core₁)) :
    FoundFrom async core core₁ found := by
  have hfreed := freeBeyond_tidied core (core.getMaxBufferCountLocked async)
  unfold waitForFreeSlotThenRelock at h
  dsimp only at h
  split_ifs at h with habandoned
  · cases h
    exact .refl core
  · cases h
    exact .refl core
  · cases h
    exact hfreed
  · cases h
    exact hfreed
  all_goals
    split at h
    · rename_i htake
      cases h
      exact ⟨core, .refl core, by simpa using habandoned, htake⟩
    · cases h
      exact hfreed

theorem FoundFrom.tidied (h : Tidied core core₁) (h' : FoundFrom async core₁ core' found) :
    FoundFrom async core core' found := by
  cases found with
  | slot s =>
    obtain ⟨core₀, htidied, hfound⟩ := h'
    exact ⟨core₀, h.trans htidied, hfound⟩
  | error _ | wait => exact h.trans h'

theorem FoundFrom.takeFree (h : FoundFrom async core core₁ (.slot s)) :
    ∃ core₀ maxBufferCount, Tidied core core₀ ∧
      core₀.takeFree maxBufferCount = some (s, core₁) := by
  obtain ⟨core₀, htidied, -, htake⟩ := h
  exact ⟨_, _, htidied.trans (freeBeyond_tidied core₀ _), htake⟩

theorem FoundFrom.discard (h : FoundFrom async core core₁ (.slot s))
    (hallow : ¬ core₁.allowAllocation) : Tidied core (core₁.freeBufferLocked s) := by
  obtain ⟨core₀, _, htidied, htake⟩ := h.takeFree
  obtain ⟨rest, hbuffers, rfl⟩ | ⟨-, -, hallow', rfl⟩ := takeFree_cases htake
  · refine htidied.trans (.discard (by simp [hbuffers]) ?_)
    intro t ht
    rw [hbuffers, count_cons_of_ne (Ne.symm ht)]
  · exact absurd hallow' hallow

theorem findSlot_found {fuel : Nat} {releaseAll : Bool}
    (h : core.findSlot request fuel releaseAll = some (found, freed, core₁)) :
    FoundFrom request.async core core₁ found := by
  induction fuel generalizing core releaseAll with
  | zero =>
    cases h
    exact .refl _
  | succ fuel ih =>
    rw [findSlot] at h
    cases hwait : core.waitForFreeSlotThenRelock request.async with
    | mk found' rest =>
      obtain ⟨freed', core'⟩ := rest
      have hfound := waitForFreeSlotThenRelock_found hwait
      rw [hwait] at h
      cases found' with
      | error status | wait =>
        cases h
        exact hfound
      | slot s =>
        dsimp only at h
        split_ifs at h with hallow
        · cases h
          exact hfound
        · split at h
          · cases h
          · split_ifs at h
            · -- The buffer does not fit: its slot is freed and the search goes on.
              exact (ih h).tidied (hfound.discard hallow)
            · cases h
              exact hfound

/-! ## Items of the queue -/

section

variable (hinv : Inv core) {front item : BufferItem} {rest : List BufferItem}
  (hqueue : core.queue = front :: rest)

include hqueue in
theorem onlyAt_pop (h : OnlyAt core core' front.slot) (hsame : core'.queue = core.queue) :
    OnlyAt core { core' with queue := rest } front.slot := by
  intro t ht
  rw [← h t ht, view, view, trackedAt, trackedAt, hsame, hqueue,
    countP_cons_of_neg (by simp [ht.symm])]
  rfl

include hinv

include hqueue in
theorem Inv.front_queued (htrack : core.stillTracking front) :
    (core.slots front.slot).bufferState = .queued ∧
      trackedAt { core with queue := rest } front.slot = 0 := by
  have hqueued := hinv.tracked (by simp [hqueue]) htrack
  have hle := (hinv front.slot).tracked
  rw [view, if_pos hqueued, trackedAt, hqueue, countP_cons_of_pos (by simp [htrack])] at hle
  exact ⟨hqueued, Nat.le_zero.mp (Nat.le_of_succ_le_succ hle)⟩

include hqueue in
/-- The slot of a tracked item that leaves the queue goes back to `mFreeBuffers`, by either end. -/
theorem Inv.release (htrack : core.stillTracking front) (h : GivenBack core core' front.slot)
    (hsame : core'.queue = core.queue) : Inv { core' with queue := rest } := by
  obtain ⟨hqueued, hzero⟩ := hinv.front_queued hqueue htrack
  have hback : GivenBack core { core' with queue := rest } front.slot :=
    ⟨onlyAt_pop hqueue h.only hsame, h.state, h.buffer, h.freeSlots, h.freeBuffers⟩
  apply hinv.giveBack hback
  · simp [hqueued]
  · exact (hinv front.slot).filled (.inl hqueued)
  · rw [← hzero]
    exact trackedAt_eq h.buffer rfl

theorem Inv.enqueue (before after : List BufferItem) (hqueue : core.queue = before ++ after)
    (hstate : (core.slots item.slot).bufferState = .queued) (hnone : core.trackedAt item.slot = 0) :
    Inv { core with queue := before ++ item :: after } := by
  have hcount : ∀ s, trackedAt { core with queue := before ++ item :: after } s =
      core.trackedAt s + if item.slot = s && core.stillTracking item then 1 else 0 := by
    intro s
    rw [trackedAt, trackedAt, hqueue, countP_append, countP_append, countP_cons, ← Nat.add_assoc]
    rfl
  apply hinv.update (s := item.slot)
  · intro t ht
    rw [view, hcount, if_neg (by simp [ht.symm])]
    rfl
  · obtain ⟨hfreeSlots, hfreeBuffers, -, hfilled, hbeyond⟩ := hinv item.slot
    refine ⟨hfreeSlots, hfreeBuffers, (hcount item.slot).trans_le ?_, hfilled, hbeyond⟩
    rw [view, hnone, if_pos hstate]
    split_ifs <;> omega

theorem queueSlot_inv (fence : Fence) (hstate : (core.slots s).bufferState = .dequeued)
    (hbuffer : (core.slots s).graphicBuffer.isSome) :
    Inv (core.queueSlot s fence) ∧ ((core.queueSlot s fence).slots s).bufferState = .queued ∧
      (core.queueSlot s fence).trackedAt s = 0 := by
  have hslot : (core.queueSlot s fence).slots s =
      { core.slots s with
        fence := fence
        bufferState := .queued
        frameNumber := (core.frameCounter + 1) % 2 ^ 64 } := update_self _ _ _
  have hnone : (core.queueSlot s fence).trackedAt s = 0 := by
    rw [← hinv.trackedAt_eq_zero (s := s) (by simp [hstate])]
    exact trackedAt_eq (by rw [hslot]) rfl
  refine ⟨?_, by rw [hslot], hnone⟩
  refine hinv.keep (onlyAt_of_eq (fun _ ht => update_of_ne ht _ _) (fun _ _ => rfl) (fun _ _ => rfl)
    rfl) ?_ ?_ ?_ ⟨rfl, rfl⟩ hnone
  · simp [hstate]
  · simp [hslot]
  · rw [hslot]
    exact hbuffer

theorem pushItem_inv (hstate : (core.slots item.slot).bufferState = .queued)
    (hnone : core.trackedAt item.slot = 0) : Inv (core.pushItem item) := by
  unfold pushItem
  cases hqueue : core.queue with
  | nil => exact hinv.enqueue [] [] hqueue hstate hnone
  | cons front rest =>
    dsimp only
    split_ifs with hdrop htrack
    · have hback := givenBack_releaseFront core front.slot
      have hne : item.slot ≠ front.slot := by
        intro heq
        exact countP_eq_zero.mp hnone front (by simp [hqueue]) (by simp [heq, htrack])
      have hview := onlyAt_pop hqueue hback.only rfl item.slot hne
      apply (hinv.release hqueue htrack hback rfl).enqueue [] rest rfl
      · rw [← hstate]
        exact congrArg (·.slot.bufferState) hview
      · rw [← hnone]
        exact congrArg View.tracked hview
    · have hrest : Inv { core with queue := rest } := hinv.sublist (by simp [hqueue])
      apply hrest.enqueue [] rest rfl hstate
      rw [trackedAt, hqueue, countP_cons] at hnone
      exact (Nat.add_eq_zero_iff.mp hnone).1
    · exact hinv.enqueue (front :: rest) [] (by simp [hqueue]) hstate hnone

end

/-- `queueBuffer` leaves everything as it is, or queues a dequeued slot with its buffer. -/
theorem queueBuffer_cases (h : core.queueBuffer slot input = some result) :
    result.1.isItem = false ∧
      (result.2 = core ∨ ∃ fence buffer, (core.slots slot.toNat).bufferState = .dequeued ∧
        (core.slots slot.toNat).graphicBuffer = some buffer ∧
        result.2 = (core.queueSlot slot.toNat fence).pushItem
          (core.queueItem slot.toNat input fence buffer)) := by
  unfold queueBuffer at h
  cases hfence : input.fence with
  | none =>
    rw [hfence] at h
    cases h
    exact ⟨rfl, .inl rfl⟩
  | some fence =>
    rw [hfence] at h
    dsimp only at h
    cases hbuffer : (core.slots slot.toNat).graphicBuffer with
    | none =>
      rw [hbuffer] at h
      split_ifs at h <;> cases h <;> exact ⟨rfl, .inl rfl⟩
    | some buffer =>
      rw [hbuffer] at h
      dsimp only at h
      split_ifs at h with _ _ _ _ hstate _ _
      case neg =>
        cases h
        exact ⟨rfl, .inr ⟨fence, buffer, not_not.mp hstate, rfl, rfl⟩⟩
      all_goals
        cases h
        exact ⟨rfl, .inl rfl⟩

/-- A slot that `queueBuffer` puts into `mFreeBuffers` was queued. -/
theorem queueBuffer_freeBuffers {core core' : Core} (hinv : Inv core)
    (h : core.queueBuffer slot input = some (reply, core')) (hs : s ∈ core'.freeBuffers) :
    s ∈ core.freeBuffers ∨ (core.slots s).bufferState = .queued := by
  obtain ⟨-, rfl | ⟨fence, buffer, hstate, hbuffer, rfl⟩⟩ := queueBuffer_cases h
  · exact .inl hs
  · obtain ⟨hqueued, -, hnone⟩ := queueSlot_inv hinv fence hstate (by rw [hbuffer]; rfl)
    have hqueue : (core.queueSlot slot.toNat fence).queue = core.queue := rfl
    unfold pushItem at hs
    rw [hqueue] at hs
    cases hitems : core.queue with
    | nil =>
      rw [hitems] at hs
      exact .inl hs
    | cons front rest =>
      rw [hitems] at hs
      dsimp only at hs
      split_ifs at hs with hdrop htrack
      · rcases mem_cons.mp hs with rfl | hs
        · have hmem : front ∈ core.queue := by simp [hitems]
          have hne : front.slot ≠ slot.toNat := fun heq =>
            countP_eq_zero.mp hnone front hmem (by simp [heq, htrack])
          have hstate' := hqueued.tracked hmem htrack
          rw [show (core.queueSlot slot.toNat fence).slots front.slot = core.slots front.slot
            from update_of_ne hne _ _] at hstate'
          exact .inr hstate'
        · exact .inl hs
      · exact .inl hs
      · exact .inl hs

/-! ## `allocateBuffers` -/

theorem beginAllocation_cases (h : core.beginAllocation request = some (allocation, core')) :
    SameBuffers core core' ∧ ∀ s ∈ allocation.freeSlots, s < numBufferSlots := by
  unfold beginAllocation at h
  split at h
  · cases h
  · dsimp only at h
    split at h
    · cases h
    · cases h
      refine ⟨{}, ?_⟩
      intro s hs
      exact mem_range.mp (mem_filter.mp hs).1

theorem populate_inv (hinv : Inv core) (hs : s < numBufferSlots) (hfresh : NotQueued core buffer) :
    Inv (core.populate s buffer) := by
  unfold populate
  split
  · exact hinv
  · have hfreed := freeBufferLocked_inv hinv hs
    obtain ⟨hstate, hbuffer⟩ := freeBufferLocked_slot core s
    have hqueue := (freeBufferLocked_frames core s).1
    generalize core.freeBufferLocked s = freed at *
    obtain ⟨_, _, _, hout⟩ := hfreed.of_freeSlots ((hfreed s).freeSlots.mpr ⟨hs, hstate, hbuffer⟩)
    apply hfreed.update (s := s)
    · exact onlyAt_of_eq (fun _ ht => update_of_ne ht _ _) (fun _ ht => update_of_ne ht _ _)
        (fun _ ht => count_cons_of_ne ht.symm) rfl
    · refine ⟨?_, ?_, (hfresh.trackedAt ?_ ?_).trans_le (Nat.zero_le _), ?_, by omega⟩
      · simp [view]
      · simp [view, hstate, hout, modifySlot]
      · exact hqueue
      · simp
      · simp [view]

theorem populate_queue (core : Core) (s : Nat) (buffer : GraphicBuffer) :
    (core.populate s buffer).queue = core.queue := by
  unfold populate
  split
  · rfl
  · exact (freeBufferLocked_frames core s).1

/-! ## Calls of the consumer -/

/-- Slots that are not queued keep their state and their places in `mFreeBuffers`. -/
def KeepsHeld (core core' : Core) : Prop :=
  ∀ s, (core.slots s).bufferState ≠ .queued →
    (core'.slots s).bufferState = (core.slots s).bufferState ∧
      core'.freeBuffers.count s = core.freeBuffers.count s

theorem KeepsHeld.refl (core : Core) : KeepsHeld core core := fun _ _ => ⟨rfl, rfl⟩

theorem KeepsHeld.trans {core₂ : Core} (h : KeepsHeld core core₁) (h' : KeepsHeld core₁ core₂) :
    KeepsHeld core core₂ := by
  intro s hs
  obtain ⟨hstate, hcount⟩ := h s hs
  obtain ⟨hstate', hcount'⟩ := h' s (by rwa [hstate])
  exact ⟨hstate'.trans hstate, hcount'.trans hcount⟩

theorem OnlyAt.keepsHeld (h : OnlyAt core core' s) (hstate : (core.slots s).bufferState = .queued) :
    KeepsHeld core core' := by
  intro t ht
  have hview := h t fun heq => ht (heq ▸ hstate)
  exact ⟨congrArg (·.slot.bufferState) hview, congrArg View.inFreeBuffers hview⟩

section

variable (hinv : Inv core) {front : BufferItem} {rest : List BufferItem}
  (hqueue : core.queue = front :: rest)
include hinv hqueue

theorem dropFront_keepsHeld :
    KeepsHeld core (core.dropFront front rest) := by
  unfold dropFront
  split_ifs with htrack
  · have honly := onlyAt_pop hqueue (givenBack_releaseBack core front.slot).only rfl
    exact honly.keepsHeld (hinv.front_queued hqueue htrack).1
  · exact KeepsHeld.refl core

theorem takeFront_keepsHeld : KeepsHeld core (core.takeFront front rest) := by
  unfold takeFront
  split_ifs with htrack
  · exact (onlyAt_pop hqueue (onlyAt_modifySlot core front.slot _) rfl).keepsHeld
      (hinv.front_queued hqueue htrack).1
  · exact KeepsHeld.refl core

theorem dropFront_inv : Inv (core.dropFront front rest) := by
  unfold dropFront
  split_ifs with htrack
  · exact hinv.release hqueue htrack (givenBack_releaseBack core front.slot) rfl
  · exact hinv.sublist (by simp [hqueue])

theorem takeFront_inv :
    Inv (core.takeFront front rest) := by
  unfold takeFront
  split_ifs with htrack
  · obtain ⟨hqueued, hzero⟩ := hinv.front_queued hqueue htrack
    refine hinv.keep (onlyAt_pop hqueue (onlyAt_modifySlot core front.slot _) rfl)
      ?_ ?_ ?_ ⟨rfl, rfl⟩ ?_
    · simp [hqueued]
    · simp
    · rw [modifySlot_same]
      exact (hinv front.slot).filled (.inl hqueued)
    · rw [← hzero]
      exact trackedAt_eq (by dsimp only; rw [modifySlot_same]) rfl
  · exact hinv.sublist (by simp [hqueue])

end

/-! ## The changes -/

/-- A step, and whether its caller keeps to the rules of ownership. -/
structure Terms where
  step : Step
  fits : Prop

/-- What a step does to the core, one change at a time. -/
inductive Moves (t : Terms) : Core → Core → Prop
  | tidied {core core' : Core} (h : Tidied core core') : Moves t core core'
  | touch (core : Core) (s : Nat) {f : BufferSlot → BufferSlot}
      (hstate : (f (core.slots s)).bufferState = (core.slots s).bufferState)
      (hbuffer : (f (core.slots s)).graphicBuffer = (core.slots s).graphicBuffer) :
      Moves t core (core.modifySlot s f)
  | hand {core core₁ : Core} {async : Bool} {s : Nat} {f : BufferSlot → BufferSlot}
      (hopen : core.isAbandoned = false)
      (htake : (core.freeBeyond (core.getMaxBufferCountLocked async)).2.takeFree
        (core.getMaxBufferCountLocked async) = some (s, core₁))
      (hstate : (f (core₁.slots s)).bufferState = .dequeued)
      (hbrings : Brings t.fits core (core₁.slots s).graphicBuffer
        (f (core₁.slots s)).graphicBuffer) :
      Moves t core (core₁.modifySlot s f)
  | attach {core core₁ : Core} {s : Nat} {buffer : GraphicBuffer}
      (htake : core.takeFreeC = some (s, core₁)) (hfresh : t.fits → NotQueued core buffer) :
      Moves t core (core₁.attachSlotC s buffer)
  | fill (core : Core) (s : Nat) {buffer : GraphicBuffer}
      (hfits : t.fits → (core.slots s).bufferState ≠ .free ∧ NotQueued core buffer) :
      Moves t core (core.modifySlot s fun slot => { slot with graphicBuffer := some buffer })
  | give {core : Core} {s : Nat} {freed : List Nat}
      (hback : GivenBack core
        { core.modifySlot s fun slot => { slot with bufferState := .free } with
          freeBuffers := freed } s)
      (hheld : (core.slots s).bufferState = .acquired ∨ (core.slots s).bufferState = .dequeued ∧
        (t.fits → (core.slots s).graphicBuffer.isSome)) :
      Moves t core { core.modifySlot s fun slot => { slot with bufferState := .free } with
        freeBuffers := freed }
  | populate (core : Core) {s : Nat} {buffer : GraphicBuffer}
      (hfits : t.fits → s < numBufferSlots ∧ NotQueued core buffer) :
      Moves t core (core.populate s buffer)
  | queue {core : Core} {slot : Int} {input : QueueBufferInput} (fence : Fence)
      {buffer : GraphicBuffer} (hstep : t.step = .start (.queueBuffer slot input))
      (hstate : (core.slots slot.toNat).bufferState = .dequeued)
      (hbuffer : (core.slots slot.toNat).graphicBuffer = some buffer) :
      Moves t core ((core.queueSlot slot.toNat fence).pushItem
        (core.queueItem slot.toNat input fence buffer))
  | drop {core : Core} {expected : Int} {maxFrame : Nat} {front : BufferItem}
      {rest : List BufferItem} (hstep : t.step = .start (.acquireBuffer expected maxFrame))
      (hqueue : core.queue = front :: rest) : Moves t core (core.dropFront front rest)
  | take {core : Core} {expected : Int} {maxFrame : Nat} {front : BufferItem}
      {rest : List BufferItem} (hstep : t.step = .start (.acquireBuffer expected maxFrame))
      (hqueue : core.queue = front :: rest) : Moves t core (core.takeFront front rest)
  | abandon (core : Core) : Moves t core
      (Core.freeAllBuffersLocked
        { core with isAbandoned := true, consumerListener := false, queue := [] })
  | trans {core core₁ core₂ : Core} (h : Moves t core core₁)
      (h' : Moves t core₁ core₂) : Moves t core core₂

section

variable {t : Terms}

theorem Moves.refl (core : Core) : Moves t core core := .tidied (.refl core)

theorem takeFreeC_takes (h : core.takeFreeC = some (s, core₁)) : Takes core s core₁ := by
  unfold takeFreeC at h
  split at h
  · rename_i hfirst
    cases h
    exact .slot (firstFreeSlot_spec hfirst)
  · split at h
    · cases h
    · rename_i hbuffers
      cases h
      refine .buffer ?_ fun t ht => count_filter_ne _ ht
      rw [count_filter_self, count_pos_iff, hbuffers]
      exact mem_cons_self

theorem Moves.inv (h : Moves t core core') (hfits : t.fits) (hinv : Inv core) :
    Inv core' := by
  induction h with
  | tidied h => exact h.inv hinv
  | touch _ s hstate hbuffer => exact hinv.modify_same s hstate hbuffer
  | @hand core core₁ async s f _ htake hstate hbrings =>
    have htidied := freeBeyond_tidied core (core.getMaxBufferCountLocked async)
    have htakes := takeFree_takes htake
    rw [htakes.slots] at hstate hbrings
    refine (htidied.inv hinv).handOut htakes (.inl hstate) hfits ?_
    simpa only [Brings, NotQueued, htidied.frames.1] using hbrings
  | attach htake hfresh =>
    exact hinv.handOut (takeFreeC_takes htake) (.inr ⟨rfl, rfl⟩) hfits
      (.inr (.inr ⟨_, rfl, hfresh⟩))
  | fill core s h =>
    obtain ⟨hstate, hfresh⟩ := h hfits
    refine hinv.keep (onlyAt_modifySlot core s _) hstate ?_ ?_ ⟨rfl, rfl⟩ ?_
    · rwa [modifySlot_same]
    · rw [modifySlot_same]
      rfl
    · exact hfresh.trackedAt rfl (by rw [modifySlot_same])
  | @give core s freed hback hheld =>
    have hstate : (core.slots s).bufferState ≠ .free ∧ (core.slots s).bufferState ≠ .queued := by
      rcases hheld with hheld | ⟨hheld, -⟩ <;> simp [hheld]
    refine hinv.giveBack hback hstate.1 ?_ ?_
    · rcases hheld with hheld | ⟨-, hsome⟩
      · exact (hinv s).filled (.inr hheld)
      · exact hsome hfits
    · rw [trackedAt_eq hback.buffer rfl]
      exact hinv.trackedAt_eq_zero hstate.2
  | populate core h => exact populate_inv hinv (h hfits).1 (h hfits).2
  | queue fence _ hstate hbuffer =>
    obtain ⟨hqueued, hstate', hnone⟩ := queueSlot_inv hinv fence hstate (by rw [hbuffer]; rfl)
    exact pushItem_inv hqueued hstate' hnone
  | drop _ hqueue => exact dropFront_inv hinv hqueue
  | take _ hqueue => exact takeFront_inv hinv hqueue
  | abandon core =>
    apply (freeAllBuffersLocked_tidied _).inv
    exact (hinv.sublist (nil_sublist _)).congr rfl rfl rfl rfl
  | trans _ _ ih ih' => exact ih' (ih hinv)

theorem FoundFrom.moves (h : FoundFrom async core core₁ (.slot s))
    (hstate : (f (core₁.slots s)).bufferState = .dequeued)
    (hbrings : Brings t.fits core (core₁.slots s).graphicBuffer (f (core₁.slots s)).graphicBuffer) :
    Moves t core (core₁.modifySlot s f) := by
  obtain ⟨core₀, htidied, hopen, htake⟩ := h
  refine .trans (.tidied htidied) (.hand hopen htake hstate ?_)
  simpa only [Brings, NotQueued, htidied.frames.1] using hbrings

theorem dequeueSlot_moves (h : FoundFrom request.async core core₁ (.slot s)) :
    Moves t core (core₁.dequeueSlot s request) := by
  apply h.moves
  · split_ifs <;> rfl
  · split_ifs
    · exact .inl rfl
    · exact .inr (.inl rfl)

/-! ## Sections -/

/-- A section of a step, which returns an item only if it is `acquireBuffer`. -/
structure Settles (t : Terms) (core : Core) (result : Reply × Core) : Prop where
  noItem : result.1.isItem = true →
    ∃ expected maxFrame, t.step = .start (.acquireBuffer expected maxFrame)
  moves : Moves t core result.2

variable (core : Core)

theorem settles_moves {core : Core} (hitem : reply.isItem = false) (h : Moves t core core') :
    Settles t core (reply, core') :=
  ⟨fun h => by simp [hitem] at h, h⟩

theorem settles_same {core : Core} (hitem : reply.isItem = false) (h : SameBuffers core core') :
    Settles t core (reply, core') :=
  settles_moves hitem (.tidied (.same h))

theorem settles_done (status : Status) : Settles t core (.done status, core) :=
  settles_moves rfl (.refl core)

theorem requestBuffer_settles (slot : Int) :
    Settles t core (core.requestBuffer slot) := by
  unfold requestBuffer
  split_ifs
  case neg => exact settles_moves rfl (.touch core _ rfl rfl)
  all_goals exact settles_done core _

theorem setBufferCount_settles (bufferCount : Int) :
    Settles t core (core.setBufferCount bufferCount) := by
  have hfreed := freeAllBuffersLocked_tidied core
  unfold setBufferCount
  generalize core.freeAllBuffersLocked = freed at hfreed ⊢
  split_ifs
  case neg => exact settles_moves rfl (.tidied (hfreed.trans (.same {})))
  all_goals exact settles_same rfl {}

theorem detachBufferP_settles (slot : Int) :
    Settles t core (core.detachBufferP slot) := by
  unfold detachBufferP
  split_ifs
  case neg => exact settles_moves rfl (.tidied (.free core _ (by omega)))
  all_goals exact settles_done core _

theorem detachNextBuffer_settles : Settles t core core.detachNextBuffer := by
  unfold detachNextBuffer
  split_ifs
  · exact settles_moves rfl (.refl core)
  · exact settles_done core _
  · split
    · exact settles_done core _
    · rename_i hbuffers
      exact settles_moves rfl (.tidied
        (.discard (by simp [hbuffers]) fun t ht => count_filter_ne _ ht))

theorem queueBuffer_settles (hstep : t.step = .start (.queueBuffer slot input))
    (h : core.queueBuffer slot input = some result) : Settles t core result := by
  obtain ⟨hitem, hcase⟩ := queueBuffer_cases h
  refine settles_moves hitem ?_
  obtain hsame | ⟨fence, buffer, hstate, hbuffer, hcore⟩ := hcase
  · rw [hsame]
    exact .refl core
  · rw [hcore]
    exact .queue fence hstep hstate hbuffer

theorem cancelBuffer_settles (fence : Option Fence)
    (hbuffer : t.fits → 0 ≤ slot → (core.slots slot.toNat).bufferState = .dequeued →
      (core.slots slot.toNat).graphicBuffer.isSome) :
    Settles t core (core.cancelBuffer slot fence) := by
  unfold cancelBuffer
  split_ifs with _ _ hstate
  case neg =>
    split
    · exact settles_done core _
    · have hstate := not_not.mp hstate
      have hback : Moves t core (core.releaseFront slot.toNat) :=
        .give (givenBack_releaseFront core slot.toNat)
          (.inr ⟨hstate, fun hfits => hbuffer hfits (by omega) hstate⟩)
      exact settles_moves rfl (hback.trans (.touch _ _ rfl rfl))
  all_goals exact settles_done core _

theorem connectP_settles (api : Nat) (byApp : Bool) :
    Settles t core (core.connectP api byApp) := by
  unfold connectP
  split_ifs <;> exact settles_same rfl {}

theorem disconnectP_settles (api : Nat) : Settles t core (core.disconnectP api) := by
  have hfreed := freeAllBuffersLocked_tidied core
  unfold disconnectP
  generalize core.freeAllBuffersLocked = freed at hfreed ⊢
  split_ifs
  · exact settles_moves rfl (.refl core)
  · exact settles_done core _
  · exact settles_done core _
  · exact settles_moves rfl (.tidied (hfreed.trans (.same {})))
  · exact settles_done core _
  · exact settles_done core _

theorem finishAllocation_moves {core : Core} {buffers : List GraphicBuffer}
    (hfits : t.fits → (∀ s ∈ allocation.freeSlots, s < numBufferSlots) ∧
      ∀ buffer ∈ buffers, NotQueued core buffer) :
    Moves t core (core.finishAllocation allocation buffers) := by
  have hpairs : ∀ pair ∈ (allocation.freeSlots.take allocation.newBufferCount).zip buffers,
      t.fits → pair.1 < numBufferSlots ∧ NotQueued core pair.2 := by
    intro pair hpair hfit
    obtain ⟨hslot, hbuffer⟩ := of_mem_zip hpair
    exact ⟨(hfits hfit).1 _ (mem_of_mem_take hslot), (hfits hfit).2 _ hbuffer⟩
  have hfold : Moves t core
      (((allocation.freeSlots.take allocation.newBufferCount).zip buffers).foldl
        (fun core pair => core.populate pair.1 pair.2) core) := by
    generalize (allocation.freeSlots.take allocation.newBufferCount).zip buffers = pairs at hpairs
    clear hfits
    induction pairs generalizing core with
    | nil => exact .refl core
    | cons pair pairs ih =>
      rw [foldl_cons]
      refine Moves.trans (.populate core (hpairs pair mem_cons_self)) (ih ?_)
      intro other hother
      rw [NotQueued, populate_queue]
      exact hpairs other (mem_cons_of_mem _ hother)
  unfold finishAllocation
  split_ifs
  · exact .tidied (.same {})
  · exact hfold.trans (.tidied (.same {}))

theorem dequeueAllocated_moves {core : Core}
    (hfits : t.fits → core.isAbandoned = false →
      (core.slots s).bufferState ≠ .free ∧ NotQueued core buffer) :
    Moves t core (core.dequeueAllocated s buffer).2 := by
  unfold dequeueAllocated
  split_ifs with habandoned
  · exact .refl core
  · exact .fill core s fun hfit => hfits hfit (by simpa using habandoned)

/-- What `acquireBuffer` drops and takes. -/
theorem dropItems_spec {core : Core} {front : BufferItem} {rest : List BufferItem}
    (hstep : t.step = .start (.acquireBuffer expected maxFrame))
    (hqueue : core.queue = front :: rest) {front' : BufferItem} {rest' : List BufferItem}
    (h : dropItems expected maxFrame core front rest = (core', front', rest')) :
    Moves t core core' ∧ core'.queue = front' :: rest' ∧
      (front' :: rest').Sublist (front :: rest) ∧ core'.frameCounter = core.frameCounter ∧
      (Inv core → Inv core' ∧ KeepsHeld core core') := by
  induction rest generalizing core front with
  | nil =>
    cases h
    exact ⟨.refl _, hqueue, .refl _, rfl, fun hinv => ⟨hinv, .refl _⟩⟩
  | cons next rest ih =>
    rw [dropItems] at h
    split at h
    · obtain ⟨hmoves, hqueue', hsub, hcounter, hkept⟩ := ih rfl h
      refine ⟨.trans (.drop hstep hqueue) hmoves, hqueue', hsub.cons front, hcounter.trans ?_, ?_⟩
      · unfold dropFront
        split_ifs <;> rfl
      · intro hinv
        obtain ⟨hinv', hheld⟩ := hkept (dropFront_inv hinv hqueue)
        exact ⟨hinv', (dropFront_keepsHeld hinv hqueue).trans hheld⟩
    · cases h
      exact ⟨.refl _, hqueue, .refl _, rfl, fun hinv => ⟨hinv, .refl _⟩⟩

theorem takeFront_frames (core : Core) (front : BufferItem) (rest : List BufferItem) :
    (core.takeFront front rest).queue = rest ∧
      (core.takeFront front rest).frameCounter = core.frameCounter := by
  unfold takeFront
  split_ifs <;> exact ⟨rfl, rfl⟩

/-- `acquireBuffer` returns an item and leaves those behind it, or only drops items. -/
theorem acquireBuffer_spec {core : Core}
    (hstep : t.step = .start (.acquireBuffer expected maxFrame))
    (h : core.acquireBuffer expected maxFrame = (reply, core')) :
    Moves t core core' ∧ core'.frameCounter = core.frameCounter ∧
      (Inv core → KeepsHeld core core') ∧
      ((∃ status, reply = .done status ∧ core'.queue.Sublist core.queue) ∨
        ∃ item, reply = .item item ∧ (item :: core'.queue).Sublist core.queue) := by
  unfold acquireBuffer at h
  split at h
  · cases h
    exact ⟨.refl _, rfl, fun _ => .refl _, .inl ⟨_, rfl, .refl _⟩⟩
  · split at h
    · cases h
      exact ⟨.refl _, rfl, fun _ => .refl _, .inl ⟨_, rfl, .refl _⟩⟩
    · rename_i front rest hqueue
      split at h
      · generalize hdrop : dropItems expected maxFrame core front rest = dropped at h
        obtain ⟨core₁, front', rest'⟩ := dropped
        obtain ⟨hmoves, hqueue', hsub, hcounter, hkept⟩ := dropItems_spec hstep hqueue hdrop
        rw [hqueue]
        dsimp only at h
        split at h
        · cases h
          obtain ⟨htaken, hcounter'⟩ := takeFront_frames core₁ front' rest'
          refine ⟨hmoves.trans (.take hstep hqueue'), hcounter'.trans hcounter, fun hinv => ?_, ?_⟩
          · obtain ⟨hinv', hheld⟩ := hkept hinv
            exact hheld.trans (takeFront_keepsHeld hinv' hqueue')
          · rw [htaken]
            exact .inr ⟨front', rfl, hsub⟩
        · cases h
          rw [hqueue']
          exact ⟨hmoves, hcounter, fun hinv => (hkept hinv).2, .inl ⟨_, rfl, hsub⟩⟩
      · cases h
        obtain ⟨htaken, hcounter⟩ := takeFront_frames core front rest
        rw [htaken, hqueue]
        exact ⟨.take hstep hqueue, hcounter, fun hinv => takeFront_keepsHeld hinv hqueue,
          .inr ⟨front, rfl, .refl _⟩⟩

theorem detachBufferC_settles (slot : Int) :
    Settles t core (core.detachBufferC slot) := by
  unfold detachBufferC
  split_ifs
  case neg => exact settles_moves rfl (.tidied (.free core _ (by omega)))
  all_goals exact settles_done core _

theorem attachBufferC_settles {buffer : Option GraphicBuffer}
    (hfresh : t.fits → ∀ b ∈ buffer, NotQueued core b) :
    Settles t core (core.attachBufferC buffer) := by
  unfold attachBufferC
  split
  · exact settles_done core _
  · split_ifs
    · exact settles_done core _
    · exact settles_done core _
    · split
      · exact settles_done core _
      · rename_i htake
        exact settles_moves rfl (.attach htake fun hfits => hfresh hfits _ rfl)

theorem releaseBuffer_settles (slot : Int) (frameNumber : Nat) (releaseFence : Option Fence) :
    Settles t core (core.releaseBuffer slot frameNumber releaseFence) := by
  unfold releaseBuffer
  split
  · exact settles_done core _
  · split
    · exact settles_done core _
    · rename_i fence
      dsimp only
      split_ifs with _ _ hstate
      · exact settles_done core _
      · exact settles_done core _
      · have hfence : Moves t core
            (core.modifySlot slot.toNat fun s => { s with fence := fence }) :=
          .touch core _ rfl rfl
        refine settles_moves rfl (hfence.trans
          (.give (givenBack_releaseBack _ slot.toNat) (.inl ?_)))
        rw [modifySlot_same]
        exact hstate
      · exact settles_moves rfl (.touch core _ rfl rfl)
      · exact settles_done core _

theorem connectC_settles (byApp : Bool) : Settles t core (core.connectC byApp) := by
  unfold connectC
  split_ifs <;> exact settles_same rfl {}

theorem disconnectC_settles : Settles t core core.disconnectC := by
  unfold disconnectC
  split_ifs
  · exact settles_done core _
  · exact settles_moves rfl (.abandon core)

theorem setDefaultMaxBufferCount_settles (bufferCount : Int) :
    Settles t core (core.setDefaultMaxBufferCount bufferCount) := by
  unfold setDefaultMaxBufferCount setDefaultMaxBufferCountLocked
  dsimp only
  split_ifs <;> exact settles_same rfl {}

theorem disableAsyncBuffer_settles : Settles t core core.disableAsyncBuffer := by
  unfold disableAsyncBuffer
  split_ifs <;> exact settles_same rfl {}

theorem setMaxAcquiredBufferCount_settles (maxAcquiredBuffers : Int) :
    Settles t core (core.setMaxAcquiredBufferCount maxAcquiredBuffers) := by
  unfold setMaxAcquiredBufferCount
  split_ifs <;> exact settles_same rfl {}

theorem setDefaultBufferSize_settles (width height : Nat) :
    Settles t core (core.setDefaultBufferSize width height) := by
  unfold setDefaultBufferSize
  split_ifs <;> exact settles_same rfl {}

end

end Core

end ShieldTv.Gui
