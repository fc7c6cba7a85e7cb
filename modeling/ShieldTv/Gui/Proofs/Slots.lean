import ShieldTv.Gui.BufferQueueRuns

/-!
# Slots and free lists

What the free lists say of a slot agrees with its state and its buffer, and an item of the queue
that still is its slot's belongs to a queued slot. Each section changes one slot at a time; the
lemmas here are about such a change.
-/

namespace ShieldTv.Gui

open List Option Function

variable {core core₁ core' : Core} {s : Nat} {item : BufferItem}

namespace Core

/-! ## The invariant -/

/-- The items of the queue that still are the slot's. -/
def trackedAt (core : Core) (s : Nat) : Nat :=
  core.queue.countP fun item => item.slot = s && core.stillTracking item

/-- A slot, its places in the free lists and its tracked items. -/
structure View where
  slot : BufferSlot
  inFreeSlots : Bool
  inFreeBuffers : Nat
  tracked : Nat

def view (core : Core) (s : Nat) : View :=
  ⟨core.slots s, core.freeSlots s, core.freeBuffers.count s, core.trackedAt s⟩

/-- A slot agrees with the free lists, and only a queued one has a tracked item. -/
@[mk_iff] structure View.Valid (v : View) (s : Nat) : Prop where
  freeSlots : v.inFreeSlots = true ↔
    s < numBufferSlots ∧ v.slot.bufferState = .free ∧ v.slot.graphicBuffer = none
  freeBuffers : v.inFreeBuffers =
    if v.slot.bufferState = .free ∧ v.slot.graphicBuffer.isSome then 1 else 0
  tracked : v.tracked ≤ if v.slot.bufferState = .queued then 1 else 0
  filled : v.slot.bufferState = .queued ∨ v.slot.bufferState = .acquired →
    v.slot.graphicBuffer.isSome
  beyond : numBufferSlots ≤ s → v.slot.bufferState = .free ∧ v.slot.graphicBuffer = none

def Inv (core : Core) : Prop := ∀ s, (core.view s).Valid s

theorem inv_initial : Inv {} := fun s =>
  ⟨by simp [view], by simp [view], by simp [view, trackedAt], by simp [view], by simp [view]⟩

theorem Inv.trackedAt_eq_zero (hinv : Inv core) (hstate : (core.slots s).bufferState ≠ .queued) :
    core.trackedAt s = 0 := by
  have hle := (hinv s).tracked
  rw [view, if_neg hstate] at hle
  exact Nat.le_zero.mp hle

theorem Inv.tracked (hinv : Inv core) (hmem : item ∈ core.queue)
    (htrack : core.stillTracking item) :
    (core.slots item.slot).bufferState = .queued := by
  by_contra hstate
  exact countP_eq_zero.mp (hinv.trackedAt_eq_zero hstate) item hmem (by simp [htrack])

theorem Inv.unique (hinv : Inv core) : core.queue.Pairwise fun a b =>
    core.stillTracking a → core.stillTracking b → a.slot ≠ b.slot := by
  rw [pairwise_iff_forall_sublist]
  intro a b hsub hatrack hbtrack heq
  have hle : _ ≤ core.trackedAt a.slot := hsub.countP_le
  have hone : core.trackedAt a.slot ≤ 1 := (hinv a.slot).tracked.trans (by split_ifs <;> omega)
  rw [countP_cons_of_pos (by simp [hatrack]), countP_cons_of_pos (by simp [hbtrack, heq])] at hle
  omega

/-! ## A change of one slot -/

/-- Nothing but one slot, its places in the free lists and its items has changed. -/
def OnlyAt (core core' : Core) (s : Nat) : Prop := ∀ t ≠ s, core'.view t = core.view t

theorem OnlyAt.trans {core₂ : Core} (h : OnlyAt core core₁ s) (h' : OnlyAt core₁ core₂ s) :
    OnlyAt core core₂ s := fun t ht => (h' t ht).trans (h t ht)

theorem trackedAt_eq (hbuffer : (core'.slots s).graphicBuffer = (core.slots s).graphicBuffer)
    (hqueue : core'.queue = core.queue) : core'.trackedAt s = core.trackedAt s := by
  unfold trackedAt
  rw [hqueue]
  refine countP_congr fun item _ => ?_
  rw [Bool.and_eq_true, Bool.and_eq_true]
  refine and_congr_right fun heq => ?_
  have hslot : item.slot = s := of_decide_eq_true heq
  rw [stillTracking, stillTracking, hslot, hbuffer]

theorem trackedAt_eq_zero (h : ∀ item ∈ core.queue, item.slot = s → ¬ core.stillTracking item) :
    core.trackedAt s = 0 :=
  countP_eq_zero.mpr fun item hmem => by simpa using h item hmem

theorem trackedAt_none (h : (core.slots s).graphicBuffer = none) : core.trackedAt s = 0 := by
  refine trackedAt_eq_zero fun item _ heq => ?_
  rw [stillTracking, heq, h]
  simp

theorem onlyAt_of_eq (hslots : ∀ t ≠ s, core'.slots t = core.slots t)
    (hfreeSlots : ∀ t ≠ s, core'.freeSlots t = core.freeSlots t)
    (hfreeBuffers : ∀ t ≠ s, core'.freeBuffers.count t = core.freeBuffers.count t)
    (hqueue : core'.queue = core.queue) : OnlyAt core core' s := by
  intro t ht
  rw [view, view, hslots t ht, hfreeSlots t ht, hfreeBuffers t ht,
    trackedAt_eq (by rw [hslots t ht]) hqueue]

section

variable (core : Core) (s : Nat) (f : BufferSlot → BufferSlot)

theorem onlyAt_modifySlot : OnlyAt core (core.modifySlot s f) s :=
  onlyAt_of_eq (fun _ ht => update_of_ne ht _ _) (fun _ _ => rfl) (fun _ _ => rfl) rfl

@[simp] theorem modifySlot_same :
    (core.modifySlot s f).slots s = f (core.slots s) := update_self _ _ _

end

theorem Inv.update (hinv : Inv core) (honly : OnlyAt core core' s)
    (hvalid : (core'.view s).Valid s) : Inv core' := by
  intro t
  by_cases heq : t = s
  · rwa [heq]
  · rw [honly t heq]
    exact hinv t

theorem Inv.congr (hinv : Inv core) (hslots : core'.slots = core.slots)
    (hfreeSlots : core'.freeSlots = core.freeSlots)
    (hfreeBuffers : core'.freeBuffers = core.freeBuffers) (hqueue : core'.queue = core.queue) :
    Inv core' := by
  intro s
  rw [view, hslots, hfreeSlots, hfreeBuffers, trackedAt_eq (by rw [hslots]) hqueue]
  exact hinv s

theorem Inv.sublist {core : Core} (hinv : Inv core) {queue : List BufferItem}
    (hqueue : queue.Sublist core.queue) : Inv { core with queue := queue } := by
  intro s
  obtain ⟨hfreeSlots, hfreeBuffers, htracked, hfilled, hbeyond⟩ := hinv s
  exact ⟨hfreeSlots, hfreeBuffers, hqueue.countP_le.trans htracked, hfilled, hbeyond⟩

def NotQueued (core : Core) (buffer : GraphicBuffer) : Prop :=
  ∀ item ∈ core.queue, item.graphicBuffer.handle ≠ buffer.handle

theorem NotQueued.trackedAt {buffer : GraphicBuffer} (h : NotQueued core buffer)
    (hqueue : core'.queue = core.queue) (hbuffer : (core'.slots s).graphicBuffer = some buffer) :
    core'.trackedAt s = 0 := by
  refine trackedAt_eq_zero fun item hmem heq => ?_
  rw [hqueue] at hmem
  rw [stillTracking, heq, hbuffer]
  simpa using h item hmem

/-! ## Freeing a slot -/

theorem count_filter_ne (slots : List Nat) {t : Nat} (h : t ≠ s) :
    (slots.filter (· ≠ s)).count t = slots.count t :=
  count_filter (by simpa using h)

theorem count_filter_self (slots : List Nat) (s : Nat) : (slots.filter (· ≠ s)).count s = 0 := by
  rw [count_eq_zero]
  simp

section

variable (core : Core) (s : Nat)

theorem onlyAt_freeBufferLocked : OnlyAt core (core.freeBufferLocked s) s := by
  unfold freeBufferLocked
  refine OnlyAt.trans ?_ (onlyAt_modifySlot _ s _)
  split_ifs
  · exact onlyAt_of_eq (fun _ _ => rfl) (fun _ ht => update_of_ne ht _ _) (fun _ _ => rfl) rfl
  · exact onlyAt_of_eq (fun _ _ => rfl) (fun _ ht => update_of_ne ht _ _)
      (fun _ ht => count_filter_ne _ ht) rfl
  · exact fun _ _ => rfl

theorem freeBufferLocked_slot : ((core.freeBufferLocked s).slots s).bufferState = .free ∧
      ((core.freeBufferLocked s).slots s).graphicBuffer = none := by
  simp [freeBufferLocked]

end

/-- A slot is freed that was held, had a buffer, or was in `mFreeSlots` only. -/
theorem Inv.freed (hinv : Inv core) (honly : OnlyAt core core₁ s) (hs : s < numBufferSlots)
    (hfreeSlots : (core₁.slots s).bufferState ≠ .free ∨ (core₁.slots s).graphicBuffer.isSome ∨
      core₁.freeSlots s = true)
    (hfreeBuffers : (core₁.slots s).bufferState = .free ∧ (core₁.slots s).graphicBuffer.isSome ∨
      core₁.freeBuffers.count s = 0) : Inv (core₁.freeBufferLocked s) := by
  obtain ⟨hstate, hbuffer⟩ := freeBufferLocked_slot core₁ s
  have hlists : (core₁.freeBufferLocked s).freeSlots s = true ∧
      (core₁.freeBufferLocked s).freeBuffers.count s = 0 := by
    unfold freeBufferLocked modifySlot
    dsimp only
    split_ifs with hheld hsome
    · exact ⟨update_self _ _ _, hfreeBuffers.resolve_left fun h => hheld h.1⟩
    · exact ⟨update_self _ _ _, count_filter_self _ _⟩
    · exact ⟨(hfreeSlots.resolve_left hheld).resolve_left hsome,
        hfreeBuffers.resolve_left fun h => hsome h.2⟩
  apply hinv.update (honly.trans (onlyAt_freeBufferLocked core₁ s))
  rw [view, hlists.1, hlists.2, trackedAt_none hbuffer]
  exact ⟨by simp [hstate, hbuffer, hs], by simp [hbuffer], Nat.zero_le _, by simp [hstate],
    by omega⟩

theorem freeBufferLocked_inv (hinv : Inv core) (hs : s < numBufferSlots) :
    Inv (core.freeBufferLocked s) := by
  obtain ⟨hfreeSlots, hfreeBuffers, -⟩ := hinv s
  refine hinv.freed (fun _ _ => rfl) hs ?_ ?_
  · by_cases hstate : (core.slots s).bufferState = .free
    · cases hbuffer : (core.slots s).graphicBuffer with
      | none => exact .inr (.inr (hfreeSlots.mpr ⟨hs, hstate, hbuffer⟩))
      | some buffer => exact .inr (.inl rfl)
    · exact .inl hstate
  · by_cases h : (core.slots s).bufferState = .free ∧ (core.slots s).graphicBuffer.isSome
    · exact .inl h
    · exact .inr (hfreeBuffers.trans (if_neg h))

/-! ## Taking a slot -/

/-- A slot is taken out of one of the free lists. -/
inductive Takes (core : Core) (s : Nat) : Core → Prop
  | buffer {rest : List Nat} (hless : rest.count s < core.freeBuffers.count s)
      (hrest : ∀ t ≠ s, rest.count t = core.freeBuffers.count t) :
      Takes core s { core with freeBuffers := rest }
  | slot (hin : core.freeSlots s = true) :
      Takes core s { core with freeSlots := Function.update core.freeSlots s false }

theorem Takes.slots (h : Takes core s core₁) : core₁.slots = core.slots := by
  cases h <;> rfl

theorem Takes.queue (h : Takes core s core₁) : core₁.queue = core.queue := by
  cases h <;> rfl

/-- The slot was free and is in none of the free lists any more. -/
structure Taken (core core₁ : Core) (s : Nat) : Prop where
  only : OnlyAt core core₁ s
  inRange : s < numBufferSlots
  state : (core.slots s).bufferState = .free
  freeSlots : core₁.freeSlots s = false
  freeBuffers : core₁.freeBuffers.count s = 0

section

variable (hinv : Inv core)
include hinv

theorem Inv.of_mem_freeBuffers (hmem : s ∈ core.freeBuffers) :
    s < numBufferSlots ∧ (core.slots s).bufferState = .free ∧
      (core.slots s).graphicBuffer.isSome ∧ core.freeSlots s = false ∧
      core.freeBuffers.count s = 1 := by
  obtain ⟨hfreeSlots, hfreeBuffers, -, -, hbeyond⟩ := hinv s
  have hpos : 0 < (core.view s).inFreeBuffers := count_pos_iff.mpr hmem
  by_cases h : (core.slots s).bufferState = .free ∧ (core.slots s).graphicBuffer.isSome
  · have hne : (core.slots s).graphicBuffer ≠ none := isSome_iff_ne_none.mp h.2
    refine ⟨?_, h.1, h.2, ?_, hfreeBuffers.trans (if_pos h)⟩
    · by_contra hle
      exact hne (hbeyond (by omega)).2
    · exact Bool.eq_false_iff.mpr fun hin => hne (hfreeSlots.mp hin).2.2
  · exact absurd (hfreeBuffers.trans (if_neg h)) hpos.ne'

theorem Inv.of_freeSlots (hin : core.freeSlots s = true) :
    s < numBufferSlots ∧ (core.slots s).bufferState = .free ∧
      (core.slots s).graphicBuffer = none ∧ core.freeBuffers.count s = 0 := by
  obtain ⟨hs, hstate, hbuffer⟩ := (hinv s).freeSlots.mp hin
  exact ⟨hs, hstate, hbuffer, (hinv s).freeBuffers.trans (if_neg (by simp [hbuffer]))⟩

theorem Inv.taken (h : Takes core s core₁) : Taken core core₁ s := by
  cases h with
  | buffer hless hrest =>
    obtain ⟨hs, hstate, -, hin, honce⟩ := hinv.of_mem_freeBuffers (s := s)
      (count_pos_iff.mp (by omega))
    exact ⟨onlyAt_of_eq (fun _ _ => rfl) (fun _ _ => rfl) hrest rfl, hs, hstate, hin,
      by dsimp only; omega⟩
  | slot hin =>
    obtain ⟨hs, hstate, -, hout⟩ := hinv.of_freeSlots hin
    exact ⟨onlyAt_of_eq (fun _ _ => rfl) (fun _ ht => update_of_ne ht _ _) (fun _ _ => rfl) rfl, hs,
      hstate, update_self _ _ _, hout⟩

end

/-- The buffer of a slot is lost or stays, or it is a new one that no item has. -/
def Brings (fits : Prop) (core : Core) (old new : Option GraphicBuffer) : Prop :=
  new = none ∨ new = old ∨ ∃ buffer, new = some buffer ∧ (fits → NotQueued core buffer)

theorem Inv.handOut (hinv : Inv core) (htakes : Takes core s core₁) {f : BufferSlot → BufferSlot}
    (hstate : (f (core.slots s)).bufferState = .dequeued ∨
      (f (core.slots s)).bufferState = .acquired ∧ (f (core.slots s)).graphicBuffer.isSome)
    {fits : Prop} (hfits : fits)
    (hbrings : Brings fits core (core.slots s).graphicBuffer (f (core.slots s)).graphicBuffer) :
    Inv (core₁.modifySlot s f) := by
  have h := hinv.taken htakes
  have hrange := h.inRange
  have hslot : (core₁.modifySlot s f).slots s = f (core.slots s) := by
    rw [modifySlot_same, htakes.slots]
  have hqueue : (core₁.modifySlot s f).queue = core.queue := htakes.queue
  have htracked : (core₁.modifySlot s f).trackedAt s = 0 := by
    rcases hbrings with hnone | hsame | ⟨buffer, hnew, hfresh⟩
    · exact trackedAt_none (by rw [hslot, hnone])
    · rw [trackedAt_eq (by rw [hslot, hsame]) hqueue]
      exact hinv.trackedAt_eq_zero (by simp [h.state])
    · exact (hfresh hfits).trackedAt hqueue (by rw [hslot, hnew])
  apply hinv.update (h.only.trans (onlyAt_modifySlot core₁ s f))
  rw [view, hslot, htracked]
  change View.Valid ⟨_, core₁.freeSlots s, core₁.freeBuffers.count s, 0⟩ s
  rw [h.freeSlots, h.freeBuffers]
  rcases hstate with hstate | ⟨hstate, hsome⟩
  · exact ⟨by simp [hstate], by simp [hstate], Nat.zero_le _, by simp [hstate], by omega⟩
  · exact ⟨by simp [hstate], by simp [hstate], Nat.zero_le _, fun _ => hsome, by omega⟩

theorem Inv.keep (hinv : Inv core) (honly : OnlyAt core core' s)
    (hheld : (core.slots s).bufferState ≠ .free) (hheld' : (core'.slots s).bufferState ≠ .free)
    (hbuffer' : (core'.slots s).graphicBuffer.isSome)
    (hlists : core'.freeSlots s = core.freeSlots s ∧
      core'.freeBuffers.count s = core.freeBuffers.count s)
    (hqueue : core'.trackedAt s = 0) : Inv core' := by
  obtain ⟨hin, hcount, -, -, hbeyond⟩ := hinv s
  have hout : core.freeBuffers.count s = 0 := hcount.trans (if_neg fun h => hheld h.1)
  apply hinv.update honly
  rw [view, hlists.1, hlists.2, hqueue, hout]
  refine ⟨hin.trans ?_, by simp [hheld'], Nat.zero_le _, fun _ => hbuffer',
    fun hle => absurd (hbeyond hle).1 hheld⟩
  simp [view, hheld, hheld']

/-! ## Giving a slot back -/

/-- A slot is free again, with its buffer, and once more in `mFreeBuffers`. -/
structure GivenBack (core core' : Core) (s : Nat) : Prop where
  only : OnlyAt core core' s
  state : (core'.slots s).bufferState = .free
  buffer : (core'.slots s).graphicBuffer = (core.slots s).graphicBuffer
  freeSlots : core'.freeSlots s = core.freeSlots s
  freeBuffers : core'.freeBuffers.count s = core.freeBuffers.count s + 1

theorem Inv.giveBack (hinv : Inv core) (h : GivenBack core core' s)
    (hheld : (core.slots s).bufferState ≠ .free) (hbuffer : (core.slots s).graphicBuffer.isSome)
    (hqueue : core'.trackedAt s = 0) : Inv core' := by
  obtain ⟨hin, hcount, -, -, hbeyond⟩ := hinv s
  have hout : core.freeSlots s = false :=
    Bool.eq_false_iff.mpr fun h => hheld (hin.mp h).2.1
  have hnone : core.freeBuffers.count s = 0 := hcount.trans (if_neg fun h => hheld h.1)
  apply hinv.update h.only
  rw [view, h.freeSlots, h.freeBuffers, hqueue, hout, hnone]
  refine ⟨?_, by simp [h.state, h.buffer, hbuffer], Nat.zero_le _, by simp [h.state],
    fun hle => absurd (hbeyond hle).1 hheld⟩
  simp [h.buffer, isSome_iff_ne_none.mp hbuffer]

section

variable (core : Core) (s : Nat)

theorem givenBack_releaseFront : GivenBack core (core.releaseFront s) s where
  only := onlyAt_of_eq (fun _ ht => update_of_ne ht _ _) (fun _ _ => rfl)
    (fun _ ht => count_cons_of_ne ht.symm) rfl
  state := by rw [releaseFront, modifySlot_same]
  buffer := by rw [releaseFront, modifySlot_same]
  freeSlots := rfl
  freeBuffers := count_cons_self

theorem givenBack_releaseBack : GivenBack core (core.releaseBack s) s where
  only := onlyAt_of_eq (fun _ ht => update_of_ne ht _ _) (fun _ _ => rfl)
    (fun _ ht => by simp [releaseBack, count_append, ht.symm]) rfl
  state := by rw [releaseBack, modifySlot_same]
  buffer := by rw [releaseBack, modifySlot_same]
  freeSlots := rfl
  freeBuffers := by rw [releaseBack, count_append, count_singleton_self]

end

end Core

end ShieldTv.Gui
