import ShieldTv.Input.Proofs.Delivery

/-!
# What `consume` says of a channel that fails

Whether batches are there or not, a failure other than `WOULD_BLOCK` is replaced by what
`consumeBatch` returns, and without a batch that is `WOULD_BLOCK`: `DEAD_OBJECT` never reaches the
application.
-/

namespace ShieldTv.Input.InputConsumer

open List

/-- Calls in a row return all samples that wait, a batch at a time, and then only a status. -/
def Drains (c : InputConsumer) (consumeBatches : Bool) (received : Status) (frameTime : Int)
    (last : Status) : Prop :=
  ∃ events, consumeCalls consumeBatches received frameTime (c.batches.length + 1) c =
      events.map (fun event => (.ok, some event)) ++ [(last, none)] ∧
    eventMessages events ~ batched c.batches

/-- The failure of the channel is reported: at once when no samples wait, and with a negative
frame time as soon as all of them are returned. -/
def Reports (c : InputConsumer) (consumeBatches : Bool) (received : Status) (frameTime : Int) :
    Prop :=
  (c.batches = [] → (c.consumeStatus [] consumeBatches received frameTime).1 = received) ∧
    (frameTime < 0 → c.Drains consumeBatches received frameTime received)

variable {c : InputConsumer} {consumeBatches : Bool} {received : Status} {frameTime : Int}

theorem consumeBatch_last {init : List Batch} {b : Batch} (hbatches : c.batches = init ++ [b])
    (hframe : frameTime < 0) : ∃ seq c', c.consumeBatch frameTime = (some (seq, .motion b), c') ∧
      c'.batches = init ∧ c'.msgDeferred = c.msgDeferred := by
  have hlast : c.batches[init.length]? = some b := by rw [hbatches, getElem?_concat_length]
  have herase : c.batches.eraseIdx init.length = init := by
    rw [hbatches, eraseIdx_append_of_length_le le_rfl, Nat.sub_self]
    exact append_nil init
  rw [consumeBatch, hbatches, length_append, length_singleton, consumeBatchLoop, hlast]
  dsimp only
  rw [if_pos hframe, consumeSamples, take_length, herase]
  exact ⟨_, _, rfl, rfl, rfl⟩

section

variable (hdeferred : c.msgDeferred = none)

include hdeferred

theorem consumeStatus_held (hheld : (consumeBatches || received ≠ .wouldBlock) = false) :
    c.consumeStatus [] consumeBatches received frameTime = (received, none, c, []) := by
  have hbatches : (consumeBatches || !decide (received = .wouldBlock)) = false := by
    rwa [← decide_not]
  simp [consumeStatus, consume, hdeferred, consumeLoop, hbatches]

section

variable (htries : (consumeBatches || received ≠ .wouldBlock) = true)

include htries

theorem consumeStatus_tries : c.consumeStatus [] consumeBatches received frameTime =
    ((c.consumeBatch frameTime).1.elim .wouldBlock fun _ => .ok,
      (c.consumeBatch frameTime).1, (c.consumeBatch frameTime).2, []) := by
  have hbatches : (consumeBatches || !decide (received = .wouldBlock)) = true := by
    rwa [← decide_not]
  rw [consumeStatus, consume, hdeferred]
  rw [consumeLoop, if_pos hbatches, if_pos htries]
  cases hevent : (c.consumeBatch frameTime).1 <;> simp [hevent]

theorem consumeStatus_empty (hbatches : c.batches = []) :
    c.consumeStatus [] consumeBatches received frameTime = (.wouldBlock, none, c, []) := by
  have hbatch : c.consumeBatch frameTime = (none, c) := by
    rw [consumeBatch, hbatches]
    rfl
  rw [consumeStatus_tries hdeferred htries, hbatch]
  rfl

theorem drains_wouldBlock (hframe : frameTime < 0) :
    c.Drains consumeBatches received frameTime .wouldBlock := by
  -- The batches are returned from the last one on.
  unfold Drains
  generalize hbatches : c.batches = batches
  induction batches using reverseRecOn generalizing c with
  | nil =>
    refine ⟨[], ?_, .nil⟩
    rw [consumeCalls, consumeStatus_empty hdeferred htries hbatches]
    rfl
  | append_singleton init b ih =>
    obtain ⟨seq, c', hbatch, hinit, hkept⟩ := consumeBatch_last hbatches hframe
    obtain ⟨events, hcalls, hperm⟩ := ih (hkept.trans hdeferred) hinit
    refine ⟨(seq, .motion b) :: events, ?_, ?_⟩
    · rw [consumeCalls, consumeStatus_tries hdeferred htries, hbatch, length_append,
        length_singleton]
      rw [hcalls]
      rfl
    · rw [batched_append, batched_cons, batched_nil, append_nil]
      exact (hperm.append_left _).trans perm_append_comm

theorem drains_iff (hframe : frameTime < 0) :
    c.Drains consumeBatches received frameTime received ↔ received = .wouldBlock := by
  have hdrains := drains_wouldBlock hdeferred htries hframe
  constructor
  · rintro ⟨events, hcalls, -⟩
    obtain ⟨events', hcalls', -⟩ := hdrains
    have hlast := (append_inj' (hcalls.symm.trans hcalls') rfl).2
    simpa using hlast
  · rintro rfl
    exact hdrains

end

theorem drains_held (hheld : (consumeBatches || received ≠ .wouldBlock) = false) :
    c.Drains consumeBatches received frameTime received ↔ c.batches = [] := by
  obtain ⟨rfl, rfl⟩ : consumeBatches = false ∧ received = .wouldBlock := by simpa using hheld
  have hcalls (n : Nat) : consumeCalls false .wouldBlock frameTime (n + 1) c =
      (.wouldBlock, none) :: consumeCalls false .wouldBlock frameTime n c := by
    rw [consumeCalls, consumeStatus_held hdeferred hheld]
  constructor
  · rintro ⟨events, hcalls', -⟩
    cases hbatches : c.batches with
    | nil => rfl
    | cons b rest => cases events <;> simp [hbatches, hcalls] at hcalls'
  · intro hbatches
    refine ⟨[], ?_, ?_⟩
    · rw [hbatches]
      exact hcalls 0
    · rw [hbatches]
      exact .nil

/-- A failure is reported when it is `WOULD_BLOCK`, unless batches are held back; nothing is said
of batches that wait for their frame. -/
theorem reports_iff : c.Reports consumeBatches received frameTime ↔
    received = .wouldBlock ∧ (consumeBatches ∨ c.batches = []) ∨
      c.batches ≠ [] ∧ 0 ≤ frameTime := by
  by_cases htries : (consumeBatches || received ≠ .wouldBlock) = true
  · have hempty : (c.batches = [] → (c.consumeStatus [] consumeBatches received frameTime).1 =
        received) ↔ (c.batches = [] → received = .wouldBlock) := by
      refine forall_congr' fun hbatches => ?_
      rw [consumeStatus_empty hdeferred htries hbatches]
      exact eq_comm
    rw [Reports, hempty, forall_congr' (drains_iff hdeferred htries)]
    grind
  · have hheld := Bool.eq_false_iff.mpr htries
    rw [Reports, consumeStatus_held hdeferred hheld, drains_held hdeferred hheld]
    grind

end

theorem wouldBlock_reported : Reports ⟨false, none, [], []⟩ true .wouldBlock 0 :=
  (reports_iff rfl).mpr (.inl ⟨rfl, .inl rfl⟩)

/-- The peer is gone, and the application is told that nothing has come yet. -/
theorem deadObject_lost : ¬ Reports ⟨false, none, [], []⟩ true .deadObject 0 := by
  rintro ⟨hempty, -⟩
  exact absurd (hempty rfl) (by decide)

end ShieldTv.Input.InputConsumer
