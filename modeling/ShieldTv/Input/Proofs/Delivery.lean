import ShieldTv.Lib.Streams
import ShieldTv.Input.InputTransport

/-!
# Each message in one event, in order

What has been returned, what the consumer holds and what is in the channel are together, up to
the interleaving of streams, what was published.  A stream is what comes from one device and
source, keys and motions apart: a key is returned at once and may overtake motions that wait in
a batch.
-/

namespace ShieldTv.Input

open Lib List

/-! ## Streams -/

def InputMessage.stream : InputMessage → Bool × Int × Int
  | .key _ deviceId source => (false, deviceId, source)
  | .motion msg => (true, msg.deviceId, msg.source)

def InputMessage.IsKey (msg : InputMessage) : Prop := msg.stream.1 = false

def InputEvent.messages : InputEvent → List InputMessage
  | .key seq deviceId source => [.key seq deviceId source]
  | .motion samples => samples.map .motion

def eventMessages (events : List (Nat × InputEvent)) : List InputMessage :=
  events.flatMap fun event => event.2.messages

@[simp] theorem eventMessages_append (a b : List (Nat × InputEvent)) :
    eventMessages (a ++ b) = eventMessages a ++ eventMessages b := flatMap_append

def MotionMessage.stream (msg : MotionMessage) : Int × Int := (msg.deviceId, msg.source)

variable {batches : List Batch} {b b' : Batch} {deviceId source : Int} {c c' : InputConsumer}
  {result : Option (Nat × InputEvent)} {count i : Nat} {st : System}
  {inbox inbox' : List InputMessage}

namespace InputConsumer

def batched (batches : List Batch) : List InputMessage := batches.flatten.map .motion

@[simp] theorem batched_append (a b : List Batch) : batched (a ++ b) = batched a ++ batched b := by
  simp [batched]

@[simp] theorem batched_cons (b : Batch) (batches : List Batch) :
    batched (b :: batches) = b.map .motion ++ batched batches := by
  simp [batched]

@[simp] theorem batched_nil : batched [] = [] := rfl

theorem swap_batched {samples : List MotionMessage}
    (h : ∀ m ∈ samples, ∀ m' ∈ batches.flatten, m.stream ≠ m'.stream) :
    SameStreams InputMessage.stream (samples.map .motion ++ batched batches)
      (batched batches ++ samples.map .motion) := by
  apply SameStreams.swap
  intro x hx y hy heq
  obtain ⟨m, hm, rfl⟩ := mem_map.mp hx
  obtain ⟨m', hm', rfl⟩ := mem_map.mp hy
  exact h m hm m' hm' (congrArg Prod.snd heq)

def held (c : InputConsumer) : List InputMessage := batched c.batches ++ c.msgDeferred.toList

/-- No batch is empty, each has one stream, and no two have the same. -/
structure BatchInv (batches : List Batch) : Prop where
  whole : ∀ b ∈ batches, b ≠ [] ∧ ∀ m ∈ b, ∀ m' ∈ b, m.stream = m'.stream
  apart : batches.Pairwise fun b b' => ∀ m ∈ b, ∀ m' ∈ b', m.stream ≠ m'.stream

theorem BatchInv.push (h : BatchInv batches) {msg : MotionMessage}
    (hnew : ∀ m ∈ batches.flatten, m.stream ≠ msg.stream) : BatchInv (batches ++ [[msg]]) where
  whole := by
    refine forall_mem_append.mpr ⟨h.whole, forall_mem_singleton.mpr ⟨cons_ne_nil _ _, ?_⟩⟩
    intro m hm m' hm'
    rw [mem_singleton.mp hm, mem_singleton.mp hm']
  apart := by
    refine pairwise_append.mpr ⟨h.apart, pairwise_singleton _ _, ?_⟩
    intro b hb b' hb' m hm m' hm'
    rw [mem_singleton.mp hb'] at hm'
    rw [mem_singleton.mp hm']
    exact hnew m (mem_flatten.mpr ⟨b, hb, hm⟩)

section

variable {pre post : List Batch} (h : BatchInv (pre ++ b :: post))

include h

theorem BatchInv.apart_before {m m' : MotionMessage} (hm : m ∈ b) (hm' : m' ∈ pre.flatten) :
    m.stream ≠ m'.stream := by
  obtain ⟨b', hb', hmem⟩ := mem_flatten.mp hm'
  exact ((pairwise_append.mp h.apart).2.2 b' hb' b mem_cons_self m' hmem m hm).symm

theorem BatchInv.apart_after {m m' : MotionMessage} (hm : m ∈ b) (hm' : m' ∈ post.flatten) :
    m.stream ≠ m'.stream := by
  obtain ⟨b', hb', hmem⟩ := mem_flatten.mp hm'
  exact (pairwise_cons.mp (pairwise_append.mp h.apart).2.1).1 b' hb' m hm m' hmem

theorem BatchInv.replace (hne : b' ≠ []) (hsame : ∀ m ∈ b', ∀ m' ∈ b, m.stream = m'.stream) :
    BatchInv (pre ++ b' :: post) := by
  obtain ⟨hwhole, hb, hwhole'⟩ := forall_mem_append.mp h.whole |>.imp_right forall_mem_cons.mp
  obtain ⟨first, hfirst⟩ := exists_mem_of_ne_nil b hb.1
  constructor
  · refine forall_mem_append.mpr ⟨hwhole, forall_mem_cons.mpr ⟨⟨hne, ?_⟩, hwhole'⟩⟩
    exact fun m hm m' hm' => (hsame m hm first hfirst).trans (hsame m' hm' first hfirst).symm
  · obtain ⟨hpre, hcons, hcross⟩ := pairwise_append.mp h.apart
    obtain ⟨hb, hpost⟩ := pairwise_cons.mp hcons
    refine pairwise_append.mpr ⟨hpre, pairwise_cons.mpr ⟨?_, hpost⟩, ?_⟩
    · intro x hx m hm m' hm'
      rw [hsame m hm first hfirst]
      exact hb x hx first hfirst m' hm'
    · intro x hx y hy m hm m' hm'
      rcases mem_cons.mp hy with rfl | hy
      · rw [hsame m' hm' first hfirst]
        exact hcross x hx b mem_cons_self m hm first hfirst
      · exact hcross x hx y (mem_cons_of_mem _ hy) m hm m' hm'

/-- The front of a batch is returned: it was before all that stays of its stream. -/
theorem BatchInv.take (count : Nat) {batches : List Batch}
    (hbatches : batches = if b.drop count = [] then pre ++ post else pre ++ b.drop count :: post) :
    BatchInv batches ∧ SameStreams InputMessage.stream
      ((b.take count).map .motion ++ batched batches) (batched (pre ++ b :: post)) := by
  have hbatched : batched batches =
      batched pre ++ ((b.drop count).map .motion ++ batched post) := by
    rw [hbatches]
    split_ifs with hleft <;> simp [hleft]
  constructor
  · rw [hbatches]
    split_ifs with hleft
    · have hsub : (pre ++ post).Sublist (pre ++ b :: post) := by simp
      exact ⟨fun b hb => h.whole b (hsub.subset hb), h.apart.sublist hsub⟩
    · refine h.replace hleft fun m hm => (h.whole b (by simp)).2 m (mem_of_mem_drop hm)
  · have hapart : ∀ m ∈ b.take count, ∀ m' ∈ pre.flatten, m.stream ≠ m'.stream :=
      fun m hm m' hm' => h.apart_before (mem_of_mem_take hm) hm'
    have hwhole : b.map InputMessage.motion
        = (b.take count).map .motion ++ (b.drop count).map .motion := by
      rw [← map_append, take_append_drop]
    have hall := (swap_batched hapart).append
      (SameStreams.refl ((b.drop count).map .motion ++ batched post))
    simpa only [hbatched, batched_append, batched_cons, hwhole, append_assoc] using hall

end

theorem split_at_index (h : batches[i]? = some b) :
    ∃ pre post, batches = pre ++ b :: post ∧ pre.length = i := by
  obtain ⟨hi, rfl⟩ := List.getElem?_eq_some_iff.mp h
  refine ⟨batches.take i, batches.drop (i + 1), ?_, by simp [hi.le]⟩
  rw [cons_getElem_drop_succ, take_append_drop]

theorem isBatchOf_iff : isBatchOf deviceId source b = true ↔ ∃ head rest, b = head :: rest ∧
      head.stream = (deviceId, source) := by
  cases b with
  | nil => simp [isBatchOf]
  | cons head rest => simp [isBatchOf, MotionMessage.stream]

theorem findBatch_some (h : BatchInv c.batches) (hfind : c.findBatch deviceId source = some i) :
    ∃ pre b post, c.batches = pre ++ b :: post ∧ pre.length = i ∧ c.batches[i]? = some b ∧
      ∀ m ∈ b, m.stream = (deviceId, source) := by
  obtain ⟨hi, hof, -⟩ := List.findIdx?_eq_some_iff_getElem.mp hfind
  have hget : c.batches[i]? = some c.batches[i] := getElem?_eq_getElem hi
  obtain ⟨pre, post, hbatches, hlen⟩ := split_at_index hget
  refine ⟨pre, _, post, hbatches, hlen, hget, fun m hm => ?_⟩
  obtain ⟨head, rest, hb, hstream⟩ := isBatchOf_iff.mp hof
  rw [← hstream]
  exact (h.whole _ (getElem_mem hi)).2 m hm head (hb ▸ mem_cons_self)

theorem findBatch_none (h : BatchInv c.batches) (hfind : c.findBatch deviceId source = none) :
    ∀ m ∈ c.batches.flatten, m.stream ≠ (deviceId, source) := by
  intro m hm heq
  obtain ⟨b, hb, hmem⟩ := mem_flatten.mp hm
  have hnot := List.findIdx?_eq_none_iff.mp hfind b hb
  cases b with
  | nil => cases hmem
  | cons head rest =>
    have hof : isBatchOf deviceId source (head :: rest) = true :=
      isBatchOf_iff.mpr ⟨head, rest, rfl, ((h.whole _ hb).2 head mem_cons_self m hmem).trans heq⟩
    rw [hof] at hnot
    cases hnot

def resultMessages (result : Option (Nat × InputEvent)) : List InputMessage :=
  eventMessages result.toList

theorem eraseIdx_split {pre post : List Batch} :
    (pre ++ b :: post).eraseIdx pre.length = pre ++ post := by
  rw [eraseIdx_append_of_length_le le_rfl, Nat.sub_self]
  rfl

theorem set_split {pre post : List Batch} :
    (pre ++ b :: post).set pre.length b' = pre ++ b' :: post := by
  rw [set_append_right _ _ le_rfl, Nat.sub_self]
  rfl

/-! ## One call -/

/-- The links of a list of sequence numbers, each from a number to the one before it. -/
def links : List Nat → List SeqChain
  | a :: b :: rest => ⟨b, a⟩ :: links (b :: rest)
  | _ => []

theorem links_eq_chainSamples (first : MotionMessage) (rest : List MotionMessage) :
    chainSamples first.seq rest = links ((first :: rest).map (·.seq)) := by
  induction rest generalizing first with
  | nil => rfl
  | cons second rest ih =>
    rw [chainSamples, ih second]
    rfl

def resultLinks (result : Option (Nat × InputEvent)) : List SeqChain :=
  (result.map fun event => links (event.2.messages.map InputMessage.seq)).getD []

/-- An event is made of some messages, its number is that of the last one, and their numbers are
chained. -/
structure Chained (c : InputConsumer) (result : Option (Nat × InputEvent)) (c' : InputConsumer) :
    Prop where
  last : ∀ event, result = some event →
    (event.2.messages.map InputMessage.seq).getLast? = some event.1
  chains : c'.seqChains = c.seqChains ++ resultLinks result

theorem chained_none (h : c'.seqChains = c.seqChains) : Chained c none c' :=
  ⟨nofun, by simp [h, resultLinks]⟩

theorem chained_consumeSamples (hne : b.take count ≠ [])
    (h : c'.seqChains = (c.consumeSamples b count).2.seqChains) :
    Chained c (some (c.consumeSamples b count).1) c' where
  last := by
    rintro event ⟨⟩
    simp only [consumeSamples, InputEvent.messages, map_map]
    rw [List.getLast?_map, List.getLast?_eq_some_getLast hne]
    rfl
  chains := by
    simp only [h, consumeSamples, resultLinks, Option.map_some, Option.getD_some,
      InputEvent.messages, map_map]
    congr 1
    cases b.take count with
    | nil => rfl
    | cons first rest => exact links_eq_chainSamples first rest

/-- What a call returns and what is left afterwards are what was there before. -/
structure Yields (c : InputConsumer) (inbox : List InputMessage)
    (result : Option (Nat × InputEvent)) (c' : InputConsumer) (inbox' : List InputMessage) :
    Prop where
  batches : BatchInv c'.batches
  streams : SameStreams InputMessage.stream (resultMessages result ++ c'.held ++ inbox')
    (c.held ++ inbox)
  chained : Chained c result c'

theorem Yields.append (h : Yields c inbox result c' inbox') (rest : List InputMessage) :
    Yields c (inbox ++ rest) result c' (inbox' ++ rest) where
  batches := h.batches
  streams := by simpa only [append_assoc] using h.streams.append (SameStreams.refl rest)
  chained := h.chained

theorem Yields.trans {rest : List InputMessage} {c'' : InputConsumer}
    (h : Yields c inbox none c' []) (h' : Yields c' rest result c'' inbox') :
    Yields c (inbox ++ rest) result c'' inbox' where
  batches := h'.batches
  streams := h'.streams.trans
    (by simpa [resultMessages, eventMessages] using (h.append rest).streams)
  chained := ⟨h'.chained.last, by simp [h'.chained.chains, h.chained.chains, resultLinks]⟩

theorem yields_nothing (h : BatchInv c.batches) : Yields c [] none c [] :=
  ⟨h, by simpa [resultMessages, eventMessages] using SameStreams.refl _, chained_none rfl⟩

section

variable (h : BatchInv c.batches) (hdeferred : c.msgDeferred = none)
include h hdeferred

theorem yields_samples {pre post : List Batch} (hbatches : c.batches = pre ++ b :: post)
    (htake : b.take count ≠ []) (hchains : c'.seqChains = (c.consumeSamples b count).2.seqChains)
    (hinbox : c'.msgDeferred.toList = inbox)
    (hleft : c'.batches = if b.drop count = [] then pre ++ post else pre ++ b.drop count :: post) :
    Yields c inbox (some (c.consumeSamples b count).1) c' [] := by
  obtain ⟨hinv, hfront⟩ := BatchInv.take (hbatches ▸ h) count hleft
  refine ⟨hinv, ?_, chained_consumeSamples htake hchains⟩
  have hall := hfront.append (SameStreams.refl inbox)
  simpa [resultMessages, eventMessages, InputEvent.messages, consumeSamples, held, hdeferred,
    hbatches, hinbox] using hall

theorem handleMessage_spec (msg : InputMessage) :
    Yields c [msg] (c.handleMessage msg).1 (c.handleMessage msg).2 [] ∧
      ((c.handleMessage msg).1 = none → (c.handleMessage msg).2.msgDeferred = none) := by
  have hheld : c.held = batched c.batches := by simp [held, hdeferred]
  cases msg with
  | key seq deviceId source =>
    refine ⟨⟨h, ?_, ⟨?_, (append_nil _).symm⟩⟩, (by simp [handleMessage])⟩
    · simp only [handleMessage, resultMessages, eventMessages, Option.toList_some,
        flatMap_cons, flatMap_nil, append_nil, InputEvent.messages, hheld]
      apply SameStreams.swap
      intro x hx y hy
      rw [mem_singleton.mp hx]
      obtain ⟨m, -, rfl⟩ := mem_map.mp hy
      simp [InputMessage.stream]
    · rintro event ⟨⟩
      rfl
  | motion msg =>
    unfold handleMessage
    dsimp only
    cases hfind : c.findBatch msg.deviceId msg.source with
    | some i =>
      obtain ⟨pre, b, post, hbatches, rfl, hget, hstream⟩ := findBatch_some h hfind
      have hne := (h.whole b (by simp [hbatches])).1
      simp only [hget]
      split_ifs with hadd
      · rw [hbatches] at h
        rw [hbatches, set_split]
        refine ⟨⟨?_, ?_, chained_none rfl⟩, fun _ => hdeferred⟩
        · apply h.replace (by simp)
          intro m hm m' hm'
          rcases mem_append.mp hm with hm | hm
          · exact (hstream m hm).trans (hstream m' hm').symm
          · rw [mem_singleton.mp hm]
            exact (hstream m' hm').symm
        · have hapart : ∀ m ∈ [msg], ∀ m' ∈ post.flatten, m.stream ≠ m'.stream := by
            intro m hm m' hm'
            obtain ⟨first, hfirst⟩ := exists_mem_of_ne_nil b hne
            have hne' := h.apart_after hfirst hm'
            rw [hstream first hfirst] at hne'
            rwa [mem_singleton.mp hm]
          have hall := (SameStreams.refl (batched pre ++ b.map InputMessage.motion)).append
            (swap_batched hapart)
          simpa [resultMessages, eventMessages, held, hdeferred, hbatches] using hall
      · refine ⟨yields_samples h hdeferred hbatches (by rwa [take_length]) rfl rfl ?_, (by simp)⟩
        rw [hbatches, eraseIdx_split, drop_length, if_pos rfl]
    | none =>
      split_ifs with hmove
      · refine ⟨⟨h.push (findBatch_none h hfind), ?_, chained_none rfl⟩, fun _ => hdeferred⟩
        simpa [resultMessages, eventMessages, held, hdeferred] using SameStreams.refl _
      · refine ⟨⟨h, ?_, ⟨?_, (append_nil _).symm⟩⟩, (by simp)⟩
        · have hapart : ∀ m ∈ [msg], ∀ m' ∈ c.batches.flatten, m.stream ≠ m'.stream := by
            intro m hm m' hm'
            rw [mem_singleton.mp hm]
            exact (findBatch_none h hfind m' hm').symm
          simpa [resultMessages, eventMessages, InputEvent.messages, held, hdeferred] using
            swap_batched hapart
        · rintro event ⟨⟩
          rfl

/-- A batch, or the front of one, is returned, or nothing happens. -/
theorem consumeBatchLoop_spec (frameTime : Int) (i : Nat) :
    Yields c [] (c.consumeBatchLoop frameTime i).1 (c.consumeBatchLoop frameTime i).2 [] := by
  induction i with
  | zero => exact yields_nothing h
  | succ i ih =>
    unfold consumeBatchLoop
    split
    · exact yields_nothing h
    · rename_i b hget
      obtain ⟨pre, post, hbatches, rfl⟩ := split_at_index hget
      have hne := (h.whole b (by simp [hbatches])).1
      have hinbox := congrArg Option.toList hdeferred
      by_cases hnow : frameTime < 0
      · simp only [if_pos hnow]
        refine yields_samples h hdeferred hbatches (by rwa [take_length]) rfl hinbox ?_
        rw [hbatches, eraseIdx_split, drop_length, if_pos rfl]
      · simp only [if_neg hnow]
        generalize findSampleNoLaterThan b
          (if c.resampleTouch = true then frameTime - resampleLatency else frameTime) = count
        by_cases hcount : count = 0
        · simp only [if_pos hcount]
          exact ih
        · have htake : b.take count ≠ [] := by
            rw [Ne, take_eq_nil_iff]
            exact not_or.mpr ⟨hcount, hne⟩
          simp only [if_neg hcount]
          refine yields_samples h hdeferred hbatches htake rfl hinbox ?_
          rw [hbatches, eraseIdx_split, set_split]

end

theorem consumeLoop_spec (consumeBatches wouldBlock : Bool) (frameTime : Int)
    (inbox : List InputMessage) (h : BatchInv c.batches) (hdeferred : c.msgDeferred = none) :
    Yields c inbox (consumeLoop consumeBatches wouldBlock frameTime inbox c).1
      (consumeLoop consumeBatches wouldBlock frameTime inbox c).2.1
      (consumeLoop consumeBatches wouldBlock frameTime inbox c).2.2 := by
  induction inbox generalizing c with
  | nil =>
    unfold consumeLoop
    split_ifs
    · exact consumeBatchLoop_spec h hdeferred frameTime c.batches.length
    · exact yields_nothing h
  | cons msg inbox ih =>
    obtain ⟨hyields, hnone⟩ := handleMessage_spec h hdeferred msg
    unfold consumeLoop
    split
    · rename_i event c' hresult
      rw [hresult] at hyields
      exact hyields.append inbox
    · rename_i c' hresult
      rw [hresult] at hyields hnone
      exact hyields.trans (ih hyields.batches (hnone rfl))

theorem consume_spec (h : BatchInv c.batches) (inbox : List InputMessage)
    (consumeBatches wouldBlock : Bool) (frameTime : Int) :
    Yields c inbox (c.consume inbox consumeBatches wouldBlock frameTime).1
      (c.consume inbox consumeBatches wouldBlock frameTime).2.1
      (c.consume inbox consumeBatches wouldBlock frameTime).2.2 := by
  unfold consume
  cases hdeferred : c.msgDeferred with
  | none => exact consumeLoop_spec consumeBatches wouldBlock frameTime inbox h hdeferred
  | some msg =>
    obtain ⟨hbatches, hstreams, hchained⟩ := consumeLoop_spec consumeBatches wouldBlock frameTime
      (msg :: inbox) (c := { c with msgDeferred := none }) h rfl
    refine ⟨hbatches, ?_, hchained.last, hchained.chains⟩
    simpa [held, hdeferred] using hstreams

/-! ## Keys -/

/-- Of a consumer's messages only the one that it has just read can be a key, and nothing is behind
it. -/
theorem Yields.keepsBehind (hdeferred : c.msgDeferred = none) (hinbox : inbox.length ≤ 1)
    (h : Yields c inbox result c' inbox') :
    KeepsBehind InputMessage.IsKey (c.held ++ inbox)
      (resultMessages result ++ c'.held ++ inbox') := by
  refine ⟨h.streams.perm.symm.subset, fun key msg hkey hpair => ?_⟩
  have hheld : key ∉ c.held := by
    intro hmem
    rw [held, hdeferred, Option.toList_none, append_nil] at hmem
    obtain ⟨m, -, rfl⟩ := mem_map.mp hmem
    cases hkey
  rcases pair_sublist_append.mp hpair with hsub | ⟨hmem, -⟩ | hsub
  · exact absurd (hsub.subset mem_cons_self) hheld
  · exact absurd hmem hheld
  · exact absurd hsub.length_le (by simp; omega)

theorem consumeLoop_keepsBehind (consumeBatches wouldBlock : Bool) (frameTime : Int)
    (inbox : List InputMessage) (h : BatchInv c.batches) (hdeferred : c.msgDeferred = none) :
    KeepsBehind InputMessage.IsKey (c.held ++ inbox)
      (resultMessages (consumeLoop consumeBatches wouldBlock frameTime inbox c).1 ++
        (consumeLoop consumeBatches wouldBlock frameTime inbox c).2.1.held ++
        (consumeLoop consumeBatches wouldBlock frameTime inbox c).2.2) := by
  induction inbox generalizing c with
  | nil => exact (consumeLoop_spec _ _ _ _ h hdeferred).keepsBehind hdeferred (Nat.zero_le 1)
  | cons msg inbox ih =>
    obtain ⟨hyields, hnone⟩ := handleMessage_spec h hdeferred msg
    have hfirst := (hyields.keepsBehind hdeferred le_rfl).append (KeepsBehind.refl inbox)
    unfold consumeLoop
    split
    · rename_i event c' hresult
      rw [hresult] at hfirst
      simpa only [append_assoc, singleton_append, nil_append] using hfirst
    · rename_i c' hresult
      rw [hresult] at hyields hnone hfirst
      refine .trans ?_ (ih hyields.batches (hnone rfl))
      simpa [resultMessages, eventMessages] using hfirst

theorem consume_keepsBehind (h : BatchInv c.batches) (inbox : List InputMessage)
    (consumeBatches wouldBlock : Bool) (frameTime : Int) :
    KeepsBehind InputMessage.IsKey (c.held ++ inbox)
      (resultMessages (c.consume inbox consumeBatches wouldBlock frameTime).1 ++
        (c.consume inbox consumeBatches wouldBlock frameTime).2.1.held ++
        (c.consume inbox consumeBatches wouldBlock frameTime).2.2) := by
  unfold consume
  cases hdeferred : c.msgDeferred with
  | none => exact consumeLoop_keepsBehind consumeBatches wouldBlock frameTime inbox h hdeferred
  | some msg =>
    have hloop := consumeLoop_keepsBehind consumeBatches wouldBlock frameTime
      (msg :: inbox) (c := { c with msgDeferred := none }) h rfl
    simpa [held, hdeferred] using hloop

/-! ## Draining -/

section

variable {frameTime : Int} (hnow : frameTime < 0) (wouldBlock : Bool) (inbox : List InputMessage)
  (h : BatchInv c.batches)
include hnow h

/-- A call that may take batches whole returns nothing only if there is nothing. -/
theorem consumeLoop_drained (hdeferred : c.msgDeferred = none)
    (hnone : (consumeLoop true wouldBlock frameTime inbox c).1 = none) :
    (consumeLoop true wouldBlock frameTime inbox c).2.1.held = [] ∧
      (consumeLoop true wouldBlock frameTime inbox c).2.2 = [] := by
  induction inbox generalizing c with
  | nil =>
    simp only [consumeLoop, Bool.true_or, ↓reduceIte, consumeBatch] at hnone ⊢
    cases hbatches : c.batches with
    | nil =>
      simp only [length_nil, consumeBatchLoop]
      simp [held, hbatches, hdeferred]
    | cons b rest =>
      obtain ⟨last, hget⟩ : ∃ last, c.batches[rest.length]? = some last :=
        ⟨_, getElem?_eq_getElem (by simp [hbatches])⟩
      simp only [hbatches, length_cons, consumeBatchLoop] at hnone hget
      simp [hnow] at hnone
  | cons msg inbox ih =>
    obtain ⟨hyields, hkeep⟩ := handleMessage_spec h hdeferred msg
    unfold consumeLoop at hnone ⊢
    split at hnone
    · cases hnone
    · rename_i c' hresult
      rw [hresult] at hyields hkeep
      exact ih hyields.batches (hkeep rfl) hnone

theorem consume_drained (hnone : (c.consume inbox true wouldBlock frameTime).1 = none) :
    (c.consume inbox true wouldBlock frameTime).2.1.held = [] ∧
      (c.consume inbox true wouldBlock frameTime).2.2 = [] := by
  unfold consume at hnone ⊢
  split at hnone
  · rename_i hdeferred
    exact consumeLoop_drained hnow wouldBlock inbox h hdeferred hnone
  · exact consumeLoop_drained hnow wouldBlock _ h rfl hnone

end

end InputConsumer

namespace System

open InputConsumer

/-! ## Runs -/

/-- What has been returned, what the consumer holds, and what is in the channel. -/
def flow (st : System) : List InputMessage :=
  eventMessages st.returned ++ (st.consumer.held ++ st.inbox)

structure Conserved (st : System) : Prop where
  batches : BatchInv st.consumer.batches
  flow : SameStreams InputMessage.stream st.flow st.published
  keys : KeepsBehind InputMessage.IsKey st.published st.flow

theorem conserved_step (h : Conserved st) (action : Action) : Conserved (st.step action) := by
  cases action with
  | publish msg =>
    refine ⟨h.batches, ?_, ?_⟩
    · have hall := h.flow.append (SameStreams.refl [msg])
      simpa [System.flow, step] using hall
    · have hall := h.keys.append (KeepsBehind.refl [msg])
      simpa [System.flow, step] using hall
  | consume consumeBatches wouldBlock frameTime =>
    have hyields := consume_spec h.batches st.inbox consumeBatches wouldBlock frameTime
    have hkeys := consume_keepsBehind h.batches st.inbox consumeBatches wouldBlock frameTime
    refine ⟨hyields.batches, SameStreams.trans ?_ h.flow, h.keys.trans ?_⟩
    · have hall := (SameStreams.refl (eventMessages st.returned)).append hyields.streams
      simpa [System.flow, step, resultMessages] using hall
    · have hall := (KeepsBehind.refl (eventMessages st.returned)).append hkeys
      simpa [System.flow, step, resultMessages] using hall
  | finish seq good =>
    have hheld : (st.step (.finish seq good)).consumer.held = st.consumer.held ∧
        (st.step (.finish seq good)).consumer.batches = st.consumer.batches := by
      simp only [step, sendFinishedSignal]
      split_ifs <;> exact ⟨rfl, rfl⟩
    refine ⟨?_, ?_, ?_⟩
    · rw [hheld.2]
      exact h.batches
    · rw [System.flow, hheld.1]
      exact h.flow
    · rw [System.flow, hheld.1]
      exact h.keys

theorem conserved_run (h : Conserved st) (actions : List Action) : Conserved (st.run actions) := by
  induction actions generalizing st with
  | nil => exact h
  | cons action actions ih => exact ih (conserved_step h action)

def backlog (st : System) : Nat := (st.consumer.held ++ st.inbox).length

section

variable {st : System} (h : Conserved st)
include h

theorem backlog_consume (wouldBlock : Bool) {frameTime : Int} (hnow : frameTime < 0) :
    (st.step (.consume true wouldBlock frameTime)).backlog ≤ st.backlog - 1 := by
  have hyields := consume_spec h.batches st.inbox true wouldBlock frameTime
  have hlength := hyields.streams.perm.length_eq
  simp only [length_append] at hlength
  simp only [backlog, step, length_append]
  cases hresult : (st.consumer.consume st.inbox true wouldBlock frameTime).1 with
  | some event =>
    have hlast := hyields.chained.last event hresult
    have hpos : 0 < event.2.messages.length := by
      rw [length_pos_iff]
      intro hnil
      rw [hnil] at hlast
      cases hlast
    rw [hresult] at hlength
    simp only [resultMessages, eventMessages, Option.toList_some, flatMap_cons,
      flatMap_nil, append_nil] at hlength
    omega
  | none =>
    obtain ⟨hheld, hinbox⟩ := consume_drained hnow wouldBlock st.inbox h.batches hresult
    rw [hheld, hinbox]
    exact Nat.zero_le _

theorem backlog_drain (n : Nat) :
    (st.run (List.replicate n (.consume true true (-1)))).backlog ≤ st.backlog - n := by
  induction n generalizing st with
  | zero => exact le_rfl
  | succ n ih =>
    have hstep := backlog_consume h true (show (-1 : Int) < 0 by decide)
    have hrest := ih (conserved_step h (.consume true true (-1)))
    rw [replicate_succ]
    change ((st.step _).run _).backlog ≤ _
    omega

theorem backlog_le : st.backlog ≤ st.published.length := by
  rw [← h.flow.perm.length_eq, flow, length_append]
  exact Nat.le_add_left _ _

/-- With nothing left to return, each stream has been returned as it was published. -/
theorem returned_of_backlog (hempty : st.backlog = 0) :
    SameStreams InputMessage.stream (eventMessages st.returned) st.published := by
  have hnil : st.consumer.held ++ st.inbox = [] := eq_nil_of_length_eq_zero hempty
  have hflow := h.flow
  rwa [flow, hnil, append_nil] at hflow

end

def initial (resampleTouch : Bool) : System where
  consumer := { resampleTouch }

theorem conserved_initial (resampleTouch : Bool) : Conserved (initial resampleTouch) :=
  ⟨⟨nofun, .nil⟩, SameStreams.refl _, KeepsBehind.refl _⟩

end System

end ShieldTv.Input
