import Mathlib

/-!
# `InputConsumer`

The consumer's side of an input channel: motion messages are batched by device and source,
batches are returned as one event, and the sequence numbers of a batch are chained so that
finishing the event acknowledges all of them.  Coordinates, and with them the resampling of
touches, are left out: they change what is in an event but not which messages it is made of.
-/

namespace ShieldTv.Input

structure PointerProperties where
  id : Int
  toolType : Int
deriving DecidableEq

structure MotionMessage where
  seq : Nat
  deviceId : Int
  source : Int
  action : Int
  eventTime : Int
  pointers : List PointerProperties
deriving DecidableEq

inductive InputMessage
  | key (seq : Nat) (deviceId source : Int)
  | motion (msg : MotionMessage)
deriving DecidableEq

def InputMessage.seq : InputMessage → Nat
  | .key seq _ _ => seq
  | .motion msg => msg.seq

inductive InputEvent
  | key (seq : Nat) (deviceId source : Int)
  | motion (samples : List MotionMessage)
deriving DecidableEq

abbrev Batch := List MotionMessage

structure SeqChain where
  seq : Nat
  chain : Nat
deriving DecidableEq

inductive Status
  | ok
  | wouldBlock
  | deadObject
  | error (code : Int)
deriving DecidableEq

structure InputConsumer where
  resampleTouch : Bool
  /-- `mMsg`, if `mMsgDeferred`. -/
  msgDeferred : Option InputMessage := none
  batches : List Batch := []
  seqChains : List SeqChain := []

def actionMove : Int := 2
def actionHoverMove : Int := 7
def resampleLatency : Int := 5 * 1000000

namespace InputConsumer

/-! ## Batches -/

def isBatchOf (deviceId source : Int) (batch : Batch) : Bool :=
  match batch with
  | [] => false
  | head :: _ => head.deviceId = deviceId && head.source = source

def findBatch (c : InputConsumer) (deviceId source : Int) : Option Nat :=
  c.batches.findIdx? (isBatchOf deviceId source)

def canAddSample (batch : Batch) (msg : MotionMessage) : Bool :=
  match batch with
  | [] => false
  | head :: _ => head.pointers.length = msg.pointers.length && head.action = msg.action &&
      head.pointers = msg.pointers

def findSampleNoLaterThan (batch : Batch) (time : Int) : Nat :=
  (batch.takeWhile (·.eventTime ≤ time)).length

/-- The chain that the samples after the first one add. -/
def chainSamples : Nat → List MotionMessage → List SeqChain
  | _, [] => []
  | chain, msg :: rest => ⟨msg.seq, chain⟩ :: chainSamples msg.seq rest

/-- The first `count` samples of a batch become an event. -/
def consumeSamples (c : InputConsumer) (batch : Batch) (count : Nat) :
    (Nat × InputEvent) × InputConsumer :=
  let samples := batch.take count
  let chains :=
    match samples with
    | [] => []
    | first :: rest => chainSamples first.seq rest
  (((samples.getLast?.map (·.seq)).getD 0, .motion samples),
    { c with seqChains := c.seqChains ++ chains })

/-- The batches from the last to the first; `i` of them are left. -/
def consumeBatchLoop (c : InputConsumer) (frameTime : Int) :
    Nat → Option (Nat × InputEvent) × InputConsumer
  | 0 => (none, c)
  | i + 1 =>
    match c.batches[i]? with
    | none => (none, c)
    | some batch =>
      if frameTime < 0 then
        let result := c.consumeSamples batch batch.length
        (some result.1, { result.2 with batches := c.batches.eraseIdx i })
      else
        let sampleTime := if c.resampleTouch then frameTime - resampleLatency else frameTime
        let count := findSampleNoLaterThan batch sampleTime
        if count = 0 then consumeBatchLoop c frameTime i
        else
          let result := c.consumeSamples batch count
          let left := batch.drop count
          (some result.1,
            { result.2 with
              batches := if left = [] then c.batches.eraseIdx i else c.batches.set i left })

def consumeBatch (c : InputConsumer) (frameTime : Int) :
    Option (Nat × InputEvent) × InputConsumer :=
  c.consumeBatchLoop frameTime c.batches.length

/-! ## Messages -/

def handleMessage (c : InputConsumer) : InputMessage → Option (Nat × InputEvent) × InputConsumer
  | .key seq deviceId source => (some (seq, .key seq deviceId source), c)
  | .motion msg =>
    match c.findBatch msg.deviceId msg.source with
    | some i =>
      match c.batches[i]? with
      | none => (none, c)
      | some batch =>
        if canAddSample batch msg then
          (none, { c with batches := c.batches.set i (batch ++ [msg]) })
        else
          let result := c.consumeSamples batch batch.length
          (some result.1,
            { result.2 with
              msgDeferred := some (.motion msg)
              batches := c.batches.eraseIdx i })
    | none =>
      if msg.action = actionMove ∨ msg.action = actionHoverMove then
        (none, { c with batches := c.batches ++ [[msg]] })
      else (some (msg.seq, .motion [msg]), c)

/-- The messages that are there are taken one by one until one gives an event; when there is none
left `receiveMessage` fails, with `WOULD_BLOCK` or with another error. -/
def consumeLoop (consumeBatches wouldBlock : Bool) (frameTime : Int) :
    List InputMessage → InputConsumer →
      Option (Nat × InputEvent) × InputConsumer × List InputMessage
  | [], c =>
    if consumeBatches || !wouldBlock then
      let result := c.consumeBatch frameTime
      (result.1, result.2, [])
    else (none, c, [])
  | msg :: inbox, c =>
    match c.handleMessage msg with
    | (some event, c) => (some event, c, inbox)
    | (none, c) => consumeLoop consumeBatches wouldBlock frameTime inbox c

/-- The event, the consumer and the messages that are left in the channel. -/
def consume (c : InputConsumer) (inbox : List InputMessage) (consumeBatches wouldBlock : Bool)
    (frameTime : Int) : Option (Nat × InputEvent) × InputConsumer × List InputMessage :=
  match c.msgDeferred with
  | none => consumeLoop consumeBatches wouldBlock frameTime inbox c
  | some msg =>
    consumeLoop consumeBatches wouldBlock frameTime (msg :: inbox) { c with msgDeferred := none }

/-- `consume` with what it returns.  `received` is the failure of `receiveMessage` once there are
no messages; unless it returns at once, the result of `consumeBatch` takes its place. -/
def consumeStatus (c : InputConsumer) (inbox : List InputMessage) (consumeBatches : Bool)
    (received : Status) (frameTime : Int) :
    Status × Option (Nat × InputEvent) × InputConsumer × List InputMessage :=
  let result := c.consume inbox consumeBatches (received = .wouldBlock) frameTime
  match result.1 with
  | some _ => (.ok, result)
  | none => (if consumeBatches || received ≠ .wouldBlock then .wouldBlock else received, result)

/-- What calls in a row return when nothing more comes through the channel. -/
def consumeCalls (consumeBatches : Bool) (received : Status) (frameTime : Int) :
    Nat → InputConsumer → List (Status × Option (Nat × InputEvent))
  | 0, _ => []
  | n + 1, c =>
    let result := c.consumeStatus [] consumeBatches received frameTime
    (result.1, result.2.1) :: consumeCalls consumeBatches received frameTime n result.2.2.1

/-! ## Finished signals -/

/-- The walk along a chain, over the list from its end: the links that stay, and the numbers that
were found. -/
def walkChain : List SeqChain → Nat → List SeqChain × List Nat
  | [], _ => ([], [])
  | link :: rest, current =>
    if link.seq = current then
      let (stay, found) := walkChain rest link.chain
      (stay, link.chain :: found)
    else
      let (stay, found) := walkChain rest current
      (link :: stay, found)

/-- The chain is built again for the numbers that were not sent. -/
def rebuildChain (seq : Nat) : List Nat → List SeqChain
  | [] => []
  | [last] => [⟨seq, last⟩]
  | unsent :: next :: rest => ⟨next, unsent⟩ :: rebuildChain seq (next :: rest)

/-- `good` calls of `sendMessage` succeed and the next one fails, or none does.  The result says
whether all went well, and which signals were sent. -/
def sendFinishedSignal (c : InputConsumer) (seq : Nat) (good : Option Nat) :
    Bool × List Nat × InputConsumer :=
  if seq = 0 then (false, [], c)
  else
    let (stay, found) := walkChain c.seqChains.reverse seq
    let chainSeqs := found.reverse
    let sent := (good.map fun n => chainSeqs.take n).getD chainSeqs
    let unsent := chainSeqs.drop sent.length
    if unsent ≠ [] then
      (false, sent, { c with seqChains := stay.reverse ++ rebuildChain seq unsent })
    else
      let c := { c with seqChains := stay.reverse }
      if good = some chainSeqs.length then (false, sent, c) else (true, sent ++ [seq], c)

end InputConsumer

/-! ## The channel and the application -/

structure System where
  consumer : InputConsumer
  /-- The messages in the channel. -/
  inbox : List InputMessage := []
  published : List InputMessage := []
  returned : List (Nat × InputEvent) := []
  /-- The events, by their number, that the application has yet to finish. -/
  outstanding : List Nat := []
  /-- The finished signals that were sent. -/
  acknowledged : List Nat := []

namespace System

inductive Action
  | publish (msg : InputMessage)
  | consume (consumeBatches wouldBlock : Bool) (frameTime : Int)
  | finish (seq : Nat) (good : Option Nat)

def step (st : System) : Action → System
  | .publish msg => { st with inbox := st.inbox ++ [msg], published := st.published ++ [msg] }
  | .consume consumeBatches wouldBlock frameTime =>
    let result := st.consumer.consume st.inbox consumeBatches wouldBlock frameTime
    { st with
      consumer := result.2.1
      inbox := result.2.2
      returned := st.returned ++ result.1.toList
      outstanding := st.outstanding ++ result.1.toList.map (·.1) }
  | .finish seq good =>
    let result := st.consumer.sendFinishedSignal seq good
    { st with
      consumer := result.2.2
      acknowledged := st.acknowledged ++ result.2.1
      outstanding := if result.1 then st.outstanding.erase seq else st.outstanding }

def run (st : System) (actions : List Action) : System := actions.foldl step st

end System

end ShieldTv.Input
