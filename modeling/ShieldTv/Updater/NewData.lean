import ShieldTv.Lib.Bytes
import ShieldTv.Lib.Trace
import ShieldTv.Updater.ByteCounts

/-!
# New data in `updater/blockimg.c`

The threads that share the new data: the decompressor's thread hands each chunk to
`receive_new_data`, which writes it through the range sink of the command that waits for it. Seeks
and writes are taken to succeed.
-/

namespace ShieldTv.Updater.NewData

open Lib Updater.ByteCounts

/-! ## The range sink -/

/-- `tgt` from `p_block` on, and the offset of `fd`. -/
structure RangeSinkState where
  tgt : List Range
  offset : Nat
  pRemain : Nat
deriving DecidableEq, Repr

/-- The sink when `p_block` moves to the first of these ranges. -/
def RangeSinkState.enter (offset : Nat) (tgt : List Range) : RangeSinkState where
  tgt
  offset := tgt.head?.elim offset fun range => range.1 * 4096
  pRemain := sinkRemain tgt

def writeAll (offset : Nat) (data : Bytes) : List (Nat × UInt8) :=
  (List.range' offset data.length).zip data

/-- What a call of `RangeSinkWrite` writes, and the data it does not take. -/
structure SinkWrite where
  writes : List (Nat × UInt8)
  sink : RangeSinkState
  rest : Bytes

def sinkLoop : List Range → Nat → Nat → Bytes → SinkWrite
  | tgt, offset, pRemain, [] => { writes := [], sink := { tgt, offset, pRemain }, rest := [] }
  | [], offset, pRemain, data =>
    { writes := [], sink := { tgt := [], offset, pRemain }, rest := data }
  | range :: tgt, offset, pRemain, data =>
    if data.length < pRemain then
      { writes := writeAll offset data
        sink := { tgt := range :: tgt, offset := offset + data.length
                  pRemain := pRemain - data.length }
        rest := [] }
    else
      let next := RangeSinkState.enter (offset + pRemain) tgt
      let after := sinkLoop tgt next.offset next.pRemain (data.drop pRemain)
      { after with writes := writeAll offset (data.take pRemain) ++ after.writes }

def rangeSinkWrite (sink : RangeSinkState) (data : Bytes) : SinkWrite :=
  if sink.pRemain = 0 then { writes := [], sink, rest := data }
  else sinkLoop sink.tgt sink.offset sink.pRemain data

/-! ## The two threads -/

/-- The commands still to perform, the sink of the one that waits, the rest of the current chunk
and the chunks after it, and what was written so far. -/
structure State where
  commands : List (List Range)
  rss : Option RangeSinkState
  data : Bytes
  chunks : List Bytes
  written : List (Nat × UInt8)

/-- A round of `receive_new_data`; a sink with all its ranges written is cleared. -/
def receiveNewData (s : State) (sink : RangeSinkState) : State :=
  let result := rangeSinkWrite sink s.data
  { s with
    rss := if result.sink.tgt = [] then none else some result.sink
    data := result.rest
    written := s.written ++ result.writes }

/-- `PerformCommandNew` sets its sink and waits for it to disappear; the decompressor delivers a
chunk; a chunk is written while there is a sink. -/
inductive Step : State → State → Prop
  | perform {s : State} {tgt commands} (hrss : s.rss = none)
      (hnext : s.commands = tgt :: commands) :
      Step s { s with commands, rss := some (.enter 0 tgt) }
  | deliver {s : State} {chunk chunks} (hdata : s.data = []) (hnext : s.chunks = chunk :: chunks) :
      Step s { s with data := chunk, chunks }
  | receive {s : State} {sink} (hrss : s.rss = some sink) (hdata : s.data ≠ []) :
      Step s (receiveNewData s sink)

def initial (commands : List (List Range)) (chunks : List Bytes) : State :=
  { commands, rss := none, data := [], chunks, written := [] }

/-- All commands are performed. -/
def State.Complete (s : State) : Prop := s.commands = [] ∧ s.rss = none

def device (init : Nat → UInt8) (written : List (Nat × UInt8)) : Nat → UInt8 :=
  Trace.run (fun device write => Function.update device write.1 write.2) init written

/-- The bytes of the ranges of commands, in order. -/
def targetBytes (commands : List (List Range)) : List Nat :=
  commands.flatten.flatMap fun range => List.range' (range.1 * 4096) ((range.2 - range.1) * 4096)

structure WellFormed (tgt : List Range) : Prop where
  nonempty : tgt ≠ []
  range : ∀ range ∈ tgt, range.1 < range.2 ∧ range.2 < 2 ^ 31

end ShieldTv.Updater.NewData
