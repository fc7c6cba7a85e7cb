import ShieldTv.Updater.NewData
import ShieldTv.Updater.Proofs.ByteCounts

/-!
# New data comes in order

However the stream is cut and the threads are scheduled, the bytes go in order to the bytes that
the ranges count. A range counts all its bytes if it has fewer than `2 ^ 19` blocks.
-/

namespace ShieldTv.Updater.NewData

open Lib Updater.ByteCounts List Relation

/-! ## What a sink still has to write -/

/-- The bytes of a range as far as its byte count goes. -/
def counted (range : Range) : List Nat := List.range' (range.1 * 4096) (rangeBytes range)

def RangeSinkState.todo (sink : RangeSinkState) : List Nat :=
  List.range' sink.offset sink.pRemain ++ sink.tgt.tail.flatMap counted

/-- A sink has something to write until its ranges are written. -/
structure RangeSinkState.Ready (sink : RangeSinkState) : Prop where
  counts : ∀ range ∈ sink.tgt, 0 < rangeBytes range
  empty_iff : sink.tgt = [] ↔ sink.pRemain = 0

@[simp] theorem todo_enter (offset : Nat) (tgt : List Range) :
    (RangeSinkState.enter offset tgt).todo = tgt.flatMap counted := by
  cases tgt with
  | nil => rfl
  | cons range tgt => rw [flatMap_cons]; rfl

theorem ready_enter (offset : Nat) {tgt : List Range} (h : ∀ range ∈ tgt, 0 < rangeBytes range) :
    (RangeSinkState.enter offset tgt).Ready := by
  refine ⟨h, ?_⟩
  cases tgt with
  | nil => exact iff_of_true rfl rfl
  | cons range tgt => exact iff_of_false (cons_ne_nil _ _) (h range mem_cons_self).ne'

theorem map_fst_writeAll (offset : Nat) (data : Bytes) :
    (writeAll offset data).map Prod.fst = List.range' offset data.length :=
  map_fst_zip (by rw [length_range'])

theorem map_snd_writeAll (offset : Nat) (data : Bytes) :
    (writeAll offset data).map Prod.snd = data :=
  map_snd_zip (by rw [length_range'])

/-- A write takes data from the front and writes it to the front of what the sink has to write. -/
structure Takes (sink : RangeSinkState) (data : Bytes) (result : SinkWrite) : Prop where
  data : data = result.writes.map Prod.snd ++ result.rest
  todo : sink.todo = result.writes.map Prod.fst ++ result.sink.todo
  ready : result.sink.Ready

theorem sinkLoop_takes {tgt : List Range} {sink : RangeSinkState} (htgt : sink.tgt = tgt)
    (hready : sink.Ready) (data : Bytes) :
    Takes sink data (sinkLoop tgt sink.offset sink.pRemain data) := by
  induction tgt generalizing sink data with
  | nil =>
    obtain ⟨_, offset, pRemain⟩ := sink
    cases htgt
    cases data <;> exact ⟨rfl, rfl, hready⟩
  | cons range tgt ih =>
    cases data with
    | nil =>
      obtain ⟨_, offset, pRemain⟩ := sink
      cases htgt
      exact ⟨rfl, rfl, hready⟩
    | cons byte data =>
      simp only [sinkLoop]
      split_ifs with hlt
      · refine ⟨?_, ?_, htgt ▸ hready.counts, ?_⟩
        · rw [map_snd_writeAll, append_nil]
        · have hsplit := range'_append_1 (s := sink.offset) (m := (byte :: data).length)
            (n := sink.pRemain - (byte :: data).length)
          rw [Nat.add_sub_cancel' hlt.le] at hsplit
          simp only [RangeSinkState.todo, map_fst_writeAll, ← hsplit, append_assoc, htgt]
        · exact iff_of_false (cons_ne_nil _ _) (Nat.sub_ne_zero_of_lt hlt)
      · have hcounts : ∀ range ∈ tgt, 0 < rangeBytes range := fun range' hrange =>
          hready.counts range' (htgt ▸ mem_cons_of_mem _ hrange)
        have hrest := @ih (.enter (sink.offset + sink.pRemain) tgt) rfl (ready_enter _ hcounts)
          ((byte :: data).drop sink.pRemain)
        refine ⟨?_, ?_, hrest.ready⟩
        · rw [map_append, map_snd_writeAll, append_assoc, ← hrest.data, take_append_drop]
        · have htake : ((byte :: data).take sink.pRemain).length = sink.pRemain :=
            length_take_of_le (by omega)
          rw [map_append, map_fst_writeAll, htake, append_assoc, ← hrest.todo,
            todo_enter, RangeSinkState.todo, htgt, tail_cons]

theorem rangeSinkWrite_takes {sink : RangeSinkState} (hready : sink.Ready) (data : Bytes) :
    Takes sink data (rangeSinkWrite sink data) := by
  unfold rangeSinkWrite
  split_ifs
  · exact ⟨rfl, rfl, hready⟩
  · exact sinkLoop_takes rfl hready data

/-- A sink that is ready takes at least one byte. -/
theorem rangeSinkWrite_writes {sink : RangeSinkState} (hremain : sink.pRemain ≠ 0)
    (htgt : sink.tgt ≠ []) {data : Bytes} (hdata : data ≠ []) :
    0 < (rangeSinkWrite sink data).writes.length := by
  obtain ⟨range, tgt, htgt⟩ := exists_cons_of_ne_nil htgt
  obtain ⟨byte, data, rfl⟩ := exists_cons_of_ne_nil hdata
  simp only [rangeSinkWrite, if_neg hremain, htgt, sinkLoop]
  split_ifs
  · simp [writeAll]
  · simp [writeAll]
    omega

/-! ## Runs -/

def State.todo (s : State) : List Nat :=
  s.rss.elim [] RangeSinkState.todo ++ s.commands.flatten.flatMap counted

/-- What was written is the front of the stream, at the front of the bytes of the commands. -/
structure Inv (bytes : List Nat) (stream : Bytes) (s : State) : Prop where
  stream : stream = s.written.map Prod.snd ++ (s.data ++ s.chunks.flatten)
  bytes : bytes = s.written.map Prod.fst ++ s.todo
  commands : ∀ tgt ∈ s.commands, tgt ≠ [] ∧ ∀ range ∈ tgt, 0 < rangeBytes range
  sink : ∀ sink ∈ s.rss, sink.tgt ≠ [] ∧ sink.Ready

variable {bytes : List Nat} {stream : Bytes} {s s' : State}

theorem Inv.step (h : Inv bytes stream s) (hstep : Step s s') : Inv bytes stream s' := by
  cases hstep with
  | @perform tgt commands hrss hnext =>
    have hcommands := hnext ▸ h.commands
    refine ⟨h.stream, ?_, fun tgt htgt => hcommands tgt (mem_cons_of_mem _ htgt), ?_⟩
    · rw [h.bytes, State.todo, State.todo, hrss, hnext, flatten_cons, flatMap_append]
      simp only [Option.elim, todo_enter, nil_append]
    · rintro _ ⟨⟩
      exact (hcommands tgt mem_cons_self).imp_right (ready_enter 0)
  | deliver hdata hnext =>
    refine ⟨?_, h.bytes, h.commands, h.sink⟩
    rw [h.stream, hdata, hnext, nil_append, flatten_cons]
  | @receive sink hrss hdata =>
    have htakes := rangeSinkWrite_takes (h.sink sink hrss).2 s.data
    have htodo : (receiveNewData s sink).rss.elim [] RangeSinkState.todo =
        (rangeSinkWrite sink s.data).sink.todo := by
      simp only [receiveNewData]
      split_ifs with hnil
      · rw [RangeSinkState.todo, htakes.ready.empty_iff.mp hnil, hnil]
        rfl
      · rfl
    refine ⟨?_, ?_, h.commands, ?_⟩
    · rw [h.stream]
      nth_rewrite 1 [htakes.data]
      simp only [receiveNewData, map_append, append_assoc]
    · rw [h.bytes, State.todo, State.todo, hrss, htodo]
      simp only [Option.elim, htakes.todo, receiveNewData, map_append, append_assoc]
    · intro sink' hsink'
      simp only [receiveNewData, Option.mem_def] at hsink'
      split_ifs at hsink' with hnil
      exact Option.some.inj hsink' ▸ ⟨hnil, htakes.ready⟩

theorem inv_of_run {commands : List (List Range)} {chunks : List Bytes}
    (hcommands : ∀ tgt ∈ commands, tgt ≠ [] ∧ ∀ range ∈ tgt, 0 < rangeBytes range)
    (hrun : ReflTransGen Step (initial commands chunks) s) :
    Inv (commands.flatten.flatMap counted) chunks.flatten s := by
  induction hrun with
  | refl => exact ⟨rfl, rfl, hcommands, by simp [initial]⟩
  | tail _ hstep ih => exact ih.step hstep

/-- With enough data the threads can go on until all commands are performed. -/
theorem Inv.exists_step (h : Inv bytes stream s) (hlength : bytes.length ≤ stream.length)
    (hopen : ¬ s.Complete) : ∃ s', Step s s' := by
  cases hrss : s.rss with
  | none =>
    obtain ⟨tgt, commands, hnext⟩ := exists_cons_of_ne_nil fun hnil => hopen ⟨hnil, hrss⟩
    exact ⟨_, .perform hrss hnext⟩
  | some sink =>
    by_cases hdata : s.data = []
    · have hchunks : s.chunks ≠ [] := by
        intro hnil
        obtain ⟨htgt, hready⟩ := h.sink sink hrss
        have hremain := mt hready.empty_iff.mpr htgt
        rw [h.bytes, h.stream, hdata, hnil, State.todo, hrss] at hlength
        simp only [Option.elim, RangeSinkState.todo, length_append, length_map, length_range',
          flatten_nil, length_nil] at hlength
        omega
      obtain ⟨chunk, chunks, hnext⟩ := exists_cons_of_ne_nil hchunks
      exact ⟨_, .deliver hdata hnext⟩
    · exact ⟨_, .receive hrss hdata⟩

def State.left (s : State) : Nat := s.todo.length + s.commands.length + s.chunks.length

/-- A step performs a command, delivers a chunk or writes. -/
theorem Inv.left_lt (h : Inv bytes stream s) (hstep : Step s s') : s'.left < s.left := by
  have hbytes := congrArg List.length (h.bytes.symm.trans (h.step hstep).bytes)
  simp only [length_append, length_map] at hbytes
  unfold State.left
  cases hstep with
  | perform hrss hnext =>
    rw [hnext, length_cons]
    simp only at hbytes ⊢
    omega
  | deliver hdata hnext =>
    rw [hnext, length_cons]
    simp only at hbytes ⊢
    omega
  | @receive sink hrss hdata =>
    obtain ⟨htgt, hready⟩ := h.sink sink hrss
    have hwrites := rangeSinkWrite_writes (mt hready.empty_iff.mpr htgt) htgt hdata
    have hwritten : (receiveNewData s sink).written.length =
        s.written.length + (rangeSinkWrite sink s.data).writes.length := length_append
    change (receiveNewData s sink).todo.length + s.commands.length + s.chunks.length < _
    omega

theorem Inv.completes (h : Inv bytes stream s) (hlength : bytes.length ≤ stream.length) :
    ∃ s', ReflTransGen Step s s' ∧ s'.Complete := by
  induction hleft : s.left using Nat.strong_induction_on generalizing s with
  | _ n ih =>
    by_cases hopen : s.Complete
    · exact ⟨s, .refl, hopen⟩
    · obtain ⟨s₁, hstep⟩ := h.exists_step hlength hopen
      obtain ⟨s', hrun, hdone⟩ := ih _ (hleft ▸ h.left_lt hstep) (h.step hstep) rfl
      exact ⟨s', .head hstep hrun, hdone⟩

/-! ## The device -/

theorem device_of_notMem (init : Nat → UInt8) {written : List (Nat × UInt8)} {p : Nat}
    (hp : p ∉ written.map Prod.fst) : device init written p = init p := by
  induction written generalizing init with
  | nil => rfl
  | cons write written ih =>
    rw [map_cons, mem_cons, not_or] at hp
    exact (ih _ hp.2).trans (Function.update_of_ne hp.1 _ _)

/-- A byte holds what was written to it last. -/
theorem device_of_last (init : Nat → UInt8) {written : List (Nat × UInt8)} {rest : Bytes}
    {i p : Nat} {byte : UInt8} (hp : (written.map Prod.fst)[i]? = some p)
    (hbyte : (written.map Prod.snd ++ rest)[i]? = some byte)
    (hlast : p ∉ (written.map Prod.fst).drop (i + 1)) : device init written p = byte := by
  induction written generalizing init i with
  | nil => cases hp
  | cons write written ih =>
    cases i with
    | zero =>
      cases hp
      cases hbyte
      exact (device_of_notMem _ hlast).trans (Function.update_self _ _ _)
    | succ i => exact ih _ hp hbyte hlast

theorem flatMap_counted {commands : List (List Range)}
    (hrange : ∀ tgt ∈ commands, ∀ range ∈ tgt,
      rangeBytes range = (range.2 - range.1) * 4096) :
    commands.flatten.flatMap counted = targetBytes commands := by
  refine flatMap_congr fun range hmem => ?_
  obtain ⟨tgt, htgt, hmem⟩ := mem_flatten.mp hmem
  rw [counted, hrange tgt htgt range hmem]

/-- However the stream is cut, commands that are done have written the next bytes of the stream to
their ranges and nothing else; with a long enough stream all of them get done. -/
theorem newData_streams {done todo : List (List Range)} {chunks : List Bytes}
    (htgt : ∀ tgt ∈ done ++ todo, WellFormed tgt)
    (hsize : ∀ tgt ∈ done ++ todo, ∀ range ∈ tgt, range.2 - range.1 < 2 ^ 19)
    (hrun : ReflTransGen Step (initial (done ++ todo) chunks) s) :
    (s.commands = todo → s.rss = none →
      s.written.map Prod.fst = targetBytes done ∧
      s.written.map Prod.snd = chunks.flatten.take (targetBytes done).length ∧
      ∀ init, (∀ i p byte, (targetBytes done)[i]? = some p → chunks.flatten[i]? = some byte →
          p ∉ (targetBytes done).drop (i + 1) → device init s.written p = byte) ∧
        ∀ p ∉ targetBytes done, device init s.written p = init p) ∧
    ((targetBytes (done ++ todo)).length ≤ chunks.flatten.length →
      ∃ s', ReflTransGen Step s s' ∧ s'.Complete) := by
  have hbytes : ∀ tgt ∈ done ++ todo, ∀ range ∈ tgt,
      rangeBytes range = (range.2 - range.1) * 4096 := fun tgt hmem range hrange =>
    (rangeBytes_eq_iff ((htgt tgt hmem).range range hrange).1.le
      ((htgt tgt hmem).range range hrange).2).mpr (hsize tgt hmem range hrange)
  have hinv := inv_of_run (fun tgt hmem => ⟨(htgt tgt hmem).nonempty, fun range hrange => by
    have := (htgt tgt hmem).range range hrange
    rw [hbytes tgt hmem range hrange]
    omega⟩) hrun
  rw [flatMap_counted hbytes] at hinv
  refine ⟨fun hcommands hrss => ?_, hinv.completes⟩
  have hfst : s.written.map Prod.fst = targetBytes done := by
    have hall := hinv.bytes
    rw [State.todo, hcommands, hrss, Option.elim, nil_append, flatMap_counted
      fun tgt htgt => hbytes tgt (mem_append_right _ htgt), targetBytes, flatten_append,
      flatMap_append] at hall
    exact (append_cancel_right hall).symm
  refine ⟨hfst, ?_, fun init => ⟨fun i p byte hp hbyte hlast => ?_, fun p hp => ?_⟩⟩
  · rw [hinv.stream, ← hfst, length_map, take_left' (length_map _)]
  · exact device_of_last init (hfst ▸ hp) (hinv.stream ▸ hbyte) (hfst ▸ hlast)
  · exact device_of_notMem init (hfst ▸ hp)

def twoCommands : List (List Range) := [[(1, 2), (5, 6)], [(3, 4)]]

/-- No chunk ends where a range ends. -/
def threeChunks : List Bytes := [replicate 5000 7, replicate 5000 8, replicate 5000 9]

theorem newData_streams_twoCommands : ∃ s, ReflTransGen Step (initial twoCommands threeChunks) s ∧
    s.Complete ∧ s.written.map Prod.fst = targetBytes twoCommands := by
  have htgt : ∀ tgt ∈ twoCommands, WellFormed tgt := forall_mem_cons.mpr
    ⟨⟨cons_ne_nil _ _, by decide⟩, forall_mem_singleton.mpr ⟨cons_ne_nil _ _, by decide⟩⟩
  have hlength : (targetBytes twoCommands).length ≤ threeChunks.flatten.length := by
    simp only [targetBytes, twoCommands, threeChunks, flatten_cons, flatten_nil, append_nil,
      flatMap_append, flatMap_cons, flatMap_nil, length_append, length_range', length_replicate]
    omega
  obtain ⟨s, hrun, hdone⟩ := (@newData_streams _ twoCommands [] threeChunks htgt (by decide)
    .refl).2 hlength
  exact ⟨s, hrun, hdone, ((@newData_streams s twoCommands [] _ htgt (by decide) hrun).1 hdone.1
    hdone.2).1⟩

/-- A range of `2 ^ 20 + 1` blocks counts as 4096 bytes: its command is done after them, and the
next byte of the stream is not in its place. -/
theorem newData_stops_early : WellFormed [(0, 2 ^ 20 + 1)] ∧ ∃ s, ReflTransGen Step
    (initial [[(0, 2 ^ 20 + 1)]] [replicate 4097 1]) s ∧ s.Complete ∧
      (targetBytes [[(0, 2 ^ 20 + 1)]])[4096]? = some 4096 ∧
      (replicate 4097 (1 : UInt8))[4096]? = some 1 ∧
      device (fun _ => 0) s.written 4096 = 0 := by
  have hcount : rangeBytes (0, 2 ^ 20 + 1) = 4096 := by decide
  have hinv : ∀ {s}, ReflTransGen Step (initial [[(0, 2 ^ 20 + 1)]] [replicate 4097 1]) s →
      Inv (counted (0, 2 ^ 20 + 1) ++ []) (replicate 4097 1 ++ []) s := inv_of_run (by decide)
  obtain ⟨s, hrun, hdone⟩ := (hinv .refl).completes (by
    rw [append_nil, append_nil, counted, length_range', length_replicate, hcount]
    omega)
  refine ⟨⟨cons_ne_nil _ _, by decide⟩, s, hrun, hdone, ?_, getElem?_replicate_of_lt (by omega), ?_⟩
  · rw [targetBytes, flatten_singleton, flatMap_singleton, getElem?_range' (by omega)]
    rfl
  · have hwritten := (hinv hrun).bytes
    rw [State.todo, hdone.1, hdone.2] at hwritten
    apply device_of_notMem
    rw [← append_cancel_right hwritten, counted, mem_range'_1, hcount]
    omega

end ShieldTv.Updater.NewData
