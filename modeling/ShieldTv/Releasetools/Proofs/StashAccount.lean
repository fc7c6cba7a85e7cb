import ShieldTv.Releasetools.Proofs.EmittedList

/-!
# The stash account of the writer

`WriteTransfers` keeps a running count of the stashed blocks and announces its
maximum.  A list is `WithinBudget` if that maximum covers the stashes held before
each command, together with the automatic stash of a command that overwrites
blocks it reads.
-/

namespace ShieldTv.Releasetools.BlockImageDiff

open Lib Lib.Text Lib.Fallible List Releasetools.RangeLib
open Option hiding ext mem_toFinset

variable {B : Type}

/-! ## Sizes of named contents -/

/-- The number of blocks in the contents of a name. -/
noncomputable def nameBlocks (codec : Codec B) (name : Word) : Nat :=
  (Function.invFun codec.sha1 name).length

theorem nameBlocks_sha1 (codec : Codec B) (data : List B) :
    nameBlocks codec (codec.sha1 data) = data.length := by
  unfold nameBlocks
  rw [Function.leftInverse_invFun codec.sha1_injective data]

noncomputable def heldBlocks (codec : Codec B) (held : Finset Word) : Int :=
  ∑ name ∈ held, (nameBlocks codec name : Int)

theorem heldBlocks_mono (codec : Codec B) {held held' : Finset Word} (h : held ⊆ held') :
    heldBlocks codec held ≤ heldBlocks codec held' :=
  Finset.sum_le_sum_of_subset_of_nonneg h fun _ _ _ => by omega

/-- The blocks of a source that its command overwrites are saved first, all of
them or none. -/
def Command.overlapBlocks : Command → Int
  | .move _ tgt source | .diff _ _ _ _ tgt source =>
    if source.direct.overlaps tgt then source.count else 0
  | .stash _ _ | .free _ | .new _ | .zero _ | .erase _ => 0

/-- A budget covers what is stashed when each command is reached and while it is
performed. -/
def WithinBudget (codec : Codec B) (budget : Int) (commands : List Command) : Prop :=
  ∀ before c after, commands = before ++ c :: after →
    heldBlocks codec (heldAfter before) + c.overlapBlocks ≤ budget

section

variable {codec : Codec B} {budget budget' : Int} {commands : List Command} {c : Command}

theorem withinBudget_nil : WithinBudget codec budget [] := by
  intro before c after h
  simp at h

theorem WithinBudget.mono (h : WithinBudget codec budget commands) (hle : budget ≤ budget') :
    WithinBudget codec budget' commands :=
  fun before c after hsplit => (h before c after hsplit).trans hle

theorem WithinBudget.append (h : WithinBudget codec budget commands)
    (hc : heldBlocks codec (heldAfter commands) + c.overlapBlocks ≤ budget) :
    WithinBudget codec budget (commands ++ [c]) := by
  intro before d after hsplit
  rcases eq_nil_or_concat after with rfl | ⟨after, e, rfl⟩
  · obtain ⟨rfl, hd⟩ := append_inj' hsplit rfl
    cases hd
    exact hc
  · rw [concat_eq_append, ← cons_append, ← append_assoc] at hsplit
    obtain ⟨rfl, -⟩ := append_inj' hsplit rfl
    exact h before d after rfl

theorem heldAfter_append_singleton (commands : List Command) (c : Command) :
    heldAfter (commands ++ [c]) = c.hold (heldAfter commands) := by
  rw [heldAfter_append]
  rfl

/-- A budget that also covers what is stashed at the end. -/
structure Afforded (codec : Codec B) (budget : Int) (commands : List Command) : Prop where
  held : heldBlocks codec (heldAfter commands) ≤ budget
  within : WithinBudget codec budget commands

theorem Afforded.append (h : Afforded codec budget commands) (hle : budget ≤ budget')
    (hhold : c.hold (heldAfter commands) ⊆ heldAfter commands)
    (hc : heldBlocks codec (heldAfter commands) + c.overlapBlocks ≤ budget') :
    Afforded codec budget' (commands ++ [c]) := by
  refine ⟨?_, (h.within.mono hle).append hc⟩
  rw [heldAfter_append_singleton]
  exact ((heldBlocks_mono codec hhold).trans h.held).trans hle

theorem Afforded.append_silent (h : Afforded codec budget commands) (hoverlap : c.overlapBlocks = 0)
    (hhold : c.hold (heldAfter commands) ⊆ heldAfter commands) :
    Afforded codec budget (commands ++ [c]) :=
  h.append le_rfl hhold (by rw [hoverlap, add_zero]; exact h.held)

theorem Afforded.append_frees (h : Afforded codec budget commands) (names : List Word) :
    Afforded codec budget (commands ++ names.map Command.free) := by
  induction names generalizing commands with
  | nil => simpa using h
  | cons name names ih =>
    rw [map_cons, append_cons]
    exact ih (h.append_silent rfl (Finset.erase_subset _ _))

end

/-! ## The running count -/

/-- `stashedBlocks` counts the contents of each stash as often as it is
stashed. -/
structure Accounted (codec : Codec B) (st : WriterState) : Prop where
  total : st.counts.sumOf (fun name n => n * (nameBlocks codec name : Int)) = st.stashedBlocks
  positive : ∀ name n, st.counts.get? name = some n → 1 ≤ n

section

variable {codec : Codec B} {st st' : WriterState} {name : Word}

theorem Accounted.heldBlocks_le (h : Accounted codec st) (hcounted : Counted st) :
    heldBlocks codec (heldAfter st.out) ≤ st.stashedBlocks := by
  have hkeys : heldAfter st.out = st.counts.keys.toFinset := by
    ext name
    rw [mem_toFinset, hcounted]
  rw [← h.total, hkeys]
  apply Finset.sum_le_sum
  intro name hname
  cases hget : st.counts.get? name with
  | none => exact absurd (mem_toFinset.mp hname) ((st.counts.get?_eq_none_iff name).mp hget)
  | some n =>
    have hn := h.positive name n hget
    rw [elim_some]
    nlinarith [Int.natCast_nonneg (nameBlocks codec name)]

theorem Accounted.set (h : Accounted codec st) (old : Nat) {new : Nat}
    (hold : (st.counts.get? name).getD 0 = old) (hnew : 1 ≤ new)
    (hcounts : st'.counts = st.counts.set name new)
    (hblocks : st'.stashedBlocks = st.stashedBlocks + ((new : Int) - old) * nameBlocks codec name) :
    Accounted codec st' := by
  have hweight : st.counts.weightAt (fun name n => n * (nameBlocks codec name : Int)) name =
      old * nameBlocks codec name := by
    unfold OrderedDict.weightAt
    cases hget : st.counts.get? name with
    | none | some n => simp [← hold, hget]
  constructor
  · rw [hcounts, OrderedDict.sumOf_set, h.total, hweight, hblocks]
    ring
  · intro k n hget
    rw [hcounts, OrderedDict.get?_set] at hget
    split_ifs at hget with hk
    · exact some.inj hget ▸ hnew
    · exact h.positive k n hget

theorem Accounted.erase (h : Accounted codec st) (hold : st.counts.get? name = some 1)
    (hcounts : st'.counts = st.counts.erase name)
    (hblocks : st'.stashedBlocks = st.stashedBlocks - nameBlocks codec name) :
    Accounted codec st' := by
  have hweight : st.counts.weightAt (fun name n => n * (nameBlocks codec name : Int)) name =
      nameBlocks codec name := by
    simp [OrderedDict.weightAt, hold]
  constructor
  · rw [hcounts, OrderedDict.sumOf_erase, h.total, hweight, hblocks]
  · intro k n hget
    rw [hcounts, OrderedDict.get?_erase] at hget
    split_ifs at hget
    exact h.positive k n hget

end

section

variable [Zero B] {codec : Codec B} {src tgt : Image B} {st st' : WriterState}
  {stashes : List (Nat × RangeSet)} {budget : Int}

theorem size_eq_nameBlocks (codec : Codec B) (src : Image B) {r : RangeSet} (hr : r.Canonical) :
    r.size = nameBlocks codec (codec.sha1 (src.readRangeSet r)) := by
  rw [nameBlocks_sha1, Image.readRangeSet, length_map, RangeSet.size_eq_length_blocks hr]

theorem stashOne_account {stash : Nat × RangeSet} (h : stashOne codec 3 src st stash = some st')
    (hstash : stash.2.Canonical) (haccount : Accounted codec st) (hcounted : Counted st)
    (hbudget : WithinBudget codec (max budget st.stashedBlocks) st.out) :
    Accounted codec st' ∧ WithinBudget codec (max budget st'.stashedBlocks) st'.out := by
  have hsize := size_eq_nameBlocks codec src hstash
  have hheld := haccount.heldBlocks_le hcounted
  obtain ⟨-, -, hblocks, hcase⟩ := stashOne_cases rfl h
  have hmono : max budget st.stashedBlocks ≤ max budget st'.stashedBlocks :=
    max_le_max le_rfl (by omega)
  rcases hcase with ⟨n, hget, hcounts, hout⟩ | ⟨hget, hcounts, hout⟩
  · constructor
    · refine haccount.set n (by rw [hget]; rfl) (by omega) hcounts ?_
      rw [hblocks, hsize]
      push_cast
      ring
    · rw [hout]
      exact hbudget.mono hmono
  · constructor
    · refine haccount.set 0 (by rw [hget]; rfl) le_rfl hcounts ?_
      rw [hblocks, hsize]
      ring
    · rw [hout]
      refine (hbudget.mono hmono).append (le_max_of_le_right ?_)
      simp only [Command.overlapBlocks]
      omega

theorem foldlM_stashOne_account (h : stashes.foldlM (stashOne codec 3 src) st = some st')
    (hstashes : ∀ stash ∈ stashes, stash.2.Canonical) (haccount : Accounted codec st)
    (hcounted : Counted st) (hbudget : WithinBudget codec (max budget st.stashedBlocks) st.out) :
    Accounted codec st' ∧ st'.maxStashedBlocks = st.maxStashedBlocks ∧
      WithinBudget codec (max budget st'.stashedBlocks) st'.out := by
  refine (foldlM_invariant (P := fun s => Counted s ∧ Accounted codec s ∧
    s.maxStashedBlocks = st.maxStashedBlocks ∧
      WithinBudget codec (max budget s.stashedBlocks) s.out)
    h ⟨hcounted, haccount, rfl, hbudget⟩ fun stash hstash s s' hone hs => ?_).2
  obtain ⟨hcounted, haccount, hmax, hbudget⟩ := hs
  obtain ⟨haccount', hbudget'⟩ :=
    stashOne_account hone (hstashes stash hstash) haccount hcounted hbudget
  exact ⟨(counted_stashOne hone hcounted).1, haccount',
    (stashOne_cases rfl hone).2.1.trans hmax, hbudget'⟩

theorem foldlM_useOne_account {srcRanges : RangeSet} {used used' : SourceState}
    (h : stashes.foldlM (useOne codec 3 src srcRanges) used = some used')
    (hstashes : ∀ stash ∈ stashes, stash.2.Canonical) (haccount : Accounted codec used.writer) :
    Accounted codec used'.writer ∧
      used'.writer.maxStashedBlocks = used.writer.maxStashedBlocks := by
  refine foldlM_invariant h ⟨haccount, rfl⟩ fun stash hstash s s' hone ⟨haccount, hmax⟩ => ?_
  have hsize := size_eq_nameBlocks codec src (hstashes stash hstash)
  obtain ⟨-, -, hmax', hblocks, n, hget, hcase⟩ := useOne_cases rfl hone
  have hn := haccount.positive _ n hget
  refine ⟨?_, hmax'.trans hmax⟩
  rcases hcase with ⟨rfl, hcounts, -⟩ | ⟨hne, hcounts, -⟩
  · exact haccount.erase hget hcounts (by rw [hblocks, hsize])
  · refine haccount.set n (by rw [hget]; rfl) (by omega) hcounts ?_
    rw [hblocks, hsize, Nat.cast_sub hn]
    ring

end

/-- A transfer that uses stashes reads no block directly that it writes. -/
def ReadsClear (xf : StashedTransfer) : Prop :=
  xf.useStash ≠ [] → ∀ b ∈ xf.srcRanges.toSet, b ∈ xf.tgtRanges.toSet →
    ∃ stash ∈ xf.useStash, b ∈ stash.2.toSet

instance : DecidablePred ReadsClear := fun xf =>
  decidable_of_iff
    (xf.useStash ≠ [] → ∀ b ∈ xf.srcRanges.blocks, b ∈ xf.tgtRanges.blocks →
      ∃ stash ∈ xf.useStash, b ∈ stash.2.blocks)
    (by simp only [ReadsClear, RangeSet.mem_blocks])

section

variable [Zero B] {codec : Codec B} {src tgt : Image B} {xf : PatchedTransfer} {source : Source}
  {st st' : WriterState} {budget : Int} {plan : List StashedTransfer}

theorem countOverlap_eq (xf : PatchedTransfer) (st : WriterState) :
    (countOverlap 3 xf st).out = st.out ∧ (countOverlap 3 xf st).counts = st.counts ∧
      (countOverlap 3 xf st).stashedBlocks = st.stashedBlocks ∧
      st.maxStashedBlocks ≤ (countOverlap 3 xf st).maxStashedBlocks ∧
      (xf.srcRanges.overlaps xf.tgtRanges = true →
        st.stashedBlocks + xf.srcRanges.size ≤ (countOverlap 3 xf st).maxStashedBlocks) := by
  unfold countOverlap
  split_ifs with h
  · exact ⟨rfl, rfl, rfl, le_max_left _ _, fun _ => le_max_right _ _⟩
  · exact ⟨rfl, rfl, rfl, le_rfl, fun hoverlap => absurd ⟨le_rfl, hoverlap⟩ h⟩

/-- The command of a transfer fits into the maximum, which grows where the
command saves its own source. -/
theorem writesCommand_account (h : WritesCommand codec src tgt xf source st st')
    (hcount : source.count = xf.srcRanges.size)
    (hsource : source.direct.overlaps xf.tgtRanges = true →
      xf.srcRanges.overlaps xf.tgtRanges = true ∧
        heldBlocks codec (heldAfter st.out) ≤ st.stashedBlocks)
    (hbudget : Afforded codec st.maxStashedBlocks st.out) :
    st'.counts = st.counts ∧ st'.stashedBlocks = st.stashedBlocks ∧
      Afforded codec st'.maxStashedBlocks st'.out := by
  have hheld := hbudget.held
  obtain ⟨hout, hcounts, hblocks, hmax, hoverlap⟩ := countOverlap_eq xf st
  have hsaved : heldBlocks codec (heldAfter st.out) +
      (if source.direct.overlaps xf.tgtRanges then source.count else 0) ≤
        (countOverlap 3 xf st).maxStashedBlocks := by
    split_ifs with hdirect
    · have hsrc := hsource hdirect
      have hsum := hoverlap hsrc.1
      omega
    · omega
  cases h with
  | new | zero => exact ⟨rfl, rfl, hbudget.append_silent rfl subset_rfl⟩
  | unmoved | unzeroed => exact ⟨rfl, rfl, hbudget⟩
  | move | diff =>
    rw [← hout] at hbudget hsaved
    exact ⟨hcounts, hblocks, hbudget.append hmax subset_rfl hsaved⟩

theorem writeTransfer_account (hxf : PlannedTransfer src tgt xf.toStashedTransfer)
    (hclear : ReadsClear xf.toStashedTransfer) (hcounted : Counted st)
    (haccount : Accounted codec st) (hbudget : WithinBudget codec st.maxStashedBlocks st.out)
    (h : writeTransfer codec 3 src tgt st xf = some st') :
    Accounted codec st' ∧ Afforded codec st'.maxStashedBlocks st'.out := by
  obtain ⟨st₁, used, source, st₃, hstash, huse, hsource, hcommand, rfl, -⟩ :=
    writeTransfer_cases h
  obtain ⟨haccount₁, hmax₁, hbudget₁⟩ := foldlM_stashOne_account hstash
    (fun stash hmem => (hxf.before stash hmem).1) haccount hcounted
    (hbudget.mono (le_max_left _ st.stashedBlocks))
  have hheld₁ := haccount₁.heldBlocks_le (foldlM_stashOne hstash hcounted).1
  obtain ⟨haccount₂, hmax₂⟩ := foldlM_useOne_account huse
    (fun stash hmem => (hxf.use stash hmem).1) ⟨haccount₁.total, haccount₁.positive⟩
  obtain ⟨hout₂, -, -, names, hfrees, -⟩ := foldlM_useOne_held huse
  obtain ⟨hcount, hdirect, -⟩ := buildSource_eq hsource
  obtain ⟨hcanonical, hmem⟩ := mem_unstashed hxf.src_canonical hxf.use huse
  rw [← hdirect] at hcanonical hmem
  rw [hmax₁] at hmax₂
  have hsaved : source.direct.overlaps xf.tgtRanges = true →
      xf.srcRanges.overlaps xf.tgtRanges = true ∧
        heldBlocks codec (heldAfter used.writer.out) ≤ used.writer.stashedBlocks := by
    intro hoverlap
    rw [RangeSet.overlaps_iff hcanonical hxf.tgt_canonical] at hoverlap
    obtain ⟨b, hb, hb'⟩ := hoverlap
    obtain ⟨hsrc, hnone⟩ := (hmem b).mp hb
    have hempty : xf.useStash = [] := by
      by_contra hne
      obtain ⟨stash, hin, hstash⟩ := hclear hne b hsrc hb'
      exact hnone stash hin hstash
    rw [hempty] at huse
    cases huse
    exact ⟨(RangeSet.overlaps_iff hxf.src_canonical hxf.tgt_canonical).mpr ⟨b, hsrc, hb'⟩, hheld₁⟩
  obtain ⟨hcounts₃, hblocks₃, hbudget₃⟩ :=
    writesCommand_account (writeCommand_cases hcommand).2 hcount hsaved
      (by rw [hout₂, hmax₂]; exact ⟨hheld₁.trans (le_max_right _ _), hbudget₁⟩)
  refine ⟨⟨?_, ?_⟩, ?_⟩
  · simpa only [hcounts₃, hblocks₃] using haccount₂.total
  · simpa only [hcounts₃] using haccount₂.positive
  · simp only [hfrees]
    exact hbudget₃.append_frees names

theorem foldlM_writeTransfer_account {patchData : Bytes} {xfs : List PatchedTransfer}
    (hpatched : Forall₂ (PatchedFrom codec src tgt patchData) plan xfs)
    (hplan : ∀ xf ∈ plan, PlannedTransfer src tgt xf) (hclear : ∀ xf ∈ plan, ReadsClear xf)
    (hcounted : Counted st) (haccount : Accounted codec st)
    (hbudget : Afforded codec st.maxStashedBlocks st.out)
    (h : xfs.foldlM (writeTransfer codec 3 src tgt) st = some st') :
    Afforded codec st'.maxStashedBlocks st'.out := by
  induction hpatched generalizing st with
  | nil =>
    cases h
    exact hbudget
  | @cons xf patched plan xfs hone hrest ih =>
    obtain ⟨st₁, hwrite, hfold⟩ := foldlM_cons_eq_some.mp h
    have hxf := hone.planned (hplan xf (by simp))
    have hxfClear : ReadsClear patched.toStashedTransfer := by
      rw [hone.same]
      exact hclear xf (by simp)
    obtain ⟨haccount₁, hbudget₁⟩ :=
      writeTransfer_account hxf hxfClear hcounted haccount hbudget.within hwrite
    exact ih (fun x hx => hplan x (by simp [hx])) (fun x hx => hclear x (by simp [hx]))
      (writeTransfer_segment hone hxf hcounted hwrite).1 haccount₁ hbudget₁ hfold

theorem Afforded.append_finalCommands {commands : List Command}
    (h : Afforded codec budget commands) (tgt : Image B) :
    Afforded codec budget (commands ++ finalCommands tgt) := by
  unfold finalCommands
  rw [← append_assoc]
  split_ifs
  · exact (h.append_silent rfl subset_rfl).append_silent rfl subset_rfl
  · rw [append_nil]
    exact h.append_silent rfl subset_rfl
  · rw [append_nil]
    exact h.append_silent rfl subset_rfl
  · simpa using h

theorem withinBudget_of_compute {ota : Ota B} (h : compute codec 3 src tgt = some ota)
    (hplan : planTransfers src tgt = some plan) (hclear : ∀ xf ∈ plan, ReadsClear xf) :
    Afforded codec ota.list.maxStashedBlocks ota.list.commands := by
  obtain ⟨hsrc, htgt, plan', patches, hplan', hpatches, hlist, -, -⟩ := compute_cases h
  rw [hplan] at hplan'
  cases hplan'
  obtain ⟨safePlan, hsafePlan, hsafe⟩ := planTransfers_safe src tgt htgt
  rw [hplan] at hsafePlan
  cases hsafePlan
  obtain ⟨hpatched, -⟩ := computePatches_spec hpatches [] rfl
  unfold writeTransfers at hlist
  simp only [bind_eq_bind, bind_eq_some_iff] at hlist
  obtain ⟨st, hfold, hlist⟩ := hlist
  rw [← some.inj hlist]
  exact (foldlM_writeTransfer_account hpatched (planned_of_safe hsrc hsafe) hclear
    (fun h => Iff.rfl) ⟨rfl, fun name n hget => by cases hget⟩ ⟨le_rfl, withinBudget_nil⟩
    hfold).append_finalCommands tgt

end

end ShieldTv.Releasetools.BlockImageDiff
