import ShieldTv.Releasetools.Proofs.SourceWords

/-!
# The commands of a transfer

`ComputePatches` and the loop of `WriteTransfers` in version 3.  For each
transfer the writer adds one segment to the list: the stashes that are needed
from there on, at most one command, and the stashes that are not needed any
more.  Every command of a segment is `Sound` for the two images it was made
for, and its stashes are held when it is reached.
-/

namespace ShieldTv.Releasetools.BlockImageDiff

open Lib Lib.Text Lib.Fallible List Releasetools.RangeLib
open Option hiding mem_map

/-! ## What a command reads, writes and refers to -/

namespace Command

def target : Command → RangeSet
  | .stash _ _ | .free _ => RangeSet.empty
  | .new tgt | .zero tgt | .erase tgt => tgt
  | .move _ tgt _ | .diff _ _ _ _ tgt _ => tgt

/-- The blocks that a command reads from the partition as its source. -/
def reads : Command → RangeSet
  | .stash _ src => src
  | .move _ _ source | .diff _ _ _ _ _ source => source.direct
  | .free _ | .new _ | .zero _ | .erase _ => RangeSet.empty

/-- The names of the stashes that a command refers to. -/
def refs : Command → List Word
  | .move _ _ source | .diff _ _ _ _ _ source => source.refs.map Prod.fst
  | .stash _ _ | .free _ | .new _ | .zero _ | .erase _ => []

def hold (held : Finset Word) : Command → Finset Word
  | .stash id _ => insert id held
  | .free id => held.erase id
  | .new _ | .zero _ | .erase _ | .move _ _ _ | .diff _ _ _ _ _ _ => held

end Command

def heldAfter (commands : List Command) : Finset Word := commands.foldl Command.hold ∅

theorem heldAfter_append (xs ys : List Command) :
    heldAfter (xs ++ ys) = ys.foldl Command.hold (heldAfter xs) := foldl_append

variable {B : Type} [Zero B]

def Command.newData (tgt : Image B) : Command → List B
  | .new r => tgt.readRangeSet r
  | .stash _ _ | .free _ | .zero _ | .erase _ | .move _ _ _ | .diff _ _ _ _ _ _ => []

/-! ## Sound commands -/

section

variable (codec : Codec B) (src tgt : Image B) (patchData : Bytes)

/-- The two kinds of commands that produce `tgtRanges` from a source. -/
inductive TransferForm (srcRanges tgtRanges : RangeSet) (source : Source) : Command → Prop
  | move (hdata : src.readRangeSet srcRanges = tgt.readRangeSet tgtRanges) :
      TransferForm srcRanges tgtRanges source
        (.move [codec.sha1 (tgt.readRangeSet tgtRanges)] tgtRanges source)
  | diff (imgdiff : Bool) (start len : Nat) (hlen : start + len ≤ patchData.length)
      (hpatch : (patchData.drop start).take len =
        codec.computePatch imgdiff (src.readRangeSet srcRanges) (tgt.readRangeSet tgtRanges)) :
      TransferForm srcRanges tgtRanges source
        (.diff imgdiff start len
          [codec.sha1 (src.readRangeSet srcRanges), codec.sha1 (tgt.readRangeSet tgtRanges)]
          tgtRanges source)

/-- A `move` or a diff from `srcRanges`, of which the `parts` were stashed, to
`tgtRanges`. -/
structure IsTransfer (srcRanges tgtRanges : RangeSet) (source : Source)
    (parts : List (Word × RangeSet)) (command : Command) : Prop where
  form : TransferForm codec src tgt patchData srcRanges tgtRanges source command
  assembles : Assembles srcRanges source parts
  part_name : ∀ part ∈ parts, part.1 = codec.sha1 (src.readRangeSet part.2)
  src_subset : srcRanges.toSet ⊆ src.careMap.toSet
  src_nonempty : srcRanges.toSet.Nonempty
  tgt_canonical : tgtRanges.Canonical
  tgt_subset : tgtRanges.toSet ⊆ tgt.careMap.toSet
  tgt_nonempty : tgtRanges.toSet.Nonempty

/-- A command that is right for the images it was emitted for. -/
inductive Sound : Command → Prop
  | stash {r : RangeSet} (hr : r.Canonical) (hne : r.toSet.Nonempty)
      (hsub : r.toSet ⊆ src.careMap.toSet) : Sound (.stash (codec.sha1 (src.readRangeSet r)) r)
  | free (data : List B) : Sound (.free (codec.sha1 data))
  | new {r : RangeSet} (hr : r.Canonical) (hne : r.toSet.Nonempty)
      (hsub : r.toSet ⊆ tgt.careMap.toSet) : Sound (.new r)
  | zero {r : RangeSet} (hr : r.Canonical)
      (hbounds : ∀ b ∈ r.toSet, 0 ≤ b ∧ b < tgt.totalBlocks)
      (hzero : ∀ b ∈ r.toSet, b ∈ tgt.careMap.toSet → tgt.block b = 0) : Sound (.zero r)
  | erase {r : RangeSet} (hr : r.Canonical)
      (hbounds : ∀ b ∈ r.toSet, 0 ≤ b ∧ b < tgt.totalBlocks)
      (hcare : Disjoint r.toSet tgt.careMap.toSet) : Sound (.erase r)
  | transfer {srcRanges tgtRanges : RangeSet} {source : Source} {parts : List (Word × RangeSet)}
      {command : Command}
      (h : IsTransfer codec src tgt patchData srcRanges tgtRanges source parts command) :
      Sound command

/-! ## `ComputePatches` -/

/-- A transfer and what `ComputePatches` makes of it. -/
structure PatchedFrom (xf : StashedTransfer) (patched : PatchedTransfer) : Prop where
  same : patched.toStashedTransfer = { xf with style := patched.style }
  zero : patched.style = .zero → xf.style = .zero
  move : patched.style = .move →
    src.readRangeSet patched.srcRanges = tgt.readRangeSet patched.tgtRanges
  diff : patched.style = .bsdiff ∨ patched.style = .imgdiff →
    patched.patchStart + patched.patchLen ≤ patchData.length ∧
    (patchData.drop patched.patchStart).take patched.patchLen =
      codec.computePatch (decide (patched.style = .imgdiff)) (src.readRangeSet patched.srcRanges)
        (tgt.readRangeSet patched.tgtRanges)

end

def transferNewData (tgt : Image B) (xf : PatchedTransfer) : List B :=
  if xf.style = .new then tgt.readRangeSet xf.tgtRanges else []

section

variable {codec : Codec B} {src tgt : Image B} {stash : Nat × RangeSet}
  {stashes : List (Nat × RangeSet)} {xf : StashedTransfer} {srcRanges : RangeSet}
  {patches : Patches B} {sh : Word}

/-- One round of the loop: the patched transfer, and the patch if it has one. -/
theorem computePatches_cons {p : Nat} {xfs : List StashedTransfer}
    (h : computePatches codec src tgt p (xf :: xfs) = some patches) :
    ∃ patched patch rest, computePatches codec src tgt (p + patch.length) xfs = some rest ∧
      patches = { transfers := patched :: rest.transfers
                  newData := transferNewData tgt patched ++ rest.newData
                  patchData := patch ++ rest.patchData } ∧
      ∀ before after : Bytes, before.length = p →
        PatchedFrom codec src tgt (before ++ (patch ++ after)) xf patched := by
  unfold computePatches at h
  cases hstyle : xf.style with
  | zero | new =>
    simp only [hstyle, bind_eq_bind, bind_eq_some_iff] at h
    obtain ⟨rest, hrest, h⟩ := h
    cases h
    refine ⟨_, [], rest, by simpa using hrest, rfl, fun before after _ => ?_⟩
    constructor <;> simp [hstyle]
  | diff =>
    simp only [hstyle] at h
    generalize (xf.intact && isZipName xf.tgtName) = imgdiff at h
    by_cases hsame : codec.sha1 (src.readRangeSet xf.srcRanges) =
        codec.sha1 (tgt.readRangeSet xf.tgtRanges)
    · simp only [if_pos hsame, bind_eq_bind, bind_eq_some_iff] at h
      obtain ⟨rest, hrest, h⟩ := h
      cases h
      refine ⟨_, [], rest, by simpa using hrest, rfl, fun before after _ => ?_⟩
      constructor <;> simp [codec.sha1_injective hsame]
    · simp only [if_neg hsame, bind_eq_bind, bind_eq_some_iff] at h
      obtain ⟨rest, hrest, h⟩ := h
      cases h
      generalize hpatch : codec.computePatch imgdiff (src.readRangeSet xf.srcRanges)
        (tgt.readRangeSet xf.tgtRanges) = patch at hrest
      refine ⟨{ xf with
          style := if imgdiff then Style.imgdiff else Style.bsdiff
          patchStart := p
          patchLen := patch.length }, patch, rest, hrest, ?_, fun before after hbefore => ?_⟩
      · cases imgdiff <;> simp [transferNewData]
      · constructor
        · rfl
        · cases imgdiff <;> simp
        · cases imgdiff <;> simp
        · intro _
          refine ⟨by simp [hbefore], ?_⟩
          rw [← hbefore, drop_left, take_left, ← hpatch]
          cases imgdiff <;> simp
  | move | bsdiff | imgdiff => simp [hstyle] at h

theorem computePatches_spec {p : Nat} {plan : List StashedTransfer}
    (h : computePatches codec src tgt p plan = some patches) (before : Bytes)
    (hp : before.length = p) :
    Forall₂ (PatchedFrom codec src tgt (before ++ patches.patchData)) plan patches.transfers ∧
      patches.newData = patches.transfers.flatMap (transferNewData tgt) := by
  induction plan generalizing p patches before with
  | nil =>
    cases h
    exact ⟨.nil, rfl⟩
  | cons xf xfs ih =>
    obtain ⟨patched, patch, rest, hrest, rfl, hpatched⟩ := computePatches_cons h
    obtain ⟨hall, hnew⟩ := ih hrest (before ++ patch) (by simp [hp])
    rw [append_assoc] at hall
    exact ⟨.cons (hpatched before rest.patchData hp) hall, by simp [hnew]⟩

/-! ## One transfer in the writer's loop -/

/-- `stash_before` in version 3: only the first stash of some contents is
emitted. -/
theorem stashOne_cases {st st' : WriterState} (hsh : codec.sha1 (src.readRangeSet stash.2) = sh)
    (h : stashOne codec 3 src st stash = some st') :
    st'.total = st.total ∧ st'.maxStashedBlocks = st.maxStashedBlocks ∧
    st'.stashedBlocks = st.stashedBlocks + stash.2.size ∧
    ((∃ n, st.counts.get? sh = some n ∧ st'.counts = st.counts.set sh (n + 1) ∧ st'.out = st.out) ∨
      (st.counts.get? sh = none ∧ st'.counts = st.counts.set sh 1 ∧
        st'.out = st.out ++ [.stash sh stash.2])) := by
  have htake : ∀ st : WriterState, (takeStashId st).2.out = st.out ∧
      (takeStashId st).2.total = st.total ∧ (takeStashId st).2.counts = st.counts ∧
      (takeStashId st).2.stashedBlocks = st.stashedBlocks ∧
      (takeStashId st).2.maxStashedBlocks = st.maxStashedBlocks := by
    intro st
    unfold takeStashId
    split <;> exact ⟨rfl, rfl, rfl, rfl, rfl⟩
  obtain ⟨hout, htotal, hcounts, hblocks, hmax⟩ := htake st
  unfold stashOne at h
  simp only [hsh, hcounts, hblocks, show ¬((3 : Nat) = 2) by decide, if_false] at h
  split_ifs at h
  cases hget : st.counts.get? sh with
  | none =>
    simp only [hget] at h
    cases h
    exact ⟨htotal, hmax, rfl, .inr ⟨rfl, rfl, by rw [hout]⟩⟩
  | some n =>
    simp only [hget] at h
    cases h
    exact ⟨htotal, hmax, rfl, .inl ⟨n, rfl, rfl, hout⟩⟩

/-- `use_stash` in version 3: the last use of some contents frees them. -/
theorem useOne_cases {st st' : SourceState} (hsh : codec.sha1 (src.readRangeSet stash.2) = sh)
    (h : useOne codec 3 src srcRanges st stash = some st') :
    st'.writer.out = st.writer.out ∧ st'.writer.total = st.writer.total ∧
    st'.writer.maxStashedBlocks = st.writer.maxStashedBlocks ∧
    st'.writer.stashedBlocks = st.writer.stashedBlocks - stash.2.size ∧
    ∃ n, st.writer.counts.get? sh = some n ∧
      ((n = 1 ∧ st'.writer.counts = st.writer.counts.erase sh ∧
          st'.frees = st.frees ++ [.free sh]) ∨
        (n ≠ 1 ∧ st'.writer.counts = st.writer.counts.set sh (n - 1) ∧ st'.frees = st.frees)) := by
  unfold useOne at h
  simp only [hsh, bind_eq_bind, bind_eq_some_iff, show ¬((3 : Nat) = 2) by decide, if_false] at h
  obtain ⟨sid, -, mapped, -, n, hn, h⟩ := h
  split_ifs at h with hone
  · cases h
    exact ⟨rfl, rfl, rfl, rfl, n, hn, .inl ⟨hone, rfl, rfl⟩⟩
  · cases h
    exact ⟨rfl, rfl, rfl, rfl, n, hn, .inr ⟨hone, rfl, rfl⟩⟩

def WriterState.emit (st : WriterState) (command : Command) (size : Int) : WriterState :=
  { st with out := st.out ++ [command], total := st.total + size }

section

variable (codec : Codec B) (src tgt : Image B) (xf : PatchedTransfer) (source : Source)
  (st : WriterState)

/-- The command of a transfer in version 3, by style. -/
inductive WritesCommand : WriterState → Prop
  | new (hstyle : xf.style = .new) :
      WritesCommand (st.emit (.new xf.tgtRanges) xf.tgtRanges.size)
  | move (hstyle : xf.style = .move) :
      WritesCommand ((countOverlap 3 xf st).emit
        (.move [codec.sha1 (tgt.readRangeSet xf.tgtRanges)] xf.tgtRanges source)
        xf.tgtRanges.size)
  | unmoved (hstyle : xf.style = .move) (hsame : xf.srcRanges.data = xf.tgtRanges.data) :
      WritesCommand st
  | diff (hstyle : xf.style = .bsdiff ∨ xf.style = .imgdiff)
      (hsrc : xf.srcRanges.nonzero = true) :
      WritesCommand ((countOverlap 3 xf st).emit
        (.diff (decide (xf.style = .imgdiff)) xf.patchStart xf.patchLen
          [codec.sha1 (src.readRangeSet xf.srcRanges),
            codec.sha1 (tgt.readRangeSet xf.tgtRanges)] xf.tgtRanges source)
        xf.tgtRanges.size)
  | zero (hstyle : xf.style = .zero)
      (hzero : (xf.tgtRanges.subtract xf.srcRanges).nonzero = true) :
      WritesCommand (st.emit (.zero (xf.tgtRanges.subtract xf.srcRanges))
        (xf.tgtRanges.subtract xf.srcRanges).size)
  | unzeroed (hstyle : xf.style = .zero)
      (hzero : ¬(xf.tgtRanges.subtract xf.srcRanges).nonzero = true) : WritesCommand st

end

theorem writeCommand_cases {xf : PatchedTransfer} {source : Source} {st st' : WriterState}
    (h : writeCommand codec 3 src tgt xf source st = some st') :
    xf.tgtRanges.nonzero = true ∧ WritesCommand codec src tgt xf source st st' := by
  have htgt : xf.tgtRanges.nonzero = true := by
    by_contra htgt
    simp [writeCommand, htgt] at h
  refine ⟨htgt, ?_⟩
  unfold writeCommand at h
  simp only [htgt, Bool.not_true, Bool.false_eq_true, show ¬((3 : Nat) = 2) by decide,
    if_false] at h
  cases hstyle : xf.style with
  | zero =>
    simp only [hstyle] at h
    split_ifs at h with hzero
    · cases h
      exact .zero hstyle hzero
    · cases h
      exact .unzeroed hstyle hzero
  | new =>
    simp only [hstyle] at h
    cases h
    exact .new hstyle
  | move =>
    simp only [hstyle] at h
    split_ifs at h with hsize hsame
    · cases h
      exact .unmoved hstyle (by simpa [RangeSet.eq] using hsame)
    · cases h
      exact .move hstyle
  | bsdiff | imgdiff =>
    simp only [hstyle] at h
    split_ifs at h with hsrc
    cases h
    have hdiff : WritesCommand codec src tgt xf source st _ :=
      .diff (by simp [hstyle]) (by simpa using hsrc)
    rwa [hstyle] at hdiff
  | diff => simp [hstyle] at h

/-! ## Held stashes -/

/-- The writer's counts are those of the stashes that are held. -/
def Counted (st : WriterState) : Prop := ∀ h, h ∈ st.counts.keys ↔ h ∈ heldAfter st.out

theorem mem_keys_of_get? {d : OrderedDict Word Nat} {h : Word} {n : Nat}
    (hget : d.get? h = some n) : h ∈ d.keys := by
  by_contra hnot
  rw [(d.get?_eq_none_iff h).mpr hnot] at hget
  cases hget

theorem counted_stashOne {st st' : WriterState} (h : stashOne codec 3 src st stash = some st')
    (hcounted : Counted st) :
    Counted st' ∧ ∃ new, st'.out = st.out ++ new ∧
      ∀ c ∈ new, c = .stash (codec.sha1 (src.readRangeSet stash.2)) stash.2 := by
  obtain ⟨-, -, -, ⟨n, hget, hcounts, hout⟩ | ⟨hget, hcounts, hout⟩⟩ := stashOne_cases rfl h
  · refine ⟨fun h => ?_, [], by simp [hout]⟩
    rw [hcounts, OrderedDict.mem_keys_set, hout, ← hcounted h]
    exact or_iff_right_of_imp fun heq => heq ▸ mem_keys_of_get? hget
  · refine ⟨fun h => ?_, _, hout, by simp⟩
    rw [hcounts, OrderedDict.mem_keys_set, hout, heldAfter_append, hcounted h]
    exact Finset.mem_insert.symm

theorem foldlM_stashOne {st st' : WriterState}
    (h : stashes.foldlM (stashOne codec 3 src) st = some st') (hcounted : Counted st) :
    Counted st' ∧ st'.total = st.total ∧ ∃ new, st'.out = st.out ++ new ∧
      ∀ c ∈ new, ∃ stash ∈ stashes, c = .stash (codec.sha1 (src.readRangeSet stash.2)) stash.2 := by
  refine foldlM_invariant h ⟨hcounted, rfl, [], by simp⟩ fun stash hstash s s' hone hs => ?_
  obtain ⟨hcounted, htotal, new, hout, hnew⟩ := hs
  obtain ⟨hcounted', new', hout', hnew'⟩ := counted_stashOne hone hcounted
  refine ⟨hcounted', (stashOne_cases rfl hone).1.trans htotal, new ++ new', ?_, fun c hc => ?_⟩
  · rw [hout', hout, append_assoc]
  · exact (mem_append.mp hc).elim (hnew c) fun hc => ⟨stash, hstash, hnew' c hc⟩

/-- The stashes a transfer uses are counted before it, and what it frees is
not counted any more. -/
theorem foldlM_useOne_held {st st' : SourceState}
    (h : stashes.foldlM (useOne codec 3 src srcRanges) st = some st') :
    st'.writer.out = st.writer.out ∧ st'.writer.total = st.writer.total ∧
    (∀ stash ∈ stashes, codec.sha1 (src.readRangeSet stash.2) ∈ st.writer.counts.keys) ∧
    ∃ names : List Word, st'.frees = st.frees ++ names.map Command.free ∧
      (∀ name ∈ names, ∃ data, name = codec.sha1 data) ∧
      ∀ h, h ∈ st'.writer.counts.keys ↔ h ∈ st.writer.counts.keys ∧ h ∉ names := by
  induction stashes generalizing st with
  | nil =>
    cases h
    exact ⟨rfl, rfl, by simp, [], by simp⟩
  | cons stash stashes ih =>
    obtain ⟨st₁, hone, hrest⟩ := foldlM_cons_eq_some.mp h
    obtain ⟨hout, htotal, -, -, n, hget, hcase⟩ := useOne_cases rfl hone
    obtain ⟨hout', htotal', hmem', names, hfrees', hnames, hkeys'⟩ := ih hrest
    generalize hsh : codec.sha1 (src.readRangeSet stash.2) = sh at hget hcase
    have hmem := mem_keys_of_get? hget
    have hfreed : ∃ freed ⊆ [sh], st₁.frees = st.frees ++ freed.map Command.free ∧
        ∀ h, h ∈ st₁.writer.counts.keys ↔ h ∈ st.writer.counts.keys ∧ h ∉ freed := by
      rcases hcase with ⟨-, hcounts, hfrees⟩ | ⟨-, hcounts, hfrees⟩
      · refine ⟨[sh], Subset.refl _, hfrees, fun h => ?_⟩
        rw [hcounts, OrderedDict.mem_keys_erase, mem_singleton, and_comm]
      · refine ⟨[], nil_subset _, by simpa using hfrees, fun h => ?_⟩
        rw [hcounts, OrderedDict.mem_keys_set]
        simpa using fun heq => heq ▸ hmem
    obtain ⟨freed, hsub, hfrees, hkeys⟩ := hfreed
    refine ⟨hout'.trans hout, htotal'.trans htotal, ?_, freed ++ names, ?_, ?_, fun h => ?_⟩
    · exact forall_mem_cons.mpr ⟨hsh ▸ hmem, fun s hs => ((hkeys _).mp (hmem' s hs)).1⟩
    · rw [hfrees', hfrees, map_append, append_assoc]
    · refine forall_mem_append.mpr ⟨fun name hname => ⟨src.readRangeSet stash.2, ?_⟩, hnames⟩
      exact hsh ▸ mem_singleton.mp (hsub hname)
    · rw [hkeys', hkeys, mem_append, not_or, and_assoc]

theorem mem_foldl_hold_free (names : List Word) (held : Finset Word) (h : Word) :
    h ∈ (names.map Command.free).foldl Command.hold held ↔ h ∈ held ∧ h ∉ names := by
  induction names generalizing held with
  | nil => simp
  | cons name names ih =>
    simp only [map_cons, foldl_cons, ih, Command.hold, Finset.mem_erase, mem_cons, not_or]
    tauto

/-! ## The commands of one transfer -/

structure PlannedTransfer (src tgt : Image B) (xf : StashedTransfer) : Prop where
  tgt_canonical : xf.tgtRanges.Canonical
  tgt_subset : xf.tgtRanges.toSet ⊆ tgt.careMap.toSet
  src_canonical : xf.srcRanges.Canonical
  src_subset : xf.srcRanges.toSet ⊆ src.careMap.toSet
  zero : xf.style = .zero →
    (∀ b ∈ xf.tgtRanges.toSet, tgt.block b = 0) ∧ ∀ b ∈ xf.srcRanges.toSet, src.block b = 0
  use : ∀ stash ∈ xf.useStash, stash.2.Canonical ∧ stash.2.toSet ⊆ xf.srcRanges.toSet
  before : ∀ stash ∈ xf.stashBefore,
    stash.2.Canonical ∧ stash.2.toSet.Nonempty ∧ stash.2.toSet ⊆ src.careMap.toSet

theorem PatchedFrom.planned {patchData : Bytes} {patched : PatchedTransfer}
    (h : PatchedFrom codec src tgt patchData xf patched) (hxf : PlannedTransfer src tgt xf) :
    PlannedTransfer src tgt patched.toStashedTransfer := by
  rw [h.same]
  exact { hxf with zero := fun hstyle => hxf.zero (h.zero hstyle) }

section

variable (codec : Codec B) (src tgt : Image B) (patchData : Bytes) (xf : StashedTransfer)

structure InSegment (c : Command) : Prop where
  sound : Sound codec src tgt patchData c
  target : c.target.toSet ⊆ xf.tgtRanges.toSet
  reads : ∀ b ∈ c.reads.toSet,
    (b ∈ xf.srcRanges.toSet ∧ ∀ stash ∈ xf.useStash, b ∉ stash.2.toSet) ∨
      ∃ stash ∈ xf.stashBefore, b ∈ stash.2.toSet

structure Segment (newData : List B) (segment : List Command) : Prop where
  commands : ∀ c ∈ segment, InSegment codec src tgt patchData xf c
  order : segment.Pairwise fun c d =>
    c.target.toSet = ∅ ∨ d.target.toSet = ∅ ∧ d.reads.toSet = ∅
  newData : segment.flatMap (Command.newData tgt) = newData
  covers : ∀ b ∈ xf.tgtRanges.toSet, (∃ c ∈ segment, b ∈ c.target.toSet) ∨
    b ∈ src.careMap.toSet ∧ src.block b = tgt.block b

/-- A command that only keeps or drops a stash. -/
structure Idle (c : Command) : Prop where
  target : c.target = RangeSet.empty
  refs : c.refs = []
  newData : c.newData tgt = []

end

theorem Idle.toSet_target {c : Command} (h : Idle tgt c) : c.target.toSet = ∅ := by
  rw [h.target, toSet_empty]

theorem block_eq_of_read {r s : RangeSet} (hdata : r.data = s.data)
    (h : src.readRangeSet r = tgt.readRangeSet s) {b : Int} (hb : b ∈ s.toSet) :
    b ∈ r.toSet ∧ src.block b = tgt.block b := by
  have hblocks : r.blocks = s.blocks := by
    unfold RangeSet.blocks RangeSet.ranges
    rw [hdata]
  have hmem := (RangeSet.mem_blocks s b).mpr hb
  refine ⟨(RangeSet.mem_blocks r b).mp (hblocks ▸ hmem), ?_⟩
  unfold Image.readRangeSet at h
  rw [hblocks] at h
  exact map_inj_left.mp h b hmem

variable {patchData : Bytes} {plan : StashedTransfer} {xf : PatchedTransfer} {source : Source}
  {parts : List (Word × RangeSet)} {st st' : WriterState} {held : Finset Word}

section

variable (codec src tgt patchData) (xf source)

structure Commands (c : Command) : Prop where
  sound : Sound codec src tgt patchData c
  target : c.target.toSet ⊆ xf.tgtRanges.toSet
  reads : c.reads = source.direct ∨ c.reads = RangeSet.empty
  refs : c.refs ⊆ source.refs.map Prod.fst
  hold : ∀ held, c.hold held = held

structure Commanded (command : Option Command) : Prop where
  commands : ∀ c ∈ command, Commands codec src tgt patchData xf source c
  newData : command.toList.flatMap (Command.newData tgt) = transferNewData tgt xf
  covers : ∀ b ∈ xf.tgtRanges.toSet, (∃ c ∈ command, b ∈ c.target.toSet) ∨
    b ∈ src.careMap.toSet ∧ src.block b = tgt.block b

end

section

variable (hpatched : PatchedFrom codec src tgt patchData plan xf)
  (hxf : PlannedTransfer src tgt xf.toStashedTransfer)
  (hparts : Assembles xf.srcRanges source parts)
  (hname : ∀ part ∈ parts, part.1 = codec.sha1 (src.readRangeSet part.2))
  (htgt : xf.tgtRanges.nonzero = true)

include hxf hparts hname htgt in
theorem commanded_transfer (hsrc : xf.srcRanges.toSet.Nonempty) (hnew : xf.style ≠ .new)
    {command : Command}
    (hform : TransferForm codec src tgt patchData xf.srcRanges xf.tgtRanges source command) :
    Commanded codec src tgt patchData xf source (some command) := by
  have hsound : Sound codec src tgt patchData command :=
    .transfer { form := hform, assembles := hparts, part_name := hname, src_nonempty := hsrc
                src_subset := hxf.src_subset, tgt_canonical := hxf.tgt_canonical
                tgt_subset := hxf.tgt_subset
                tgt_nonempty := (nonzero_iff hxf.tgt_canonical).mp htgt }
  have hnone : transferNewData tgt xf = [] := if_neg hnew
  cases hform <;> refine ⟨?_, hnone.symm, fun b hb => .inl ⟨_, rfl, hb⟩⟩ <;> rintro c ⟨⟩
  all_goals exact ⟨hsound, subset_rfl, .inl rfl, Subset.refl _, fun _ => rfl⟩

omit hpatched hxf hparts hname htgt in
theorem commanded_none (hnew : xf.style ≠ .new)
    (hcovers : ∀ b ∈ xf.tgtRanges.toSet, b ∈ src.careMap.toSet ∧ src.block b = tgt.block b) :
    Commanded codec src tgt patchData xf source none :=
  ⟨nofun, (if_neg hnew).symm, fun b hb => .inr (hcovers b hb)⟩

include hxf in
theorem emit_countOverlap (command : Command) (hcommand : command.target = xf.tgtRanges) :
    ((countOverlap 3 xf st).emit command xf.tgtRanges.size).out = st.out ++ [command] ∧
    ((countOverlap 3 xf st).emit command xf.tgtRanges.size).counts = st.counts ∧
    ((countOverlap 3 xf st).emit command xf.tgtRanges.size).total =
      st.total + (([command].flatMap fun c => c.target.blocks).length : Int) := by
  have hsize := RangeSet.size_eq_length_blocks hxf.tgt_canonical
  unfold countOverlap WriterState.emit
  split_ifs <;> exact ⟨rfl, rfl, by simp [hcommand, hsize]⟩

include hpatched hxf hparts hname htgt in
theorem commanded_of_writesCommand (h : WritesCommand codec src tgt xf source st st') :
    ∃ command : Option Command, st'.out = st.out ++ command.toList ∧ st'.counts = st.counts ∧
      st'.total = st.total + ((command.toList.flatMap fun c => c.target.blocks).length : Int) ∧
      Commanded codec src tgt patchData xf source command := by
  have hne := (nonzero_iff hxf.tgt_canonical).mp htgt
  have hsub := RangeSet.subtract_canonical hxf.tgt_canonical hxf.src_canonical
  have hmem : ∀ b, b ∈ (xf.tgtRanges.subtract xf.srcRanges).toSet ↔
      b ∈ xf.tgtRanges.toSet ∧ b ∉ xf.srcRanges.toSet := by
    intro b
    rw [RangeSet.toSet_subtract hxf.tgt_canonical hxf.src_canonical]
    exact Iff.rfl
  -- zeros of the source image are left where they are
  have hzeros : xf.style = .zero → ∀ b ∈ xf.tgtRanges.toSet, b ∈ xf.srcRanges.toSet →
      b ∈ src.careMap.toSet ∧ src.block b = tgt.block b := fun hstyle b hb hb' =>
    ⟨hxf.src_subset hb', ((hxf.zero hstyle).2 b hb').trans ((hxf.zero hstyle).1 b hb).symm⟩
  cases h with
  | new hstyle =>
    refine ⟨some (.new xf.tgtRanges), rfl, rfl, by simp [WriterState.emit, Command.target,
        RangeSet.size_eq_length_blocks hxf.tgt_canonical], ?_, ?_, ?_⟩
    · rintro c ⟨⟩
      exact ⟨.new hxf.tgt_canonical hne hxf.tgt_subset, subset_rfl, .inr rfl, nil_subset _,
        fun _ => rfl⟩
    · simp [Command.newData, transferNewData, hstyle]
    · exact fun b hb => .inl ⟨_, rfl, hb⟩
  | move hstyle =>
    obtain ⟨hout, hcounts, htotal⟩ := emit_countOverlap hxf
      (.move [codec.sha1 (tgt.readRangeSet xf.tgtRanges)] xf.tgtRanges source) rfl
    have hread := hpatched.move hstyle
    refine ⟨some _, hout, hcounts, htotal,
      commanded_transfer hxf hparts hname htgt ?_ (by simp [hstyle]) (.move hread)⟩
    obtain ⟨b, hb⟩ := hne
    have hlen := congrArg List.length hread
    simp only [Image.readRangeSet, length_map] at hlen
    have hpos := length_pos_of_mem ((RangeSet.mem_blocks _ _).mpr hb)
    obtain ⟨a, ha⟩ := exists_mem_of_length_pos (hlen ▸ hpos)
    exact ⟨a, (RangeSet.mem_blocks _ _).mp ha⟩
  | unmoved hstyle hsame =>
    refine ⟨none, by simp, rfl, by simp, commanded_none (by simp [hstyle]) fun b hb => ?_⟩
    obtain ⟨hb', heq⟩ := block_eq_of_read hsame (hpatched.move hstyle) hb
    exact ⟨hxf.src_subset hb', heq⟩
  | diff hstyle hsrc =>
    obtain ⟨hlen, hpatch⟩ := hpatched.diff hstyle
    obtain ⟨hout, hcounts, htotal⟩ := emit_countOverlap hxf
      (.diff (decide (xf.style = .imgdiff)) xf.patchStart xf.patchLen
          [codec.sha1 (src.readRangeSet xf.srcRanges),
            codec.sha1 (tgt.readRangeSet xf.tgtRanges)] xf.tgtRanges source) rfl
    refine ⟨some _, hout, hcounts, htotal, commanded_transfer hxf hparts hname htgt
      ((nonzero_iff hxf.src_canonical).mp hsrc) ?_ (.diff _ _ _ hlen hpatch)⟩
    rcases hstyle with h | h <;> simp [h]
  | zero hstyle hzero =>
    refine ⟨some (.zero (xf.tgtRanges.subtract xf.srcRanges)), rfl, rfl, by simp [WriterState.emit,
      Command.target, RangeSet.size_eq_length_blocks hsub], ?_, ?_, fun b hb => ?_⟩
    · have hin : ∀ b ∈ (xf.tgtRanges.subtract xf.srcRanges).toSet, b ∈ xf.tgtRanges.toSet :=
        fun b hb => ((hmem b).mp hb).1
      rintro c ⟨⟩
      refine ⟨.zero hsub (fun b hb => ?_) fun b hb _ => (hxf.zero hstyle).1 b (hin b hb), hin,
        .inr rfl, nil_subset _, fun _ => rfl⟩
      exact tgt.careMap_bounds b ((RangeSet.mem_blocks _ _).mpr (hxf.tgt_subset (hin b hb)))
    · simp [Command.newData, transferNewData, hstyle]
    · by_cases hb' : b ∈ xf.srcRanges.toSet
      · exact .inr (hzeros hstyle b hb hb')
      · exact .inl ⟨_, rfl, (hmem b).mpr ⟨hb, hb'⟩⟩
  | unzeroed hstyle hzero =>
    refine ⟨none, by simp, rfl, by simp, commanded_none (by simp [hstyle]) fun b hb => ?_⟩
    apply hzeros hstyle b hb
    by_contra hb'
    exact hzero ((nonzero_iff hsub).mpr ⟨b, (hmem b).mpr ⟨hb, hb'⟩⟩)

end

theorem writeTransfer_cases (h : writeTransfer codec 3 src tgt st xf = some st') :
    ∃ st₁ used source st₃, xf.stashBefore.foldlM (stashOne codec 3 src) st = some st₁ ∧
      xf.useStash.foldlM (useOne codec 3 src xf.srcRanges) (SourceState.init
          { st₁ with maxStashedBlocks := max st₁.maxStashedBlocks st₁.stashedBlocks }
          xf.srcRanges) = some used ∧
      buildSource xf.toStashedTransfer used = some source ∧
      writeCommand codec 3 src tgt xf source used.writer = some st₃ ∧
      st' = { st₃ with out := st₃.out ++ used.frees } ∧
      st'.maxStashedBlocks * 4096 < 512 * 2 ^ 20 := by
  unfold writeTransfer at h
  simp only [bind_eq_bind, bind_eq_some_iff] at h
  obtain ⟨st₁, hstash, used, huse, source, hsource, st₃, hcommand, h⟩ := h
  split_ifs at h with hmax
  cases h
  exact ⟨st₁, used, source, st₃, hstash, huse, hsource, hcommand, rfl, hmax⟩

/-- The references of each command are held when it is reached. -/
def RefsHeld (held : Finset Word) : List Command → Prop
  | [] => True
  | c :: rest => (∀ ref ∈ c.refs, ref ∈ held) ∧ RefsHeld (c.hold held) rest

theorem refsHeld_append {xs ys : List Command} :
    RefsHeld held (xs ++ ys) ↔ RefsHeld held xs ∧ RefsHeld (xs.foldl Command.hold held) ys := by
  induction xs generalizing held with
  | nil => simp [RefsHeld]
  | cons c xs ih => simp [RefsHeld, ih, and_assoc]

theorem refsHeld_of_refs_nil {xs : List Command} (h : ∀ c ∈ xs, c.refs = []) :
    RefsHeld held xs := by
  induction xs generalizing held with
  | nil => trivial
  | cons c xs ih =>
    exact ⟨by simp [h c (by simp)], ih fun d hd => h d (by simp [hd])⟩

/-- Stashes, then the command, then what it frees. -/
theorem Commanded.segment {command : Option Command} {stashes frees : List Command}
    (hcommand : Commanded codec src tgt patchData xf source command)
    (hxf : PlannedTransfer src tgt xf.toStashedTransfer)
    (hdirect : ∀ b ∈ source.direct.toSet,
      b ∈ xf.srcRanges.toSet ∧ ∀ stash ∈ xf.useStash, b ∉ stash.2.toSet)
    (hstashes : ∀ c ∈ stashes, ∃ stash ∈ xf.stashBefore,
      c = .stash (codec.sha1 (src.readRangeSet stash.2)) stash.2)
    (hfrees : ∀ c ∈ frees, ∃ data, c = .free (codec.sha1 data))
    (hkeep : ∀ c ∈ stashes, Idle tgt c) (hdrop : ∀ c ∈ frees, Idle tgt c) :
    Segment codec src tgt patchData xf.toStashedTransfer (transferNewData tgt xf)
      (stashes ++ (command.toList ++ frees)) := by
  have hempty : ∀ b, b ∉ RangeSet.empty.toSet := by simp [toSet_empty]
  constructor
  · intro c hc
    simp only [mem_append] at hc
    rcases hc with hc | hc | hc
    · obtain ⟨stash, hstash, rfl⟩ := hstashes c hc
      obtain ⟨hcanonical, hne, hsub⟩ := hxf.before stash hstash
      exact ⟨.stash hcanonical hne hsub, fun b hb => absurd hb (hempty b),
        fun b hb => .inr ⟨stash, hstash, hb⟩⟩
    · have hc := hcommand.commands c (mem_toList.mp hc)
      refine ⟨hc.sound, hc.target, fun b hb => ?_⟩
      rcases hc.reads with hreads | hreads
      · exact .inl (hdirect b (hreads ▸ hb))
      · exact absurd (hreads ▸ hb) (hempty b)
    · obtain ⟨data, rfl⟩ := hfrees c hc
      exact ⟨.free data, fun b hb => absurd hb (hempty b), fun b hb => absurd hb (hempty b)⟩
  · -- at most one command has a target, and only frees come after it
    refine pairwise_append.mpr ⟨?_, pairwise_append.mpr ⟨?_, ?_, ?_⟩, ?_⟩
    · exact pairwise_of_forall_mem_list fun c hc d _ => .inl (hkeep c hc).toSet_target
    · cases command <;> simp
    · exact pairwise_of_forall_mem_list fun c hc d _ => .inl (hdrop c hc).toSet_target
    · intro c _ d hd
      obtain ⟨data, rfl⟩ := hfrees d hd
      exact .inr ⟨toSet_empty, toSet_empty⟩
    · exact fun c hc d _ => .inl (hkeep c hc).toSet_target
  · rw [flatMap_append, flatMap_append, flatMap_eq_nil_iff.mpr fun c hc => (hkeep c hc).newData,
      flatMap_eq_nil_iff.mpr fun c hc => (hdrop c hc).newData, hcommand.newData]
    simp
  · intro b hb
    rcases hcommand.covers b hb with ⟨c, hc, hb⟩ | h
    · exact .inl ⟨c, by simp [Option.mem_def.mp hc], hb⟩
    · exact .inr h

theorem writeTransfer_segment (hpatched : PatchedFrom codec src tgt patchData plan xf)
    (hxf : PlannedTransfer src tgt xf.toStashedTransfer) (hcounted : Counted st)
    (h : writeTransfer codec 3 src tgt st xf = some st') :
    Counted st' ∧ st'.maxStashedBlocks * 4096 < 512 * 2 ^ 20 ∧
    ∃ segment, st'.out = st.out ++ segment ∧
      st'.total = st.total + ((segment.flatMap fun c => c.target.blocks).length : Int) ∧
      RefsHeld (heldAfter st.out) segment ∧
      Segment codec src tgt patchData xf.toStashedTransfer (transferNewData tgt xf) segment := by
  obtain ⟨st₁, used, source, st₃, hstash, huse, hsource, hcommand, rfl, hmax⟩ :=
    writeTransfer_cases h
  obtain ⟨hcounted₁, htotal₁, stashes, hout₁, hstashes⟩ := foldlM_stashOne hstash hcounted
  obtain ⟨hout₂, htotal₂, hused, names, hfrees, hnames, hkeys⟩ := foldlM_useOne_held huse
  have hparts := assembles_of_buildSource hxf.src_canonical hxf.use huse hsource
  obtain ⟨-, hdirect, hrefs, -⟩ := buildSource_eq hsource
  have hall := foldlM_useOne_refs huse
  obtain ⟨htgt, hwrites⟩ := writeCommand_cases hcommand
  have hname : ∀ part ∈ sourceParts source.refs xf.useStash,
      part.1 = codec.sha1 (src.readRangeSet part.2) := by
    intro part hpart
    obtain ⟨ref, stash, -, ⟨⟨sid, hsid⟩, -⟩, rfl⟩ := of_mem_sourceParts (hrefs ▸ hall) hpart
    exact hsid
  obtain ⟨command, hout₃, hcounts₃, htotal₃, hcommanded⟩ :=
    commanded_of_writesCommand hpatched hxf hparts hname htgt hwrites
  have hhold : ∀ held, command.toList.foldl Command.hold held = held := by
    cases command with
    | none => exact fun _ => rfl
    | some c => exact (hcommanded.commands c rfl).hold
  have hfreed : ∀ c ∈ names.map Command.free, ∃ data, c = .free (codec.sha1 data) :=
    forall_mem_map.mpr fun name hname => (hnames name hname).imp fun _ => congrArg _
  have hkeep : ∀ c ∈ stashes, Idle tgt c := by
    intro c hc
    obtain ⟨stash, -, rfl⟩ := hstashes c hc
    exact ⟨rfl, rfl, rfl⟩
  have hdrop : ∀ c ∈ names.map Command.free, Idle tgt c :=
    forall_mem_map.mpr fun name _ => ⟨rfl, rfl, rfl⟩
  have hblocks : ∀ {cs : List Command}, (∀ c ∈ cs, Idle tgt c) →
      (cs.flatMap fun c => c.target.blocks) = [] := fun h =>
    flatMap_eq_nil_iff.mpr fun c hc => congrArg RangeSet.blocks (h c hc).target
  have hout : st₃.out ++ used.frees =
      st.out ++ (stashes ++ (command.toList ++ names.map Command.free)) := by
    rw [hout₃, hout₂, hfrees]
    simp [SourceState.init, hout₁]
  refine ⟨?_, hmax, stashes ++ (command.toList ++ names.map Command.free), hout, ?_, ?_, ?_⟩
  · intro h
    rw [hout, ← append_assoc, ← hout₁, heldAfter_append, foldl_append, hhold,
      mem_foldl_hold_free, hcounts₃, hkeys, ← hcounted₁]
    rfl
  · rw [htotal₃, htotal₂, flatMap_append, flatMap_append, hblocks hkeep, hblocks hdrop]
    simp [SourceState.init, htotal₁]
  · rw [refsHeld_append, refsHeld_append]
    refine ⟨refsHeld_of_refs_nil fun c hc => (hkeep c hc).refs, ?_,
      refsHeld_of_refs_nil fun c hc => (hdrop c hc).refs⟩
    rw [← heldAfter_append, ← hout₁]
    cases command with
    | none => trivial
    | some c =>
      refine ⟨fun ref href => ?_, trivial⟩
      obtain ⟨pair, hpair, rfl⟩ := mem_map.mp ((hcommanded.commands c rfl).refs href)
      obtain ⟨stash, hstash, ⟨sid, hsid⟩, -⟩ := exists_right_of_forall₂ (hrefs ▸ hall) hpair
      rw [hsid]
      exact (hcounted₁ _).mp (hused stash hstash)
  · refine hcommanded.segment hxf (fun b hb => ?_) hstashes hfreed hkeep hdrop
    rw [hdirect] at hb
    exact ((mem_unstashed hxf.src_canonical hxf.use huse).2 b).mp hb

/-! ## All transfers -/

theorem writeTransfer_max_nonneg (h : writeTransfer codec 3 src tgt st xf = some st')
    (hst : 0 ≤ st.maxStashedBlocks) : 0 ≤ st'.maxStashedBlocks := by
  obtain ⟨st₁, used, source, st₃, hstash, huse, -, hcommand, rfl, -⟩ := writeTransfer_cases h
  have h₁ : 0 ≤ st₁.maxStashedBlocks := by
    refine foldlM_invariant hstash hst fun _ _ _ _ hone h => ?_
    rwa [(stashOne_cases rfl hone).2.1]
  have h₂ : 0 ≤ used.writer.maxStashedBlocks := by
    refine foldlM_invariant huse (le_max_of_le_left h₁) fun _ _ _ _ hone h => ?_
    rwa [(useOne_cases rfl hone).2.2.1]
  have h₃ : 0 ≤ (countOverlap 3 xf used.writer).maxStashedBlocks := by
    unfold countOverlap
    split_ifs
    · exact le_max_of_le_left h₂
    · exact h₂
  cases (writeCommand_cases hcommand).2 with
  | new | unmoved | zero | unzeroed => exact h₂
  | move | diff => exact h₃

/-- A segment does not depend on the style that `ComputePatches` chose. -/
theorem Segment.of_patched {newData : List B} {segment : List Command}
    (hpatched : PatchedFrom codec src tgt patchData plan xf)
    (h : Segment codec src tgt patchData xf.toStashedTransfer newData segment) :
    Segment codec src tgt patchData plan newData segment := by
  rw [hpatched.same] at h
  exact { h with commands := fun c hc => { h.commands c hc with } }

theorem foldlM_writeTransfer {plan : List StashedTransfer} {xfs : List PatchedTransfer}
    (hpatched : Forall₂ (PatchedFrom codec src tgt patchData) plan xfs)
    (hplan : ∀ xf ∈ plan, PlannedTransfer src tgt xf) (hcounted : Counted st)
    (hmax : st.maxStashedBlocks * 4096 < 512 * 2 ^ 20)
    (h : xfs.foldlM (writeTransfer codec 3 src tgt) st = some st') :
    st'.maxStashedBlocks * 4096 < 512 * 2 ^ 20 ∧
    ∃ segments : List (List Command), st'.out = st.out ++ segments.flatten ∧ st'.total =
        st.total + ((segments.flatten.flatMap fun c => c.target.blocks).length : Int) ∧
      RefsHeld (heldAfter st.out) segments.flatten ∧
      segments.flatten.flatMap (Command.newData tgt) = xfs.flatMap (transferNewData tgt) ∧
      Forall₂ (fun xf segment => ∃ newData, Segment codec src tgt patchData xf newData segment)
        plan segments := by
  induction hpatched generalizing st with
  | nil =>
    cases h
    exact ⟨hmax, [], by simp, by simp, trivial, rfl, .nil⟩
  | @cons xf patched plan xfs hhead hrest ih =>
    obtain ⟨st₁, hone, h⟩ := foldlM_cons_eq_some.mp h
    obtain ⟨hcounted₁, hmax₁, segment, hout₁, htotal₁, hrefs₁, hsegment⟩ :=
      writeTransfer_segment hhead (hhead.planned (hplan xf (by simp))) hcounted hone
    obtain ⟨hmax', segments, hout, htotal, hrefs, hnew, hall⟩ :=
      ih (fun xf hxf => hplan xf (by simp [hxf])) hcounted₁ hmax₁ h
    rw [hout₁, heldAfter_append] at hrefs
    refine ⟨hmax', segment :: segments, ?_, ?_, ?_, ?_, .cons ⟨_, hsegment.of_patched hhead⟩ hall⟩
    · rw [hout, hout₁, append_assoc, flatten_cons]
    · rw [htotal, htotal₁, flatten_cons, flatMap_append, length_append]
      push_cast
      ring
    · rw [flatten_cons, refsHeld_append]
      exact ⟨hrefs₁, hrefs⟩
    · rw [flatten_cons, flatMap_append, flatMap_cons, hnew, hsegment.newData]

end

end ShieldTv.Releasetools.BlockImageDiff
