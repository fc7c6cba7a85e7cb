import ShieldTv.Releasetools.Proofs.Emission

/-!
# The emitted transfer list

What a version 3 transfer list promises the updater: no command writes what an
earlier one has written or a later one still reads, and the commands produce
every block of the target image that the source image does not already hold in
its place.  This is true of any list that `Compute` emits, whatever the images.
-/

namespace ShieldTv.Releasetools.BlockImageDiff

open Lib Lib.Text Lib.Fallible Option Releasetools.RangeLib
open List hiding Disjoint

section

variable {B : Type} [Zero B] {codec : Codec B} {src tgt : Image B} {patchData : Bytes}

/-! ## The plan -/

theorem mem_careMap_of_file (img : Image B)
    (hpartition : assertPartition img.careMap (img.fileMap.map Prod.snd) = true)
    {file : Name × RangeSet} (hfile : file ∈ img.fileMap) :
    file.2.toSet ⊆ img.careMap.toSet := by
  have hiff := (assertPartition_iff img.careMap_canonical (by
    intro r hr
    obtain ⟨file, hfile, rfl⟩ := mem_map.mp hr
    exact img.fileMap_canonical file hfile)).mp hpartition
  intro b hb
  exact (hiff.2 b).mpr ⟨file.2, mem_map_of_mem hfile, hb⟩

theorem file_subset (hsrc : assertPartition src.careMap (src.fileMap.map Prod.snd) = true)
    (fn : Name) : (src.file fn RangeSet.empty).toSet ⊆ src.careMap.toSet := by
  rcases file_cases src fn with h | h
  · rw [h, toSet_empty]
    exact Set.empty_subset _
  · exact mem_careMap_of_file src hsrc h

variable {plan : List StashedTransfer} {careMap : RangeSet} {ota : Ota B}

theorem planned_of_safe
    (hsrc : assertPartition src.careMap (src.fileMap.map Prod.snd) = true)
    (hsafe : SafeSequence tgt.careMap (findTransfers src tgt) plan) :
    ∀ xf ∈ plan, PlannedTransfer src tgt xf := by
  have hfind : ∀ xf ∈ plan, ∃ file ∈ tgt.fileMap,
      findTransfer src (abbreviateSourceNames src) file.1 file.2 = xf.toTransfer := fun xf hxf =>
    mem_map.mp (hsafe.perm.mem_iff.mp (mem_map_of_mem hxf))
  have hsub : ∀ xf ∈ plan, xf.srcRanges.toSet ⊆ src.careMap.toSet := by
    intro xf hxf
    obtain ⟨file, -, heq⟩ := hfind xf hxf
    obtain ⟨h, -⟩ | ⟨fn, h, -⟩ := (findTransfer_cases src heq).2
    · rw [h, toSet_empty]
      exact Set.empty_subset _
    · rw [h]
      exact file_subset hsrc fn
  intro xf hxf
  have huse : ∀ xf ∈ plan, ∀ stash ∈ xf.useStash, stash.2.toSet ⊆ xf.srcRanges.toSet := by
    intro xf hxf stash hstash
    obtain ⟨j, hj⟩ := getElem?_of_mem hxf
    exact (hsafe.use_stashed j xf hj stash hstash).1
  constructor
  · exact hsafe.tgt_canonical xf hxf
  · exact fun b hb => (hsafe.writes_all b).mpr ⟨xf, hxf, hb⟩
  · exact hsafe.src_canonical xf hxf
  · exact hsub xf hxf
  · intro hstyle
    obtain ⟨file, hfile, heq⟩ := hfind xf hxf
    obtain ⟨htgt, ⟨-, hnot⟩ | ⟨fn, hranges, hzero⟩⟩ := findTransfer_cases src heq
    · exact absurd hstyle hnot
    obtain ⟨hname, rfl⟩ := hzero hstyle
    rw [htgt, hranges]
    refine ⟨fun b hb => ?_, fun b hb => ?_⟩
    · exact tgt.zero_blocks file hfile hname b ((RangeSet.mem_blocks _ _).mpr hb)
    · rcases file_cases src zeroDomain with h | h
      · rw [h, toSet_empty] at hb
        exact absurd hb (Set.notMem_empty b)
      · exact src.zero_blocks _ h rfl b ((RangeSet.mem_blocks _ _).mpr hb)
  · exact fun stash hstash => ⟨hsafe.stash_canonical xf hxf stash hstash, huse xf hxf stash hstash⟩
  · intro stash hstash
    obtain ⟨i, hi⟩ := getElem?_of_mem hxf
    obtain ⟨j, user, -, hj, huser⟩ := hsafe.stash_used i xf hi stash hstash
    have hmem := mem_of_getElem? hj
    exact ⟨hsafe.stash_canonical user hmem stash huser, hsafe.stash_nonempty user hmem stash huser,
      (huse user hmem stash huser).trans (hsub user hmem)⟩

theorem SafeSequence.stash_intact {xfs : List Transfer} (hsafe : SafeSequence careMap xfs plan) :
    plan.Pairwise fun u xf => ∀ stash ∈ xf.stashBefore,
      Disjoint u.tgtRanges.toSet stash.2.toSet := by
  have honce : ∀ (i j : Nat) (u v : StashedTransfer), plan[i]? = some u → plan[j]? = some v →
      ∀ stash ∈ u.stashBefore, stash ∈ v.stashBefore → i ≤ j := by
    intro i j u v hi hj stash hu hv
    by_contra hlt
    have hnodup := hsafe.stash_once
    rw [map_flatMap, nodup_flatMap] at hnodup
    obtain ⟨hi', rfl⟩ := List.getElem?_eq_some_iff.mp hi
    obtain ⟨hj', rfl⟩ := List.getElem?_eq_some_iff.mp hj
    have hdisjoint := pairwise_iff_getElem.mp hnodup.2 j i hj' hi' (by omega)
    exact hdisjoint (mem_map_of_mem hv) (mem_map_of_mem hu)
  rw [pairwise_iff_getElem]
  intro i j hi hj hij stash hstash
  have hget : ∀ {k : Nat} (hk : k < plan.length), plan[k]? = some plan[k] := fun hk =>
    getElem?_eq_getElem hk
  obtain ⟨k, user, -, hk, huser⟩ := hsafe.stash_used j _ (hget hj) stash hstash
  obtain ⟨-, l, owner, -, hl, howner, hintact⟩ := hsafe.use_stashed k user hk stash huser
  have hle := honce j l _ owner (hget hj) hl stash hstash howner
  exact hintact i _ (by omega) (hget hi)

/-! ## Order of the commands -/

theorem pairwise_of_forall₂ {α β : Type} {R : α → β → Prop} {S : α → α → Prop}
    {T : β → β → Prop} {xs : List α} {ys : List β} (h : Forall₂ R xs ys)
    (hpair : xs.Pairwise S) (hT : ∀ x x' y y', R x y → R x' y' → S x x' → T y y') :
    ys.Pairwise T := by
  induction h with
  | nil => exact .nil
  | @cons x y xs ys hhead hrest ih =>
    obtain ⟨hx, hpair⟩ := pairwise_cons.mp hpair
    refine pairwise_cons.mpr ⟨fun y' hy' => ?_, ih hpair⟩
    obtain ⟨x', hx', hR⟩ := exists_left_of_forall₂ hrest hy'
    exact hT x x' y y' hhead hR (hx x' hx')

/-- No command writes what an earlier one has written. -/
def WritesOnce (commands : List Command) : Prop :=
  commands.Pairwise fun c d => Disjoint c.target.toSet d.target.toSet

/-- No command reads what an earlier one has written. -/
def ReadsFirst (commands : List Command) : Prop :=
  commands.Pairwise fun c d => Disjoint c.target.toSet d.reads.toSet

theorem Segment.disjoint {xf : StashedTransfer} {newData : List B} {segment : List Command}
    (h : Segment codec src tgt patchData xf newData segment) : segment.Pairwise fun c d =>
      Disjoint c.target.toSet d.target.toSet ∧ Disjoint c.target.toSet d.reads.toSet := by
  refine h.order.imp fun {c d} hcd => ?_
  rcases hcd with hc | ⟨hd, hd'⟩
  · simp [hc]
  · simp [hd, hd']

section

variable {segments : List (List Command)}
  (hsafe : SafeSequence tgt.careMap (findTransfers src tgt) plan)
  (hall : Forall₂
    (fun xf segment => ∃ newData, Segment codec src tgt patchData xf newData segment) plan segments)

include hsafe hall

theorem writesOnce_segments : WritesOnce segments.flatten := by
  refine pairwise_flatten.mpr ⟨fun segment hsegment => ?_, ?_⟩
  · obtain ⟨xf, -, newData, h⟩ := exists_left_of_forall₂ hall hsegment
    exact h.disjoint.imp And.left
  · refine pairwise_of_forall₂ hall hsafe.writes_once ?_
    intro u v x y ⟨_, hx⟩ ⟨_, hy⟩ huv c hc d hd
    exact huv.mono (hx.commands c hc).target (hy.commands d hd).target

theorem readsFirst_segments : ReadsFirst segments.flatten := by
  refine pairwise_flatten.mpr ⟨fun segment hsegment => ?_, ?_⟩
  · obtain ⟨xf, -, newData, h⟩ := exists_left_of_forall₂ hall hsegment
    exact h.disjoint.imp And.right
  · refine pairwise_of_forall₂ hall (hsafe.reads.and hsafe.stash_intact) ?_
    rintro u v x y ⟨_, hx⟩ ⟨_, hy⟩ ⟨hreads, hintact⟩ c hc d hd
    rw [Set.disjoint_left]
    intro b hb hb'
    have hbu := (hx.commands c hc).target hb
    rcases (hy.commands d hd).reads b hb' with ⟨hsrc, hnot⟩ | ⟨stash, hstash, hbs⟩
    · obtain ⟨stash, hstash, hbs⟩ := hreads b hbu hsrc
      exact hnot stash hstash hbs
    · exact Set.disjoint_left.mp (hintact stash hstash) hbu hbs

theorem target_subset_segments {c : Command} (hc : c ∈ segments.flatten) :
    c.target.toSet ⊆ tgt.careMap.toSet := by
  intro b hb
  obtain ⟨segment, hmem, hc⟩ := mem_flatten.mp hc
  obtain ⟨xf, hxf, newData, h⟩ := exists_left_of_forall₂ hall hmem
  exact (hsafe.writes_all b).mpr ⟨xf, hxf, (h.commands c hc).target hb⟩

theorem covers_segments {b : Int} (hb : b ∈ tgt.careMap.toSet) :
    (∃ c ∈ segments.flatten, b ∈ c.target.toSet) ∨
      b ∈ src.careMap.toSet ∧ src.block b = tgt.block b := by
  obtain ⟨xf, hxf, hb⟩ := (hsafe.writes_all b).mp hb
  obtain ⟨segment, hmem, newData, h⟩ := exists_right_of_forall₂ hall hxf
  rcases h.covers b hb with ⟨c, hc, hb⟩ | h
  · exact .inl ⟨c, mem_flatten.mpr ⟨segment, hmem, hc⟩, hb⟩
  · exact .inr h

omit hsafe in
theorem sound_segments {c : Command} (hc : c ∈ segments.flatten) :
    Sound codec src tgt patchData c := by
  obtain ⟨segment, hmem, hc⟩ := mem_flatten.mp hc
  obtain ⟨xf, -, newData, h⟩ := exists_left_of_forall₂ hall hmem
  exact (h.commands c hc).sound

end

/-! ## The last commands -/

/-- The blocks that neither hold data nor are touched by dm-verity. -/
def dontcare (tgt : Image B) : RangeSet :=
  ((RangeSet.ofData [0, tgt.totalBlocks]).subtract tgt.extended).subtract tgt.careMap

theorem dontcare_spec (tgt : Image B) : (dontcare tgt).Canonical ∧ ∀ b ∈ (dontcare tgt).toSet,
      (0 ≤ b ∧ b < tgt.totalBlocks) ∧ b ∉ tgt.extended.toSet ∧ b ∉ tgt.careMap.toSet := by
  have h₀ := tgt.totalBlocks_nonneg
  have hall : (RangeSet.ofData [0, tgt.totalBlocks]).Canonical :=
    RangeSet.ofData_canonical (by simpa using h₀) (by simp)
  have hfirst := RangeSet.subtract_canonical hall tgt.extended_canonical
  refine ⟨RangeSet.subtract_canonical hfirst tgt.careMap_canonical, fun b hb => ?_⟩
  unfold dontcare at hb
  rw [RangeSet.toSet_subtract hfirst tgt.careMap_canonical,
    RangeSet.toSet_subtract hall tgt.extended_canonical] at hb
  obtain ⟨⟨hb, hext⟩, hcare⟩ := hb
  rw [RangeSet.mem_toSet hall, RangeSet.ofData_oddAt,
    ← RangeSet.exists_pairs_iff_oddAt (by simp) (by simpa using h₀)] at hb
  exact ⟨by simpa [RangeSet.pairs] using hb, hext, hcare⟩

theorem finalCommands_eq (tgt : Image B) : finalCommands tgt =
    (if tgt.extended.nonzero = true then [.zero tgt.extended] else []) ++
      (if (dontcare tgt).nonzero = true then [.erase (dontcare tgt)] else []) := rfl

theorem mem_ite_singleton {α : Type} {p : Prop} [Decidable p] {a x : α} :
    x ∈ (if p then [a] else []) ↔ p ∧ x = a := by
  split_ifs with h <;> simp [h]

/-- A command after the last transfer leaves the care map alone. -/
structure FinalCommand (codec : Codec B) (src tgt : Image B) (patchData : Bytes)
    (c : Command) : Prop where
  sound : Sound codec src tgt patchData c
  target : Disjoint c.target.toSet tgt.careMap.toSet
  reads : c.reads = RangeSet.empty
  refs : c.refs = []
  newData : c.newData tgt = []

theorem finalCommands_spec (codec : Codec B) (src tgt : Image B) (patchData : Bytes) :
    (∀ c ∈ finalCommands tgt, FinalCommand codec src tgt patchData c) ∧
      WritesOnce (finalCommands tgt) := by
  obtain ⟨hcanonical, hmem⟩ := dontcare_spec tgt
  have hext : ∀ b ∈ tgt.extended.toSet, (0 ≤ b ∧ b < tgt.totalBlocks) ∧ b ∉ tgt.careMap.toSet := by
    intro b hb
    have hb' := (RangeSet.mem_blocks _ _).mpr hb
    refine ⟨tgt.extended_bounds b hb', fun h => ?_⟩
    exact tgt.extended_careMap b hb' ((RangeSet.mem_blocks _ _).mpr h)
  have hzero : Disjoint (Command.zero tgt.extended).target.toSet tgt.careMap.toSet :=
    Set.disjoint_left.mpr fun b hb => (hext b hb).2
  have herase : Disjoint (Command.erase (dontcare tgt)).target.toSet tgt.careMap.toSet :=
    Set.disjoint_left.mpr fun b hb => (hmem b hb).2.2
  constructor
  · intro c hc
    rw [finalCommands_eq, mem_append, mem_ite_singleton, mem_ite_singleton] at hc
    rcases hc with ⟨-, rfl⟩ | ⟨-, rfl⟩
    · refine ⟨.zero tgt.extended_canonical (fun b hb => (hext b hb).1) ?_, hzero, rfl, rfl, rfl⟩
      exact fun b hb hcare => absurd hcare (hext b hb).2
    · exact ⟨.erase hcanonical (fun b hb => (hmem b hb).1) herase, herase, rfl, rfl, rfl⟩
  · have hpair : Disjoint (Command.zero tgt.extended).target.toSet
        (Command.erase (dontcare tgt)).target.toSet :=
      Set.disjoint_right.mpr fun b hb => (hmem b hb).2.1
    rw [finalCommands_eq]
    refine pairwise_append.mpr ⟨by split_ifs <;> simp, by split_ifs <;> simp, ?_⟩
    intro c hc d hd
    rw [(mem_ite_singleton.mp hc).2, (mem_ite_singleton.mp hd).2]
    exact hpair

/-! ## The list -/

/-- What an OTA for two images promises the updater. -/
structure Emitted (codec : Codec B) (src tgt : Image B) (ota : Ota B) : Prop where
  version : ota.list.version = 3
  sound : ∀ c ∈ ota.list.commands, Sound codec src tgt ota.patchData c
  writesOnce : WritesOnce ota.list.commands
  readsFirst : ReadsFirst ota.list.commands
  refsHeld : RefsHeld ∅ ota.list.commands
  newData : ota.list.commands.flatMap (Command.newData tgt) = ota.newData
  /-- A block of the target image is written, or it is in place already. -/
  covers : ∀ b ∈ tgt.careMap.toSet, (∃ c ∈ ota.list.commands, b ∈ c.target.toSet) ∨
    b ∈ src.careMap.toSet ∧ src.block b = tgt.block b
  total_nonneg : 0 ≤ ota.list.total
  total_le : ota.list.total ≤ tgt.careMap.size
  total_zero : ota.list.total = 0 →
    ∀ c ∈ ota.list.commands, Disjoint c.target.toSet tgt.careMap.toSet
  max_nonneg : 0 ≤ ota.list.maxStashedBlocks
  max_lt : ota.list.maxStashedBlocks * 4096 < 512 * 2 ^ 20

theorem length_targets_le {commands : List Command} (honce : WritesOnce commands)
    (hcanonical : ∀ c ∈ commands, c.target.Canonical)
    (hsub : ∀ c ∈ commands, c.target.toSet ⊆ careMap.toSet) :
    (commands.flatMap fun c => c.target.blocks).length ≤ careMap.blocks.length := by
  have hnodup : (commands.flatMap fun c => c.target.blocks).Nodup := by
    rw [nodup_flatMap]
    refine ⟨fun c hc => (RangeSet.blocks_sorted (hcanonical c hc)).imp fun h => h.ne, ?_⟩
    refine honce.imp fun {c d} hcd => ?_
    intro b hb hb'
    exact Set.disjoint_left.mp hcd ((RangeSet.mem_blocks _ _).mp hb)
      ((RangeSet.mem_blocks _ _).mp hb')
  refine (hnodup.subperm fun b hb => ?_).length_le
  obtain ⟨c, hc, hb⟩ := mem_flatMap.mp hb
  exact (RangeSet.mem_blocks _ _).mpr (hsub c hc ((RangeSet.mem_blocks _ _).mp hb))

theorem Sound.target_canonical {c : Command} (h : Sound codec src tgt patchData c) :
    c.target.Canonical := by
  cases h with
  | stash | free => exact empty_canonical
  | new hr | zero hr | erase hr => exact hr
  | transfer h =>
    have := h.tgt_canonical
    cases h.form <;> exact this

theorem compute_cases {version : Nat} (h : compute codec version src tgt = some ota) :
    assertPartition src.careMap (src.fileMap.map Prod.snd) = true ∧
    assertPartition tgt.careMap (tgt.fileMap.map Prod.snd) = true ∧
    ∃ plan patches, planTransfers src tgt = some plan ∧
      computePatches codec src tgt 0 plan = some patches ∧
      writeTransfers codec version src tgt patches.transfers = some ota.list ∧
      ota.newData = patches.newData ∧ ota.patchData = patches.patchData := by
  unfold compute at h
  split_ifs at h with hpartition
  rw [Bool.and_eq_true] at hpartition
  simp only [bind_eq_bind, bind_eq_some_iff] at h
  obtain ⟨plan, hplan, h⟩ := h
  split_ifs at h
  simp only [bind_eq_some_iff] at h
  obtain ⟨patches, hpatches, list, hlist, h⟩ := h
  cases h
  exact ⟨hpartition.1, hpartition.2, plan, patches, hplan, hpatches, hlist, rfl, rfl⟩

/-- The commands of an OTA: those for the transfers of a safe plan, and the last ones. -/
structure Segmented (codec : Codec B) (src tgt : Image B) (ota : Ota B)
    (plan : List StashedTransfer) (segments : List (List Command)) : Prop where
  safe : SafeSequence tgt.careMap (findTransfers src tgt) plan
  all : Forall₂ (fun xf segment => ∃ newData,
    Segment codec src tgt ota.patchData xf newData segment) plan segments
  version : ota.list.version = 3
  commands : ota.list.commands = segments.flatten ++ finalCommands tgt
  total : ota.list.total = ((segments.flatten.flatMap fun c => c.target.blocks).length : Int)
  refsHeld : RefsHeld ∅ segments.flatten
  newData : segments.flatten.flatMap (Command.newData tgt) = ota.newData
  max_nonneg : 0 ≤ ota.list.maxStashedBlocks
  max_lt : ota.list.maxStashedBlocks * 4096 < 512 * 2 ^ 20

theorem segmented_of_compute (h : compute codec 3 src tgt = some ota) :
    ∃ plan segments, Segmented codec src tgt ota plan segments := by
  obtain ⟨hsrc, htgt, plan, patches, hplan, hpatches, hlist, hnew, hpatch⟩ := compute_cases h
  obtain ⟨plan', hplan', hsafe⟩ := planTransfers_safe src tgt htgt
  rw [hplan] at hplan'
  cases hplan'
  obtain ⟨hpatched, hnewData⟩ := computePatches_spec hpatches [] rfl
  rw [nil_append, ← hpatch] at hpatched
  unfold writeTransfers at hlist
  simp only [bind_eq_bind, bind_eq_some_iff] at hlist
  obtain ⟨st, hfold, hlist⟩ := hlist
  have hlist := (some.inj hlist).symm
  obtain ⟨hmax, segments, hout, htotal, hrefs, hnews, hall⟩ := foldlM_writeTransfer hpatched
    (planned_of_safe hsrc hsafe) (fun h => Iff.rfl) (by decide) hfold
  have hnonneg : 0 ≤ st.maxStashedBlocks :=
    foldlM_invariant (P := fun st => 0 ≤ st.maxStashedBlocks) hfold le_rfl
      fun _ _ _ _ hone => writeTransfer_max_nonneg hone
  refine ⟨plan, segments, hsafe, hall, ?_, ?_, ?_, hrefs, ?_, ?_, ?_⟩
  · rw [hlist]
  · rw [hlist, hout]
    rfl
  · rw [hlist, htotal]
    simp [WriterState.init]
  · rw [hnews, hnew, hnewData]
  · rw [hlist]
    exact hnonneg
  · rw [hlist]
    exact hmax

theorem emitted_of_compute (h : compute codec 3 src tgt = some ota) :
    Emitted codec src tgt ota := by
  obtain ⟨plan, segments, h⟩ := segmented_of_compute h
  obtain ⟨hfinal, horder⟩ := finalCommands_spec codec src tgt ota.patchData
  have htarget : ∀ c ∈ segments.flatten, c.target.toSet ⊆ tgt.careMap.toSet := fun c =>
    target_subset_segments h.safe h.all
  have honce := writesOnce_segments h.safe h.all
  have hreads : ∀ c : Command, ∀ d ∈ finalCommands tgt, Disjoint c.target.toSet d.reads.toSet := by
    intro c d hd
    rw [(hfinal d hd).reads, toSet_empty]
    exact Set.disjoint_empty _
  constructor
  case version => exact h.version
  case sound =>
    rw [h.commands]
    exact forall_mem_append.mpr ⟨fun c => sound_segments h.all, fun c hc => (hfinal c hc).sound⟩
  case writesOnce =>
    rw [h.commands]
    refine pairwise_append.mpr ⟨honce, horder, fun c hc d hd => ?_⟩
    exact (hfinal d hd).target.symm.mono_left (htarget c hc)
  case readsFirst =>
    rw [h.commands]
    exact pairwise_append.mpr ⟨readsFirst_segments h.safe h.all,
      pairwise_of_forall_mem_list fun c _ => hreads c, fun c _ => hreads c⟩
  case refsHeld =>
    rw [h.commands, refsHeld_append]
    exact ⟨h.refsHeld, refsHeld_of_refs_nil fun c hc => (hfinal c hc).refs⟩
  case newData =>
    rw [h.commands, flatMap_append, flatMap_eq_nil_iff.mpr fun c hc => (hfinal c hc).newData,
      append_nil, h.newData]
  case covers =>
    intro b hb
    rw [h.commands]
    rcases covers_segments h.safe h.all hb with ⟨c, hc, hb⟩ | hsame
    · exact .inl ⟨c, mem_append_left _ hc, hb⟩
    · exact .inr hsame
  case total_nonneg =>
    rw [h.total]
    omega
  case total_le =>
    rw [h.total, RangeSet.size_eq_length_blocks tgt.careMap_canonical, Int.ofNat_le]
    exact length_targets_le honce (fun c hc => (sound_segments h.all hc).target_canonical) htarget
  case total_zero =>
    intro hzero
    rw [h.total, Int.natCast_eq_zero, length_eq_zero_iff, flatMap_eq_nil_iff] at hzero
    rw [h.commands]
    refine forall_mem_append.mpr ⟨fun c hc => Set.disjoint_left.mpr fun b hb => ?_,
      fun c hc => (hfinal c hc).target⟩
    rw [← RangeSet.mem_blocks, hzero c hc] at hb
    simp at hb
  case max_nonneg => exact h.max_nonneg
  case max_lt => exact h.max_lt

/-- A computed list writes the blocks that differ, none twice, and reads no block after that. -/
theorem compute_list_safe (h : compute codec 3 src tgt = some ota) :
    (∀ b ∈ tgt.careMap.toSet, (∃ c ∈ ota.list.commands, b ∈ c.target.toSet) ∨
      b ∈ src.careMap.toSet ∧ src.block b = tgt.block b) ∧
    WritesOnce ota.list.commands ∧ ReadsFirst ota.list.commands ∧ RefsHeld ∅ ota.list.commands := by
  have hemitted := emitted_of_compute h
  exact ⟨hemitted.covers, hemitted.writesOnce, hemitted.readsFirst, hemitted.refsHeld⟩

end

/-! ## A file that grows over its own blocks -/

theorem four_nonneg : (0 : Int) ≤ 4 := by decide

theorem canonical_four : RangeSet.Canonical { data := [0, 4] } := by decide

theorem bounds_four : ∀ b ∈ RangeSet.blocks { data := [0, 4] }, 0 ≤ b ∧ b < 4 := by decide

theorem bounds_empty : ∀ b ∈ RangeSet.empty.blocks, 0 ≤ b ∧ b < 4 := by decide

theorem empty_apart_four : ∀ b ∈ RangeSet.empty.blocks,
    b ∉ RangeSet.blocks { data := [0, 4] } := by decide

/-- The file `a` moves up by one block over its own second block, and `b` shrinks
into the first block of `a`. -/
def shiftImage (moved : Bool) : Image (Fin 16) where
  totalBlocks := 4
  careMap := { data := [0, 4] }
  fileMap :=
    if moved then [(['a'], { data := [1, 4] }), (['b'], { data := [0, 1] })]
    else [(['a'], { data := [0, 2] }), (['b'], { data := [2, 4] })]
  extended := RangeSet.empty
  block := fun b =>
    if moved then if b = 0 then 9 else if b = 1 then 5 else if b = 2 then 6 else 7
    else if b = 0 then 1 else if b = 1 then 2 else if b = 2 then 3 else 4
  totalBlocks_nonneg := four_nonneg
  careMap_canonical := canonical_four
  careMap_bounds := bounds_four
  fileMap_canonical := by cases moved <;> decide
  fileMap_nodup := by cases moved <;> decide
  extended_canonical := empty_canonical
  extended_bounds := bounds_empty
  extended_careMap := empty_apart_four
  zero_blocks := by cases moved <;> simp [zeroDomain]

def shiftOta : Ota (Fin 16) :=
  (compute plainCodec 3 (shiftImage false) (shiftImage true)).getD
    { list := ⟨3, 0, 0, 0, []⟩, newData := [], patchData := [] }

theorem compute_shiftImage :
    compute plainCodec 3 (shiftImage false) (shiftImage true) = some shiftOta := by
  have hsome : (compute plainCodec 3 (shiftImage false) (shiftImage true)).isSome :=
    by decide +kernel
  obtain ⟨ota, hota⟩ := Option.isSome_iff_exists.mp hsome
  unfold shiftOta
  rw [hota]
  rfl

theorem compute_list_safe_shiftImage : RefsHeld ∅ shiftOta.list.commands :=
  (compute_list_safe compute_shiftImage).2.2.2

end ShieldTv.Releasetools.BlockImageDiff
