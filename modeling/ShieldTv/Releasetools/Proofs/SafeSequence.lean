import ShieldTv.Releasetools.Proofs.TransferOrder

/-!
# The planned sequence is safe

What the updater relies on is stated as `SafeSequence`: every target block is
written once, a source block that is overwritten before it is read was stashed
in time, and every stash has one owner and one user.  The sequence that
`Compute` plans has these properties for any two images, and
`AssertSequenceGood` accepts it.
-/

namespace ShieldTv.Releasetools.BlockImageDiff

open Lib Releasetools.RangeLib
open List hiding Disjoint map

/-- The order `plan` of the transfers `xfs`, whose targets make up `careMap`. -/
structure SafeSequence (careMap : RangeSet) (xfs : List Transfer)
    (plan : List StashedTransfer) : Prop where
  /-- Every transfer occurs exactly once. -/
  perm : (plan.map StashedTransfer.toTransfer).Perm xfs
  /-- What an earlier transfer overwrites is read from a stash. -/
  reads : plan.Pairwise fun u xf => ∀ b ∈ u.tgtRanges.toSet, b ∈ xf.srcRanges.toSet →
    ∃ stash ∈ xf.useStash, b ∈ stash.2.toSet
  /-- No stash is made twice. -/
  stash_once : ((plan.flatMap StashedTransfer.stashBefore).map Prod.fst).Nodup
  /-- No stash is used twice. -/
  use_once : ((plan.flatMap StashedTransfer.useStash).map Prod.fst).Nodup
  /-- A stash is used by a transfer strictly after the one that makes it. -/
  stash_used : ∀ (i : Nat) (u : StashedTransfer), plan[i]? = some u → ∀ stash ∈ u.stashBefore,
    ∃ (j : Nat) (xf : StashedTransfer), i < j ∧ plan[j]? = some xf ∧ stash ∈ xf.useStash
  /-- A used stash was made strictly before, of blocks of the source that were
  still intact. -/
  use_stashed : ∀ (j : Nat) (xf : StashedTransfer), plan[j]? = some xf → ∀ stash ∈ xf.useStash,
    stash.2.toSet ⊆ xf.srcRanges.toSet ∧
    ∃ (i : Nat) (u : StashedTransfer), i < j ∧ plan[i]? = some u ∧ stash ∈ u.stashBefore ∧
      ∀ (k : Nat) (v : StashedTransfer), k < i → plan[k]? = some v →
        Disjoint v.tgtRanges.toSet stash.2.toSet
  /-- No block is written twice. -/
  writes_once : plan.Pairwise fun u v => Disjoint u.tgtRanges.toSet v.tgtRanges.toSet
  /-- The blocks written are those of the care map. -/
  writes_all : ∀ b, b ∈ careMap.toSet ↔ ∃ xf ∈ plan, b ∈ xf.tgtRanges.toSet
  tgt_canonical : ∀ xf ∈ plan, xf.tgtRanges.Canonical
  src_canonical : ∀ xf ∈ plan, xf.srcRanges.Canonical
  stash_canonical : ∀ xf ∈ plan, ∀ stash ∈ xf.useStash, stash.2.Canonical
  stash_nonempty : ∀ xf ∈ plan, ∀ stash ∈ xf.useStash, stash.2.toSet.Nonempty

/-! ## The transfers -/

theorem empty_canonical : RangeSet.empty.Canonical := by decide

theorem toSet_empty : RangeSet.empty.toSet = ∅ := by
  ext b
  simp [RangeSet.toSet, RangeSet.ranges, RangeSet.empty, RangeSet.pairs]

theorem nonzero_iff {r : RangeSet} (hr : r.Canonical) :
    r.nonzero = true ↔ r.toSet.Nonempty := by
  have hempty := RangeSet.data_eq_iff hr empty_canonical
  rw [toSet_empty] at hempty
  unfold RangeSet.nonzero
  rw [Set.nonempty_iff_ne_empty, Ne, ← hempty]
  simp [RangeSet.empty]

section

variable {B : Type} [Zero B] (src tgt : Image B)

theorem file_cases (fn : Name) : src.file fn RangeSet.empty = RangeSet.empty ∨
      (fn, src.file fn RangeSet.empty) ∈ src.fileMap := by
  unfold Image.file
  cases h : src.fileMap.lookup fn with
  | none => exact .inl rfl
  | some r =>
    obtain ⟨l₁, l₂, hmap, -⟩ := lookup_eq_some_iff.mp h
    exact .inr (by simp [hmap])

/-- A transfer reads from one file of the source, or from none, and the zero domain from
its own. -/
theorem findTransfer_cases {names : SourceNames} {fn : Name} {r : RangeSet} {xf : Transfer}
    (h : findTransfer src names fn r = xf) :
    xf.tgtRanges = r ∧ (xf.srcRanges = RangeSet.empty ∧ xf.style ≠ .zero ∨
      ∃ srcFn, xf.srcRanges = src.file srcFn RangeSet.empty ∧
        (xf.style = .zero → fn = zeroDomain ∧ srcFn = zeroDomain)) := by
  subst h
  unfold findTransfer
  split_ifs with hzero
  · exact ⟨rfl, .inr ⟨_, rfl, fun _ => ⟨hzero, rfl⟩⟩⟩
  · exact ⟨rfl, .inl ⟨rfl, by simp [Transfer.init]⟩⟩
  · exact ⟨rfl, .inr ⟨_, rfl, by simp [Transfer.init]⟩⟩
  · split
    · exact ⟨rfl, .inr ⟨_, rfl, by simp [Transfer.init]⟩⟩
    · split
      · exact ⟨rfl, .inr ⟨_, rfl, by simp [Transfer.init]⟩⟩
      · exact ⟨rfl, .inl ⟨rfl, by simp [Transfer.init]⟩⟩

theorem findTransfers_tgtRanges :
    (findTransfers src tgt).map Transfer.tgtRanges = tgt.fileMap.map Prod.snd := by
  simp only [findTransfers, map_map]
  apply map_congr_left
  intro file _
  exact (findTransfer_cases src rfl).1

theorem findTransfers_canonical :
    ∀ xf ∈ findTransfers src tgt, xf.tgtRanges.Canonical ∧ xf.srcRanges.Canonical := by
  intro xf hxf
  obtain ⟨file, hfile, heq⟩ := mem_map.mp hxf
  obtain ⟨htgt, hsrc⟩ := findTransfer_cases src heq
  refine ⟨htgt.symm ▸ tgt.fileMap_canonical file hfile, ?_⟩
  obtain ⟨hempty, -⟩ | ⟨srcFn, hsrc, -⟩ := hsrc
  · exact hempty ▸ empty_canonical
  · rw [hsrc]
    obtain h | h := file_cases src srcFn
    · rw [h]
      exact empty_canonical
    · exact src.fileMap_canonical _ h

end

/-! ## The partition of the care map -/

theorem assertPartitionLoop_iff {total : RangeSet} (htotal : total.Canonical)
    (seq : List RangeSet) (hseq : ∀ i ∈ seq, i.Canonical) {soFar : RangeSet}
    (hsoFar : soFar.Canonical) :
    assertPartitionLoop total soFar seq = true ↔
      (∀ i ∈ seq, Disjoint soFar.toSet i.toSet) ∧
      seq.Pairwise (fun i j => Disjoint i.toSet j.toSet) ∧
      ∀ b, b ∈ total.toSet ↔ b ∈ soFar.toSet ∨ ∃ i ∈ seq, b ∈ i.toSet := by
  induction seq generalizing soFar with
  | nil =>
    rw [assertPartitionLoop, RangeSet.eq_iff hsoFar htotal, Set.ext_iff]
    simp [iff_comm]
  | cons i seq ih =>
    have hi := hseq i (by simp)
    have hoverlap : (!soFar.overlaps i) = true ↔ Disjoint soFar.toSet i.toSet := by
      rw [Bool.not_eq_true', ← Bool.not_eq_true, RangeSet.overlaps_iff hsoFar hi,
        Set.not_nonempty_iff_eq_empty, Set.disjoint_iff_inter_eq_empty]
    rw [assertPartitionLoop, Bool.and_eq_true, hoverlap,
      ih (fun j hj => hseq j (by simp [hj])) (RangeSet.union_canonical hsoFar hi),
      RangeSet.toSet_union hsoFar hi]
    simp only [forall_mem_cons, pairwise_cons, Set.disjoint_union_left,
      Set.mem_union, exists_mem_cons_iff, or_assoc]
    constructor
    · rintro ⟨hfirst, hrest, hpair, hall⟩
      exact ⟨⟨hfirst, fun j hj => (hrest j hj).1⟩, ⟨fun j hj => (hrest j hj).2, hpair⟩, hall⟩
    · rintro ⟨⟨hfirst, hrest⟩, ⟨hhead, hpair⟩, hall⟩
      exact ⟨hfirst, fun j hj => ⟨hrest j hj, hhead j hj⟩, hpair, hall⟩

theorem assertPartition_iff {total : RangeSet} (htotal : total.Canonical)
    {seq : List RangeSet} (hseq : ∀ i ∈ seq, i.Canonical) :
    assertPartition total seq = true ↔
      seq.Pairwise (fun i j => Disjoint i.toSet j.toSet) ∧
      ∀ b, b ∈ total.toSet ↔ ∃ i ∈ seq, b ∈ i.toSet := by
  unfold assertPartition
  rw [assertPartitionLoop_iff htotal seq hseq empty_canonical, toSet_empty]
  simp

/-! ## `AssertSequenceGood` -/

theorem foldl_subtract_spec (stashes : List (Nat × RangeSet)) {x : RangeSet} (hx : x.Canonical)
    (hstashes : ∀ stash ∈ stashes, stash.2.Canonical) :
    (stashes.foldl (fun x stash => x.subtract stash.2) x).Canonical ∧
      ∀ b, b ∈ (stashes.foldl (fun x stash => x.subtract stash.2) x).toSet ↔
        b ∈ x.toSet ∧ ∀ stash ∈ stashes, b ∉ stash.2.toSet := by
  induction stashes generalizing x with
  | nil => exact ⟨hx, by simp⟩
  | cons stash stashes ih =>
    have hstash := hstashes stash (by simp)
    have hrest := ih (RangeSet.subtract_canonical hx hstash)
      fun s hs => hstashes s (by simp [hs])
    refine ⟨hrest.1, fun b => ?_⟩
    rw [foldl_cons, hrest.2, RangeSet.toSet_subtract hx hstash]
    simp [and_assoc]

/-- What is read of the `touched` blocks was stashed. -/
def ReadsStashed (touched : Set Int) (xf : StashedTransfer) : Prop :=
  ∀ b ∈ touched, b ∈ xf.srcRanges.toSet → ∃ stash ∈ xf.useStash, b ∈ stash.2.toSet

theorem assertSequenceLoop_of_safe {careMap : RangeSet} (hcare : careMap.Canonical)
    (plan : List StashedTransfer) {touched : RangeSet} (htouched : touched.Canonical)
    (hcanonical : ∀ xf ∈ plan, xf.tgtRanges.Canonical ∧ xf.srcRanges.Canonical ∧
      ∀ stash ∈ xf.useStash, stash.2.Canonical)
    (hpairs : plan.Pairwise fun u xf => ReadsStashed u.tgtRanges.toSet xf ∧
      Disjoint u.tgtRanges.toSet xf.tgtRanges.toSet)
    (hsafe : ∀ xf ∈ plan, ReadsStashed touched.toSet xf ∧
      Disjoint touched.toSet xf.tgtRanges.toSet)
    (hall : ∀ b, b ∈ careMap.toSet ↔
      b ∈ touched.toSet ∨ ∃ xf ∈ plan, b ∈ xf.tgtRanges.toSet) :
    assertSequenceLoop careMap touched plan = true := by
  induction plan generalizing touched with
  | nil =>
    rw [assertSequenceLoop, RangeSet.eq_iff htouched hcare]
    ext b
    simp [hall]
  | cons xf plan ih =>
    obtain ⟨⟨htgt, hsrc, hstash⟩, hcanonical⟩ := forall_mem_cons.mp hcanonical
    obtain ⟨hfirst, hpairs⟩ := pairwise_cons.mp hpairs
    obtain ⟨⟨hreads, hwrites⟩, hsafe⟩ := forall_mem_cons.mp hsafe
    have hx := foldl_subtract_spec xf.useStash hsrc hstash
    have hread : touched.overlaps
        (xf.useStash.foldl (fun x stash => x.subtract stash.2) xf.srcRanges) = false := by
      rw [← Bool.not_eq_true, RangeSet.overlaps_iff htouched hx.1]
      rintro ⟨b, hb, hbx⟩
      obtain ⟨hbsrc, hnone⟩ := (hx.2 b).mp hbx
      obtain ⟨stash, hmem, hb'⟩ := hreads b hb hbsrc
      exact hnone stash hmem hb'
    have honce : touched.overlaps xf.tgtRanges = false := by
      rw [← Bool.not_eq_true, RangeSet.overlaps_iff htouched htgt,
        Set.not_nonempty_iff_eq_empty, ← Set.disjoint_iff_inter_eq_empty]
      exact hwrites
    have hunion := RangeSet.toSet_union htouched htgt
    simp only [assertSequenceLoop, hread, honce, Bool.not_false, Bool.and_self, Bool.true_and]
    apply ih (RangeSet.union_canonical htouched htgt) hcanonical hpairs
    · intro v hv
      rw [hunion, Set.disjoint_union_left]
      refine ⟨fun b hb hbsrc => ?_, (hsafe v hv).2, (hfirst v hv).2⟩
      exact hb.elim (fun h => (hsafe v hv).1 b h hbsrc) fun h => (hfirst v hv).1 b h hbsrc
    · intro b
      rw [hunion, hall]
      simp [or_assoc]

variable {xfs : List Transfer} {x u i id a : Nat}

theorem SafeSequence.assertSequenceGood {B : Type} [Zero B] {tgt : Image B}
    {plan : List StashedTransfer} (h : SafeSequence tgt.careMap xfs plan) :
    BlockImageDiff.assertSequenceGood tgt plan = true := by
  apply assertSequenceLoop_of_safe tgt.careMap_canonical plan empty_canonical
  · exact fun xf hxf => ⟨h.tgt_canonical xf hxf, h.src_canonical xf hxf, h.stash_canonical xf hxf⟩
  · exact h.reads.and h.writes_once
  · simp [toSet_empty, ReadsStashed]
  · simp [toSet_empty, h.writes_all]

/-! ## From the graph to the sequence -/

theorem xfer_eq (h : id < xfs.length) : xfer xfs id = xfs[id] := by
  simp [xfer, h]

theorem xfer_mem (h : id < xfs.length) : xfer xfs id ∈ xfs := by
  rw [xfer_eq h]
  exact getElem_mem h

theorem map_xfer_range (xfs : List Transfer) :
    (List.range xfs.length).map (xfer xfs) = xfs := by
  apply ext_getElem
  · simp
  · intro i h₁ h₂
    simp [xfer_eq h₂]

section

variable {careMap : RangeSet} {order : Nat → Nat} {log : List (Nat × Nat)} {st : Stashing}
  {L : List Nat} (hcanonical : ∀ xf ∈ xfs, xf.tgtRanges.Canonical ∧ xf.srcRanges.Canonical)
  (hpartition : (xfs.map Transfer.tgtRanges).Pairwise fun i j => Disjoint i.toSet j.toSet)
  (hcover : ∀ b, b ∈ careMap.toSet ↔ ∃ i ∈ xfs.map Transfer.tgtRanges, b ∈ i.toSet)
  (hst : ReverseInv xfs (Depends xfs) order log st)
  (hlog : ∀ x u, (x, u) ∈ log ↔ Depends xfs x u ∧ order u < order x)
  (hinj : ∀ x u, Depends xfs x u → order x ≠ order u) (hL : L.Perm (List.range xfs.length))
  (hordered : L.Pairwise fun a b => ¬((Depends xfs b a ∨ Depends xfs a b) ∧ order b < order a))

include hcanonical in
theorem overlapOf_canonical (hx : x < xfs.length) (hu : u < xfs.length) :
    (overlapOf xfs x u).Canonical :=
  RangeSet.intersect_canonical (hcanonical _ (xfer_mem hx)).2 (hcanonical _ (xfer_mem hu)).1

include hcanonical in
theorem toSet_overlapOf (hx : x < xfs.length) (hu : u < xfs.length) :
    (overlapOf xfs x u).toSet = (xfer xfs x).srcRanges.toSet ∩ (xfer xfs u).tgtRanges.toSet :=
  RangeSet.toSet_intersect (hcanonical _ (xfer_mem hx)).2 (hcanonical _ (xfer_mem hu)).1

include hcanonical in
theorem depends_iff (hx : x < xfs.length) (hu : u < xfs.length) :
    Depends xfs x u ↔
      u ≠ x ∧ ∃ b, b ∈ (xfer xfs u).tgtRanges.toSet ∧ b ∈ (xfer xfs x).srcRanges.toSet := by
  have htgt := (hcanonical _ (xfer_mem hu)).1
  have hsrc := (hcanonical _ (xfer_mem hx)).2
  unfold Depends Reads
  rw [nonzero_iff (RangeSet.intersect_canonical htgt hsrc), RangeSet.toSet_intersect htgt hsrc]
  simp only [hx, hu, true_and]
  rfl

include hcanonical in
theorem overlapOf_nonempty (h : Depends xfs x u) : (overlapOf xfs x u).toSet.Nonempty := by
  obtain ⟨b, hbu, hbx⟩ := ((depends_iff hcanonical h.1 h.2.1).mp h).2
  rw [toSet_overlapOf hcanonical h.1 h.2.1]
  exact ⟨b, hbx, hbu⟩

include hpartition in
theorem tgtRanges_disjoint {v : Nat} (hu : u < xfs.length) (hv : v < xfs.length) (hne : u ≠ v) :
    Disjoint (xfer xfs u).tgtRanges.toSet (xfer xfs v).tgtRanges.toSet := by
  have key : ∀ i j, i < j → j < xfs.length →
      Disjoint (xfer xfs i).tgtRanges.toSet (xfer xfs j).tgtRanges.toSet := by
    intro i j hij hj
    have hpair := pairwise_iff_getElem.mp hpartition i j (by simp; omega) (by simp; omega) hij
    rw [xfer_eq (by omega), xfer_eq hj]
    simpa using hpair
  rcases Nat.lt_or_gt_of_ne hne with h | h
  · exact key u v h hv
  · exact (key v u h hu).symm

include hL in
theorem lt_of_getElem? (h : L[i]? = some a) : a < xfs.length :=
  mem_range.mp (hL.mem_iff.mp (mem_of_getElem? h))

include hL in
theorem exists_getElem? (h : a < xfs.length) : ∃ i : Nat, L[i]? = some a :=
  getElem?_of_mem (hL.mem_iff.mpr (mem_range.mpr h))

include hlog hordered in
theorem stash_precedes {j : Nat} (hi : L[i]? = some u) (hj : L[j]? = some x) (hmem : (x, u) ∈ log) :
    i < j := by
  obtain ⟨hdep, hlt⟩ := (hlog x u).mp hmem
  by_contra hge
  rcases Nat.lt_or_eq_of_le (Nat.le_of_not_lt hge) with h | h
  · obtain ⟨hj', rfl⟩ := List.getElem?_eq_some_iff.mp hj
    obtain ⟨hi', rfl⟩ := List.getElem?_eq_some_iff.mp hi
    exact pairwise_iff_getElem.mp hordered j i hj' hi' h ⟨Or.inr hdep, hlt⟩
  · subst h
    rw [hi] at hj
    exact hdep.2.2.1 (Option.some.inj hj)

theorem stashedTransfers_getElem? {xf : StashedTransfer} :
    (stashedTransfers xfs st L)[i]? = some xf ↔
      ∃ id, L[i]? = some id ∧ xf = ⟨xfer xfs id, st.stashBefore id, st.useStash id⟩ := by
  unfold stashedTransfers
  rw [getElem?_map, Option.map_eq_some_iff]
  exact exists_congr fun id => and_congr_right fun _ => eq_comm

theorem Logged.nodup_ids {owner : Nat × Nat → Nat} {table : Nat → List (Nat × RangeSet)}
    (h : Logged xfs log owner table) (hnodup : L.Nodup) :
    ((L.flatMap table).map Prod.fst).Nodup := by
  rw [map_flatMap, nodup_flatMap]
  refine ⟨fun w _ => (h.sorted w).imp fun h => Nat.ne_of_lt h, ?_⟩
  apply hnodup.imp
  intro v w hne s hv hw
  obtain ⟨⟨s, r⟩, hmem, rfl⟩ := mem_map.mp hv
  obtain ⟨⟨s', r'⟩, hmem', hs⟩ := mem_map.mp hw
  obtain rfl : s' = s := hs
  obtain ⟨e, he, hv, -⟩ := (h.mem v s' r).mp hmem
  obtain ⟨e', he', hw, -⟩ := (h.mem w s' r').mp hmem'
  obtain rfl := Option.some.inj (he.symm.trans he')
  exact hne (hv.symm.trans hw)

include hL in
theorem perm_stashedTransfers :
    ((stashedTransfers xfs st L).map StashedTransfer.toTransfer).Perm xfs := by
  have hmap := hL.map (xfer xfs)
  rw [map_xfer_range] at hmap
  simpa [stashedTransfers, Function.comp_def] using hmap

include hcanonical hst hlog hL

theorem canonical_stashedTransfers {xf : StashedTransfer} (hxf : xf ∈ stashedTransfers xfs st L) :
    (xf.tgtRanges.Canonical ∧ xf.srcRanges.Canonical) ∧
      ∀ stash ∈ xf.useStash, stash.2.Canonical ∧ stash.2.toSet.Nonempty := by
  obtain ⟨x, hx, rfl⟩ := mem_map.mp hxf
  refine ⟨hcanonical _ (xfer_mem (mem_range.mp (hL.mem_iff.mp hx))), fun stash hstash => ?_⟩
  obtain ⟨⟨x, u⟩, hs, rfl, hr⟩ := (hst.use.mem x stash.1 stash.2).mp hstash
  obtain ⟨hdep, -⟩ := (hlog x u).mp (mem_of_getElem? hs)
  rw [hr]
  exact ⟨overlapOf_canonical hcanonical hdep.1 hdep.2.1, overlapOf_nonempty hcanonical hdep⟩

include hordered

include hinj in
theorem stashedTransfers_reads : (stashedTransfers xfs st L).Pairwise fun u xf =>
    ∀ b ∈ u.tgtRanges.toSet, b ∈ xf.srcRanges.toSet →
      ∃ stash ∈ xf.useStash, b ∈ stash.2.toSet := by
  have hlt : ∀ id ∈ L, id < xfs.length := fun id hid => mem_range.mp (hL.mem_iff.mp hid)
  unfold stashedTransfers
  rw [pairwise_map]
  refine Pairwise.imp_of_mem ?_ (hordered.and (hL.nodup_iff.mpr nodup_range))
  intro u x hu hx hux b hbu hbx
  have hdep := (depends_iff hcanonical (hlt x hx) (hlt u hu)).mpr ⟨hux.2, b, hbu, hbx⟩
  have hback : order u < order x := by
    have hne := hinj x u hdep
    have hnot : ¬order x < order u := fun h => hux.1 ⟨Or.inl hdep, h⟩
    omega
  obtain ⟨s, hs⟩ := getElem?_of_mem ((hlog x u).mpr ⟨hdep, hback⟩)
  refine ⟨(s, overlapOf xfs x u), (hst.use.mem x s _).mpr ⟨_, hs, rfl, rfl⟩, ?_⟩
  rw [toSet_overlapOf hcanonical hdep.1 hdep.2.1]
  exact ⟨hbx, hbu⟩

include hpartition

theorem stashedTransfers_use {j : Nat} {xf : StashedTransfer}
    (hj : (stashedTransfers xfs st L)[j]? = some xf) {stash : Nat × RangeSet}
    (hstash : stash ∈ xf.useStash) :
    stash.2.toSet ⊆ xf.srcRanges.toSet ∧
    ∃ (i : Nat) (u : StashedTransfer), i < j ∧ (stashedTransfers xfs st L)[i]? = some u ∧
      stash ∈ u.stashBefore ∧ ∀ (k : Nat) (v : StashedTransfer), k < i →
        (stashedTransfers xfs st L)[k]? = some v → Disjoint v.tgtRanges.toSet stash.2.toSet := by
  obtain ⟨x, hx, rfl⟩ := stashedTransfers_getElem?.mp hj
  obtain ⟨s, r⟩ := stash
  obtain ⟨⟨x, u⟩, hs, rfl, rfl⟩ := (hst.use.mem x s r).mp hstash
  obtain ⟨hdep, -⟩ := (hlog x u).mp (mem_of_getElem? hs)
  obtain ⟨i, hi⟩ := exists_getElem? hL hdep.2.1
  have hoverlap := toSet_overlapOf hcanonical hdep.1 hdep.2.1
  refine ⟨?_, i, _, stash_precedes hlog hordered hi hx (mem_of_getElem? hs),
    stashedTransfers_getElem?.mpr ⟨u, hi, rfl⟩, (hst.before.mem u s _).mpr ⟨_, hs, rfl, rfl⟩, ?_⟩
  · rw [hoverlap]
    exact Set.inter_subset_left
  · intro k v hki hk
    obtain ⟨w, hw, rfl⟩ := stashedTransfers_getElem?.mp hk
    -- the stash lies inside the target of its owner, and targets are disjoint
    have hne : w ≠ u := by
      rintro rfl
      obtain ⟨hi', hwi⟩ := List.getElem?_eq_some_iff.mp hi
      obtain ⟨hk', hwk⟩ := List.getElem?_eq_some_iff.mp hw
      have := (hL.nodup_iff.mpr nodup_range).getElem_inj_iff.mp (hwi.trans hwk.symm)
      omega
    rw [hoverlap]
    exact (tgtRanges_disjoint hpartition (lt_of_getElem? hL hw) hdep.2.1 hne).mono_right
      Set.inter_subset_right

include hcover hinj

theorem stashedTransfers_safe : SafeSequence careMap xfs (stashedTransfers xfs st L) := by
  have hlt : ∀ id ∈ L, id < xfs.length := fun id hid => mem_range.mp (hL.mem_iff.mp hid)
  have hnodup : L.Nodup := hL.nodup_iff.mpr nodup_range
  have hperm : ((stashedTransfers xfs st L).map StashedTransfer.toTransfer).Perm xfs :=
    perm_stashedTransfers hL
  have hcanonical' {xf : StashedTransfer} (hxf : xf ∈ stashedTransfers xfs st L) :=
    canonical_stashedTransfers hcanonical hst hlog hL hxf
  constructor
  · exact hperm
  · exact stashedTransfers_reads hcanonical hst hlog hinj hL hordered
  · simpa [stashedTransfers, flatMap_map] using hst.before.nodup_ids hnodup
  · simpa [stashedTransfers, flatMap_map] using hst.use.nodup_ids hnodup
  · intro i xf hi stash hstash
    obtain ⟨u, hu, rfl⟩ := stashedTransfers_getElem?.mp hi
    obtain ⟨s, r⟩ := stash
    obtain ⟨⟨x, u⟩, hx, rfl, hr⟩ := (hst.before.mem u s r).mp hstash
    have hmem := mem_of_getElem? hx
    obtain ⟨j, hj⟩ := exists_getElem? hL ((hlog x u).mp hmem).1.1
    exact ⟨j, _, stash_precedes hlog hordered hu hj hmem,
      stashedTransfers_getElem?.mpr ⟨x, hj, rfl⟩, (hst.use.mem x s r).mpr ⟨_, hx, rfl, hr⟩⟩
  · exact fun j xf hj stash => stashedTransfers_use hcanonical hpartition hst hlog hL hordered hj
  · unfold stashedTransfers
    rw [pairwise_map]
    refine Pairwise.imp_of_mem ?_ hnodup
    intro u v hu hv hne
    exact tgtRanges_disjoint hpartition (hlt u hu) (hlt v hv) hne
  · intro b
    rw [hcover]
    have hmap : ∀ r, r ∈ ((stashedTransfers xfs st L).map StashedTransfer.toTransfer).map
        Transfer.tgtRanges ↔ r ∈ xfs.map Transfer.tgtRanges := fun r =>
      (hperm.map Transfer.tgtRanges).mem_iff
    simp only [← hmap, map_map, mem_map, Function.comp, exists_exists_and_eq_and]
  · exact fun xf hxf => (hcanonical' hxf).1.1
  · exact fun xf hxf => (hcanonical' hxf).1.2
  · exact fun xf hxf stash hstash => ((hcanonical' hxf).2 stash hstash).1
  · exact fun xf hxf stash hstash => ((hcanonical' hxf).2 stash hstash).2

end

/-- The plan exists, for any overlaps and cycles between the two images, and
is safe. -/
theorem planTransfers_safe {B : Type} [Zero B] (src tgt : Image B)
    (hpartition : assertPartition tgt.careMap (tgt.fileMap.map Prod.snd) = true) :
    ∃ plan, planTransfers src tgt = some plan ∧
      SafeSequence tgt.careMap (findTransfers src tgt) plan := by
  have hcanonical := findTransfers_canonical src tgt
  have hranges := findTransfers_tgtRanges src tgt
  generalize hxfs : findTransfers src tgt = xfs at hcanonical hranges
  rw [assertPartition_iff tgt.careMap_canonical (by
    intro i hi
    obtain ⟨file, hfile, rfl⟩ := mem_map.mp hi
    exact tgt.fileMap_canonical file hfile), ← hranges] at hpartition
  have hg := generateDigraph_mirrored xfs
  obtain ⟨seq, hseq, hperm⟩ := findVertexSequence_perm hg fun x u h => ⟨h.1, h.2.1⟩
  have hin : ∀ x, x < xfs.length → x ∈ seq := fun x hx =>
    hperm.mem_iff.mpr (mem_range.mpr hx)
  have hinj : ∀ x u, Depends xfs x u → seq.idxOf x ≠ seq.idxOf u := by
    intro x u h heq
    exact h.2.2.1 (((idxOf_inj (hin x h.1)).mp heq).symm)
  have hnonzero : ∀ x u, Depends xfs x u → (overlapOf xfs x u).nonzero = true := by
    intro x u h
    rw [nonzero_iff (overlapOf_canonical hcanonical h.1 h.2.1)]
    exact overlapOf_nonempty hcanonical h
  obtain ⟨log, st, hreverse, hst, hlog, hgraph⟩ :=
    reverseBackwardEdges_spec hg hinj hnonzero fun x u h => hin x h.1
  obtain ⟨L, himprove, hLseq, hordered⟩ := improveVertexSequence_spec hgraph
    (hperm.nodup_iff.mpr nodup_range)
    (fun x u h => h.1.elim (fun e => ⟨hin x e.1, hin u e.2.1⟩)
      fun e => ⟨hin x e.2.1, hin u e.1⟩)
    (fun x u h => h.2)
  refine ⟨stashedTransfers xfs st L, ?_, ?_⟩
  · unfold planTransfers
    rw [hxfs]
    simp only [hseq, hreverse, himprove, Option.bind_eq_bind, Option.bind_some]
  · exact stashedTransfers_safe hcanonical hpartition.1 hpartition.2 hst hlog hinj
      (hLseq.trans hperm) hordered

/-- Ordering transfers with stashes is safe, and `AssertSequenceGood` accepts
the order. -/
theorem transferOrder_safe {B : Type} [Zero B] (src tgt : Image B)
    (hpartition : assertPartition tgt.careMap (tgt.fileMap.map Prod.snd) = true) :
    ∃ plan, planTransfers src tgt = some plan ∧
      SafeSequence tgt.careMap (findTransfers src tgt) plan ∧
      assertSequenceGood tgt plan = true := by
  obtain ⟨plan, hplan, hsafe⟩ := planTransfers_safe src tgt hpartition
  exact ⟨plan, hplan, hsafe, hsafe.assertSequenceGood⟩

/-- Two files that trade places between the source and the target image, so
that every order breaks an edge. -/
def swapImage (swapped : Bool) : Image (Fin 2) where
  totalBlocks := 2
  careMap := { data := [0, 2] }
  fileMap := [(['a'], { data := if swapped then [1, 2] else [0, 1] }),
    (['b'], { data := if swapped then [0, 1] else [1, 2] })]
  extended := RangeSet.empty
  block := fun b => if (b = 0) ≠ swapped then 1 else 0
  totalBlocks_nonneg := by decide
  careMap_canonical := by decide
  careMap_bounds := by decide
  fileMap_canonical := by cases swapped <;> decide
  fileMap_nodup := by cases swapped <;> decide
  extended_canonical := by decide
  extended_bounds := by decide
  extended_careMap := by decide
  zero_blocks := by cases swapped <;> decide

theorem transferOrder_safe_swap :
    (∃ plan, planTransfers (swapImage false) (swapImage true) = some plan ∧
      SafeSequence (swapImage true).careMap
        (findTransfers (swapImage false) (swapImage true)) plan ∧
      assertSequenceGood (swapImage true) plan = true) ∧
    (planTransfers (swapImage false) (swapImage true)).map
        (fun plan => plan.map fun xf => (xf.tgtName, xf.stashBefore.length, xf.useStash.length)) =
      some [(['a'], 1, 0), (['b'], 0, 1)] :=
  ⟨transferOrder_safe _ _ (by decide), by decide⟩

end ShieldTv.Releasetools.BlockImageDiff
