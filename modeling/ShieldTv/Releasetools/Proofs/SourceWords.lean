import ShieldTv.Lib.Fallible
import ShieldTv.Releasetools.WriteTransfers
import ShieldTv.Releasetools.Proofs.MapWithin
import ShieldTv.Releasetools.Proofs.SafeSequence

/-!
# The source of an emitted command

`WriteTransfers` takes the used stashes out of the source of a transfer and
names each of them with its place in the source.  Whatever it emits describes
the source completely, and for disjoint stashes its partition assertions hold.
-/

namespace ShieldTv.Releasetools.BlockImageDiff

open Lib Lib.Text Lib.Fallible Releasetools.RangeLib
open List hiding Disjoint
open Option hiding mem_map some

/-- A source description of `src` whose stash references are the `parts`. -/
structure Assembles (src : RangeSet) (source : Source) (parts : List (Word × RangeSet)) :
    Prop where
  src_canonical : src.Canonical
  count : source.count = src.size
  direct_canonical : source.direct.Canonical
  direct_subset : source.direct.toSet ⊆ src.toSet
  locs : source.direct.nonzero = true →
    source.locs = if parts.isEmpty then none else src.mapWithin source.direct
  part_canonical : ∀ part ∈ parts, part.2.Canonical
  part_subset : ∀ part ∈ parts, part.2.toSet ⊆ src.toSet
  part_direct : ∀ part ∈ parts, Disjoint part.2.toSet source.direct.toSet
  part_token : ∀ part ∈ parts, IsToken ' ' part.1 ∧ IsToken ':' part.1
  refs : Forall₂ (fun ref part => ref.1 = part.1 ∧ src.mapWithin part.2 = some ref.2)
    source.refs parts
  cover : ∀ b ∈ src.toSet, b ∈ source.direct.toSet ∨ ∃ part ∈ parts, b ∈ part.2.toSet

section

variable {α β : Type*} {R : α → β → Prop} {xs : List α} {ys : List β} (h : Forall₂ R xs ys)
include h

theorem exists_right_of_forall₂ {x : α} (hx : x ∈ xs) : ∃ y ∈ ys, R x y := by
  induction h with
  | nil => simp at hx
  | @cons x' y' xs ys hhead _ ih =>
    rcases mem_cons.mp hx with rfl | hx
    · exact ⟨y', by simp, hhead⟩
    · obtain ⟨y, hy, hxy⟩ := ih hx
      exact ⟨y, by simp [hy], hxy⟩

theorem exists_left_of_forall₂ {y : β} (hy : y ∈ ys) : ∃ x ∈ xs, R x y :=
  exists_right_of_forall₂ h.flip hy

end

/-! ## Ranks of the parts of a source -/

/-- The places of disjoint parts that make up a source are a partition of the
whole buffer. -/
theorem assertPartition_mapWithin {src : RangeSet} (hsrc : src.Canonical)
    {maps sets : List RangeSet}
    (hmaps : sets.map src.mapWithin = maps.map some)
    (hsets : ∀ s ∈ sets, s.Canonical ∧ s.toSet ⊆ src.toSet)
    (hdisjoint : sets.Pairwise fun s t => Disjoint s.toSet t.toSet)
    (hcover : ∀ b ∈ src.toSet, ∃ s ∈ sets, b ∈ s.toSet) :
    assertPartition (RangeSet.ofData [0, src.size]) maps = true := by
  have hsize : 0 ≤ src.size := by
    rw [RangeSet.size_eq_length_blocks hsrc]
    omega
  have hwhole : (RangeSet.ofData [0, src.size]).Canonical :=
    RangeSet.ofData_canonical (by simpa using hsize) (by simp)
  rw [assertPartition_iff hwhole (RangeSet.mapWithin_canonical hsrc hmaps hsets)]
  refine ⟨RangeSet.mapWithin_disjoint hsrc hmaps hsets hdisjoint, fun x => ?_⟩
  rw [← RangeSet.mapWithin_cover hsrc hmaps hsets hcover, RangeSet.mem_toSet hwhole,
    RangeSet.ofData_oddAt, ← RangeSet.exists_pairs_iff_oddAt (by simp) (by simpa using hsize)]
  simp [RangeSet.pairs]

variable {B : Type} [Zero B]

/-- The name of a stash in slot `sid`: the slot itself, or the hash of its
contents. -/
def stashName (codec : Codec B) (version : Nat) (src : Image B) (sid : Nat) (r : RangeSet) :
    Word :=
  if version = 2 then decimal sid else codec.sha1 (src.readRangeSet r)

theorem isToken_stashName (codec : Codec B) (version : Nat) (src : Image B) (sid : Nat)
    (r : RangeSet) {sep : Char} (hdigit : sep.isDigit = false ∧ sep ≠ '-')
    (hhex : sep ∉ hexDigits) :
    IsToken sep (stashName codec version src sid r) := by
  unfold stashName
  split_ifs
  · exact isToken_decimal _ hdigit
  · exact codec.isToken_sha1 hhex _

section

variable {codec : Codec B} {version : Nat} {src : Image B} {srcRanges : RangeSet}

/-- What one use of a stash does to the description of the source. -/
theorem useOne_source {st st' : SourceState} {stash : Nat × RangeSet}
    (h : useOne codec version src srcRanges st stash = some st') :
    ∃ sid mapped, srcRanges.mapWithin stash.2 = some mapped ∧
      st'.unstashed = st.unstashed.subtract stash.2 ∧
      st'.mapped = st.mapped ++ [mapped] ∧
      st'.refs = st.refs ++ [(stashName codec version src sid stash.2, mapped)] := by
  unfold useOne at h
  simp only [bind_eq_bind, bind_eq_some_iff] at h
  obtain ⟨sid, -, mapped, hmapped, h⟩ := h
  refine ⟨sid, mapped, hmapped, ?_⟩
  unfold stashName
  split_ifs at h ⊢ with hversion
  · cases h
    exact ⟨rfl, rfl, rfl⟩
  · simp only [bind_eq_some_iff] at h
    obtain ⟨n, -, h⟩ := h
    split_ifs at h
    · cases h
      exact ⟨rfl, rfl, rfl⟩
    · cases h
      exact ⟨rfl, rfl, rfl⟩

theorem foldlM_useOne_source {stashes : List (Nat × RangeSet)} {st st' : SourceState}
    (h : stashes.foldlM (useOne codec version src srcRanges) st = some st') :
    st'.unstashed = stashes.foldl (fun x stash => x.subtract stash.2) st.unstashed ∧
    ∃ refs, st'.refs = st.refs ++ refs ∧ st'.mapped = st.mapped ++ refs.map Prod.snd ∧
      Forall₂ (fun ref stash => (∃ sid, ref.1 = stashName codec version src sid stash.2) ∧
        srcRanges.mapWithin stash.2 = some ref.2) refs stashes := by
  induction stashes generalizing st with
  | nil =>
    cases h
    exact ⟨rfl, [], by simp, by simp, .nil⟩
  | cons stash stashes ih =>
    obtain ⟨st₁, hone, hrest⟩ := foldlM_cons_eq_some.mp h
    obtain ⟨sid, mapped, hmapped, hunstashed, hmaps, hrefs⟩ := useOne_source hone
    obtain ⟨hunstashed', refs, hrefs', hmaps', hall⟩ := ih hrest
    refine ⟨by rw [hunstashed', hunstashed]; rfl,
      (stashName codec version src sid stash.2, mapped) :: refs, ?_, ?_, ?_⟩
    · rw [hrefs', hrefs, append_assoc]
      rfl
    · rw [hmaps', hmaps, append_assoc]
      rfl
    · exact .cons ⟨⟨sid, rfl⟩, hmapped⟩ hall

/-- The used stashes under the names they are referred to by. -/
def sourceParts (refs : List (Word × RangeSet)) (stashes : List (Nat × RangeSet)) :
    List (Word × RangeSet) :=
  List.zipWith (fun ref stash => (ref.1, stash.2)) refs stashes

section

variable {refs : List (Word × RangeSet)} {stashes : List (Nat × RangeSet)}
  {R : Word × RangeSet → Nat × RangeSet → Prop} (h : Forall₂ R refs stashes)

include h

theorem isEmpty_sourceParts : (sourceParts refs stashes).isEmpty = stashes.isEmpty := by
  cases h with
  | nil | cons => rfl

theorem forall₂_sourceParts {P : Word × RangeSet → Word × RangeSet → Prop}
    (hP : ∀ ref stash, R ref stash → P ref (ref.1, stash.2)) :
    Forall₂ P refs (sourceParts refs stashes) := by
  induction h with
  | nil => exact .nil
  | cons hhead _ ih => exact .cons (hP _ _ hhead) ih

theorem sourceParts_forall₂ : Forall₂ (fun part stash => ∃ ref, R ref stash ∧
    part = (ref.1, stash.2))
    (sourceParts refs stashes) stashes := by
  induction h with
  | nil => exact .nil
  | cons hhead _ ih => exact .cons ⟨_, hhead, rfl⟩ ih

theorem of_mem_sourceParts {part : Word × RangeSet} (hpart : part ∈ sourceParts refs stashes) :
    ∃ ref, ∃ stash ∈ stashes, R ref stash ∧ part = (ref.1, stash.2) := by
  obtain ⟨stash, hstash, ref, h⟩ := exists_right_of_forall₂ (sourceParts_forall₂ h) hpart
  exact ⟨ref, stash, hstash, h⟩

end

variable {xf : StashedTransfer} {st : WriterState} {used : SourceState} {source : Source}

theorem buildSource_eq (h : buildSource xf used = some source) :
    source.count = xf.srcRanges.size ∧ source.direct = used.unstashed ∧
      source.refs = used.refs ∧
      (used.unstashed.nonzero = true →
        source.locs =
          if xf.useStash.isEmpty then none else xf.srcRanges.mapWithin used.unstashed) := by
  unfold buildSource at h
  dsimp only at h
  split_ifs at h with hdirect hempty hpart
  · cases h
    simp [hempty]
  · rw [bind_eq_bind, bind_eq_some_iff] at h
    obtain ⟨locs, hlocs, h⟩ := h
    split_ifs at h
    cases h
    simp [hempty, hlocs]
  · cases h
    simp [hdirect]

def SourceState.init (st : WriterState) (srcRanges : RangeSet) : SourceState :=
  { writer := st, unstashed := srcRanges, mapped := [], refs := [], frees := [] }

section

variable (hsrc : xf.srcRanges.Canonical)
  (hstash : ∀ stash ∈ xf.useStash, stash.2.Canonical ∧ stash.2.toSet ⊆ xf.srcRanges.toSet)
  (hfold : xf.useStash.foldlM (useOne codec version src xf.srcRanges)
    (SourceState.init st xf.srcRanges) = some used)

include hfold in
theorem foldlM_useOne_refs :
    Forall₂ (fun ref stash => (∃ sid, ref.1 = stashName codec version src sid stash.2) ∧
      xf.srcRanges.mapWithin stash.2 = some ref.2) used.refs xf.useStash := by
  obtain ⟨-, refs, hrefs, -, hall⟩ := foldlM_useOne_source hfold
  rw [hrefs]
  simpa [SourceState.init] using hall

include hsrc hstash hfold in
theorem mem_unstashed : used.unstashed.Canonical ∧ ∀ b, b ∈ used.unstashed.toSet ↔
      b ∈ xf.srcRanges.toSet ∧ ∀ stash ∈ xf.useStash, b ∉ stash.2.toSet := by
  obtain ⟨hunstashed, -⟩ := foldlM_useOne_source hfold
  rw [hunstashed]
  exact foldl_subtract_spec xf.useStash hsrc fun stash hmem => (hstash stash hmem).1

include hsrc hstash hfold in
theorem assembles_of_buildSource (hsource : buildSource xf used = some source) :
    Assembles xf.srcRanges source (sourceParts source.refs xf.useStash) := by
  obtain ⟨hcount, hdirect, hrefs, hlocs⟩ := buildSource_eq hsource
  have hall := foldlM_useOne_refs hfold
  obtain ⟨hcanonical, hmem⟩ := mem_unstashed hsrc hstash hfold
  rw [← hrefs] at hall
  rw [← hdirect] at hcanonical hmem hlocs
  have hpart : ∀ part ∈ sourceParts source.refs xf.useStash, (part.2.Canonical ∧
      part.2.toSet ⊆ xf.srcRanges.toSet) ∧ Disjoint part.2.toSet source.direct.toSet ∧
      IsToken ' ' part.1 ∧ IsToken ':' part.1 := by
    intro part hpart
    obtain ⟨ref, stash, hmem', ⟨⟨sid, hname⟩, -⟩, rfl⟩ := of_mem_sourceParts hall hpart
    refine ⟨hstash stash hmem', ?_, ?_⟩
    · rw [Set.disjoint_right]
      exact fun b hb => ((hmem b).mp hb).2 stash hmem'
    · rw [hname]
      exact ⟨isToken_stashName _ _ _ _ _ (by decide) (by decide),
        isToken_stashName _ _ _ _ _ (by decide) (by decide)⟩
  constructor
  · exact hsrc
  · exact hcount
  · exact hcanonical
  · exact fun b hb => ((hmem b).mp hb).1
  · intro hnonzero
    rw [hlocs hnonzero, isEmpty_sourceParts hall]
  · exact fun part h => (hpart part h).1.1
  · exact fun part h => (hpart part h).1.2
  · exact fun part h => (hpart part h).2.1
  · exact fun part h => (hpart part h).2.2
  · exact forall₂_sourceParts hall fun ref stash h => ⟨rfl, h.2⟩
  · intro b hb
    by_cases hdir : b ∈ source.direct.toSet
    · exact Or.inl hdir
    · right
      rw [hmem] at hdir
      push Not at hdir
      obtain ⟨stash, hstash, hb⟩ := hdir hb
      obtain ⟨part, hmem, ref, -, rfl⟩ :=
        exists_left_of_forall₂ (sourceParts_forall₂ hall) hstash
      exact ⟨_, hmem, hb⟩

include hsrc hstash hfold in
/-- The partition assertions hold for disjoint stashes. -/
theorem exists_buildSource
    (hdisjoint : xf.useStash.Pairwise fun s t => Disjoint s.2.toSet t.2.toSet) :
    ∃ source, buildSource xf used = some source := by
  obtain ⟨-, refs, hrefs, hmapped, hall⟩ := foldlM_useOne_source hfold
  obtain ⟨hcanonical, hmem⟩ := mem_unstashed hsrc hstash hfold
  have hsub : used.unstashed.toSet ⊆ xf.srcRanges.toSet := fun b hb => ((hmem b).mp hb).1
  have hmaps : (xf.useStash.map Prod.snd).map xf.srcRanges.mapWithin = used.mapped.map some := by
    rw [hmapped, SourceState.init, nil_append, ← forall₂_eq_eq_eq]
    simp only [forall₂_map_left_iff, forall₂_map_right_iff]
    exact hall.flip.imp fun _ _ h => h.2
  have hsets : ∀ s ∈ xf.useStash.map Prod.snd, s.Canonical ∧ s.toSet ⊆ xf.srcRanges.toSet := by
    intro s hs
    obtain ⟨stash, hmem, rfl⟩ := mem_map.mp hs
    exact hstash stash hmem
  have hpairwise : (xf.useStash.map Prod.snd).Pairwise fun s t => Disjoint s.toSet t.toSet :=
    pairwise_map.mpr hdisjoint
  have hcover : ∀ b ∈ xf.srcRanges.toSet, b ∉ used.unstashed.toSet →
      ∃ s ∈ xf.useStash.map Prod.snd, b ∈ s.toSet := by
    intro b hb hnot
    rw [hmem] at hnot
    push Not at hnot
    obtain ⟨stash, hmem, hbs⟩ := hnot hb
    exact ⟨stash.2, mem_map_of_mem hmem, hbs⟩
  unfold buildSource
  dsimp only
  split_ifs with hdirect hempty hpart
  · exact ⟨_, rfl⟩
  · obtain ⟨locs, hlocs, -⟩ := RangeSet.mapWithin_spec hsrc hcanonical hsub
    have hpartition : assertPartition (RangeSet.ofData [0, xf.srcRanges.size])
        (used.mapped ++ [locs]) = true := by
      have hall : (xf.useStash.map Prod.snd ++ [used.unstashed]).map xf.srcRanges.mapWithin =
          (used.mapped ++ [locs]).map some := by
        rw [map_append, map_append, hmaps, map_singleton, map_singleton, hlocs]
      apply assertPartition_mapWithin hsrc hall
      · exact forall_mem_append.mpr ⟨hsets, forall_mem_singleton.mpr ⟨hcanonical, hsub⟩⟩
      · refine pairwise_append.mpr ⟨hpairwise, by simp, fun s hs t ht => ?_⟩
        obtain ⟨stash, hstash, rfl⟩ := mem_map.mp hs
        rw [mem_singleton.mp ht, Set.disjoint_right]
        exact fun b hb => ((hmem b).mp hb).2 stash hstash
      · intro b hb
        by_cases hb' : b ∈ used.unstashed.toSet
        · exact ⟨used.unstashed, by simp, hb'⟩
        · obtain ⟨s, hs, hbs⟩ := hcover b hb hb'
          exact ⟨s, mem_append_left _ hs, hbs⟩
    rw [hlocs]
    simp only [bind_eq_bind, bind_some, hpartition, if_true]
    exact ⟨_, rfl⟩
  · exact ⟨_, rfl⟩
  · refine absurd (assertPartition_mapWithin hsrc hmaps hsets hpairwise ?_) hpart
    intro b hb
    apply hcover b hb
    intro hb'
    exact hdirect ((nonzero_iff hcanonical).mpr ⟨b, hb'⟩)

end

end

end ShieldTv.Releasetools.BlockImageDiff
