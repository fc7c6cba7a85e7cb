import ShieldTv.Updater.Proofs.Steps

/-!
# Resuming an interrupted update

Between two runs the device is in a state of `Progress`: the targets of the
first commands are written, the next command may be half done, and what later
commands read is still on the partition or saved.  A run repeats the commands
that are done without losing anything of this, and then goes on.
-/

namespace ShieldTv.Updater.BlockImg

open Lib List Option Trace Lib.Text Releasetools
open Releasetools.BlockImageDiff (Command Image Sound Ota Emitted RefsHeld heldAfter
  heldAfter_append refsHeld_append four_nonneg canonical_four bounds_four bounds_empty
  empty_apart_four)

/-! ## Names in a list -/

/-- A name that was freed is not used again to save something. -/
def NoReuse (commands : List Command) : Prop :=
  commands.Pairwise fun c d => ∀ id ∈ c.frees, id ∉ d.saves

instance : DecidablePred NoReuse := fun commands =>
  inferInstanceAs (Decidable (commands.Pairwise fun c d => ∀ id ∈ c.frees, id ∉ d.saves))

section

variable {done rest : List Command} {c : Command} {id : Word}

theorem mem_foldl_hold {held : Finset Word} (h : id ∈ done.foldl Command.hold held) :
    id ∈ held ∨ ∃ r, Command.stash id r ∈ done := by
  induction done generalizing held with
  | nil => exact .inl h
  | cons c done ih =>
    rcases ih h with hheld | ⟨r, hr⟩
    · cases c with
      | stash id' r =>
        rcases Finset.mem_insert.mp hheld with rfl | hheld
        · exact .inr ⟨r, by simp⟩
        · exact .inl hheld
      | free id' => exact .inl (Finset.mem_of_mem_erase hheld)
      | _ => exact .inl hheld
    · exact .inr ⟨r, by simp [hr]⟩

theorem stash_of_held (h : id ∈ heldAfter done) : ∃ r, Command.stash id r ∈ done := by
  rcases mem_foldl_hold h with hheld | hstash
  · simp at hheld
  · exact hstash

theorem held_of_refs (hrefs : RefsHeld ∅ (done ++ c :: rest)) (hid : id ∈ c.refs) :
    id ∈ heldAfter done :=
  (refsHeld_append.mp hrefs).2.1 id hid

theorem free_notMem_of_held (hreuse : NoReuse done) (h : id ∈ heldAfter done) :
    Command.free id ∉ done := by
  intro hfree
  obtain ⟨before, after, rfl⟩ := append_of_mem hfree
  rw [heldAfter_append, foldl_cons] at h
  rcases mem_foldl_hold h with hheld | ⟨r, hr⟩
  · exact Finset.notMem_erase id _ hheld
  · have hlater := (pairwise_append.mp hreuse).2.1
    exact (pairwise_cons.mp hlater).1 _ hr id rfl rfl

end

section

variable {done rest : List Command} {c : Command} {id : Word}

theorem eq_free_of_frees (h : id ∈ c.frees) : c = .free id := by
  cases c with
  | free id' => exact congrArg Command.free (some.inj h)
  | _ => cases h

theorem unused_of_freed (hreuse : NoReuse (done ++ rest)) (hrefs : RefsHeld ∅ (done ++ rest))
    (hc : c ∈ done) (hid : id ∈ c.frees) : ∀ d ∈ rest, id ∉ d.refs ∧ id ∉ d.saves := by
  intro d hd
  constructor
  · intro hmem
    obtain ⟨before, after, rfl⟩ := append_of_mem hd
    rw [← append_assoc] at hreuse hrefs
    have hheld := held_of_refs hrefs hmem
    apply free_notMem_of_held (pairwise_append.mp hreuse).1 hheld
    rw [← eq_free_of_frees hid]
    exact mem_append_left _ hc
  · exact (pairwise_append.mp hreuse).2.2 c hc d hd id hid

end

/-! ## States between two runs -/

variable {B : Type} [Zero B] {data : List B}

omit [Zero B] in
/-- Every stash file holds what its name says. -/
def Disk.Addressed (disk : Disk B) (codec : Codec B) : Prop :=
  ∀ id file, disk.file? id = some file → ∃ data, file = .whole data ∧ codec.sha1 data = id

/-- The commands in `done` are done and of those in `rest` only the first may have
begun. -/
structure Progress (codec : Codec B) (src tgt : Image B) (done rest : List Command)
    (disk : Disk B) : Prop where
  written : ∀ c ∈ done, ∀ b ∈ c.target.toSet, b ∈ tgt.careMap.toSet → disk.block b = tgt.block b
  unwritten : ∀ b ∈ src.careMap.toSet, (∀ c ∈ done, b ∉ c.target.toSet) →
    (∀ c ∈ rest.head?, b ∉ c.target.toSet) → disk.block b = src.block b
  /-- What the first command reads is there, or it has saved it. -/
  source : ∀ c ∈ rest.head?, (∀ b ∈ c.reads.toSet, disk.block b = src.block b) ∨
    ∃ id ∈ c.saves, disk.Holds codec id
  held : ∀ c ∈ rest, ∀ id ∈ c.refs, (∃ r, Command.stash id r ∈ done) → disk.Holds codec id
  addressed : disk.Addressed codec

section

omit [Zero B]

variable {codec : Codec B} {pf : Platform B} {disk : Disk B} {id k : Word}

theorem Disk.Addressed.holds (h : disk.Addressed codec) (hfile : (disk.file? id).isSome = true) :
    disk.Holds codec id := by
  obtain ⟨file, hfile⟩ := isSome_iff_exists.mp hfile
  obtain ⟨data, rfl, hdata⟩ := h id file hfile
  exact ⟨data, hfile, hdata⟩

theorem Disk.Addressed.unlink (h : disk.Addressed codec) (id : Word) :
    (pf.apply disk (.unlink id)).Addressed codec := by
  intro k file hfile
  rw [file?_unlink] at hfile
  split_ifs at hfile
  exact h k file hfile

theorem holds_put (hdir : disk.stash.isSome = true) (hdata : codec.sha1 data = id)
    (h : k = id ∨ disk.Holds codec k) : (pf.apply disk (.put id data)).Holds codec k := by
  unfold Disk.Holds
  rw [file?_put pf disk hdir]
  by_cases hk : k = id
  · exact ⟨data, if_pos hk, hdata.trans hk.symm⟩
  · rw [if_neg hk]
    exact h.resolve_left hk

theorem holds_unlink (hk : k ≠ id) :
    (pf.apply disk (.unlink id)).Holds codec k ↔ disk.Holds codec k := by
  unfold Disk.Holds
  rw [file?_unlink, if_neg hk]

end

variable {id : Word} {blocks : List Int} {c : Command} {disk disk' : Disk B} {contents : Int → B}
  {codec : Codec B}

namespace Progress

variable {codec : Codec B} {src tgt : Image B} {pf : Platform B} {done rest : List Command}

section

variable (h : Progress codec src tgt done rest disk)
include h

theorem congr (hblock : disk'.block = disk.block) (hfile : ∀ id, disk'.file? id = disk.file? id) :
    Progress codec src tgt done rest disk' := by
  have hholds : ∀ id, disk'.Holds codec id ↔ disk.Holds codec id := by
    intro id
    unfold Disk.Holds
    rw [hfile]
  constructor
  · rw [hblock]
    exact h.written
  · rw [hblock]
    exact h.unwritten
  · simp only [hblock, hholds]
    exact h.source
  · simp only [hholds]
    exact h.held
  · intro id file hid
    exact h.addressed id file (hfile id ▸ hid)

theorem put (hdir : disk.stash.isSome = true) (hdata : codec.sha1 data = id) :
    Progress codec src tgt done rest (pf.apply disk (.put id data)) := by
  constructor
  · exact h.written
  · exact h.unwritten
  · intro c hc
    refine (h.source c hc).imp_right ?_
    rintro ⟨k, hk, hholds⟩
    exact ⟨k, hk, holds_put hdir hdata (.inr hholds)⟩
  · intro c hc k hk hstash
    exact holds_put hdir hdata (.inr (h.held c hc k hk hstash))
  · intro k file hfile
    rw [file?_put pf disk hdir] at hfile
    split_ifs at hfile with hk
    · exact ⟨data, (some.inj hfile).symm, hdata.trans hk.symm⟩
    · exact h.addressed k file hfile

theorem unlink (hrefs : ∀ c ∈ rest, id ∈ c.refs → ∀ r, Command.stash id r ∉ done)
    (hsource : ∀ c ∈ rest.head?, id ∉ c.saves ∨ ∀ b ∈ c.reads.toSet, disk.block b = src.block b) :
    Progress codec src tgt done rest (pf.apply disk (.unlink id)) := by
  constructor
  · exact h.written
  · exact h.unwritten
  · intro c hc
    rcases hsource c hc with hsaves | hreads
    · refine (h.source c hc).imp_right ?_
      rintro ⟨k, hk, hholds⟩
      have hne : k ≠ id := by
        rintro rfl
        exact hsaves hk
      exact ⟨k, hk, (holds_unlink hne).mpr hholds⟩
    · exact .inl hreads
  · intro c hc k hk hstash
    have hne : k ≠ id := by
      rintro rfl
      obtain ⟨r, hr⟩ := hstash
      exact hrefs c hc hk r hr
    exact (holds_unlink hne).mpr (h.held c hc k hk hstash)
  · exact h.addressed.unlink id

theorem unlink_absent (hfile : disk.file? id = none) :
    Progress codec src tgt done rest (pf.apply disk (.unlink id)) := by
  refine h.congr rfl fun k => ?_
  rw [file?_unlink]
  split_ifs with hk
  · rw [hk, hfile]
  · rfl

/-- Writes that put the target into blocks of `done`, or anything into blocks of
the first command of `rest`. -/
theorem overwrite {c : Int → B}
    (hdone : ∀ b ∈ blocks, b ∈ tgt.careMap.toSet → (∃ d ∈ done, b ∈ d.target.toSet) →
      c b = tgt.block b) (htarget : ∀ b ∈ blocks, (∃ d ∈ done, b ∈ d.target.toSet) ∨
      ∃ d ∈ rest.head?, b ∈ d.target.toSet)
    (hsource : ∀ d ∈ rest.head?, (∃ id ∈ d.saves, disk.Holds codec id) ∨
      ∀ b ∈ blocks, b ∉ d.reads.toSet) :
    Progress codec src tgt done rest (disk.overwrite blocks c) := by
  constructor
  · intro d hd b hb hcare
    by_cases hmem : b ∈ blocks
    · rw [overwrite_of_mem disk c hmem]
      exact hdone b hmem hcare ⟨d, hd, hb⟩
    · rw [overwrite_of_notMem disk c hmem]
      exact h.written d hd b hb hcare
  · intro b hcare hnot hhead
    have hmem : b ∉ blocks := by
      intro hmem
      rcases htarget b hmem with ⟨d, hd, hb⟩ | ⟨d, hd, hb⟩
      · exact hnot d hd hb
      · exact hhead d hd hb
    rw [overwrite_of_notMem disk c hmem]
    exact h.unwritten b hcare hnot hhead
  · intro d hd
    rcases hsource d hd with hsaved | hreads
    · exact .inr hsaved
    · refine (h.source d hd).imp_left fun hblocks b hb => ?_
      have hmem : b ∉ blocks := fun hmem => hreads b hmem hb
      rw [overwrite_of_notMem disk c hmem]
      exact hblocks b hb
  · exact h.held
  · exact h.addressed

end

section

variable (h : Progress codec src tgt done (c :: rest) disk)
  (hfirst : BlockImageDiff.ReadsFirst (done ++ c :: rest))

include h in
theorem unwritten_next {b : Int} (hcare : b ∈ src.careMap.toSet)
    (hnot : ∀ d ∈ done ++ [c], b ∉ d.target.toSet) : disk.block b = src.block b := by
  apply h.unwritten b hcare
  · exact fun d hd => hnot d (by simp [hd])
  · intro d hd
    cases hd
    exact hnot _ (by simp)

include h hfirst in
/-- What the later commands read has not been touched. -/
theorem reads_later {d : Command} (hd : d ∈ rest) (hsub : d.reads.toSet ⊆ src.careMap.toSet) :
    ∀ b ∈ d.reads.toSet, disk.block b = src.block b := by
  intro b hb
  refine h.unwritten_next (hsub hb) fun e he hbe => ?_
  rw [append_cons] at hfirst
  have hpair := (pairwise_append.mp hfirst).2.2 e he d hd
  exact Set.disjoint_left.mp hpair hbe hb

include h hfirst in
theorem advance (hsub : ∀ d ∈ rest, d.reads.toSet ⊆ src.careMap.toSet)
    (htarget : ∀ b ∈ c.target.toSet, b ∈ tgt.careMap.toSet → disk.block b = tgt.block b)
    (hstash : ∀ id r, c = .stash id r → disk.Holds codec id) :
    Progress codec src tgt (done ++ [c]) rest disk := by
  constructor
  · exact forall_mem_append.mpr ⟨h.written, forall_mem_singleton.mpr htarget⟩
  · exact fun b hcare hnot _ => h.unwritten_next hcare hnot
  · intro d hd
    have hmem : d ∈ rest := mem_of_mem_head? hd
    exact .inl (h.reads_later hfirst hmem (hsub d hmem))
  · intro d hd id hid
    rintro ⟨r, hr⟩
    rcases mem_append.mp hr with hr | hr
    · exact h.held d (by simp [hd]) id hid ⟨r, hr⟩
    · exact hstash id r (mem_singleton.mp hr).symm
  · exact h.addressed

include h in
/-- Writes of the first command of `rest`, if it has saved what it overwrites. -/
theorem write (honce : BlockImageDiff.WritesOnce (done ++ c :: rest))
    (hsaved : (∃ id ∈ c.saves, disk.Holds codec id) ∨ Disjoint c.reads.toSet c.target.toSet)
    (hblocks : ∀ b ∈ blocks, b ∈ c.target.toSet) (contents : Int → B) :
    Progress codec src tgt done (c :: rest) (disk.overwrite blocks contents) := by
  apply h.overwrite
  · intro b hb _ hdone
    obtain ⟨d, hd, hbd⟩ := hdone
    have hpair := (pairwise_append.mp honce).2.2 d hd c (by simp)
    exact absurd (hblocks b hb) (Set.disjoint_left.mp hpair hbd)
  · exact fun b hb => .inr ⟨c, rfl, hblocks b hb⟩
  · intro d hd
    cases hd
    refine hsaved.imp_right fun hdisjoint b hb => ?_
    exact Set.disjoint_right.mp hdisjoint (hblocks b hb)

end

theorem rewrite (h : Progress codec src tgt done rest disk)
    (hfirst : BlockImageDiff.ReadsFirst (done ++ rest)) (hc : c ∈ done)
    (hblocks : ∀ b ∈ blocks, b ∈ c.target.toSet)
    (hcare : ∀ b ∈ c.target.toSet, b ∈ tgt.careMap.toSet → contents b = tgt.block b) :
    Progress codec src tgt done rest (disk.overwrite blocks contents) := by
  apply h.overwrite
  · exact fun b hb hmem _ => hcare b (hblocks b hb) hmem
  · exact fun b hb => .inl ⟨c, hc, hblocks b hb⟩
  · refine fun d hd => .inr fun b hb => ?_
    have hpair := (pairwise_append.mp hfirst).2.2 c hc d (mem_of_mem_head? hd)
    exact Set.disjoint_left.mp hpair (hblocks b hb)

end Progress

/-! ## One command of a run -/

/-- A run has its directory, and the update has come as far as `done`. -/
def Live (codec : Codec B) (src tgt : Image B) (done rest : List Command) (disk : Disk B) : Prop :=
  disk.stash.isSome = true ∧ Progress codec src tgt done rest disk

section

variable {codec : Codec B} {src tgt : Image B} {pf : Platform B} {params : Params B}
  {done rest : List Command} {result : CommandResult B} {effects : List (Effect B)}

theorem Live.unlink_old (h : Live codec src tgt done rest disk) (hholds : ¬disk.Holds codec id)
    {old : List (Effect B)} (hold : old = [] ∨ old = [.unlink id]) :
    Always pf.apply (Live codec src tgt done rest) disk old := by
  rcases hold with rfl | rfl
  · exact always_nil.mpr h
  · refine always_cons.mpr ⟨h, always_nil.mpr ⟨?_, ?_⟩⟩
    · rw [isSome_unlink]
      exact h.1
    · exact h.2.unlink_absent (not_isSome_iff_eq_none.mp (mt h.2.addressed.holds hholds))

/-- A stash only adds a file, and it does so if the file or its contents are there. -/
theorem StashStep.live {r : RangeLib.RangeSet} (hstep : StashStep codec disk id r effects)
    (h : Live codec src tgt done rest disk) :
    Always pf.apply (Live codec src tgt done rest) disk effects ∧
      (disk.Holds codec id ∨ codec.sha1 (r.blocks.map disk.block) = id →
        (run pf.apply disk effects).Holds codec id) := by
  cases hstep with
  | kept hholds => exact ⟨always_nil.mpr h, fun _ => hholds⟩
  | @saved old hholds hold hdata =>
    have halways : Always pf.apply (Live codec src tgt done rest) disk old :=
      h.unlink_old hholds hold
    obtain ⟨hdir, hprogress⟩ := halways.final
    constructor
    · refine always_append.mpr ⟨halways, always_cons.mpr ⟨halways.final, ?_⟩⟩
      exact always_nil.mpr ⟨by rwa [isSome_put], hprogress.put hdir hdata⟩
    · intro _
      rw [run_append, run_cons, run_nil]
      exact holds_put hdir hdata (.inl rfl)
  | missed hholds hold hdata =>
    refine ⟨h.unlink_old hholds (hold.imp_left And.left), ?_⟩
    rintro (hkept | hreadable)
    · exact absurd hkept hholds
    · exact absurd hreadable hdata

theorem CommandStep.redo (hstep : CommandStep codec pf src tgt disk params c result)
    (hwrite : params.canwrite = true) (h : Live codec src tgt done rest disk) (hc : c ∈ done)
    (hfirst : BlockImageDiff.ReadsFirst (done ++ rest))
    (hfree : ∀ id ∈ c.frees, (∀ d ∈ rest, id ∉ d.refs) ∧ ∀ d ∈ rest.head?, id ∉ d.saves) :
    result.rc = .ok () ∧ Always pf.apply (Live codec src tgt done rest) disk result.effects := by
  cases hstep with
  | stash buffer hdata hstep => exact ⟨rfl, (hstep.live h).1⟩
  | free id =>
    obtain ⟨hrefs, hsaves⟩ := hfree id rfl
    rw [if_pos (by simp [hwrite])]
    refine ⟨rfl, ?_⟩
    refine always_cons.mpr ⟨h, always_nil.mpr ⟨by rw [isSome_unlink]; exact h.1, ?_⟩⟩
    exact h.2.unlink (fun d hd hmem => absurd hmem (hrefs d hd)) fun d hd => .inl (hsaves d hd)
  | write buffer _ _ _ _ _ hcare heffects =>
    refine ⟨rfl, heffects.always fun k => ⟨h.1, h.2.rewrite hfirst hc ?_ hcare⟩⟩
    intro b hb
    exact (RangeLib.RangeSet.mem_blocks _ _).mp (mem_of_mem_take hb)
  | untested hno =>
    rw [hwrite] at hno
    exact Bool.noConfusion hno
  | transfer _ _ _ _ hcare hstep =>
    have hdone : ∀ b ∈ c.target.toSet, disk.block b = tgt.block b :=
      fun b hb => h.2.written c hc b hb (hcare hb)
    cases hstep with
    | skipped => exact ⟨rfl, always_nil.mpr h⟩
    | moved _ hnot | saved _ hnot | failed _ hnot => exact absurd hdone hnot

variable (c disk codec src tgt pf done rest result) in
/-- The command is performed; between its effects the update is before or behind it. -/
def Advances : Prop :=
  result.rc = .ok () ∧ Always pf.apply
      (fun d => Live codec src tgt done (c :: rest) d ∨ Live codec src tgt (done ++ [c]) rest d)
      disk result.effects ∧
    Live codec src tgt (done ++ [c]) rest (run pf.apply disk result.effects)

section

variable (h : Live codec src tgt done (c :: rest) disk)
  (honce : BlockImageDiff.WritesOnce (done ++ c :: rest))
  (hfirst : BlockImageDiff.ReadsFirst (done ++ c :: rest))
  (hsub : ∀ d ∈ rest, d.reads.toSet ⊆ src.careMap.toSet)

include h honce hfirst hsub in
theorem Writes.live (hwrites : Writes pf c.target.blocks contents effects)
    (hstash : ∀ id r, c ≠ .stash id r)
    (hcare : ∀ b ∈ c.target.toSet, b ∈ tgt.careMap.toSet → contents b = tgt.block b)
    (hsaved : (∃ id ∈ c.saves, disk.Holds codec id) ∨ Disjoint c.reads.toSet c.target.toSet) :
    Always pf.apply (Live codec src tgt done (c :: rest)) disk effects ∧
      Live codec src tgt (done ++ [c]) rest (Trace.run pf.apply disk effects) := by
  have halways : Always pf.apply (Live codec src tgt done (c :: rest)) disk effects := by
    refine hwrites.always fun k => ⟨h.1, h.2.write honce hsaved ?_ contents⟩
    intro b hb
    exact (RangeLib.RangeSet.mem_blocks _ _).mp (mem_of_mem_take hb)
  obtain ⟨hdir, hprogress⟩ := halways.final
  refine ⟨halways, hdir, hprogress.advance hfirst hsub ?_ fun id r hc => absurd hc (hstash id r)⟩
  intro b hb hmem
  rw [hwrites.run, overwrite_of_mem disk contents ((RangeLib.RangeSet.mem_blocks _ _).mpr hb)]
  exact hcare b hb hmem

include h honce hfirst hsub in
/-- The first command of `rest` is a transfer.  It saves its source before it
overwrites part of it, and removes the copy when it has created it. -/
theorem TransferStep.live {ready : Prop} {srcData : List B}
    (hstep : TransferStep pf disk params (∀ b ∈ c.target.toSet, disk.block b = tgt.block b) ready
      (¬Disjoint c.reads.toSet c.target.toSet) (codec.sha1 srcData) srcData
      (writesOf c.target.blocks tgt.block) result)
    (hspace : ∀ size, pf.cacheSizeCheck size = true) (hstash : ∀ id r, c ≠ .stash id r)
    (hready : ready ↔ ∀ b ∈ c.reads.toSet, disk.block b = src.block b)
    (hsaves : ∀ id, id ∈ c.saves ↔
      ¬Disjoint c.reads.toSet c.target.toSet ∧ id = codec.sha1 srcData) :
    Advances c disk codec src tgt pf done rest result := by
  cases hstep with
  | skipped buffer hdone =>
    have hnext : Live codec src tgt (done ++ [c]) rest disk := by
      refine ⟨h.1, h.2.advance hfirst hsub (fun b hb _ => hdone b hb) ?_⟩
      exact fun id r hc => absurd hc (hstash id r)
    exact ⟨rfl, always_nil.mpr (Or.inl h), hnext⟩
  | moved buffer hdone hsource =>
    have hsaved : (∃ id ∈ c.saves, disk.Holds codec id) ∨
        Disjoint c.reads.toSet c.target.toSet := by
      by_cases hoverlap : Disjoint c.reads.toSet c.target.toSet
      · exact .inr hoverlap
      refine .inl ⟨codec.sha1 srcData, (hsaves _).mpr ⟨hoverlap, rfl⟩, ?_⟩
      rcases hsource with ⟨-, hfile⟩ | ⟨-, -, hfile⟩
      · exact h.2.addressed.holds (hfile hoverlap)
      · exact ⟨srcData, hfile, rfl⟩
    obtain ⟨halways, hlive⟩ := (writes_writesOf pf _ _).live h honce hfirst hsub hstash
      (fun _ _ _ => rfl) hsaved
    exact ⟨rfl, halways.mono fun _ => Or.inl, hlive⟩
  | saved buffer hdone _ hoverlap hfile =>
    have hput : Live codec src tgt done (c :: rest)
        (pf.apply disk (.put (codec.sha1 srcData) srcData)) :=
      ⟨by rw [isSome_put]; exact h.1, h.2.put h.1 rfl⟩
    obtain ⟨halways, hlive⟩ := (writes_writesOf pf c.target.blocks tgt.block).live hput honce
      hfirst hsub hstash (fun _ _ _ => rfl)
      (.inl ⟨_, (hsaves _).mpr ⟨hoverlap, rfl⟩, holds_put h.1 rfl (.inl rfl)⟩)
    -- the file was not there before, so no later command counts on it
    have hunlink : Live codec src tgt (done ++ [c]) rest
        (pf.apply (run pf.apply (pf.apply disk (.put (codec.sha1 srcData) srcData))
          (writesOf c.target.blocks tgt.block)) (.unlink (codec.sha1 srcData))) := by
      refine ⟨by rw [isSome_unlink]; exact hlive.1, hlive.2.unlink ?_ ?_⟩
      · intro d hd hid r hr
        have hmem : Command.stash (codec.sha1 srcData) r ∈ done := by
          rcases mem_append.mp hr with hr | hr
          · exact hr
          · exact absurd (mem_singleton.mp hr).symm (hstash _ r)
        obtain ⟨data, hdata, -⟩ := h.2.held d (by simp [hd]) _ hid ⟨r, hmem⟩
        rw [hfile] at hdata
        cases hdata
      · intro d hd
        have hmem : d ∈ rest := mem_of_mem_head? hd
        exact .inr (halways.final.2.reads_later hfirst hmem (hsub d hmem))
    refine ⟨rfl, always_cons.mpr ⟨Or.inl h, always_append.mpr ⟨?_, ?_⟩⟩, ?_⟩
    · exact halways.mono fun _ => Or.inl
    · exact always_cons.mpr ⟨Or.inr hlive, always_nil.mpr (Or.inr hunlink)⟩
    · rw [run_cons, run_append]
      exact hunlink
  | failed params' hdone heffects hwhy =>
    rcases hwhy with ⟨-, -, hno⟩ | ⟨hnot, hlost⟩
    · rw [hspace] at hno
      exact Bool.noConfusion hno
    · rcases h.2.source c rfl with hreads | ⟨id, hid, data, hfile, hdata⟩
      · exact absurd (hready.mpr hreads) hnot
      · obtain ⟨hoverlap, rfl⟩ := (hsaves id).mp hid
        obtain rfl := codec.sha1_injective hdata
        exact absurd ⟨hoverlap, hfile⟩ hlost

include h honce hfirst hsub in
theorem CommandStep.next (hstep : CommandStep codec pf src tgt disk params c result)
    (hwrite : params.canwrite = true) (hspace : ∀ size, pf.cacheSizeCheck size = true)
    (hrefs : ∀ id ∈ c.refs, ∃ r, Command.stash id r ∈ done)
    (hfree : ∀ id ∈ c.frees, ∀ d ∈ rest, id ∉ d.refs) :
    Advances c disk codec src tgt pf done rest result := by
  cases hstep with
  | @stash id r effects buffer hdata hstep =>
    obtain ⟨halways, hholds⟩ : _ ∧ _ := hstep.live h
    refine ⟨rfl, halways.mono fun _ => Or.inl, halways.final.1, ?_⟩
    refine halways.final.2.advance hfirst hsub ?_ ?_
    · intro b hb
      rw [Command.target, BlockImageDiff.toSet_empty] at hb
      exact hb.elim
    · intro id' r' hc
      cases hc
      apply hholds
      rcases h.2.source _ rfl with hreads | ⟨k, hk, hkept⟩
      · right
        rw [hdata]
        apply congrArg codec.sha1
        apply map_congr_left
        exact fun b hb => hreads b ((RangeLib.RangeSet.mem_blocks _ _).mp hb)
      · cases hk
        exact .inl hkept
  | free id =>
    have hunlink : Live codec src tgt done (.free id :: rest) (pf.apply disk (.unlink id)) := by
      refine ⟨by rw [isSome_unlink]; exact h.1, h.2.unlink ?_ ?_⟩
      · intro d hd hmem
        rcases mem_cons.mp hd with rfl | hd
        · simp [Command.refs] at hmem
        · exact absurd hmem (hfree id rfl d hd)
      · intro d hd
        cases hd
        exact .inl (by simp [Command.saves])
    have hnext : Live codec src tgt (done ++ [.free id]) rest (pf.apply disk (.unlink id)) := by
      refine ⟨hunlink.1, hunlink.2.advance hfirst hsub ?_ (by simp)⟩
      intro b hb
      rw [Command.target, BlockImageDiff.toSet_empty] at hb
      exact hb.elim
    rw [if_pos (by simp [hwrite])]
    refine ⟨rfl, ?_, hnext⟩
    exact always_cons.mpr ⟨Or.inl h, always_nil.mpr (Or.inr hnext)⟩
  | write buffer _ hstash _ hreads _ hcare heffects =>
    obtain ⟨halways, hlive⟩ := heffects.live h honce hfirst hsub hstash hcare
      (.inr (by rw [hreads]; exact Set.empty_disjoint _))
    exact ⟨rfl, halways.mono fun _ => Or.inl, hlive⟩
  | untested hno =>
    rw [hwrite] at hno
    exact Bool.noConfusion hno
  | transfer hkind hready hsaves _ hcare hstep =>
    rw [if_pos hwrite] at hstep
    refine hstep.live h honce hfirst hsub hspace (Command.ne_stash_of_isTransfer hkind) (hready ?_)
      hsaves
    intro id hid
    obtain ⟨data, hfile, -⟩ := h.2.held c (by simp) id hid (hrefs id hid)
    exact ⟨data, hfile⟩

end

end

/-! ## Runs -/

/-- All sizes are in the range of the updater's integers, and no name that was
freed is used again. -/
structure Restartable (src tgt : Image B) (ota : Ota B) : Prop where
  src_total : src.totalBlocks < 2 ^ 31 - 1
  tgt_total : tgt.totalBlocks < 2 ^ 31 - 1
  patch_length : ota.patchData.length < 2 ^ 64
  small : ∀ c ∈ ota.list.commands, c.Small
  noReuse : NoReuse ota.list.commands

theorem reads_subset {src tgt : Image B} {patchData : Bytes}
    (h : Sound codec src tgt patchData c) : c.reads.toSet ⊆ src.careMap.toSet := by
  have hempty : RangeLib.RangeSet.empty.toSet ⊆ src.careMap.toSet := by
    rw [BlockImageDiff.toSet_empty]
    exact Set.empty_subset _
  cases h with
  | stash _ _ hsub => exact hsub
  | free | new | zero | erase => exact hempty
  | transfer h =>
    rw [(IsTransfer.command_fields h).2.1]
    exact h.assembles.direct_subset.trans h.src_subset

def Resumable (codec : Codec B) (src tgt : Image B) (ota : Ota B) (disk : Disk B) : Prop :=
  ∃ done rest, ota.list.commands = done ++ rest ∧ Progress codec src tgt done rest disk

def Resuming (codec : Codec B) (src tgt : Image B) (ota : Ota B) (createdstash : Bool)
    (processed remaining : List Command) (disk : Disk B) (params : Params B) : Prop :=
  Running tgt ota true createdstash remaining params ∧
    ∃ done rest, ota.list.commands = done ++ rest ∧ processed <+: done ∧
      Live codec src tgt done rest disk

section

variable {codec : Codec B} {src tgt : Image B} {ota : Ota B} (hemitted : Emitted codec src tgt ota)
  (hota : Restartable src tgt ota) {pf : Platform B} (hpf : pf.Roomy)

include hemitted hota in
theorem Running.lineStep {canwrite createdstash : Bool} {rest : List Command} {params : Params B}
    (h : Running tgt ota canwrite createdstash (c :: rest) params) (hblk : pf.isBlk = true)
    (hmem : c ∈ ota.list.commands)
    (hfiles : ∀ id ∈ c.refs, ∀ data, disk.file? id = some (.whole data) → codec.sha1 data = id) :
    CommandStep codec pf src tgt disk params c (performLine codec pf disk params c.line) :=
  performLine_step (h.patchData ▸ hemitted.sound c hmem) (hota.small c hmem) hota.src_total
    hota.tgt_total h.version h.freestash (h.patchData ▸ hota.patch_length) hblk hfiles h.newData

include hemitted hota hpf

theorem resuming_step {createdstash : Bool} {processed remaining : List Command} {params : Params B}
    (hsplit : ota.list.commands = processed ++ c :: remaining)
    (h : Resuming codec src tgt ota createdstash processed (c :: remaining) disk params) :
    (performLine codec pf disk params c.line).rc = .ok () ∧
      Always pf.apply (Resumable codec src tgt ota) disk
        (performLine codec pf disk params c.line).effects ∧
      Resuming codec src tgt ota createdstash (processed ++ [c]) remaining
        (run pf.apply disk (performLine codec pf disk params c.line).effects)
        (performLine codec pf disk params c.line).params := by
  obtain ⟨hrunning, done, rest, hcommands, ⟨tail, rfl⟩, hlive⟩ := h
  have hmem : c ∈ ota.list.commands := by simp [hsplit]
  have hstep := Running.lineStep hemitted hota hrunning hpf.isBlk hmem fun id _ data hfile => by
    obtain ⟨data', heq, hdata⟩ := hlive.2.addressed id _ hfile
    cases heq
    exact hdata
  have hwrite := hrunning.canwrite
  have hreuse := hota.noReuse
  have hrefs := hemitted.refsHeld
  have hfirst := hemitted.readsFirst
  have heq : c :: remaining = tail ++ rest := by
    rw [hcommands, append_assoc] at hsplit
    exact (append_cancel_left hsplit).symm
  cases tail with
  | nil =>
    -- all commands of earlier runs have been repeated
    rw [append_nil] at hcommands hlive
    obtain rfl : rest = c :: remaining := heq.symm
    have honce := hemitted.writesOnce
    have hsound := hemitted.sound
    rw [hcommands] at hreuse hrefs hfirst honce hsound
    obtain ⟨hrc, halways, hnext⟩ := hstep.next hlive honce hfirst
      (fun d hd => reads_subset (hsound d (by simp [hd]))) hwrite hpf.space
      (fun id hid => stash_of_held (held_of_refs hrefs hid)) (by
        rw [append_cons] at hreuse hrefs
        exact fun id hid d hd => (unused_of_freed hreuse hrefs (by simp) hid d hd).1)
    refine ⟨hrc, halways.mono ?_, hstep.running hrunning hrc, processed ++ [c], remaining, ?_,
      prefix_rfl, hnext⟩
    · rintro d (hd | hd)
      · exact ⟨_, _, hcommands, hd.2⟩
      · exact ⟨_, _, by rw [hcommands]; simp, hd.2⟩
    · rw [hcommands]
      simp
  | cons d tail =>
    obtain ⟨rfl, -⟩ := cons.inj heq
    have hdone : c ∈ processed ++ c :: tail := by simp
    rw [hcommands] at hreuse hrefs hfirst
    obtain ⟨hrc, halways⟩ := hstep.redo hwrite hlive hdone hfirst (by
      intro id hid
      have hunused := unused_of_freed hreuse hrefs hdone hid
      exact ⟨fun d hd => (hunused d hd).1, fun d hd => (hunused d (mem_of_mem_head? hd)).2⟩)
    refine ⟨hrc, halways.mono fun d hd => ⟨_, _, hcommands, hd.2⟩, hstep.running hrunning hrc,
      _, _, hcommands, ?_, halways.final⟩
    exact ⟨tail, by simp⟩

omit hemitted hota hpf in
theorem Progress.cleanup {done : List Command} (h : Progress codec src tgt done [] disk)
    (hblock : disk'.block = disk.block)
    (hfiles : ∀ id file, disk'.file? id = some file → disk.file? id = some file) :
    Progress codec src tgt done [] disk' where
  written := hblock ▸ h.written
  unwritten := hblock ▸ h.unwritten
  source := nofun
  held := nofun
  addressed := fun id file hfile => h.addressed id file (hfiles id file hfile)

omit hota hpf in
theorem Progress.finished (h : Progress codec src tgt ota.list.commands [] disk) :
    ∀ b ∈ tgt.careMap.toSet, disk.block b = tgt.block b := by
  intro b hb
  by_cases hwritten : ∃ c ∈ ota.list.commands, b ∈ c.target.toSet
  · obtain ⟨c, hc, hbc⟩ := hwritten
    exact h.written c hc b hbc hb
  · push Not at hwritten
    rcases hemitted.covers b hb with ⟨c, hc, hbc⟩ | ⟨hcare, hsame⟩
    · exact absurd hbc (hwritten c hc)
    · rw [← hsame]
      exact h.unwritten b hcare hwritten nofun

theorem resumable_lines (h : Resumable codec src tgt ota disk) (hdir : disk.stash.isSome = true)
    (createdstash : Bool) {result : CommandResult B}
    (hresult : result = performLines codec pf disk (initParams ota false createdstash)
      (ota.list.commands.map Command.line)) :
    result.rc = .ok () ∧ result.params.canwrite = true ∧ result.params.newData = [] ∧
      Always pf.apply (Resumable codec src tgt ota) disk result.effects ∧
      Progress codec src tgt ota.list.commands [] (run pf.apply disk result.effects) := by
  obtain ⟨done, rest, hcommands, hprogress⟩ := h
  have hinit : Resuming codec src tgt ota createdstash [] ota.list.commands disk
      (initParams ota false createdstash) :=
    ⟨.init hemitted false createdstash, done, rest, hcommands, nil_prefix, hdir, hprogress⟩
  have hperforms : Performs pf (Resumable codec src tgt ota) True
      (Resuming codec src tgt ota createdstash ota.list.commands []) disk result := by
    rw [hresult]
    refine performs_performLines (fun processed c remaining disk params hsplit h => ?_) ?_
      [] _ rfl disk _ hinit
    · obtain ⟨hrc, halways, hnext⟩ := resuming_step hemitted hota hpf hsplit h
      exact ⟨halways, fun _ => hrc, fun _ => hnext⟩
    · rintro processed remaining disk params ⟨-, done, rest, hcommands, -, hlive⟩
      exact ⟨done, rest, hcommands, hlive.2⟩
  have hrc := hperforms.ok trivial
  obtain ⟨hrunning, done, rest, hcommands, ⟨tail, rfl⟩, hlive⟩ := hperforms.leads hrc
  have hnil : tail ++ rest = [] := by
    have hlen := congrArg List.length hcommands
    simp only [length_append] at hlen
    exact length_eq_zero_iff.mp (by rw [length_append]; omega)
  obtain ⟨rfl, rfl⟩ := append_eq_nil_iff.mp hnil
  rw [append_nil] at hlive
  exact ⟨hrc, hrunning.canwrite, hrunning.newData hrunning.canwrite, hperforms.always, hlive.2⟩

theorem resumable_run (h : Resumable codec src tgt ota disk) :
    (blockImageUpdate codec pf disk (packageOf ota)).rc = .ok () ∧
      Always pf.apply (Resumable codec src tgt ota) disk
        (blockImageUpdate codec pf disk (packageOf ota)).effects ∧
      ∀ b ∈ tgt.careMap.toSet,
        (run pf.apply disk (blockImageUpdate codec pf disk (packageOf ota)).effects).block b =
          tgt.block b := by
  unfold blockImageUpdate
  rw [performBlockImageUpdate_roomy hemitted hota.tgt_total hpf]
  by_cases htotal : ota.list.total = 0
  · rw [if_pos htotal]
    refine ⟨rfl, always_nil.mpr h, fun b hb => ?_⟩
    obtain ⟨done, rest, hcommands, hprogress⟩ := h
    have hnot : ∀ c ∈ ota.list.commands, b ∉ c.target.toSet := fun c hc =>
      Set.disjoint_right.mp (hemitted.total_zero htotal c hc) hb
    rcases hemitted.covers b hb with ⟨c, hc, hbc⟩ | ⟨hcare, hsame⟩
    · exact absurd hbc (hnot c hc)
    · rw [hcommands] at hnot
      rw [← hsame]
      refine hprogress.unwritten b hcare (fun c hc => hnot c (by simp [hc])) fun c hc => hnot c ?_
      exact mem_append_right _ (mem_of_mem_head? hc)
  · rw [if_neg htotal]
    have hopened : Resumable codec src tgt ota (run pf.apply disk (mkdirs disk)) := by
      obtain ⟨done, rest, hcommands, hprogress⟩ := h
      exact ⟨done, rest, hcommands,
        hprogress.congr (block_mkdirs pf disk) fun id => file?_mkdirs pf disk id⟩
    obtain ⟨hrc, hwrite, hnew, hlines, hprogress⟩ :=
      resumable_lines hemitted hota hpf hopened (isSome_mkdirs pf disk) disk.stash.isNone rfl
    have hdelete := always_deleteStash pf _ fun disk' hblock hfiles =>
      Progress.cleanup hprogress hblock hfiles
    rw [performWithStash_eq (finishUpdate_ok hrc hwrite hnew)]
    refine ⟨rfl, ?_, ?_⟩
    · refine always_append.mpr ⟨always_mkdirs pf disk h hopened, ?_⟩
      refine always_append.mpr ⟨hlines, hdelete.mono ?_⟩
      exact fun disk' h' => ⟨ota.list.commands, [], by simp, h'⟩
    · simp only [run_append]
      exact hdelete.final.finished hemitted

end

/-- A run of the update that ends after some of its effects. -/
def Interrupted (codec : Codec B) (package : Package B) (disk disk' : Disk B) : Prop :=
  ∃ pf : Platform B, pf.Roomy ∧ ∃ k,
    disk' = run pf.apply disk ((blockImageUpdate codec pf disk package).effects.take k)

theorem resumable_fresh {src tgt : Image B} {ota : Ota B} (hemitted : Emitted codec src tgt ota)
    {disk : Disk B} (hblocks : ∀ b ∈ src.careMap.toSet, disk.block b = src.block b)
    (hstash : disk.Addressed codec) : Resumable codec src tgt ota disk := by
  refine ⟨[], ota.list.commands, rfl, ?_⟩
  constructor
  · exact fun _ hc => absurd hc not_mem_nil
  · exact fun b hb _ _ => hblocks b hb
  · intro c hc
    have hsub := reads_subset (hemitted.sound c (mem_of_mem_head? hc))
    exact .inl fun b hb => hblocks b (hsub hb)
  · rintro c - id - ⟨r, hr⟩
    exact absurd hr not_mem_nil
  · exact hstash

/-- However often an update was interrupted, the next run completes it. -/
theorem blockImageUpdate_resumes {codec : Codec B} {src tgt : Image B} {ota : Ota B}
    (hcompute : BlockImageDiff.compute codec 3 src tgt = some ota) (hota : Restartable src tgt ota)
    {fresh disk : Disk B} (hblocks : ∀ b ∈ src.careMap.toSet, fresh.block b = src.block b)
    (hstash : fresh.Addressed codec)
    (hruns : Relation.ReflTransGen (Interrupted codec (packageOf ota)) fresh disk)
    {pf : Platform B} (hpf : pf.Roomy) :
    (blockImageUpdate codec pf disk (packageOf ota)).rc = .ok () ∧
      ∀ b ∈ tgt.careMap.toSet,
        (Trace.run pf.apply disk (blockImageUpdate codec pf disk (packageOf ota)).effects).block b =
          tgt.block b := by
  have hemitted := BlockImageDiff.emitted_of_compute hcompute
  have hresumable : Resumable codec src tgt ota disk := by
    induction hruns with
    | refl => exact resumable_fresh hemitted hblocks hstash
    | tail _ hrun ih =>
      obtain ⟨pf', hpf', k, rfl⟩ := hrun
      exact (resumable_run hemitted hota hpf' ih).2.1 k
  obtain ⟨hrc, -, hdone⟩ := resumable_run hemitted hota hpf hresumable
  exact ⟨hrc, hdone⟩

/-! ## Two pairs of files that trade places -/

/-- The files `a` and `b` trade places, and so do `c` and `d`, whose contents are
given. -/
def pairsImage (swapped : Bool) (d : Fin 16) : Image (Fin 16) where
  totalBlocks := 4
  careMap := { data := [0, 4] }
  fileMap :=
    if swapped then
      [(['a'], { data := [1, 2] }), (['b'], { data := [0, 1] }), (['c'], { data := [3, 4] }),
        (['d'], { data := [2, 3] })]
    else
      [(['a'], { data := [0, 1] }), (['b'], { data := [1, 2] }), (['c'], { data := [2, 3] }),
        (['d'], { data := [3, 4] })]
  extended := RangeLib.RangeSet.empty
  block := fun b =>
    if swapped then if b = 0 then 2 else if b = 1 then 1 else if b = 2 then d else 3
    else if b = 0 then 1 else if b = 1 then 2 else if b = 2 then 3 else d
  totalBlocks_nonneg := four_nonneg
  careMap_canonical := canonical_four
  careMap_bounds := bounds_four
  fileMap_canonical := by cases swapped <;> decide
  fileMap_nodup := by cases swapped <;> decide
  extended_canonical := BlockImageDiff.empty_canonical
  extended_bounds := bounds_empty
  extended_careMap := empty_apart_four
  zero_blocks := by cases swapped <;> simp [BlockImageDiff.zeroDomain]

theorem roomyPlatform_roomy : roomyPlatform.Roomy := ⟨fun _ => rfl, rfl⟩

def pairsOta (d : Fin 16) : Ota (Fin 16) :=
  (BlockImageDiff.compute plainCodec 3 (pairsImage false d) (pairsImage true d)).getD
    { list := ⟨3, 0, 0, 0, []⟩, newData := [], patchData := [] }

theorem compute_pairsImage {d : Fin 16}
    (h : (BlockImageDiff.compute plainCodec 3 (pairsImage false d) (pairsImage true d)).isSome) :
    BlockImageDiff.compute plainCodec 3 (pairsImage false d) (pairsImage true d) =
      some (pairsOta d) := by
  obtain ⟨ota, hota⟩ := isSome_iff_exists.mp h
  unfold pairsOta
  rw [hota]
  rfl

def pairsDisk (d : Fin 16) (effects : Nat) : Disk (Fin 16) :=
  let fresh : Disk (Fin 16) := { block := (pairsImage false d).block, stash := none }
  run roomyPlatform.apply fresh
    ((blockImageUpdate plainCodec roomyPlatform fresh
      (packageOf (pairsOta d))).effects.take effects)

theorem interrupted_pairsDisk (d : Fin 16) (effects : Nat) :
    Interrupted plainCodec (packageOf (pairsOta d)) (pairsDisk d 0) (pairsDisk d effects) :=
  ⟨roomyPlatform, roomyPlatform_roomy, effects, rfl⟩

theorem restartable_pairs : Restartable (pairsImage false 4) (pairsImage true 4) (pairsOta 4) where
  src_total := by decide
  tgt_total := by decide
  patch_length := by decide +kernel
  small := by decide +kernel
  noReuse := by decide +kernel

theorem blockImageUpdate_resumes_pairs :
    (blockImageUpdate plainCodec roomyPlatform (pairsDisk 4 7)
      (packageOf (pairsOta 4))).rc = .ok () ∧
      ∀ b ∈ (pairsImage true 4).careMap.toSet,
        (Trace.run roomyPlatform.apply (pairsDisk 4 7) (blockImageUpdate plainCodec roomyPlatform
          (pairsDisk 4 7) (packageOf (pairsOta 4))).effects).block b =
            (pairsImage true 4).block b := by
  have hblocks : ∀ b ∈ (pairsImage false 4).careMap.toSet,
      (pairsDisk 4 0).block b = (pairsImage false 4).block b := fun _ _ => rfl
  exact blockImageUpdate_resumes (compute_pairsImage (by decide +kernel)) restartable_pairs
    hblocks nofun
    (.single (interrupted_pairsDisk 4 7)) roomyPlatform_roomy

/-- With equal contents of `b` and `d` the stash of `b` is freed before that of
`d`, which has the same name, is made.  After an interruption in between, the
repeated `free` removes the only copy of `d`. -/
theorem blockImageUpdate_loses_stash :
    BlockImageDiff.compute plainCodec 3 (pairsImage false 2) (pairsImage true 2) =
        some (pairsOta 2) ∧
      pairsDisk 2 0 = { block := (pairsImage false 2).block, stash := none } ∧
      Interrupted plainCodec (packageOf (pairsOta 2)) (pairsDisk 2 0) (pairsDisk 2 7) ∧
      (blockImageUpdate plainCodec roomyPlatform (pairsDisk 2 7) (packageOf (pairsOta 2))).rc =
        .error .error :=
  ⟨compute_pairsImage (by decide +kernel), rfl, interrupted_pairsDisk 2 7, by decide +kernel⟩

end ShieldTv.Updater.BlockImg
