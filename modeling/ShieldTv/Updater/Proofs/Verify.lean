import ShieldTv.Updater.Proofs.Resume

/-!
# Verification before an update

`block_image_verify` and `block_image_update` perform the same lines, the first
without writes and, in a stash directory that was there before, without frees.
`Traced` says what both keep from the state they start from.
-/

namespace ShieldTv.Updater.BlockImg

open Lib List Trace Lib.Text Releasetools
open Releasetools.BlockImageDiff (Command Image Sound Ota Emitted)

variable {B : Type}

/-! ## What a run keeps -/

/-- A stash can be had: its file is there, or one of the commands in `done` can
make it. -/
def Available (codec : Codec B) (disk : Disk B) (done : List Command) (id : Word) : Prop :=
  disk.Holds codec id ∨ ∃ r, .stash id r ∈ done ∧ codec.sha1 (r.blocks.map disk.block) = id

/-- The state of a run from `start` when the commands in `done` have been
performed. -/
structure Traced (codec : Codec B) (start : Disk B) (canwrite frees : Bool) (done : List Command)
    (disk : Disk B) : Prop where
  opened : disk.stash.isSome = true
  block : ∀ b, (canwrite = true → ∀ c ∈ done, b ∉ c.target.toSet) → disk.block b = start.block b
  verified : ∀ id r, .stash id r ∈ done → ∀ data, disk.file? id = some (.whole data) →
    codec.sha1 data = id
  kept : ∀ id, (frees = true → .free id ∉ done) → Available codec start done id →
    disk.Holds codec id
  origin : ∀ id, disk.Holds codec id → Available codec start done id

variable {r : RangeLib.RangeSet} {result : CommandResult B}

section

variable {codec : Codec B} {pf : Platform B} {start disk disk' : Disk B} {canwrite frees : Bool}
  {done : List Command} {c : Command} {id : Word} {effects : List (Effect B)}

theorem available_snoc : Available codec start (done ++ [c]) id ↔ Available codec start done id ∨
    ∃ r, c = .stash id r ∧ codec.sha1 (r.blocks.map start.block) = id := by
  simp only [Available, mem_append, mem_singleton, or_and_right, exists_or, or_assoc,
    eq_comm (a := c)]

theorem Traced.init (h : start.stash.isSome = true) :
    Traced codec start canwrite frees [] start where
  opened := h
  block := fun _ _ => rfl
  verified := nofun
  kept := by
    rintro id - (hholds | ⟨r, hr, -⟩)
    · exact hholds
    · exact absurd hr not_mem_nil
  origin := fun _ => Or.inl

theorem Traced.frame (h : Traced codec start canwrite frees done disk)
    (hstash : ∀ id r, c ≠ .stash id r) (hopened : disk'.stash.isSome = true)
    (hfile : ∀ id, disk'.file? id = disk.file? id)
    (hblock : ∀ b, (canwrite = true → b ∉ c.target.toSet) → disk'.block b = disk.block b) :
    Traced codec start canwrite frees (done ++ [c]) disk' := by
  have hholds : ∀ id, disk'.Holds codec id ↔ disk.Holds codec id := by
    intro id
    unfold Disk.Holds
    rw [hfile]
  constructor
  · exact hopened
  · intro b hb
    rw [hblock b fun hwrite => hb hwrite c (by simp)]
    exact h.block b fun hwrite d hd => hb hwrite d (by simp [hd])
  · intro id r hr data hdata
    rcases mem_append.mp hr with hr | hr
    · exact h.verified id r hr data (hfile id ▸ hdata)
    · exact absurd (mem_singleton.mp hr).symm (hstash id r)
  · intro id hfree havailable
    rw [hholds]
    refine h.kept id (fun hf hmem => hfree hf (by simp [hmem])) ?_
    exact (available_snoc.mp havailable).resolve_right fun ⟨r, hc, _⟩ => hstash id r hc
  · intro id hid
    exact available_snoc.mpr (.inl (h.origin id ((hholds id).mp hid)))

theorem unlink_old (pf : Platform B) (hdir : disk.stash.isSome = true) {old : List (Effect B)}
    (hold : old = [] ∨ old = [.unlink id]) :
    (run pf.apply disk old).stash.isSome = true ∧
      (run pf.apply disk old).block = disk.block ∧
      ∀ k ≠ id, (run pf.apply disk old).file? k = disk.file? k := by
  rcases hold with rfl | rfl
  · exact ⟨hdir, rfl, fun _ _ => rfl⟩
  · refine ⟨by rw [run_cons, run_nil, isSome_unlink]; exact hdir, rfl, fun k hk => ?_⟩
    rw [run_cons, run_nil, file?_unlink, if_neg hk]

theorem StashStep.outcome (pf : Platform B) (hstep : StashStep codec disk id r effects)
    (hdir : disk.stash.isSome = true) (hdisk' : disk' = run pf.apply disk effects) :
    disk'.stash.isSome = true ∧ disk'.block = disk.block ∧
      (∀ k ≠ id, disk'.file? k = disk.file? k) ∧
      (disk'.Holds codec id ↔ disk.Holds codec id ∨ codec.sha1 (r.blocks.map disk.block) = id) ∧
      ∀ data, disk'.file? id = some (.whole data) → codec.sha1 data = id := by
  subst hdisk'
  cases hstep with
  | kept hholds =>
    refine ⟨hdir, rfl, fun _ _ => rfl, iff_of_true hholds (.inl hholds), ?_⟩
    intro data hdata
    obtain ⟨data', hfile, hsha⟩ := hholds
    rw [run_nil, hfile] at hdata
    cases hdata
    exact hsha
  | @saved old hholds hold hdata =>
    obtain ⟨hopened, hblock, hfile⟩ := unlink_old pf hdir hold
    rw [run_append, run_cons, run_nil]
    refine ⟨by rwa [isSome_put], hblock, ?_, ?_, ?_⟩
    · intro k hk
      rw [file?_put pf _ hopened, if_neg hk, hfile k hk]
    · exact iff_of_true (holds_put hopened hdata (.inl rfl)) (.inr hdata)
    · intro data hput
      rw [file?_put pf _ hopened, if_pos rfl] at hput
      cases hput
      exact hdata
  | missed hholds hold hdata =>
    obtain ⟨hopened, hblock, hfile⟩ := unlink_old pf hdir (hold.imp_left And.left)
    have hnone : ∀ data, (run pf.apply disk effects).file? id ≠ some (.whole data) := by
      rcases hold with ⟨rfl, hno⟩ | rfl
      · exact hno
      · intro data
        rw [run_cons, run_nil, file?_unlink, if_pos rfl]
        nofun
    refine ⟨hopened, hblock, hfile, iff_of_false ?_ (not_or.mpr ⟨hholds, hdata⟩), ?_⟩
    · rintro ⟨data, hput, -⟩
      exact hnone data hput
    · exact fun data hput => absurd hput (hnone data)

/-- A stash that can be made is there after its command. -/
theorem Traced.stash (h : Traced codec start canwrite frees done disk)
    (hstep : StashStep codec disk id r effects)
    (hreads : ∀ d ∈ done, Disjoint d.target.toSet r.toSet) :
    Traced codec start canwrite frees (done ++ [.stash id r]) (run pf.apply disk effects) := by
  obtain ⟨hopened, hblock, hfile, hholds, hverified⟩ := hstep.outcome pf h.opened rfl
  have hdata : r.blocks.map disk.block = r.blocks.map start.block := by
    apply map_congr_left
    intro b hb
    refine h.block b fun _ d hd hmem => ?_
    exact Set.disjoint_left.mp (hreads d hd) hmem ((RangeLib.RangeSet.mem_blocks _ _).mp hb)
  rw [hdata] at hholds
  have hevery : ∀ k, (run pf.apply disk effects).Holds codec k ↔ disk.Holds codec k ∨
      ∃ r', Command.stash id r = .stash k r' ∧ codec.sha1 (r'.blocks.map start.block) = k := by
    intro k
    by_cases hk : k = id
    · subst hk
      simpa using hholds
    · unfold Disk.Holds
      simp [hfile k hk, Ne.symm hk]
  constructor
  · exact hopened
  · intro b hb
    rw [hblock]
    exact h.block b fun hwrite d hd => hb hwrite d (by simp [hd])
  · intro k r' hr data hput
    by_cases hk : k = id
    · subst hk
      exact hverified data hput
    · rw [hfile k hk] at hput
      exact h.verified k r' (by simpa [hk] using hr) data hput
  · intro k hfree havailable
    rw [hevery]
    exact (available_snoc.mp havailable).imp_left (h.kept k
      fun hf hmem => hfree hf (by simp [hmem]))
  · exact fun k hk => available_snoc.mpr (((hevery k).mp hk).imp_left (h.origin k))

theorem Traced.unlink (h : Traced codec start canwrite true done disk) :
    Traced codec start canwrite true (done ++ [.free id]) (pf.apply disk (.unlink id)) := by
  constructor
  · rw [isSome_unlink]
    exact h.opened
  · exact fun b hb => h.block b fun hwrite d hd => hb hwrite d (by simp [hd])
  · intro k r hr data hfile
    rw [file?_unlink] at hfile
    split_ifs at hfile
    exact h.verified k r (by simpa using hr) data hfile
  · intro k hfree havailable
    have hne : k ≠ id := by
      rintro rfl
      exact hfree rfl (by simp)
    rw [holds_unlink hne]
    refine h.kept k (fun hf hmem => hfree hf (by simp [hmem])) ?_
    exact (available_snoc.mp havailable).resolve_right nofun
  · rintro k ⟨data, hfile, hdata⟩
    rw [file?_unlink] at hfile
    split_ifs at hfile
    exact available_snoc.mpr (.inl (h.origin k ⟨data, hfile, hdata⟩))

variable [Zero B] {src tgt : Image B} {params : Params B}

theorem run_transferWrites (pf : Platform B) (tgt : Image B) (canwrite : Bool) (c : Command)
    (disk : Disk B) (hdisk' : disk' = run pf.apply disk
      (if canwrite then writesOf c.target.blocks tgt.block else [])) :
    disk'.stash = disk.stash ∧
      ∀ b, (canwrite = true → b ∉ c.target.toSet) → disk'.block b = disk.block b := by
  subst hdisk'
  cases canwrite with
  | false => exact ⟨rfl, fun _ _ => rfl⟩
  | true =>
    rw [if_pos rfl, run_writesOf]
    refine ⟨rfl, fun b hb => overwrite_of_notMem disk _ ?_⟩
    rw [RangeLib.RangeSet.mem_blocks]
    exact hb rfl

theorem TransferStep.frame {done ready overlap : Prop} {srchash : Word} {srcData : List B}
    (hstep : TransferStep pf disk params done ready overlap srchash srcData
      (if params.canwrite then writesOf c.target.blocks tgt.block else []) result)
    (hrc : result.rc = .ok ()) (hdir : disk.stash.isSome = true)
    (hdisk' : disk' = run pf.apply disk result.effects) :
    disk'.stash.isSome = true ∧ (∀ id, disk'.file? id = disk.file? id) ∧
      ∀ b, (params.canwrite = true → b ∉ c.target.toSet) → disk'.block b = disk.block b := by
  cases hstep with
  | skipped =>
    subst hdisk'
    exact ⟨hdir, fun _ => rfl, fun _ _ => rfl⟩
  | moved =>
    obtain ⟨hstash, hblock⟩ := run_transferWrites pf tgt params.canwrite c disk hdisk'
    refine ⟨by rw [hstash]; exact hdir, fun id => ?_, hblock⟩
    unfold Disk.file?
    rw [hstash]
  | saved _ _ _ _ hfile =>
    rw [run_cons, run_append, run_cons, run_nil] at hdisk'
    obtain ⟨hstash, hblock⟩ := run_transferWrites pf tgt params.canwrite c
      (pf.apply disk (.put srchash srcData)) rfl
    subst hdisk'
    refine ⟨?_, fun id => ?_, hblock⟩
    · rw [isSome_unlink, hstash, isSome_put]
      exact hdir
    · rw [file?_unlink]
      by_cases hid : id = srchash
      · rw [if_pos hid, hid, hfile]
      · rw [if_neg hid]
        unfold Disk.file?
        rw [hstash]
        exact (file?_put pf disk hdir srchash id srcData).trans (if_neg hid)
  | failed => exact nomatch hrc

theorem CommandStep.traced (hstep : CommandStep codec pf src tgt disk params c result)
    (hrc : result.rc = .ok ())
    (h : Traced codec start params.canwrite (params.createdstash || params.canwrite) done disk)
    (hreads : ∀ d ∈ done, Disjoint d.target.toSet c.reads.toSet) :
    Traced codec start params.canwrite (params.createdstash || params.canwrite) (done ++ [c])
      (run pf.apply disk result.effects) := by
  cases hstep with
  | stash buffer hdata hstep => exact h.stash hstep hreads
  | free id =>
    cases hfrees : params.createdstash || params.canwrite with
    | false =>
      rw [hfrees] at h
      exact h.frame nofun h.opened (fun _ => rfl) fun _ _ => rfl
    | true =>
      rw [hfrees] at h
      rw [if_pos rfl, run_cons, run_nil]
      exact h.unlink
  | write buffer hwrite hstash _ hempty hnew hcare heffects =>
    rw [heffects.run]
    refine h.frame hstash h.opened (fun _ => rfl) fun b hb => overwrite_of_notMem disk _ ?_
    rw [RangeLib.RangeSet.mem_blocks]
    exact hb hwrite
  | untested hno hstash => exact h.frame hstash h.opened (fun _ => rfl) fun _ _ => rfl
  | transfer hkind hready hsaves hnew hcare hstep =>
    obtain ⟨hopened, hfile, hblock⟩ := hstep.frame hrc h.opened rfl
    exact h.frame (Command.ne_stash_of_isTransfer hkind) hopened hfile hblock

/-! ## When a transfer succeeds -/

/-- A transfer has nothing to do, or finds its source. -/
def Performable (codec : Codec B) (src tgt : Image B) (start : Disk B) (done : List Command)
    (c : Command) : Prop :=
  (∀ b ∈ c.target.toSet, start.block b = tgt.block b) ∨
    (∀ b ∈ c.reads.toSet, start.block b = src.block b) ∨
    ∃ id ∈ c.saves, Available codec start done id

/-- The stashes of a transfer are there, unless it has nothing to do. -/
def Supplied (codec : Codec B) (tgt : Image B) (start : Disk B) (done : List Command)
    (c : Command) : Prop :=
  (∀ b ∈ c.target.toSet, start.block b = tgt.block b) ∨
    ∀ id ∈ c.refs, Available codec start done id

omit [Zero B] in
theorem Traced.block_eq (h : Traced codec start canwrite frees done disk)
    (hdisjoint : ∀ d ∈ done, Disjoint d.target.toSet r.toSet) :
    ∀ b ∈ r.toSet, disk.block b = start.block b := by
  intro b hb
  exact h.block b fun _ d hd hmem => Set.disjoint_left.mp (hdisjoint d hd) hmem hb

section

variable (hstep : CommandStep codec pf src tgt disk params c result)
  (h : Traced codec start canwrite frees done disk) (hsupplied : Supplied codec tgt start done c)
  (htargets : ∀ d ∈ done, Disjoint d.target.toSet c.target.toSet)
  (hreads : ∀ d ∈ done, Disjoint d.target.toSet c.reads.toSet)
  (hheld : ∀ id ∈ c.refs, Command.free id ∉ done)

omit [Zero B] in
include h hreads in
theorem Traced.reads_iff (img : Int → B) :
    (∀ b ∈ c.reads.toSet, disk.block b = img b) ↔ ∀ b ∈ c.reads.toSet, start.block b = img b := by
  have hblock := h.block_eq hreads
  exact forall₂_congr fun b hb => by rw [hblock b hb]

omit [Zero B] in
include h htargets in
theorem Traced.target_iff (img : Int → B) :
    (∀ b ∈ c.target.toSet, disk.block b = img b) ↔ ∀ b ∈ c.target.toSet, start.block b = img b := by
  have hblock := h.block_eq htargets
  exact forall₂_congr fun b hb => by rw [hblock b hb]

omit [Zero B] in
include h hheld in
theorem Traced.present (hrefs : ∀ id ∈ c.refs, Available codec start done id) :
    ∀ id ∈ c.refs, ∃ data, disk.file? id = some (.whole data) := by
  intro id hid
  obtain ⟨data, hfile, -⟩ := h.kept id (fun _ => hheld id hid) (hrefs id hid)
  exact ⟨data, hfile⟩

include hstep h hsupplied htargets hreads hheld in
theorem CommandStep.performable (hkind : c.isTransfer = true) (hrc : result.rc = .ok ()) :
    Performable codec src tgt start done c := by
  cases hstep with
  | stash | free => cases hkind
  | write _ _ _ hother | untested _ _ hother =>
    rw [hkind] at hother
    cases hother
  | transfer _ hready hsaves _ _ hstep =>
    by_cases hdone : ∀ b ∈ c.target.toSet, start.block b = tgt.block b
    · exact .inl hdone
    have hrefs := hsupplied.resolve_left hdone
    have hready := hready (h.present hheld hrefs)
    rw [h.reads_iff hreads] at hready
    cases hstep with
    | skipped _ hskip => exact absurd ((h.target_iff htargets tgt.block).mp hskip) hdone
    | moved _ _ hsource =>
      rcases hsource with ⟨hsource, -⟩ | ⟨-, hoverlap, hfile⟩
      · exact .inr (.inl (hready.mp hsource))
      · refine .inr (.inr ⟨_, (hsaves _).mpr ⟨hoverlap, rfl⟩, h.origin _ ⟨_, hfile, rfl⟩⟩)
    | saved _ _ hsource => exact .inr (.inl (hready.mp hsource))
    | failed => exact nomatch hrc

include hstep h hsupplied htargets hreads hheld in
theorem CommandStep.rc_ok (hspace : ∀ size, pf.cacheSizeCheck size = true)
    (hsaved : ∀ id ∈ c.saves, Command.free id ∉ done)
    (hperform : c.isTransfer = true → Performable codec src tgt start done c) :
    result.rc = .ok () := by
  cases hstep with
  | stash | free | write | untested => rfl
  | transfer hkind hready hsaves _ _ hstep =>
    cases hstep with
    | skipped | moved | saved => rfl
    | failed _ hnot _ hwhy =>
      rw [h.target_iff htargets] at hnot
      have hrefs := hsupplied.resolve_left hnot
      have hready := hready (h.present hheld hrefs)
      rw [h.reads_iff hreads] at hready
      rcases hwhy with ⟨-, -, hno⟩ | ⟨hno, hlost⟩
      · rw [hspace] at hno
        cases hno
      · rcases (hperform hkind).resolve_left hnot with hsource | ⟨id, hid, havailable⟩
        · exact absurd (hready.mpr hsource) hno
        · have hholds := h.kept id (fun _ => hsaved id hid) havailable
          obtain ⟨hoverlap, rfl⟩ := (hsaves id).mp hid
          obtain ⟨data, hfile, hdata⟩ := hholds
          obtain rfl := codec.sha1_injective hdata
          exact absurd ⟨hoverlap, hfile⟩ hlost

end

end

/-! ## Two states with the same source data -/

variable [Zero B]

section

variable {codec : Codec B} {src tgt : Image B} {disk disk' : Disk B} {done : List Command}
  {c : Command} {id : Word} (hblock : disk'.block = disk.block)
  (hholds : ∀ id, disk.Holds codec id → disk'.Holds codec id)

include hblock hholds

omit [Zero B] in
theorem Available.transport (h : Available codec disk done id) : Available codec disk' done id := by
  unfold Available
  rw [hblock]
  exact h.imp_left (hholds id)

theorem Supplied.transport (h : Supplied codec tgt disk done c) :
    Supplied codec tgt disk' done c := by
  unfold Supplied
  rw [hblock]
  exact h.imp_right fun hrefs id hid => (hrefs id hid).transport hblock hholds

theorem Performable.transport (h : Performable codec src tgt disk done c) :
    Performable codec src tgt disk' done c := by
  unfold Performable
  rw [hblock]
  refine h.imp_right (Or.imp_right ?_)
  rintro ⟨id, hid, havailable⟩
  exact ⟨id, hid, havailable.transport hblock hholds⟩

end

/-! ## Runs -/

/-- Every stash that a transfer needs is there when it is reached, or the
transfer has nothing to do. -/
def StashesSupplied (codec : Codec B) (tgt : Image B) (ota : Ota B) (disk : Disk B) : Prop :=
  ∀ done c rest, ota.list.commands = done ++ c :: rest → Supplied codec tgt disk done c

/-- Every transfer has nothing to do, or finds its source. -/
def AllPerformable (codec : Codec B) (src tgt : Image B) (commands : List Command)
    (disk : Disk B) : Prop :=
  ∀ done c rest, commands = done ++ c :: rest → c.isTransfer = true →
    Performable codec src tgt disk done c

section

variable {codec : Codec B} {src tgt : Image B} {ota : Ota B} (hemitted : Emitted codec src tgt ota)
  (hota : Restartable src tgt ota) {pf : Platform B} {start disk : Disk B} {params : Params B}
  {canwrite created : Bool} {done rest : List Command} {c : Command}

include hemitted in
theorem disjoint_of_split (hsplit : ota.list.commands = done ++ c :: rest) :
    (∀ d ∈ done, Disjoint d.target.toSet c.target.toSet) ∧
      ∀ d ∈ done, Disjoint d.target.toSet c.reads.toSet := by
  have honce := hemitted.writesOnce
  have hfirst := hemitted.readsFirst
  rw [hsplit] at honce hfirst
  exact ⟨fun d hd => (pairwise_append.mp honce).2.2 d hd c (by simp),
    fun d hd => (pairwise_append.mp hfirst).2.2 d hd c (by simp)⟩

include hemitted hota in
theorem unfreed_of_split (hsplit : ota.list.commands = done ++ c :: rest) :
    (∀ id ∈ c.refs, Command.free id ∉ done) ∧ ∀ id ∈ c.saves, Command.free id ∉ done := by
  have hreuse := hota.noReuse
  have hrefs := hemitted.refsHeld
  rw [hsplit] at hreuse hrefs
  exact ⟨fun id hid hfree => (unused_of_freed hreuse hrefs hfree rfl c (by simp)).1 hid,
    fun id hid hfree => (unused_of_freed hreuse hrefs hfree rfl c (by simp)).2 hid⟩

include hemitted hota in
theorem traced_step (hblk : pf.isBlk = true) (hsplit : ota.list.commands = done ++ c :: rest)
    (hrunning : Running tgt ota canwrite created (c :: rest) params)
    (h : Traced codec start canwrite (created || canwrite) done disk) :
    CommandStep codec pf src tgt disk params c (performLine codec pf disk params c.line) ∧
      ((performLine codec pf disk params c.line).rc = .ok () →
        Running tgt ota canwrite created rest (performLine codec pf disk params c.line).params ∧
        Traced codec start canwrite (created || canwrite) (done ++ [c])
          (run pf.apply disk (performLine codec pf disk params c.line).effects)) := by
  have hmem : c ∈ ota.list.commands := by simp [hsplit]
  have hrefs := hemitted.refsHeld
  rw [hsplit] at hrefs
  have hstep := Running.lineStep hemitted hota hrunning hblk hmem fun id hid data hfile => by
    obtain ⟨r, hr⟩ := stash_of_held (held_of_refs hrefs hid)
    exact h.verified id r hr data hfile
  refine ⟨hstep, fun hrc => ⟨hstep.running hrunning hrc, ?_⟩⟩
  rw [← hrunning.canwrite, ← hrunning.createdstash] at h ⊢
  exact hstep.traced hrc h (disjoint_of_split hemitted hsplit).2

theorem AllPerformable.append (h : AllPerformable codec src tgt done start)
    (hc : c.isTransfer = true → Performable codec src tgt start done c) :
    AllPerformable codec src tgt (done ++ [c]) start := by
  intro before d after hsplit hkind
  rcases eq_nil_or_concat after with rfl | ⟨after, e, rfl⟩
  · obtain ⟨rfl, hd⟩ := append_inj' hsplit rfl
    cases hd
    exact hc hkind
  · rw [concat_eq_append, ← cons_append, ← append_assoc] at hsplit
    obtain ⟨rfl, -⟩ := append_inj' hsplit rfl
    exact h before d after rfl hkind

include hemitted hota in
theorem verify_lines (hblk : pf.isBlk = true) (hopened : start.stash.isSome = true)
    (hsupplied : StashesSupplied codec tgt ota start)
    (hresult : result = performLines codec pf start (initParams ota true created)
      (ota.list.commands.map Command.line)) (hrc : result.rc = .ok ()) :
    Running tgt ota false created [] result.params ∧
      Traced codec start false (created || false) ota.list.commands
        (run pf.apply start result.effects) ∧
      AllPerformable codec src tgt ota.list.commands start := by
  let I := fun done rest (disk : Disk B) params => Running tgt ota false created rest params ∧
    Traced codec start false (created || false) done disk ∧ AllPerformable codec src tgt done start
  have hinit : I [] ota.list.commands start (initParams ota true created) :=
    ⟨.init hemitted true created, .init hopened, by simp [AllPerformable]⟩
  subst hresult
  refine (performs_performLines (I := I) (Q := fun _ => True) (T := False) ?_
    (fun _ _ _ _ _ => trivial) [] _ rfl start _ hinit).leads hrc
  intro done c rest disk params hsplit h
  obtain ⟨hrunning, htraced, hall⟩ := h
  obtain ⟨hstep, hnext⟩ := traced_step hemitted hota hblk hsplit hrunning htraced
  refine ⟨fun _ => trivial, nofun, fun hrc =>
    ⟨(hnext hrc).1, (hnext hrc).2, hall.append fun hkind => ?_⟩⟩
  obtain ⟨htargets, hreads⟩ := disjoint_of_split hemitted hsplit
  exact hstep.performable htraced (hsupplied done c rest hsplit) htargets hreads
    (unfreed_of_split hemitted hota hsplit).1 hkind hrc

include hemitted hota in
theorem update_lines (hpf : pf.Roomy) (hopened : start.stash.isSome = true)
    (hsupplied : StashesSupplied codec tgt ota start)
    (hperform : AllPerformable codec src tgt ota.list.commands start) (created : Bool)
    (hresult : result = performLines codec pf start (initParams ota false created)
      (ota.list.commands.map Command.line)) :
    result.rc = .ok () ∧ Running tgt ota true created [] result.params := by
  let I := fun done rest (disk : Disk B) params => Running tgt ota true created rest params ∧
    Traced codec start true (created || true) done disk
  have hinit : I [] ota.list.commands start (initParams ota false created) :=
    ⟨.init hemitted false created, .init hopened⟩
  have hlines : Performs pf (fun _ => True) True (I ota.list.commands []) start result := by
    rw [hresult]
    refine performs_performLines (fun done c rest disk params hsplit h => ?_)
      (fun _ _ _ _ _ => trivial) [] _ rfl start _ hinit
    obtain ⟨hstep, hnext⟩ := traced_step hemitted hota hpf.isBlk hsplit h.1 h.2
    obtain ⟨htargets, hreads⟩ := disjoint_of_split hemitted hsplit
    obtain ⟨hheld, hsaved⟩ := unfreed_of_split hemitted hota hsplit
    have hrc := hstep.rc_ok h.2 (hsupplied done c rest hsplit) htargets hreads hheld
      hpf.space hsaved
      (hperform done c rest hsplit)
    exact ⟨fun _ => trivial, fun _ => hrc, hnext⟩
  have hrc := hlines.ok trivial
  exact ⟨hrc, (hlines.leads hrc).1⟩

omit [Zero B] in
theorem finishUpdate_dry (hrc : (finishUpdate pf disk result).rc = .ok ()) :
    result.rc = .ok () ∧ (result.params.canwrite = false →
      (finishUpdate pf disk result).effects = result.effects ++
        if result.params.createdstash then deleteStash (run pf.apply disk result.effects)
        else []) := by
  unfold finishUpdate at *
  cases hresult : result.rc with
  | error stop => cases stop <;> simp [hresult] at hrc
  | ok u =>
    refine ⟨rfl, fun hdry => ?_⟩
    simp [hdry]

include hemitted hota in
theorem verify_leaves (hpf : pf.Roomy) (htotal : ota.list.total ≠ 0)
    (hsupplied : StashesSupplied codec tgt ota disk)
    (hrc : (blockImageVerify codec pf disk (packageOf ota)).rc = .ok ()) {disk' : Disk B}
    (hdisk' : disk' =
      run pf.apply disk (blockImageVerify codec pf disk (packageOf ota)).effects) :
    disk'.block = disk.block ∧ (∀ id, disk.Holds codec id → disk'.Holds codec id) ∧
      AllPerformable codec src tgt ota.list.commands disk := by
  unfold blockImageVerify at *
  rw [performBlockImageUpdate_roomy hemitted hota.tgt_total hpf, if_neg htotal,
    performWithStash_eq rfl] at *
  generalize hopened : run pf.apply disk (mkdirs disk) = opened at *
  have hblock : opened.block = disk.block := hopened ▸ block_mkdirs pf disk
  have hfile : ∀ id, opened.file? id = disk.file? id := fun id => hopened ▸ file?_mkdirs pf disk id
  have hdir : opened.stash.isSome = true := hopened ▸ isSome_mkdirs pf disk
  have hholds : ∀ id, opened.Holds codec id ↔ disk.Holds codec id := by
    intro id
    unfold Disk.Holds
    rw [hfile]
  have hback : AllPerformable codec src tgt ota.list.commands opened →
      AllPerformable codec src tgt ota.list.commands disk := fun hall done c rest hsplit hkind =>
    (hall done c rest hsplit hkind).transport hblock.symm fun id => (hholds id).mp
  have hsupplied' : StashesSupplied codec tgt ota opened := fun done c rest hsplit =>
    (hsupplied done c rest hsplit).transport hblock fun id => (hholds id).mpr
  obtain ⟨hlines, heffects⟩ := finishUpdate_dry hrc
  generalize hresult : performLines codec pf opened (initParams ota true disk.stash.isNone)
    (ota.list.commands.map Command.line) = result at *
  obtain ⟨hrunning, htraced, hall⟩ :=
    verify_lines hemitted hota hpf.isBlk hdir hsupplied' hresult.symm hlines
  rw [run_append, hopened, heffects hrunning.canwrite, run_append, hrunning.createdstash] at hdisk'
  have hafter : (run pf.apply opened result.effects).block = disk.block := by
    rw [← hblock]
    exact funext fun b => htraced.block b (by simp)
  cases hnone : disk.stash.isNone with
  | true =>
    rw [hnone, if_pos rfl] at hdisk'
    refine ⟨?_, ?_, hback hall⟩
    · have hdelete := always_deleteStash pf (run pf.apply opened result.effects)
        (P := fun d => d.block = disk.block) fun d hd _ => hd.trans hafter
      rw [hdisk']
      exact hdelete.final
    · rintro id ⟨data, hdata, -⟩
      rw [Disk.file?, Option.isNone_iff_eq_none.mp hnone] at hdata
      cases hdata
  | false =>
    rw [hnone, if_neg (by simp), run_nil] at hdisk'
    subst hdisk'
    refine ⟨hafter, fun id hid => ?_, hback hall⟩
    rw [hnone] at htraced
    exact htraced.kept id (by simp) (.inl ((hholds id).mpr hid))

end

section

variable {codec : Codec B} {src tgt : Image B} {ota : Ota B} {disk : Disk B}
  {done rest before after : List Command} {c : Command} {id : Word}

/-- Where two ways to cut a list put one of its elements. -/
theorem split_cases (hsplit : done ++ rest = before ++ c :: after) :
    c ∈ done ∨ ∃ later, before = done ++ later ∧ rest = later ++ c :: after := by
  rcases append_eq_append_iff.mp hsplit with ⟨later, hbefore, hrest⟩ | ⟨tail, hdone, hrest⟩
  · exact .inr ⟨later, hbefore, hrest⟩
  · cases tail with
    | nil => exact .inr ⟨[], by simp [hdone], hrest.symm⟩
    | cons d tail =>
      obtain ⟨rfl, -⟩ := cons.inj hrest
      exact .inl (by simp [hdone])

/-- A stash that is still to be made can be made, or is there. -/
theorem Progress.available (h : Progress codec src tgt done rest disk)
    (hemitted : Emitted codec src tgt ota) (hcommands : ota.list.commands = done ++ rest)
    (hstash : Command.stash id r ∈ rest) :
    disk.Holds codec id ∨ codec.sha1 (r.blocks.map disk.block) = id := by
  have hmem : Command.stash id r ∈ ota.list.commands := by simp [hcommands, hstash]
  have hsound := hemitted.sound _ hmem
  have hfirst := hemitted.readsFirst
  rw [hcommands] at hfirst
  have hsource : (∀ b ∈ r.toSet, disk.block b = src.block b) ∨ disk.Holds codec id := by
    cases rest with
    | nil => exact absurd hstash not_mem_nil
    | cons d rest =>
      rcases mem_cons.mp hstash with rfl | hlater
      · refine (h.source _ rfl).imp_right ?_
        rintro ⟨k, hk, hholds⟩
        cases hk
        exact hholds
      · exact .inl (h.reads_later hfirst hlater (reads_subset hsound))
  rcases hsource with hreads | hholds
  · right
    have hdata : r.blocks.map disk.block = src.readRangeSet r := by
      apply map_congr_left
      exact fun b hb => hreads b ((RangeLib.RangeSet.mem_blocks _ _).mp hb)
    rw [hdata]
    cases hsound with
    | stash => rfl
    | transfer h => cases h.form
  · exact .inl hholds

/-- In a state left by interrupted runs all stashes are supplied. -/
theorem Resumable.supplied (hemitted : Emitted codec src tgt ota)
    (h : Resumable codec src tgt ota disk) : StashesSupplied codec tgt ota disk := by
  obtain ⟨done, rest, hcommands, hprogress⟩ := h
  intro before c after hsplit
  have hsound := hemitted.sound c (by simp [hsplit])
  have hrefs := hemitted.refsHeld
  rw [hsplit] at hrefs
  by_cases hempty : c.refs = []
  · right
    rw [hempty]
    exact nofun
  have hcare : c.target.toSet ⊆ tgt.careMap.toSet := by
    cases hsound with
    | transfer h =>
      rw [(IsTransfer.command_fields h).1]
      exact h.tgt_subset
    | _ => exact absurd rfl hempty
  rcases split_cases (hcommands.symm.trans hsplit) with hdone | ⟨later, rfl, rfl⟩
  · exact .inl fun b hb => hprogress.written c hdone b hb (hcare hb)
  · right
    intro id hid
    obtain ⟨r, hr⟩ := stash_of_held (held_of_refs hrefs hid)
    rcases mem_append.mp hr with hr' | hr'
    · exact .inl (hprogress.held c (by simp) id hid ⟨r, hr'⟩)
    · rcases hprogress.available hemitted hcommands (mem_append_left _ hr') with hholds | hdata
      · exact .inl hholds
      · exact .inr ⟨r, hr, hdata⟩

end

/-- A verification that succeeds is followed by an update that succeeds. -/
theorem blockImageUpdate_of_verify {codec : Codec B} {src tgt : Image B} {ota : Ota B}
    (hcompute : BlockImageDiff.compute codec 3 src tgt = some ota) (hota : Restartable src tgt ota)
    {disk : Disk B} (hsupplied : StashesSupplied codec tgt ota disk) {pf pf' : Platform B}
    (hpf : pf.Roomy) (hpf' : pf'.Roomy)
    (hverify : (blockImageVerify codec pf disk (packageOf ota)).rc = .ok ()) :
    (blockImageUpdate codec pf'
      (Trace.run pf.apply disk (blockImageVerify codec pf disk (packageOf ota)).effects)
      (packageOf ota)).rc = .ok () := by
  have hemitted := BlockImageDiff.emitted_of_compute hcompute
  generalize hdisk' :
    run pf.apply disk (blockImageVerify codec pf disk (packageOf ota)).effects = disk'
  unfold blockImageUpdate
  rw [performBlockImageUpdate_roomy hemitted hota.tgt_total hpf']
  by_cases htotal : ota.list.total = 0
  · rw [if_pos htotal]
  rw [if_neg htotal]
  obtain ⟨hblock, hholds, hall⟩ :=
    verify_leaves hemitted hota hpf htotal hsupplied hverify hdisk'.symm
  have hopened : (run pf'.apply disk' (mkdirs disk')).block = disk.block :=
    (block_mkdirs pf' disk').trans hblock
  have hopened' : ∀ id, disk.Holds codec id →
      (run pf'.apply disk' (mkdirs disk')).Holds codec id := by
    intro id hid
    unfold Disk.Holds
    rw [file?_mkdirs]
    exact hholds id hid
  obtain ⟨hrc, hrunning⟩ := update_lines hemitted hota hpf' (isSome_mkdirs pf' disk')
    (fun done c rest hsplit => (hsupplied done c rest hsplit).transport hopened hopened')
    (fun done c rest hsplit hkind =>
      (hall done c rest hsplit hkind).transport hopened hopened') disk'.stash.isNone rfl
  rw [performWithStash_eq (finishUpdate_ok hrc hrunning.canwrite
    (hrunning.newData hrunning.canwrite))]

theorem blockImageUpdate_of_verify_pairs :
    (blockImageVerify plainCodec roomyPlatform (pairsDisk 4 7)
      (packageOf (pairsOta 4))).rc = .ok () ∧
      (blockImageUpdate plainCodec roomyPlatform
        (Trace.run roomyPlatform.apply (pairsDisk 4 7) (blockImageVerify plainCodec roomyPlatform
          (pairsDisk 4 7) (packageOf (pairsOta 4))).effects)
        (packageOf (pairsOta 4))).rc = .ok () := by
  have hcompute := compute_pairsImage (d := 4) (by decide +kernel)
  have hemitted := BlockImageDiff.emitted_of_compute hcompute
  have hverify : (blockImageVerify plainCodec roomyPlatform (pairsDisk 4 7)
      (packageOf (pairsOta 4))).rc = .ok () := by decide +kernel
  have hfresh : Resumable plainCodec (pairsImage false 4) (pairsImage true 4) (pairsOta 4)
      (pairsDisk 4 0) := resumable_fresh hemitted (fun _ _ => rfl) nofun
  have hcrashed := (resumable_run hemitted restartable_pairs roomyPlatform_roomy hfresh).2.1 7
  exact ⟨hverify, blockImageUpdate_of_verify hcompute restartable_pairs
    (hcrashed.supplied hemitted) roomyPlatform_roomy roomyPlatform_roomy hverify⟩

/-- The verification does not repeat the `free` that removes the only copy of a
stash, the update does. -/
theorem blockImageUpdate_fails_after_verify :
    BlockImageDiff.compute plainCodec 3 (pairsImage false 2) (pairsImage true 2) =
        some (pairsOta 2) ∧
      (blockImageVerify plainCodec roomyPlatform (pairsDisk 2 7) (packageOf (pairsOta 2))).rc =
        .ok () ∧
      (blockImageUpdate plainCodec roomyPlatform
        (Trace.run roomyPlatform.apply (pairsDisk 2 7) (blockImageVerify plainCodec roomyPlatform
          (pairsDisk 2 7) (packageOf (pairsOta 2))).effects) (packageOf (pairsOta 2))).rc =
        .error .error :=
  ⟨compute_pairsImage (by decide +kernel), by decide +kernel, by decide +kernel⟩

end ShieldTv.Updater.BlockImg
