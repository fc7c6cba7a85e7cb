import ShieldTv.Ext4Utils.Ext4Fixup

/-!
# Passes over the directories

Whatever a pass was doing when it was stopped, each block of a directory has been taken through the
pass or not. A pass that starts from such an image takes all blocks through, and a block whose
numbers are new is written only after the blocks of its subdirectories.
-/

namespace ShieldTv.Ext4Utils

open Lib.Device List Env

/-! ## The directories of an image -/

section Tree

variable (env : Env) (img : Image)

def Env.inodeAt (inum : Nat) : Inode :=
  img.inodeTable ((inum - 1) / env.inodesPerGroup) ((inum - 1) % env.inodesPerGroup)

/-- Whether the inode of an entry is a directory, as far as the entry and the inode tell. -/
def Env.entryIsDir (e : DirEntry) : Bool :=
  match e.fileType with
  | .directory => true
  | .unknown => (env.inodeAt img e.inode).isDir
  | .other => false

def Env.childOf (e : DirEntry) : Option Inode :=
  if e.inode ≠ 0 ∧ env.entryIsDir img e ∧ Env.isProperName e.name then
    some (env.inodeAt img e.inode)
  else
    none

def Env.blocksOf (d : Inode) : List Nat := (env.blockList d).getD []

def Env.entriesOf (d : Inode) : List DirEntry := (env.blocksOf d).flatMap img.entriesAt

def Env.subdirs (d : Inode) : List Inode := (env.entriesOf img d).filterMap (env.childOf img)

/-- The directories at and under `d`, each one after those under it. -/
def Env.directories : Nat → Inode → List Inode
  | 0, _ => []
  | depth + 1, d => (env.subdirs img d).flatMap (directories depth) ++ [d]

/-- Directories are nested at most so deep. -/
def Env.Bounded : Nat → Inode → Prop
  | 0, _ => False
  | depth + 1, d => ∀ c ∈ env.subdirs img d, Bounded depth c

def Env.treeBlocks (depth : Nat) (d : Inode) : List Nat :=
  (env.directories img depth d).flatMap env.blocksOf

end Tree

variable {b n depth : Nat} {e : DirEntry} {img : Image} {done blocks : List Nat} {d : Inode}

section TreeLemmas

variable {env : Env} {depth : Nat} {c x : Inode}

theorem mem_directories_self (h : env.Bounded img depth d) : d ∈ env.directories img depth d := by
  cases depth with
  | zero => exact h.elim
  | succ depth => exact mem_append_right _ mem_cons_self

theorem directories_child (hc : c ∈ env.subdirs img d) (hx : x ∈ env.directories img depth c) :
    x ∈ env.directories img (depth + 1) d :=
  mem_append_left _ (mem_flatMap.mpr ⟨c, hc, hx⟩)

theorem mem_treeBlocks_succ (hb : b ∈ env.treeBlocks img (depth + 1) d) :
    (∃ c ∈ env.subdirs img d, b ∈ env.treeBlocks img depth c) ∨ b ∈ env.blocksOf d := by
  obtain ⟨x, hx, hbx⟩ := mem_flatMap.mp hb
  rcases mem_append.mp hx with hx | hx
  · obtain ⟨c, hc, hx⟩ := mem_flatMap.mp hx
    exact Or.inl ⟨c, hc, mem_flatMap.mpr ⟨x, hx, hbx⟩⟩
  · rw [mem_singleton.mp hx] at hbx
    exact Or.inr hbx

theorem directory_unique (hnodup : (env.treeBlocks img depth d).Nodup) {y : Inode}
    (hx : x ∈ env.directories img depth d) (hy : y ∈ env.directories img depth d)
    (hbx : b ∈ env.blocksOf x) (hby : b ∈ env.blocksOf y) : x = y := by
  by_contra hne
  have hpair := (nodup_flatMap.mp hnodup).2
  have : Std.Symm (Function.onFun List.Disjoint env.blocksOf) := ⟨fun _ _ h => h.symm⟩
  have hdisjoint := hpair.forall hx hy hne
  exact hdisjoint hbx hby

end TreeLemmas

/-! ## Entries on their way -/

inductive Phase where
  | original
  | marked
  | updated
  deriving DecidableEq

namespace Env

variable (env : Env)

def setPhase : Phase → DirEntry → DirEntry
  | .original, e => e
  | .marked, e => if e.inode = 0 then e else { e with inode := setHighBit e.inode }
  | .updated, e => if e.inode = 0 then e else { e with inode := env.computeNewInum e.inode }

/-- The numbers of an entry and of its inode after the pass are below the marking bit, and its
record has at least the smallest length. -/
structure EntryValid (e : DirEntry) : Prop where
  recLen : 12 ≤ e.recLen
  inode : e.inode < 2 ^ 31
  newInode : e.inode ≠ 0 → 0 < env.computeNewInum e.inode ∧ env.computeNewInum e.inode < 2 ^ 31

variable {env} {p : Phase}

section

variable (p : Phase) (e : DirEntry)

@[simp] theorem setPhase_recLen : (env.setPhase p e).recLen = e.recLen := by
  cases p <;> simp only [setPhase] <;> split_ifs <;> rfl

@[simp] theorem setPhase_name : (env.setPhase p e).name = e.name := by
  cases p <;> simp only [setPhase] <;> split_ifs <;> rfl

@[simp] theorem setPhase_fileType : (env.setPhase p e).fileType = e.fileType := by
  cases p <;> simp only [setPhase] <;> split_ifs <;> rfl

end

theorem setPhase_unused (h : e.inode = 0) (p : Phase) : env.setPhase p e = e := by
  cases p with
  | original => rfl
  | marked | updated => rw [setPhase, if_pos h]

theorem setPhase_marked (h : e.inode ≠ 0) :
    env.setPhase .marked e = { e with inode := setHighBit e.inode } := if_neg h

theorem setPhase_updated (h : e.inode ≠ 0) :
    env.setPhase .updated e = { e with inode := env.computeNewInum e.inode } := if_neg h

theorem setPhase_used (hvalid : env.EntryValid e) (h : e.inode ≠ 0) (p : Phase) :
    (env.setPhase p e).inode ≠ 0 := by
  cases p with
  | original => exact h
  | marked =>
    rw [setPhase_marked h]
    change e.inode % 2 ^ 31 + 2 ^ 31 ≠ 0
    omega
  | updated =>
    rw [setPhase_updated h]
    exact Nat.ne_of_gt (hvalid.newInode h).1

theorem clearHighBit_setHighBit (h : n < 2 ^ 31) : clearHighBit (setHighBit n) = n := by
  unfold clearHighBit setHighBit
  omega

theorem setHighBit_setHighBit (n : Nat) : setHighBit (setHighBit n) = setHighBit n := by
  unfold setHighBit
  omega

theorem clearHighBit_of_lt (h : n < 2 ^ 31) : clearHighBit n = n := Nat.mod_eq_of_lt h

theorem highBit_setHighBit (n : Nat) : highBit (setHighBit n) = true := by
  exact decide_eq_true (Nat.le_add_left _ _)

theorem highBit_of_lt (h : n < 2 ^ 31) : highBit n = false := by
  exact decide_eq_false (by omega)

/-- Until the update pass the number of an entry can be read off it. -/
theorem clearHighBit_setPhase (hvalid : env.EntryValid e) (hp : p ≠ .updated) :
    clearHighBit (env.setPhase p e).inode = e.inode := by
  cases p with
  | original => exact clearHighBit_of_lt hvalid.inode
  | marked =>
    by_cases h : e.inode = 0
    · rw [setPhase_unused h]
      exact clearHighBit_of_lt hvalid.inode
    · rw [setPhase_marked h]
      exact clearHighBit_setHighBit hvalid.inode
  | updated => exact absurd rfl hp

/-- The phases before and after a pass. -/
def Mode.before : Mode → Phase
  | .sanityCheckPass => .original
  | .markInodeNums => .original
  | .updateInodeNums => .marked

def Mode.after : Mode → Phase
  | .sanityCheckPass => .original
  | .markInodeNums => .marked
  | .updateInodeNums => .updated

/-- The pass leaves an entry in the phase after it, also one that it has been through before. -/
theorem newEntry_setPhase {mode : Mode} (hp : p = mode.before ∨ p = mode.after)
    (hvalid : env.EntryValid e) (h : e.inode ≠ 0) :
    env.newEntry mode (env.setPhase p e) = env.setPhase mode.after e := by
  cases mode with
  | sanityCheckPass =>
    rcases hp with rfl | rfl <;> rfl
  | markInodeNums =>
    simp only [newEntry, Mode.after, setPhase_marked h]
    rcases hp with rfl | rfl
    · rfl
    · simp only [Mode.after, setPhase_marked h, setHighBit_setHighBit]
  | updateInodeNums =>
    simp only [newEntry, Mode.after, setPhase_updated h]
    rcases hp with rfl | rfl
    · simp only [Mode.before, setPhase_marked h, highBit_setHighBit, if_true,
        clearHighBit_setHighBit hvalid.inode]
    · simp only [Mode.after, setPhase_updated h, highBit_of_lt (hvalid.newInode h).2,
        Bool.false_eq_true, if_false]

end Env

/-! ## A pass -/

section Pass

variable (env : Env) (base : Image) (dirs : List Inode)

/-- A directory that the tool can take through its passes. -/
structure Env.DirValid (d : Inode) : Prop where
  isDir : d.isDir = true
  whole : d.blocksLo * Env.inodeBlockSize % env.geometry.blockSize = 0
  blocks : (env.blockList d).isSome
  entries : ∀ e ∈ env.entriesOf base d, env.EntryValid e
  usedFirst : (env.entriesOf base d).Pairwise fun a b => a.inode = 0 → b.inode = 0

/-- A block gets new numbers only after the blocks of the subdirectories. -/
def Env.Ready (mode : Env.Mode) (done : List Nat) (b : Nat) : Prop :=
  mode = .updateInodeNums → ∀ d ∈ dirs, b ∈ env.blocksOf d → ∀ c ∈ env.subdirs base d,
    ∀ b' ∈ env.blocksOf c, b' ∈ done

/-- What has to be known of the images on which a pass works: `J done` describes those on which the
pass has been through the blocks of `done`. -/
structure Env.Pass (mode : Env.Mode) (noWrite : Bool) (I : Image → Prop)
    (J : List Nat → Image → Prop) : Prop where
  inv : ∀ {done img}, J done img → I img
  table : ∀ {done img}, J done img → img.inodeTable = base.inodeTable
  shows : ∀ {done img}, J done img → ∀ d ∈ dirs, ∀ b ∈ env.blocksOf d,
    img.entriesAt b = (base.entriesAt b).map
      (env.setPhase (if b ∈ done then mode.after else mode.before))
  closed : ∀ {done img}, J done img → ∀ b ∈ done, env.Ready base dirs mode done b
  step : noWrite = false → ∀ {done img}, J done img → ∀ d ∈ dirs, ∀ b ∈ env.blocksOf d,
    env.Ready base dirs mode done b →
      J (b :: done) (img.apply (.block b (.directory
        ((base.entriesAt b).map (env.setPhase mode.after)))))

variable {env base dirs}

theorem Env.inodeAt_congr (h : img.inodeTable = base.inodeTable) (inum : Nat) :
    env.inodeAt img inum = env.inodeAt base inum := by
  unfold Env.inodeAt
  rw [h]

theorem readInode_spec {I : Image → Prop} (hI : I img) (htable : img.inodeTable = base.inodeTable)
    (inum : Nat) :
    Spec I (env.readInode inum) img fun inode img' =>
      inode = env.inodeAt base inum ∧ img' = img := by
  refine Spec.store_bind hI ?_
  exact Spec.pure hI ⟨inodeAt_congr htable inum, rfl⟩

variable {mode : Env.Mode} {noWrite : Bool} {I : Image → Prop} {J : List Nat → Image → Prop}
  {p : Phase}

theorem isEntryDir_spec (hI : I img) (htable : img.inodeTable = base.inodeTable)
    (hvalid : env.EntryValid e) (hused : e.inode ≠ 0) (hp : p = mode.before ∨ p = mode.after) :
    Spec I (env.isEntryDir mode (env.setPhase p e)) img fun isDir img' =>
      img' = img ∧ (p ≠ .updated → isDir = env.entryIsDir base e) := by
  unfold Env.isEntryDir Env.entryIsDir
  rw [setPhase_fileType]
  cases e.fileType with
  | directory | other => exact Spec.pure hI ⟨rfl, fun _ => rfl⟩
  | unknown =>
    by_cases hskip : mode = .updateInodeNums ∧ ¬ highBit (env.setPhase p e).inode
    · simp only [if_pos hskip]
      refine Spec.pure hI ⟨rfl, fun hne => ?_⟩
      -- an entry that is still marked is not skipped
      obtain ⟨rfl, hlow⟩ := hskip
      rcases hp with rfl | rfl
      · rw [Env.Mode.before, setPhase_marked hused] at hlow
        exact absurd (highBit_setHighBit e.inode) hlow
      · exact absurd rfl hne
    · simp only [if_neg hskip]
      refine Spec.bind (readInode_spec hI htable _) ?_
      rintro inode _ ⟨rfl, rfl⟩
      refine Spec.pure hI ⟨rfl, fun hne => ?_⟩
      rw [clearHighBit_setPhase hvalid hne]

section

variable (hpass : env.Pass base dirs mode noWrite I J) {recurse : Inode → Fixup Unit}
  {R : Inode → List Nat → Prop}
include hpass

/-- A visit leaves the entry in the phase after the pass, and the pass has been through the
directory under it. -/
theorem visit_spec (hvalid : env.EntryValid e) (hused : e.inode ≠ 0)
    (hp : p = mode.before ∨ p = mode.after)
    (hrec : ∀ c, env.childOf base e = some c → c.isDir = true ∧ ∀ done img, J done img →
      Spec I (recurse c) img fun _ img' => ∃ done', J done' img' ∧ done ⊆ done' ∧ R c done')
    (hskip : p = .updated → ∀ c, env.childOf base e = some c → R c done) (hJ : J done img) :
    Spec I (env.visit mode recurse (env.setPhase p e)) img fun e' img' =>
      e' = env.setPhase mode.after e ∧ ∃ done', J done' img' ∧ done ⊆ done' ∧
        ∀ c, env.childOf base e = some c → R c done' := by
  have hI := hpass.inv hJ
  have htable := hpass.table hJ
  have hnew := newEntry_setPhase hp hvalid hused
  refine Spec.bind (isEntryDir_spec hI htable hvalid hused hp) ?_
  rintro isDir _ ⟨rfl, hisDir⟩
  rw [setPhase_name]
  by_cases hupdated : p = .updated
  · -- only the update pass meets entries with new numbers, and it does not follow them
    obtain rfl : mode = .updateInodeNums := by
      cases mode <;> rcases hp with rfl | rfl <;> first | rfl | exact nomatch hupdated
    have hlow : highBit (env.setPhase p e).inode = false := by
      rw [hupdated, setPhase_updated hused]
      exact highBit_of_lt (hvalid.newInode hused).2
    rw [if_neg (by rw [hlow]; rintro ⟨-, -, hhigh⟩; exact nomatch hhigh rfl), hnew]
    exact Spec.pure hI ⟨rfl, done, hJ, fun _ h => h, hskip hupdated⟩
  · have hhigh : mode = .updateInodeNums → highBit (env.setPhase p e).inode = true := by
      rintro rfl
      rcases hp with rfl | rfl
      · rw [Env.Mode.before, setPhase_marked hused]
        exact highBit_setHighBit _
      · exact absurd rfl hupdated
    rw [hisDir hupdated]
    by_cases hgo : env.entryIsDir base e ∧ Env.isProperName e.name
    · have hchild : env.childOf base e = some (env.inodeAt base e.inode) :=
        if_pos ⟨hused, hgo.1, hgo.2⟩
      obtain ⟨hdir, hrun⟩ := hrec _ hchild
      rw [if_pos ⟨hgo.1, hgo.2, hhigh⟩]
      refine Spec.bind (readInode_spec hI htable _) ?_
      rintro inode _ ⟨rfl, rfl⟩
      rw [clearHighBit_setPhase hvalid hupdated, if_pos hdir]
      refine Spec.bind (hrun done _ hJ) ?_
      rintro _ img' ⟨done', hJ', hsub, hR⟩
      rw [hnew]
      refine Spec.pure (hpass.inv hJ') ⟨rfl, done', hJ', hsub, ?_⟩
      intro c hc
      rw [hchild] at hc
      cases hc
      exact hR
    · rw [if_neg (by rintro ⟨hdir, hname, -⟩; exact hgo ⟨hdir, hname⟩), hnew]
      refine Spec.pure hI ⟨rfl, done, hJ, fun _ h => h, ?_⟩
      intro c hc
      unfold Env.childOf at hc
      split_ifs at hc with hall
      exact absurd hall.2 hgo

theorem scan_spec (hmono : ∀ c {done done' : List Nat}, done ⊆ done' → R c done → R c done')
    {xs : List (Phase × DirEntry)} (hvalid : ∀ x ∈ xs, env.EntryValid x.2)
    (hphase : ∀ x ∈ xs, x.1 = mode.before ∨ x.1 = mode.after)
    (hfirst : xs.Pairwise fun x y => x.2.inode = 0 → y.2.inode = 0)
    (hrec : ∀ x ∈ xs, ∀ c, env.childOf base x.2 = some c → c.isDir = true ∧ ∀ done img, J done img →
        Spec I (recurse c) img fun _ img' => ∃ done', J done' img' ∧ done ⊆ done' ∧ R c done')
    (hskip : ∀ x ∈ xs, x.1 = .updated → ∀ c, env.childOf base x.2 = some c → R c done)
    (hJ : J done img) :
    Spec I (env.scan mode recurse (xs.map fun x => env.setPhase x.1 x.2)) img fun out img' =>
      out = xs.map (fun x => env.setPhase mode.after x.2) ∧ ∃ done', J done' img' ∧ done ⊆ done' ∧
          ∀ x ∈ xs, ∀ c, env.childOf base x.2 = some c → R c done' := by
  induction xs generalizing done img with
  | nil => exact Spec.pure (hpass.inv hJ) ⟨rfl, done, hJ, fun _ h => h, nofun⟩
  | cons x xs ih =>
    have hx := hvalid x mem_cons_self
    rw [map_cons, Env.scan]
    by_cases hused : x.2.inode = 0
    · -- this entry and all that follow are unused
      have hunused : ∀ y ∈ x :: xs, y.2.inode = 0 := by
        intro y hy
        rcases mem_cons.mp hy with rfl | hy
        · exact hused
        · exact (pairwise_cons.mp hfirst).1 y hy hused
      have hsame : ∀ y ∈ x :: xs, env.setPhase y.1 y.2 = env.setPhase mode.after y.2 := by
        intro y hy
        rw [setPhase_unused (hunused y hy), setPhase_unused (hunused y hy)]
      rw [if_pos (by rw [setPhase_unused hused]; exact hused)]
      refine Spec.pure (hpass.inv hJ) ⟨?_, done, hJ, fun _ h => h, ?_⟩
      · rw [← map_cons (f := fun y : Phase × DirEntry => env.setPhase y.1 y.2)]
        exact map_congr_left hsame
      · intro y hy c hc
        unfold Env.childOf at hc
        rw [if_neg (by rintro ⟨hne, -⟩; exact hne (hunused y hy))] at hc
        exact nomatch hc
    · rw [if_neg (setPhase_used hx hused _)]
      refine Spec.bind (visit_spec hpass hx hused (hphase x mem_cons_self)
        (hrec x mem_cons_self) (hskip x mem_cons_self) hJ) ?_
      rintro e' img' ⟨rfl, done', hJ', hsub, hR⟩
      have hlong : ¬ (mode ≠ .markInodeNums ∧ xs.map (fun x => env.setPhase x.1 x.2) ≠ [] ∧
          Env.leftoverSpace (xs.map fun x => env.setPhase x.1 x.2) ≤ 8) := by
        rintro ⟨-, hne, hshort⟩
        cases xs with
        | nil => exact hne rfl
        | cons y ys =>
          have hy := (hvalid y (mem_cons_of_mem _ mem_cons_self)).recLen
          simp only [Env.leftoverSpace, map_cons, sum_cons, setPhase_recLen] at hshort
          omega
      rw [if_neg hlong]
      refine Spec.bind (ih (fun y hy => hvalid y (mem_cons_of_mem _ hy))
        (fun y hy => hphase y (mem_cons_of_mem _ hy)) (pairwise_cons.mp hfirst).2
        (fun y hy => hrec y (mem_cons_of_mem _ hy))
        (fun y hy hupd c hc => hmono c hsub (hskip y (mem_cons_of_mem _ hy) hupd c hc))
        hJ') ?_
      rintro out img'' ⟨rfl, done'', hJ'', hsub', hR'⟩
      refine Spec.pure (hpass.inv hJ'') ⟨rfl, done'', hJ'', fun b hb => hsub' (hsub hb), ?_⟩
      intro y hy c hc
      rcases mem_cons.mp hy with rfl | hy
      · exact hmono c hsub' (hR c hc)
      · exact hR' y hy c hc

end

theorem splitLike_map {f g : Nat → List DirEntry}
    (hlen : ∀ b ∈ blocks, (f b).length = (g b).length) :
    Env.splitLike (blocks.map f) (blocks.flatMap g) = blocks.map g := by
  induction blocks with
  | nil => rfl
  | cons b blocks ih =>
    have hb := hlen b mem_cons_self
    rw [map_cons, flatMap_cons, Env.splitLike, hb, take_left, drop_left,
      ih fun b hb => hlen b (mem_cons_of_mem _ hb), map_cons]

/-- Once a directory has new numbers in all its blocks, so has everything under it. -/
theorem treeBlocks_of_closed (hclosed : ∀ b ∈ done, env.Ready base dirs .updateInodeNums done b)
    (hdirs : ∀ x ∈ env.directories base depth d, x ∈ dirs) (hbounded : env.Bounded base depth d)
    (hall : ∀ b ∈ env.blocksOf d, b ∈ done) : ∀ b ∈ env.treeBlocks base depth d, b ∈ done := by
  induction depth generalizing d with
  | zero => exact hbounded.elim
  | succ depth ih =>
    intro b hb
    rcases mem_treeBlocks_succ hb with ⟨c, hc, hb⟩ | hb
    · refine ih (fun x hx => hdirs x (directories_child hc hx)) (hbounded c hc) ?_ b hb
      -- the entry that leads to `c` stands in a block of `d`
      obtain ⟨e, he, -⟩ := mem_filterMap.mp hc
      obtain ⟨b₀, hb₀, -⟩ := mem_flatMap.mp he
      exact hclosed b₀ (hall b₀ hb₀) rfl d (hdirs d (mem_directories_self hbounded)) hb₀ c hc
    · exact hall b hb

/-- The entries of some blocks, each with the phase of its block. -/
def Image.withPhases (base : Image) (phase : Nat → Phase) (blocks : List Nat) :
    List (Phase × DirEntry) :=
  blocks.flatMap fun b => (base.entriesAt b).map fun e => (phase b, e)

theorem mem_withPhases {phase : Nat → Phase} {x : Phase × DirEntry}
    (hx : x ∈ base.withPhases phase blocks) :
    ∃ b ∈ blocks, x.1 = phase b ∧ x.2 ∈ base.entriesAt b := by
  obtain ⟨b, hb, hx⟩ := mem_flatMap.mp hx
  obtain ⟨e, he, rfl⟩ := mem_map.mp hx
  exact ⟨b, hb, rfl, he⟩

theorem map_withPhases {β : Type} (f : Phase → DirEntry → β) (phase : Nat → Phase)
    (blocks : List Nat) :
    (base.withPhases phase blocks).map (fun x => f x.1 x.2) =
      blocks.flatMap fun b => (base.entriesAt b).map (f (phase b)) := by
  unfold Image.withPhases
  rw [map_flatMap]
  simp only [map_map]
  rfl

theorem mem_subdirs_of_mem {c : Inode} (hb : b ∈ env.blocksOf d) (he : e ∈ base.entriesAt b)
    (hc : env.childOf base e = some c) : c ∈ env.subdirs base d :=
  mem_filterMap.mpr ⟨e, mem_flatMap.mpr ⟨b, hb, he⟩, hc⟩

/-- The phase of the entries of a block when the pass has been through the blocks of `done`. -/
def Env.Mode.phaseAt (mode : Env.Mode) (done : List Nat) (b : Nat) : Phase :=
  if b ∈ done then mode.after else mode.before

theorem phaseAt_cases (mode : Env.Mode) (done : List Nat) (b : Nat) :
    mode.phaseAt done b = mode.before ∨ mode.phaseAt done b = mode.after := by
  unfold Env.Mode.phaseAt
  split_ifs
  · exact Or.inr rfl
  · exact Or.inl rfl

theorem of_phaseAt_updated (h : mode.phaseAt done b = .updated) :
    b ∈ done ∧ mode = .updateInodeNums := by
  unfold Env.Mode.phaseAt at h
  split_ifs at h with hdone
  · cases mode <;> first | exact ⟨hdone, rfl⟩ | exact nomatch h
  · cases mode <;> exact nomatch h

/-- The scan of a directory takes its subdirectories through. -/
theorem scanDir_spec (hpass : env.Pass base dirs mode noWrite I J) (hd : d ∈ dirs)
    (hdir : env.DirValid base d) {recurse : Inode → Fixup Unit} {R : Inode → List Nat → Prop}
    (hmono : ∀ c {done done' : List Nat}, done ⊆ done' → R c done → R c done')
    (hrec : ∀ c ∈ env.subdirs base d, c.isDir = true ∧ ∀ done img, J done img →
      Spec I (recurse c) img fun _ img' => ∃ done', J done' img' ∧ done ⊆ done' ∧ R c done')
    (hskip : mode = .updateInodeNums → ∀ b ∈ env.blocksOf d, b ∈ done →
      ∀ c ∈ env.subdirs base d, R c done) (hJ : J done img) :
    Spec I (env.scan mode recurse ((env.blocksOf d).map img.entriesAt).flatten) img
      fun out img' => out = (env.blocksOf d).flatMap (fun b =>
          (base.entriesAt b).map (env.setPhase mode.after)) ∧
        ∃ done', J done' img' ∧ done ⊆ done' ∧ ∀ c ∈ env.subdirs base d, R c done' := by
  have hread : ((env.blocksOf d).map img.entriesAt).flatten =
      (base.withPhases (mode.phaseAt done) (env.blocksOf d)).map fun x => env.setPhase x.1 x.2 := by
    rw [map_withPhases env.setPhase, ← flatMap_def]
    exact flatMap_congr (hpass.shows hJ d hd)
  have hentries : (base.withPhases (mode.phaseAt done) (env.blocksOf d)).map (fun x => x.2) =
      env.entriesOf base d := by
    rw [map_withPhases fun _ e => e, Env.entriesOf]
    simp only [map_id']
  rw [hread]
  refine Spec.mono (scan_spec hpass hmono ?_ ?_ ?_ ?_ ?_ hJ) ?_
  · intro x hx
    exact hdir.entries _ (hentries ▸ mem_map_of_mem hx)
  · intro x hx
    obtain ⟨b, -, hphase, -⟩ := mem_withPhases hx
    rw [hphase]
    exact phaseAt_cases mode done b
  · have hfirst := hdir.usedFirst
    rw [← hentries, pairwise_map] at hfirst
    exact hfirst
  · intro x hx c hc
    obtain ⟨b, hb, -, he⟩ := mem_withPhases hx
    exact hrec c (mem_subdirs_of_mem hb he hc)
  · intro x hx hupdated c hc
    obtain ⟨b, hb, hphase, he⟩ := mem_withPhases hx
    obtain ⟨hdone, hmode⟩ := of_phaseAt_updated (hphase ▸ hupdated)
    exact hskip hmode b hb hdone c (mem_subdirs_of_mem hb he hc)
  · rintro _ img' ⟨rfl, done', hJ', hsub, hR⟩
    refine ⟨map_withPhases (fun _ e => env.setPhase mode.after e) _ _, done', hJ', hsub, ?_⟩
    intro c hc
    obtain ⟨e, he, hchild⟩ := mem_filterMap.mp hc
    rw [← hentries] at he
    obtain ⟨x, hx, rfl⟩ := mem_map.mp he
    exact hR x hx c hchild

theorem writeBlocks_spec (hpass : env.Pass base dirs mode noWrite I J) (hd : d ∈ dirs)
    (hblocks : ∀ b ∈ blocks, b ∈ env.blocksOf d)
    (hready : ∀ done', done ⊆ done' → ∀ b ∈ blocks, noWrite = false →
      env.Ready base dirs mode done' b) (hJ : J done img) :
    Spec I (Prog.forEach (blocks.map fun b =>
        (b, (base.entriesAt b).map (env.setPhase mode.after))) fun (b, content) =>
          write noWrite (.block b (.directory content))) img fun _ img' =>
      ∃ done', J done' img' ∧ done ⊆ done' ∧ (noWrite = false → ∀ b ∈ blocks, b ∈ done') := by
  have hloop : ∀ (ys : List (Nat × List DirEntry)) (s : Image),
      (∃ done', J done' s ∧ done ⊆ done' ∧ (noWrite = false → ∀ y ∈ ys, y.1 ∈ done')) → I s := by
    rintro ys s ⟨done', hJ', -⟩
    exact hpass.inv hJ'
  refine Spec.mono (Spec.forEach hloop ?_
    ⟨done, hJ, fun _ h => h, nofun⟩) ?_
  · rintro ys x hx s ⟨done', hJ', hsub, hdone⟩
    obtain ⟨b, hb, rfl⟩ := mem_map.mp hx
    dsimp only [write]
    by_cases hwrite : noWrite = true
    · rw [if_pos hwrite]
      refine Spec.pure (hpass.inv hJ') ⟨done', hJ', hsub, fun hfalse => ?_⟩
      rw [hwrite] at hfalse
      exact nomatch hfalse
    · have hfalse : noWrite = false := by simpa using hwrite
      have hnext := hpass.step hfalse hJ' d hd b (hblocks b hb) (hready done' hsub b hb hfalse)
      rw [if_neg hwrite]
      refine Spec.emit (hpass.inv hJ') (hpass.inv hnext)
        ⟨b :: done', hnext, fun y hy => mem_cons_of_mem _ (hsub hy), fun _ y hy => ?_⟩
      rcases mem_cons.mp hy with rfl | hy
      · exact mem_cons_self
      · exact mem_cons_of_mem _ (hdone hfalse y hy)
  · rintro _ img' ⟨done', hJ', hsub, hdone⟩
    refine ⟨done', hJ', hsub, fun hfalse b hb => ?_⟩
    have hy : (b, (base.entriesAt b).map (env.setPhase mode.after)) ∈
        (blocks.map fun b => (b, (base.entriesAt b).map (env.setPhase mode.after))).reverse := by
      simpa using hb
    exact hdone hfalse _ hy

/-- A pass takes every block at and under a directory through. -/
theorem recurseDir_spec (hpass : env.Pass base dirs mode noWrite I J)
    (hvalid : ∀ x ∈ dirs, env.DirValid base x)
    (hunique : ∀ x ∈ dirs, ∀ y ∈ dirs, ∀ b ∈ env.blocksOf x, b ∈ env.blocksOf y → x = y)
    (hdirs : ∀ x ∈ env.directories base depth d, x ∈ dirs) (hbounded : env.Bounded base depth d)
    (hJ : J done img) :
    Spec I (env.recurseDir mode noWrite depth d) img fun _ img' => ∃ done', J done' img' ∧
      done ⊆ done' ∧ (noWrite = false → ∀ b ∈ env.treeBlocks base depth d, b ∈ done') := by
  induction depth generalizing d done img with
  | zero => exact hbounded.elim
  | succ depth ih =>
    have hd := hdirs d (mem_directories_self hbounded)
    have hdir := hvalid d hd
    have hlist : env.blockList d = some (env.blocksOf d) := by
      obtain ⟨blocks, hblocks⟩ := Option.isSome_iff_exists.mp hdir.blocks
      rw [Env.blocksOf, hblocks, Option.getD_some]
    have hsubdir : ∀ c ∈ env.subdirs base d, ∀ x ∈ env.directories base depth c, x ∈ dirs :=
      fun c hc x hx => hdirs x (directories_child hc hx)
    unfold Env.recurseDir
    rw [if_neg (not_not_intro hdir.whole)]
    simp only [hlist]
    refine Spec.store_bind (hpass.inv hJ) ?_
    refine Spec.bind (scanDir_spec hpass hd hdir
      (R := fun c done' => noWrite = false → ∀ b ∈ env.treeBlocks base depth c, b ∈ done')
      ?_ ?_ ?_ hJ) ?_
    · exact fun c _ _ hsub hR hfalse b hb => hsub (hR hfalse b hb)
    · intro c hc
      have hcdir := hsubdir c hc c (mem_directories_self (hbounded c hc))
      exact ⟨(hvalid c hcdir).isDir, fun done' img' hJ' => ih (hsubdir c hc) (hbounded c hc) hJ'⟩
    · rintro rfl b hb hdone c hc _
      exact treeBlocks_of_closed (hpass.closed hJ) (hsubdir c hc) (hbounded c hc)
        (hpass.closed hJ b hdone rfl d hd hb c hc)
    · rintro _ img' ⟨rfl, done', hJ', hsub, hR⟩
      rw [splitLike_map, ← map_prod_left_eq_zip]
      · refine Spec.mono (writeBlocks_spec hpass hd (fun b hb => hb) ?_ hJ') ?_
        · intro done'' hsub' b hb hfalse _ y hy hby c hc b' hb'
          obtain rfl := hunique d hd y hy b hb hby
          exact hsub' (hR c hc hfalse b'
            (mem_flatMap.mpr ⟨c, mem_directories_self (hbounded c hc), hb'⟩))
        · rintro _ img'' ⟨done'', hJ'', hsub', hdone⟩
          refine ⟨done'', hJ'', fun b hb => hsub' (hsub hb), fun hfalse b hb => ?_⟩
          rcases mem_treeBlocks_succ hb with ⟨c, hc, hb⟩ | hb
          · exact hsub' (hR c hc hfalse b hb)
          · exact hdone hfalse b hb
      · intro b hb
        rw [hpass.shows hJ d hd b hb, length_map, length_map]

end Pass

end ShieldTv.Ext4Utils
