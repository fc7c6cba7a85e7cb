import ShieldTv.Libsparse.Proofs.Queue

/-!
# What a list of blocks stands for

Each block of the image has the contents of the piece that was queued for it, in whatever order the
pieces come, as long as no freed node is used and no length gets too large.
-/

namespace ShieldTv.Libsparse

open List

/-! ## Contents -/

/-- What is left of a backing after some bytes. -/
def Backing.skip (n : Nat) : Backing → Backing
  | .data bytes => .data (bytes.drop n)
  | .file filename offset => .file filename (offset + n)
  | .fd d offset => .fd d (offset + n)
  | .fill val => .fill val

theorem Backing.skip_skip (backing : Backing) (m n : Nat) :
    (backing.skip m).skip n = backing.skip (m + n) := by
  cases backing <;> simp [Backing.skip, add_assoc]

/-- What a block of the image gets from a piece: where its contents are, and how many bytes. -/
def BackedBlock.contentAt (blockSize : Nat) (bb : BackedBlock) (x : Nat) : Option (Backing × Nat) :=
  if bb.block ≤ x ∧ (x - bb.block) * blockSize < bb.len then
    some (bb.backing.skip ((x - bb.block) * blockSize),
      min blockSize (bb.len - (x - bb.block) * blockSize))
  else
    none

/-- The map that a list of pieces stands for. -/
def Denotes (blockSize : Nat) (blocks : List BackedBlock) (x : Nat) (c : Backing × Nat) : Prop :=
  ∃ bb ∈ blocks, bb.contentAt blockSize x = some c

/-- Two pieces have no block of the image in common. -/
def Apart (blockSize : Nat) (a b : BackedBlock) : Prop :=
  ∀ x, a.contentAt blockSize x = none ∨ b.contentAt blockSize x = none

/-- A list in order, of pieces that have no block in common. -/
structure Ordered (blockSize : Nat) (blocks : List BackedBlock) : Prop where
  sorted : blocks.Pairwise fun a b => a.block < b.block ∧ Apart blockSize a b
  bounds : ∀ bb ∈ blocks, bb.len < 2 ^ 32 ∧ bb.block < 2 ^ 32

/-! ## Merging -/

variable {blockSize : Nat} {a b m new bb : BackedBlock} {s : SparseFile} {blocks : List BackedBlock}

/-- Two blocks are merged if the second one goes on where the first one ends. -/
theorem merged?_cases (h : merged? blockSize a b = some m) :
    (a.block + a.len / blockSize) % 2 ^ 32 = b.block ∧
      m = { a with len := (a.len + b.len) % 2 ^ 32 } ∧ b.backing = a.backing.skip a.len := by
  unfold merged? mergeBb at h
  grind [Except.toOption, Backing.skip]

section

variable (hsize : 0 < blockSize)
include hsize

theorem contentAt_merged (hlt : a.block < b.block) (ha : a.len < 2 ^ 32 ∧ a.block < 2 ^ 32)
    (hapart : Apart blockSize a b) (h : merged? blockSize a b = some m)
    (hwrap : a.len + b.len < 2 ^ 32) (x : Nat) (c : Backing × Nat) :
    m.contentAt blockSize x = some c ↔
      a.contentAt blockSize x = some c ∨ b.contentAt blockSize x = some c := by
  obtain ⟨hadjacent, rfl, hbacking⟩ := merged?_cases h
  rw [Nat.mod_eq_of_lt hwrap]
  have hle := Nat.div_mul_le_self a.len blockSize
  have hdiv := Nat.div_le_self a.len blockSize
  generalize a.len / blockSize = q at hadjacent hle hdiv
  have hend : b.block = a.block + q := by omega
  by_cases hzero : b.len = 0
  · simp [BackedBlock.contentAt, hzero]
  -- the first block is full, because the second one has contents
  have hfull : q * blockSize = a.len := by
    have hnone := (hapart b.block).resolve_right (by simp [BackedBlock.contentAt]; omega)
    simp only [BackedBlock.contentAt, hend, Nat.add_sub_cancel_left] at hnone
    split_ifs at hnone
    omega
  simp only [BackedBlock.contentAt]
  by_cases hx : x < b.block
  · rw [if_neg (c := b.block ≤ x ∧ _) (by omega)]
    by_cases hax : a.block ≤ x
    · have hlast : (x - a.block + 1) * blockSize ≤ q * blockSize :=
        Nat.mul_le_mul_right _ (by omega)
      rw [Nat.succ_mul] at hlast
      rw [if_pos (by omega), if_pos (by omega), Nat.min_eq_left (by omega),
        Nat.min_eq_left (by omega)]
      simp
    · rw [if_neg (by omega), if_neg (by omega)]
      simp
  · have hskip : (x - a.block) * blockSize = a.len + (x - b.block) * blockSize := by
      rw [← hfull, ← add_mul]
      congr 1
      omega
    have hbefore : ¬(a.block ≤ x ∧ (x - a.block) * blockSize < a.len) := by omega
    rw [if_neg hbefore, hskip, ← Backing.skip_skip, ← hbacking, Nat.add_sub_add_left]
    simp only [reduceCtorEq, false_or, show a.block ≤ x ↔ b.block ≤ x by omega,
      Nat.add_lt_add_iff_left]

/-- Two lists of pieces stand for the same, and have the same number of bytes. -/
structure Same (blockSize : Nat) (xs ys : List BackedBlock) : Prop where
  denotes : ∀ x c, Denotes blockSize xs x c ↔ Denotes blockSize ys x c
  total : (xs.map BackedBlock.len).sum = (ys.map BackedBlock.len).sum

omit hsize in
theorem Same.trans {xs ys zs : List BackedBlock} (h : Same blockSize xs ys)
    (h' : Same blockSize ys zs) : Same blockSize xs zs where
  denotes x c := (h.denotes x c).trans (h'.denotes x c)
  total := h.total.trans h'.total

theorem Ordered.merge {l r : List BackedBlock} (ho : Ordered blockSize (l ++ a :: b :: r))
    (h : merged? blockSize a b = some m) (hwrap : a.len + b.len < 2 ^ 32) :
    Ordered blockSize (l ++ m :: r) ∧ Same blockSize (l ++ m :: r) (l ++ a :: b :: r) := by
  have hab : a.block < b.block ∧ Apart blockSize a b := by
    have hsorted := ho.sorted
    simp only [pairwise_append, pairwise_cons, mem_cons] at hsorted
    exact hsorted.2.1.1 b (.inl rfl)
  have ha := ho.bounds a (by simp)
  have hcontent := contentAt_merged hsize hab.1 ha hab.2 h hwrap
  have hnone : ∀ x, m.contentAt blockSize x = none ↔
      a.contentAt blockSize x = none ∧ b.contentAt blockSize x = none := by
    intro x
    simp only [Option.eq_none_iff_forall_ne_some, ne_eq, hcontent, not_or, forall_and]
  obtain ⟨-, rfl, -⟩ := merged?_cases h
  refine ⟨⟨?_, fun bb hbb => ?_⟩, fun x c => ?_, ?_⟩
  · have hsorted := ho.sorted
    simp only [pairwise_append, pairwise_cons, mem_cons, Apart, hnone] at hsorted ⊢
    grind
  · have hbounds := ho.bounds bb
    simp only [mem_append, mem_cons] at hbb hbounds
    rcases hbb with hbb | rfl | hbb
    · exact hbounds (.inl hbb)
    · exact ⟨Nat.mod_lt _ (by decide), ha.2⟩
    · exact hbounds (by simp [hbb])
  · simp only [Denotes, mem_append, mem_cons, or_and_right, exists_or, exists_eq_left,
      hcontent, or_assoc]
  · simp only [map_append, map_cons, sum_append, sum_cons, Nat.mod_eq_of_lt hwrap, add_assoc]

/-! ## Queueing -/

/-- The bytes of a new piece and of those that it fits together with. -/
def SparseFile.joined (s : SparseFile) (new : BackedBlock) : Nat :=
  new.len + ((s.dataBlocks.filter fun bb => (merged? s.blockSize bb new).isSome ||
    (merged? s.blockSize new bb).isSome).map BackedBlock.len).sum

/-- No piece is queued for the place yet, and a piece that does not come first finds `last_used`
in the list and enough room in an `unsigned int`. -/
def SparseFile.Fits (s : SparseFile) (new : BackedBlock) : Prop :=
  (∀ bb ∈ s.dataBlocks, bb.block ≠ new.block) ∧
    ((∀ bb ∈ s.dataBlocks, new.block < bb.block) ∨ s.Alive ∧ s.joined new < 2 ^ 32)

omit hsize in
theorem isSome_merged?_len (bb new : BackedBlock) (len : Nat) :
    (merged? blockSize bb { new with len }).isSome = (merged? blockSize bb new).isSome := by
  unfold merged? mergeBb
  split_ifs
  · rfl
  · cases bb.backing <;> cases new.backing <;> grind [Except.toOption]
  · rfl

theorem Ordered.join {done after : List BackedBlock} (ho : Ordered blockSize (done ++ bb :: after))
    (hroom : ∀ next ∈ after.head?,
      (merged? blockSize bb next).isSome → bb.len + next.len < 2 ^ 32) :
    Ordered blockSize (done ++ joinBb blockSize bb after) ∧
      Same blockSize (done ++ joinBb blockSize bb after) (done ++ bb :: after) := by
  cases after with
  | nil => exact ⟨ho, fun _ _ => Iff.rfl, rfl⟩
  | cons next rest =>
    rw [joinBb]
    cases h : merged? blockSize bb next with
    | none => exact ⟨ho, fun _ _ => Iff.rfl, rfl⟩
    | some m => exact ho.merge hsize h (hroom next rfl (by simp [h]))

/-- A new block that fits together with both neighbours is merged with the next one first. -/
theorem Ordered.place (hs : s.blockSize = blockSize) {done after : List BackedBlock}
    (hblocks : s.dataBlocks = done ++ bb :: after)
    (ho : Ordered blockSize (done ++ bb :: new :: after)) (hjoined : s.joined new < 2 ^ 32) :
    Ordered blockSize (done ++ placeBb blockSize bb new after) ∧
      Same blockSize (done ++ placeBb blockSize bb new after) (done ++ bb :: new :: after) := by
  subst hs
  rw [SparseFile.joined, hblocks] at hjoined
  simp only [filter_append, filter_cons, map_append, sum_append] at hjoined
  have hback : (merged? s.blockSize bb new).isSome → bb.len + new.len < 2 ^ 32 := by
    intro hsome
    simp only [hsome, Bool.true_or, if_true, map_cons, sum_cons] at hjoined
    omega
  unfold placeBb
  cases after with
  | nil => exact ho.join hsize (by simpa using hback)
  | cons next rest =>
    rw [joinBb]
    cases hnext : merged? s.blockSize new next with
    | none => exact ho.join hsize (by simpa using hback)
    | some m =>
      simp only [filter_cons, hnext, Option.isSome_some, Bool.or_true, if_true] at hjoined
      have hlen : new.len + next.len < 2 ^ 32 := by
        split_ifs at hjoined <;> simp only [map_cons, sum_cons] at hjoined <;> omega
      rw [append_cons] at ho
      obtain ⟨ho', hsame⟩ := ho.merge hsize hnext hlen
      rw [append_assoc, singleton_append] at ho'
      obtain ⟨-, rfl, -⟩ := merged?_cases hnext
      rw [Nat.mod_eq_of_lt hlen] at ho' hsame ⊢
      obtain ⟨hordered, hsame'⟩ := ho'.join hsize (by
        intro first hfirst hsome
        cases hfirst
        rw [isSome_merged?_len] at hsome
        simp only [hsome, Bool.true_or, if_true, map_cons, sum_cons] at hjoined
        dsimp only
        omega)
      simp only [append_assoc, singleton_append] at hsame
      exact ⟨hordered, hsame'.trans hsame⟩

omit hsize in
theorem Ordered.insert {l r : List BackedBlock} (ho : Ordered blockSize (l ++ r))
    (hbounds : new.len < 2 ^ 32 ∧ new.block < 2 ^ 32)
    (hl : ∀ bb ∈ l, bb.block < new.block ∧ Apart blockSize bb new)
    (hr : ∀ bb ∈ r, new.block < bb.block ∧ Apart blockSize new bb) :
    Ordered blockSize (l ++ new :: r) ∧ Same blockSize (l ++ new :: r) (new :: (l ++ r)) := by
  refine ⟨⟨?_, fun bb hbb => ?_⟩, fun x c => ?_, ?_⟩
  · have hsorted := ho.sorted
    simp only [pairwise_append, pairwise_cons, mem_cons] at hsorted ⊢
    grind
  · rcases mem_append.mp hbb with hbb | hbb
    · exact ho.bounds bb (mem_append_left _ hbb)
    · rcases mem_cons.mp hbb with rfl | hbb
      · exact hbounds
      · exact ho.bounds bb (mem_append_right _ hbb)
  · simp only [Denotes, mem_append, mem_cons, or_and_right, exists_or, exists_eq_left]
    exact or_left_comm
  · simp only [map_append, map_cons, sum_append, sum_cons]
    omega

end

theorem Apart.symm (h : Apart blockSize a b) : Apart blockSize b a := fun x => (h x).symm

theorem exists_place (hsorted : blocks.Pairwise fun a b => a.block < b.block ∧ Apart blockSize a b)
    (hne : ∀ bb ∈ blocks, bb.block ≠ new.block) :
    (∀ bb ∈ blocks, new.block < bb.block) ∨
      ∃ done bb after, blocks = done ++ bb :: after ∧ (∀ b ∈ done ++ [bb], b.block < new.block) ∧
        ∀ b ∈ after, new.block < b.block := by
  induction blocks with
  | nil => exact .inl nofun
  | cons first rest ih =>
    obtain ⟨hfirst, hrest⟩ := pairwise_cons.mp hsorted
    by_cases hlt : new.block < first.block
    · refine .inl fun bb hbb => ?_
      rcases mem_cons.mp hbb with rfl | hbb
      · exact hlt
      · exact hlt.trans (hfirst bb hbb).1
    · have hfirst' : first.block < new.block := by
        have := hne first (by simp)
        omega
      right
      rcases ih hrest fun bb hbb => hne bb (by simp [hbb]) with
        h | ⟨done, bb, after, rfl, hbefore, hafter⟩
      · exact ⟨[], first, rest, rfl, by simpa using hfirst', h⟩
      · refine ⟨first :: done, bb, after, rfl, fun b hb => ?_, hafter⟩
        rcases mem_cons.mp hb with rfl | hb
        · exact hfirst'
        · exact hbefore b hb

/-- The list of a sparse file stands for the pieces that were queued. -/
structure Stands (s : SparseFile) (pieces : List BackedBlock) : Prop where
  ordered : Ordered s.blockSize s.dataBlocks
  same : Same s.blockSize s.dataBlocks pieces

theorem queueBb_front (h : ∀ bb ∈ s.dataBlocks, new.block < bb.block) :
    queueBb s new = .ok { s with dataBlocks := new :: s.dataBlocks } := by
  unfold queueBb
  cases hblocks : s.dataBlocks with
  | nil => rfl
  | cons first rest => exact if_pos (h first (by simp [hblocks]))

section

variable {pieces : List BackedBlock} (h : Stands s pieces)
include h

theorem Stands.apart (hapart : ∀ bb ∈ pieces, Apart s.blockSize new bb) :
    ∀ bb ∈ s.dataBlocks, Apart s.blockSize new bb := by
  intro bb hbb x
  cases hc : bb.contentAt s.blockSize x with
  | none => exact .inr rfl
  | some c =>
    obtain ⟨piece, hpiece, hcontent⟩ := (h.same.denotes x c).mp ⟨bb, hbb, hc⟩
    rw [Option.eq_some_iff_get_eq] at hcontent
    exact .inl ((hapart piece hpiece x).resolve_right (by grind))

theorem Stands.cons (hsame : Same s.blockSize blocks (new :: s.dataBlocks)) :
    Same s.blockSize blocks (new :: pieces) := by
  refine hsame.trans ⟨fun x c => ?_, ?_⟩
  · have hdenotes := h.same.denotes x c
    simp only [Denotes] at hdenotes
    simp only [Denotes, mem_cons, or_and_right, exists_or, exists_eq_left, hdenotes]
  · rw [map_cons, sum_cons, h.same.total, map_cons, sum_cons]

theorem Stands.queueBb (hsize : 0 < s.blockSize) (hbounds : new.len < 2 ^ 32 ∧ new.block < 2 ^ 32)
    (hapart : ∀ bb ∈ pieces, Apart s.blockSize new bb) (hfits : s.Fits new) :
    ∃ s', queueBb s new = .ok s' ∧ s'.blockSize = s.blockSize ∧ Stands s' (new :: pieces) := by
  obtain ⟨hne, hroom⟩ := hfits
  have hdisjoint := h.apart hapart
  rcases exists_place h.ordered.sorted hne with hfront | ⟨done, bb, after, hblocks, hbefore, hafter⟩
  · obtain ⟨ho, hsame⟩ := Ordered.insert (l := []) h.ordered hbounds nofun
      fun bb hbb => ⟨hfront bb hbb, hdisjoint bb hbb⟩
    exact ⟨_, queueBb_front hfront, rfl, ho, h.cons hsame⟩
  · obtain ⟨halive, hjoined⟩ : s.Alive ∧ s.joined new < 2 ^ 32 := by
      refine hroom.resolve_left fun hfront => ?_
      have hbb := hbefore bb (by simp)
      exact absurd (hfront bb (by simp [hblocks])) (by omega)
    have hordered := h.ordered
    rw [hblocks, append_cons] at hordered
    rw [hblocks] at hdisjoint
    obtain ⟨hinsert, hsame⟩ := hordered.insert hbounds
      (fun b hb => ⟨hbefore b hb, (hdisjoint b (by simp_all; tauto)).symm⟩)
      (fun b hb => ⟨hafter b hb, hdisjoint b (by simp [hb])⟩)
    rw [← append_cons] at hinsert hsame
    obtain ⟨ho, hplace⟩ := Ordered.place hsize rfl hblocks hinsert hjoined
    refine ⟨_, queueBb_eq hblocks hbefore hafter halive, rfl, ho, h.cons (hplace.trans ?_)⟩
    rwa [hblocks, append_cons done bb after]

end

/-! ## Calls -/

/-- A call of `backed_block_add_data`, `_file`, `_fd` or `_fill`. -/
structure AddCall where
  backing : Backing
  len : UInt32
  block : UInt32

def AddCall.apply (c : AddCall) (s : SparseFile) : Except Err SparseFile :=
  match c.backing with
  | .data bytes => sparseFileAddData s bytes c.len.toNat c.block.toNat
  | .file filename offset => sparseFileAddFile s filename offset c.len.toNat c.block.toNat
  | .fd fd offset => sparseFileAddFd s fd offset c.len.toNat c.block.toNat
  | .fill val => sparseFileAddFill s val c.len.toNat c.block.toNat

def AddCall.piece (c : AddCall) : BackedBlock where
  block := c.block.toNat
  len := c.len.toNat
  backing := c.backing

theorem AddCall.apply_eq (c : AddCall) (s : SparseFile) : c.apply s = queueBb s c.piece := by
  have hlen : c.len.toNat % 2 ^ 32 = c.len.toNat := Nat.mod_eq_of_lt c.len.toNat_lt
  rcases c with ⟨backing, len, block⟩
  cases backing with
  | data | file | fd | fill => exact congrArg (fun len => queueBb s ⟨_, len, _⟩) hlen

def addPieces (s : SparseFile) (calls : List AddCall) : Except Err SparseFile :=
  calls.foldlM (fun s c => c.apply s) s

/-- Each piece fits where it comes. -/
def FitAll (s : SparseFile) : List AddCall → Prop
  | [] => True
  | c :: calls => s.Fits c.piece ∧ ∀ s', c.apply s = .ok s' → FitAll s' calls

theorem Stands.run {pieces : List BackedBlock} (h : Stands s pieces) (hsize : 0 < s.blockSize)
    {calls : List AddCall} (hpieces : ∀ c ∈ calls, ∀ bb ∈ pieces, Apart s.blockSize c.piece bb)
    (hapart : (calls.map AddCall.piece).Pairwise (Apart s.blockSize)) (hfits : FitAll s calls) :
    ∃ s', addPieces s calls = .ok s' ∧ s'.blockSize = s.blockSize ∧
      Stands s' ((calls.map AddCall.piece).reverse ++ pieces) := by
  induction calls generalizing s pieces with
  | nil => exact ⟨s, rfl, rfl, h⟩
  | cons c calls ih =>
    obtain ⟨hc, hapart⟩ := pairwise_cons.mp hapart
    obtain ⟨s₁, hs₁, hblockSize, h₁⟩ := h.queueBb hsize ⟨c.len.toNat_lt, c.block.toNat_lt⟩
      (hpieces c (by simp)) hfits.1
    rw [← AddCall.apply_eq] at hs₁
    obtain ⟨s', hs', hsize', h'⟩ := ih h₁ (hblockSize ▸ hsize) (by
      intro c' hc' bb hbb
      rw [hblockSize]
      rcases mem_cons.mp hbb with rfl | hbb
      · exact (hc _ (mem_map_of_mem hc')).symm
      · exact hpieces c' (by simp [hc']) bb hbb) (hblockSize ▸ hapart) (hfits.2 s₁ hs₁)
    refine ⟨s', ?_, hsize'.trans hblockSize, by simpa using h'⟩
    unfold addPieces
    rw [foldlM_cons, hs₁]
    exact hs'

/-- Pieces that have no block in common and that fit where they come are all in the list, which is
in order. -/
theorem added_pieces_denoted {blockSize len : Nat} (hsize : 0 < blockSize) {calls : List AddCall}
    (hapart : (calls.map AddCall.piece).Pairwise (Apart blockSize))
    (hfits : FitAll (sparseFileNew blockSize len) calls) :
    ∃ s, addPieces (sparseFileNew blockSize len) calls = .ok s ∧
      s.dataBlocks.Pairwise (·.block < ·.block) ∧
      (∀ x c, Denotes blockSize s.dataBlocks x c ↔
        Denotes blockSize (calls.map AddCall.piece) x c) ∧
      (s.dataBlocks.map BackedBlock.len).sum = (calls.map fun c => c.len.toNat).sum := by
  have hnew : Stands (sparseFileNew blockSize len) [] :=
    ⟨⟨Pairwise.nil, nofun⟩, fun _ _ => Iff.rfl, rfl⟩
  obtain ⟨s, hs, hblockSize, h⟩ := hnew.run hsize (by simp) hapart hfits
  rw [append_nil] at h
  obtain ⟨ho, hsame⟩ := h
  rw [show s.blockSize = blockSize from hblockSize] at hsame ho
  refine ⟨s, hs, ho.sorted.imp And.left, fun x c => ?_, ?_⟩
  · rw [hsame.denotes x c]
    simp only [Denotes, mem_reverse]
  · rw [hsame.total, map_reverse, sum_reverse, map_map]
    rfl

theorem apart_of_le (h : a.block ≤ b.block ∧ a.len ≤ (b.block - a.block) * blockSize) :
    Apart blockSize a b := by
  intro x
  by_cases hx : b.block ≤ x
  · have hle : (b.block - a.block) * blockSize ≤ (x - a.block) * blockSize :=
      Nat.mul_le_mul_right _ (by omega)
    exact .inl (if_neg (by omega))
  · exact .inr (if_neg (by omega))

/-- Data, and two fills of which the second is put before the first. -/
theorem added_pieces_denoted_fills :
    ∃ s, addPieces (sparseFileNew 4096 40960)
        [⟨.data [1], 1, 0⟩, ⟨.fill 7, 4096, 3⟩, ⟨.fill 7, 4096, 2⟩] = .ok s ∧
      s.dataBlocks.Pairwise (·.block < ·.block) ∧
      (∀ x c, Denotes 4096 s.dataBlocks x c ↔ Denotes 4096
        ([⟨.data [1], 1, 0⟩, ⟨.fill 7, 4096, 3⟩, ⟨.fill 7, 4096, 2⟩].map AddCall.piece) x c) ∧
      (s.dataBlocks.map BackedBlock.len).sum = 8193 := by
  refine added_pieces_denoted (by decide) ?_ ?_
  · refine .cons (fun b hb => apart_of_le ?_) (.cons (fun b hb => ?_) (pairwise_singleton _ _))
    · revert b
      decide
    · cases mem_singleton.mp hb
      exact (apart_of_le (by decide)).symm
  · refine ⟨⟨by decide, .inl (by decide)⟩, fun s hs => ?_⟩
    cases hs
    refine ⟨⟨by decide, .inr ⟨nofun, by decide⟩⟩, fun s hs => ?_⟩
    cases hs
    refine ⟨⟨by decide, .inr ⟨fun last hlast => ?_, by decide⟩⟩, fun _ _ => trivial⟩
    cases hlast
    decide

/-- After two fills that are merged `last_used` points to a freed node; and two fills of two
gigabytes are merged into nothing. -/
theorem added_pieces_lost :
    (∃ calls : List AddCall, (calls.map AddCall.piece).Pairwise (Apart 4096) ∧
      addPieces (sparseFileNew 4096 40960) calls = .error .dead) ∧
    ∃ calls : List AddCall, (calls.map AddCall.piece).Pairwise (Apart 4096) ∧
      ∃ s, addPieces (sparseFileNew 4096 (2 ^ 32)) calls = .ok s ∧
        s.dataBlocks = [⟨0, 0, .fill 7⟩] := by
  refine ⟨⟨[⟨.fill 7, 4096, 0⟩, ⟨.fill 7, 4096, 1⟩, ⟨.data [1], 1, 5⟩], ?_, rfl⟩,
    ⟨[⟨.fill 7, 2 ^ 31, 0⟩, ⟨.fill 7, 2 ^ 31, 2 ^ 19⟩], ?_, _, rfl, by decide⟩⟩
  · exact Pairwise.imp apart_of_le (by decide)
  · exact Pairwise.imp apart_of_le (by decide)

end ShieldTv.Libsparse
