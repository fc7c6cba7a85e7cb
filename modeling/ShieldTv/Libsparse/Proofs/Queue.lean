import ShieldTv.Libsparse.SparseFile

/-!
# Queueing blocks in order

The reader queues each block behind all others.  A block that is merged into the
one before it leaves `last_used` pointing to freed memory, so that it can only be
the last.
-/

namespace ShieldTv.Libsparse

open List Option

def merged? (blockSize : Nat) (a b : BackedBlock) : Option BackedBlock :=
  (mergeBb blockSize a b).toOption.join

theorem mergeBb_eq (blockSize : Nat) {a b : BackedBlock} (h : a.block < b.block) :
    mergeBb blockSize a b = .ok (merged? blockSize a b) := by
  have hok : ∃ m, mergeBb blockSize a b = .ok m := by
    unfold mergeBb
    rw [if_neg (not_not.mpr h)]
    split
    · exact ⟨none, rfl⟩
    · dsimp only
      split
      · exact ⟨_, rfl⟩
      · exact ⟨_, rfl⟩
      · exact ⟨none, rfl⟩
  obtain ⟨m, hm⟩ := hok
  rw [merged?, hm]
  rfl

theorem merged?_block {blockSize : Nat} {a b m : BackedBlock} (h : merged? blockSize a b = some m) :
    m.block = a.block := by
  unfold merged? mergeBb at h
  grind [Except.toOption]

/-- A block before a list, merged with its first block if they fit together. -/
def joinBb (blockSize : Nat) (bb : BackedBlock) : List BackedBlock → List BackedBlock
  | [] => [bb]
  | next :: rest =>
    match merged? blockSize bb next with
    | some m => m :: rest
    | none => bb :: next :: rest

/-- A new block behind `bb`, merged with its neighbours where they fit together. -/
def placeBb (blockSize : Nat) (bb new : BackedBlock) (after : List BackedBlock) :
    List BackedBlock :=
  joinBb blockSize bb (joinBb blockSize new after)

section

variable (blockSize : Nat) {new bb : BackedBlock} {done after : List BackedBlock}
  (hbefore : ∀ b ∈ done ++ [bb], b.block < new.block) (hafter : ∀ b ∈ after, new.block < b.block)

include hbefore hafter

theorem linkBb_eq : linkBb blockSize bb new after = .ok (placeBb blockSize bb new after) := by
  have hbb := hbefore bb (by simp)
  have hback : ∀ (m : BackedBlock) rest, m.block = new.block →
      (do match ← mergeBb blockSize bb m with
          | some merged => pure (merged :: rest)
          | none => pure (bb :: m :: rest)) = Except.ok (joinBb blockSize bb (m :: rest)) := by
    intro m rest hm
    rw [mergeBb_eq blockSize (hm ▸ hbb), joinBb]
    cases merged? blockSize bb m <;> rfl
  unfold linkBb placeBb
  cases after with
  | nil => exact hback new [] rfl
  | cons next rest =>
    rw [joinBb]
    simp only [mergeBb_eq blockSize (hafter next (by simp))]
    cases hnext : merged? blockSize new next with
    | none => exact hback new (next :: rest) rfl
    | some m => exact hback m rest (merged?_block hnext)

theorem insertBb_last : insertBb blockSize new bb after = .ok (placeBb blockSize bb new after) := by
  cases after with
  | nil => exact linkBb_eq blockSize hbefore hafter
  | cons next rest =>
    have hnext := hafter next (by simp)
    rw [insertBb, if_neg (by omega)]
    exact linkBb_eq blockSize hbefore hafter

theorem insertBb_eq {first : BackedBlock} : insertBb blockSize new first (done ++ bb :: after) =
      .ok (first :: (done ++ placeBb blockSize bb new after)) := by
  induction done generalizing first with
  | nil =>
    rw [nil_append, insertBb, if_pos (hbefore bb (by simp)), insertBb_last blockSize hbefore hafter]
    rfl
  | cons second done ih =>
    rw [cons_append, insertBb, if_pos (hbefore second (by simp)),
      ih fun b hb => hbefore b (by simp_all)]
    rfl

theorem insertFrom_eq {start : Nat} (hstart : start ∈ (done ++ [bb]).map BackedBlock.block) :
    insertFrom blockSize start new (done ++ bb :: after) =
      .ok (done ++ placeBb blockSize bb new after) := by
  induction done with
  | nil =>
    have hfirst : bb.block = start := by simpa [eq_comm] using hstart
    rw [nil_append, insertFrom, if_pos hfirst, insertBb_last blockSize hbefore hafter]
    rfl
  | cons first done ih =>
    have hrest : ∀ b ∈ done ++ [bb], b.block < new.block := fun b hb => hbefore b (by simp_all)
    rw [cons_append, insertFrom]
    split_ifs with hfirst
    · exact insertBb_eq blockSize hrest hafter
    · rcases mem_cons.mp hstart with h | h
      · exact absurd h.symm hfirst
      · rw [ih hrest h]
        rfl

end

def SparseFile.queued (s : SparseFile) (dataBlocks : List BackedBlock) (block : Nat) : SparseFile :=
  { s with dataBlocks, lastUsed := some block }

/-- The node that `last_used` points to is still there. -/
def SparseFile.Alive (s : SparseFile) : Prop :=
  ∀ last ∈ s.lastUsed, last ∈ s.dataBlocks.map BackedBlock.block

theorem exists_cons (done : List BackedBlock) (bb : BackedBlock) (after : List BackedBlock) :
    ∃ first more, done ++ bb :: after = first :: more ∧ first ∈ done ++ [bb] := by
  cases done with
  | nil => exact ⟨bb, after, rfl, by simp⟩
  | cons first done => exact ⟨first, done ++ bb :: after, rfl, by simp⟩

section

variable {s : SparseFile} {new bb : BackedBlock} {done after : List BackedBlock}
  (hblocks : s.dataBlocks = done ++ bb :: after)
  (hbefore : ∀ b ∈ done ++ [bb], b.block < new.block)

include hblocks hbefore

theorem queueBb_eq (hafter : ∀ b ∈ after, new.block < b.block) (halive : s.Alive) :
    queueBb s new = .ok (s.queued (done ++ placeBb s.blockSize bb new after) new.block) := by
  obtain ⟨first, more, hcons, hmem⟩ := exists_cons done bb after
  have hfirst := hbefore first hmem
  have hinsert := fun start => @insertFrom_eq s.blockSize _ _ _ _ hbefore hafter start
  rw [hcons] at hinsert hblocks
  have hstart : first.block ∈ (done ++ [bb]).map BackedBlock.block := mem_map_of_mem hmem
  unfold queueBb
  simp only [hblocks]
  rw [if_neg (by omega)]
  cases hused : s.lastUsed with
  | none =>
    simp only [bind, Except.bind, pure, Except.pure]
    rw [hinsert _ hstart]
    rfl
  | some last =>
    have hlast : last ∈ (first :: more).map BackedBlock.block := hblocks ▸ halive last hused
    have hplace : (if last < new.block then last else first.block) ∈
        (done ++ [bb]).map BackedBlock.block := by
      split_ifs with hlt
      · rw [← hcons, append_cons, map_append] at hlast
        rcases mem_append.mp hlast with h | h
        · exact h
        · obtain ⟨b, hb, rfl⟩ := mem_map.mp h
          exact absurd (hafter b hb) (by omega)
      · exact hstart
    simp only [bind, Except.bind, pure, Except.pure, if_pos hlast]
    rw [hinsert _ hplace]
    rfl

theorem queueBb_dead {last : Nat} (hused : s.lastUsed = some last)
    (hfreed : last ∉ (done ++ bb :: after).map BackedBlock.block) :
    queueBb s new = .error .dead := by
  obtain ⟨first, more, hcons, hmem⟩ := exists_cons done bb after
  have hfirst := hbefore first hmem
  rw [hcons] at hblocks hfreed
  unfold queueBb
  simp only [hblocks]
  rw [if_neg (by omega), hused]
  simp only [if_neg hfreed]
  rfl

end

/-! ## A list of blocks -/

/-- The blocks of the list that results from `bb` and the blocks after it, or
`none` if freed memory is used. -/
def settle (blockSize : Nat) : BackedBlock → List BackedBlock → Option (List BackedBlock)
  | bb, [] => some [bb]
  | bb, next :: rest =>
    match merged? blockSize bb next with
    | none => (settle blockSize next rest).map (bb :: ·)
    | some m => if rest.isEmpty then some [m] else none

def SparseFile.Has (s : SparseFile) (blocks : List BackedBlock) (s' : SparseFile) : Prop :=
  s'.blockSize = s.blockSize ∧ s'.len = s.len ∧ s'.dataBlocks = blocks

section

variable {done : List BackedBlock} {bb : BackedBlock} {rest : List BackedBlock}

/-- After a merge the next block is searched from a freed node. -/
theorem queueBb_merged (s : SparseFile) {m new next : BackedBlock}
    (hdone : ∀ b ∈ done, b.block < new.block) (hm : m.block < new.block)
    (hnext : new.block < next.block) :
    queueBb (s.queued (done ++ [m]) new.block) next = .error .dead := by
  have hold : ∀ b ∈ done ++ [m], b.block < new.block := by
    exact forall_mem_append.mpr ⟨hdone, forall_mem_singleton.mpr hm⟩
  have hfreed : new.block ∉ (done ++ [m]).map BackedBlock.block := by
    intro hmem
    obtain ⟨b, hb, heq⟩ := mem_map.mp hmem
    exact absurd heq (hold b hb).ne
  exact queueBb_dead (s := s.queued (done ++ [m]) new.block) rfl
    (fun b hb => (hold b hb).trans hnext) rfl hfreed

theorem foldlM_queueBb {s : SparseFile}
    (hsorted : (done ++ bb :: rest).Pairwise (·.block < ·.block))
    (hblocks : s.dataBlocks = done ++ [bb]) (halive : s.Alive) :
    (∀ blocks, settle s.blockSize bb rest = some blocks →
      ∃ s', rest.foldlM queueBb s = .ok s' ∧ s.Has (done ++ blocks) s') ∧
    (settle s.blockSize bb rest = none → rest.foldlM queueBb s = .error .dead) := by
  induction rest generalizing s done bb with
  | nil =>
    refine ⟨fun blocks h => ?_, nofun⟩
    cases h
    exact ⟨s, rfl, rfl, rfl, hblocks⟩
  | cons new rest ih =>
    have hnew : ∀ b ∈ done ++ [bb], b.block < new.block := by
      rw [append_cons] at hsorted
      exact fun b hb => (pairwise_append.mp hsorted).2.2 b hb new (by simp)
    rw [foldlM_cons, queueBb_eq hblocks hnew (by simp) halive]
    simp only [settle, placeBb, joinBb]
    cases hmerge : merged? s.blockSize bb new with
    | none =>
      have hconcat : done ++ [bb, new] = done ++ [bb] ++ [new] := by simp
      have hmem : new.block ∈ (done ++ [bb, new]).map BackedBlock.block :=
        mem_map_of_mem (by simp)
      obtain ⟨hsome, hnone⟩ := @ih (done ++ [bb]) new (s.queued (done ++ [bb, new]) new.block)
        (by rwa [append_assoc]) hconcat fun last hlast => some.inj hlast ▸ hmem
      constructor
      · intro blocks hblocks
        obtain ⟨blocks', hsettle, rfl⟩ := map_eq_some_iff.mp hblocks
        obtain ⟨s', hfold, hhas⟩ := hsome blocks' hsettle
        rw [append_assoc] at hhas
        exact ⟨s', hfold, hhas⟩
      · intro hdead
        exact hnone (map_eq_none_iff.mp hdead)
    | some m =>
      cases rest with
      | nil =>
        refine ⟨fun blocks h => ?_, nofun⟩
        cases h
        exact ⟨s.queued (done ++ [m]) new.block, rfl, rfl, rfl, rfl⟩
      | cons next rest =>
        refine ⟨nofun, fun _ => ?_⟩
        have hnext : new.block < next.block := by
          rw [append_cons, append_cons] at hsorted
          exact (pairwise_append.mp hsorted).2.2 new (by simp) next (by simp)
        have hdone : ∀ b ∈ done, b.block < new.block := fun b hb => hnew b (by simp [hb])
        have hdead := queueBb_merged s hdone
          ((merged?_block hmerge).trans_lt (hnew bb (by simp))) hnext
        change List.foldlM queueBb (s.queued (done ++ [m]) new.block) (next :: rest) = _
        rw [foldlM_cons, hdead]
        rfl

end

def settleAll (blockSize : Nat) : List BackedBlock → Option (List BackedBlock)
  | [] => some []
  | bb :: rest => settle blockSize bb rest

theorem foldlM_queueBb_new {blockSize len : Nat} {blocks : List BackedBlock}
    (hsorted : blocks.Pairwise (·.block < ·.block)) :
    (∀ settled, settleAll blockSize blocks = some settled →
      ∃ s', blocks.foldlM queueBb (sparseFileNew blockSize len) = .ok s' ∧
        (sparseFileNew blockSize len).Has settled s') ∧
    (settleAll blockSize blocks = none →
      blocks.foldlM queueBb (sparseFileNew blockSize len) = .error .dead) := by
  cases blocks with
  | nil =>
    refine ⟨fun settled h => ?_, nofun⟩
    cases h
    exact ⟨_, rfl, rfl, rfl, rfl⟩
  | cons bb rest =>
    exact @foldlM_queueBb [] bb rest { sparseFileNew blockSize len with dataBlocks := [bb] } hsorted
      rfl nofun

end ShieldTv.Libsparse
