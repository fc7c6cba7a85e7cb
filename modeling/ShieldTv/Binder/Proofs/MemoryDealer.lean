import ShieldTv.Binder.MemoryDealer

/-!
# Memory handed out is in bounds and exclusive

The chunks tile the heap. An allocation cuts its chunk out of a free one, and merging
only joins free chunks, so every live allocation keeps a chunk of its own. A request
whose size wraps when it is rounded up is served with a chunk of no size at all.
-/

namespace ShieldTv.Binder.MemoryDealer

open Lib List Option

/-! ## The best fit -/

def Suits (pageAligned : Bool) (size : Nat) (chunk : Chunk) : Prop :=
  chunk.free = true ∧ size + extra pageAligned chunk ≤ chunk.size

variable {chunks before after : List Chunk} {units n size : Nat} {chunk : Chunk} {a : Allocator}

section

variable {pageAligned : Bool} {best : Option (Nat × Nat)}

theorem better_spec (best : Option (Nat × Nat)) (i : Nat) (cur : Chunk) :
    ∃ k s, better best i cur = some (k, s) ∧ s ≤ cur.size ∧
      (∀ j t, best = some (j, t) → s ≤ t) ∧
      (best = some (k, s) ∨ k = i ∧ s = cur.size ∧ ∀ j t, best = some (j, t) → cur.size < t) := by
  cases best with
  | none => exact ⟨i, cur.size, rfl, le_rfl, nofun, .inr ⟨rfl, rfl, nofun⟩⟩
  | some best =>
    obtain ⟨j, t⟩ := best
    rw [better]
    split_ifs with hlt
    · refine ⟨i, cur.size, rfl, le_rfl, ?_, .inr ⟨rfl, rfl, ?_⟩⟩
      · rintro j t ⟨⟩
        exact hlt.le
      · rintro j t ⟨⟩
        exact hlt
    · refine ⟨j, t, rfl, not_lt.mp hlt, ?_, .inl rfl⟩
      rintro j t ⟨⟩
      exact le_rfl

theorem bestFit_none {i : Nat} :
    bestFit pageAligned size chunks i best = none ↔
      best = none ∧ ∀ chunk ∈ chunks, ¬Suits pageAligned size chunk := by
  induction chunks generalizing i best with
  | nil => simp [bestFit]
  | cons cur rest ih =>
    rw [bestFit, forall_mem_cons]
    by_cases hsuits : cur.free ∧ size + extra pageAligned cur ≤ cur.size
    · have hcur : Suits pageAligned size cur := hsuits
      obtain ⟨k, s, hbetter, -⟩ := better_spec best i cur
      rw [if_pos hsuits, hbetter]
      split_ifs
      · simp [hcur]
      · simp [ih, hcur]
    · have hcur : ¬Suits pageAligned size cur := hsuits
      rw [if_neg hsuits, ih]
      simp [hcur]

/-- `chunk` is the first of the smallest of the chunks that suit. -/
structure Best (pageAligned : Bool) (size : Nat) (before : List Chunk) (chunk : Chunk)
    (after : List Chunk) : Prop where
  suits : Suits pageAligned size chunk
  first : ∀ other ∈ before, Suits pageAligned size other → chunk.size < other.size
  smallest : ∀ other ∈ after, Suits pageAligned size other → chunk.size ≤ other.size

theorem bestFit_some {i k : Nat} (h : bestFit pageAligned size chunks i best = some k) :
    (∃ s, best = some (k, s) ∧ ∀ chunk ∈ chunks, Suits pageAligned size chunk → s ≤ chunk.size) ∨
      ∃ before chunk after, chunks = before ++ chunk :: after ∧ k = i + before.length ∧
        Best pageAligned size before chunk after ∧ ∀ j s, best = some (j, s) → chunk.size < s := by
  induction chunks generalizing i best with
  | nil =>
    obtain ⟨⟨j, s⟩, hbest, rfl⟩ := map_eq_some_iff.mp h
    exact .inl ⟨s, hbest, nofun⟩
  | cons cur rest ih =>
    rw [bestFit] at h
    by_cases hsuits : cur.free ∧ size + extra pageAligned cur ≤ cur.size
    · obtain ⟨k', s, hbetter, hle, hbest, horigin⟩ := better_spec best i cur
      rw [if_pos hsuits, hbetter] at h
      have hnext : (k' = k ∧ ∀ chunk ∈ rest, Suits pageAligned size chunk → s ≤ chunk.size) ∨
          ∃ before chunk after, rest = before ++ chunk :: after ∧ k = i + 1 + before.length ∧
            Best pageAligned size before chunk after ∧ chunk.size < s := by
        split_ifs at h with hexact
        · refine .inl ⟨some.inj h, fun chunk _ hchunk => ?_⟩
          have hroom := hchunk.2
          omega
        · rcases ih h with ⟨s', heq, hrest⟩ | ⟨before, chunk, after, hrest, hk, hbestAt, hlt⟩
          · obtain ⟨rfl, rfl⟩ := Prod.mk.inj (some.inj heq)
            exact .inl ⟨rfl, hrest⟩
          · exact .inr ⟨before, chunk, after, hrest, hk, hbestAt, hlt k' s rfl⟩
      rcases hnext with ⟨rfl, hrest⟩ | ⟨before, chunk, after, rfl, hk, hbestAt, hlt⟩
      · rcases horigin with hold | ⟨rfl, rfl, hlt⟩
        · exact .inl ⟨s, hold, forall_mem_cons.mpr ⟨fun _ => hle, hrest⟩⟩
        · exact .inr ⟨[], cur, rest, rfl, rfl, ⟨hsuits, nofun, hrest⟩, hlt⟩
      · refine .inr ⟨cur :: before, chunk, after, rfl, by rw [length_cons]; omega,
          { hbestAt with first := ?_ }, fun j t heq => hlt.trans_le (hbest j t heq)⟩
        exact forall_mem_cons.mpr ⟨fun _ => by omega, hbestAt.first⟩
    · rw [if_neg hsuits] at h
      rcases ih h with ⟨s, heq, hrest⟩ | ⟨before, chunk, after, rfl, hk, hbestAt, hlt⟩
      · exact .inl ⟨s, heq, forall_mem_cons.mpr ⟨fun hcur => absurd hcur hsuits, hrest⟩⟩
      · refine .inr ⟨cur :: before, chunk, after, rfl, by rw [length_cons]; omega,
          { hbestAt with first := ?_ }, hlt⟩
        exact forall_mem_cons.mpr ⟨fun hcur => absurd hcur hsuits, hbestAt.first⟩

end

/-! ## The chunks tile the heap -/

/-- No two neighbouring chunks are free. -/
def Coalesced (chunks : List Chunk) : Prop :=
  chunks.IsChain fun a b => ¬(a.free = true ∧ b.free = true)

/-- The chunks cover `units` units, and none is empty unless the heap is. -/
structure Tiled (units : Nat) (chunks : List Chunk) : Prop where
  tiles : Tiles Chunk.start Chunk.size 0 chunks units
  small : units < 2 ^ 28
  pos : 0 < units → ∀ chunk ∈ chunks, 0 < chunk.size

theorem Tiled.replace {mid mid' : List Chunk} (h : Tiled units (before ++ mid ++ after))
    (hmid : ∀ lo hi, Tiles Chunk.start Chunk.size lo mid hi → hi ≤ units →
      Tiles Chunk.start Chunk.size lo mid' hi) (hpos : 0 < units → ∀ chunk ∈ mid', 0 < chunk.size) :
    Tiled units (before ++ mid' ++ after) := by
  obtain ⟨hi, hleft, hafter⟩ := tiles_append.mp h.tiles
  obtain ⟨lo, hbefore, htiles⟩ := tiles_append.mp hleft
  refine ⟨tiles_append.mpr ⟨hi, tiles_append.mpr
    ⟨lo, hbefore, hmid lo hi htiles hafter.le⟩, hafter⟩, h.small, ?_⟩
  intro hunits chunk hchunk
  have hold := h.pos hunits
  simp only [mem_append] at hchunk hold
  rcases hchunk with (hchunk | hchunk) | hchunk
  · exact hold chunk (.inl (.inl hchunk))
  · exact hpos hunits chunk hchunk
  · exact hold chunk (.inr hchunk)

/-- What an allocation leaves in the place of a free chunk. -/
def cut (size : Nat) (chunk : Chunk) : List Chunk :=
  ⟨chunk.start, size, false⟩ ::
    if size < chunk.size then [⟨chunk.start + size, chunk.size - size, true⟩] else []

theorem carve_eq (hle : size ≤ chunk.size) (hsmall : chunk.size < 2 ^ 28) :
    carve false size chunk = ([], ⟨chunk.start, size, false⟩, (cut size chunk).tail) := by
  have hmod : size % 2 ^ 28 = size := Nat.mod_eq_of_lt (by omega)
  unfold carve cut
  by_cases hlt : size < chunk.size
  · have hrest : (chunk.size - size) % 2 ^ 28 = chunk.size - size := Nat.mod_eq_of_lt (by omega)
    have htail : ((chunk.size : Int) - size).toNat = chunk.size - size := by omega
    simp [-Nat.reducePow, extra, hmod, hlt, Chunk.new, hrest, htail]
  · simp [-Nat.reducePow, hmod, hlt]

theorem tiles_cut {lo hi : Nat} (hle : size ≤ chunk.size)
    (h : Tiles Chunk.start Chunk.size lo [chunk] hi) :
    Tiles Chunk.start Chunk.size lo (cut size chunk) hi := by
  obtain ⟨rfl, rfl⟩ := h
  unfold cut
  split_ifs with hlt
  · exact ⟨rfl, rfl, by dsimp only [Tiles]; omega⟩
  · exact ⟨rfl, by dsimp only [Tiles]; omega⟩

theorem mem_cut {part : Chunk} (h : part ∈ cut size chunk) :
    part = ⟨chunk.start, size, false⟩ ∨ part.free = true ∧ 0 < part.size := by
  unfold cut at h
  split_ifs at h with hlt
  · rcases mem_cons.mp h with rfl | h
    · exact .inl rfl
    · rw [mem_singleton.mp h]
      exact .inr ⟨rfl, Nat.sub_pos_of_lt hlt⟩
  · exact .inl (mem_singleton.mp h)

theorem coalesced_cut (hfree : chunk.free = true) (h : Coalesced (before ++ chunk :: after)) :
    Coalesced (before ++ cut size chunk ++ after) := by
  obtain ⟨hbefore, hchain, -⟩ := isChain_append.mp h
  obtain ⟨hnext, hafter⟩ := isChain_cons.mp hchain
  rw [append_assoc]
  refine isChain_append.mpr ⟨hbefore, isChain_cons.mpr ⟨by simp, ?_⟩, by simp [cut]⟩
  split_ifs
  · exact isChain_cons.mpr ⟨fun next hmem => by simpa [hfree] using hnext next hmem, hafter⟩
  · exact hafter

/-! ## Allocation -/

/-- The units of 32 bytes that a request takes. -/
def unitsOf (n : Nat) : Nat := (n + memoryAlign - 1) / memoryAlign

theorem unitsOf_spec (hn : 0 < n) : 0 < unitsOf n ∧ n ≤ unitsOf n * 32 := by
  simp only [unitsOf, memoryAlign]
  omega

/-- A request that does not wrap is cut out of the first of the smallest chunks that are large
enough, or fails. -/
theorem alloc_spec (hn : 0 < n) (hwrap : n + 31 < 2 ^ 64) (htiled : Tiled units a.chunks) :
    (alloc a n false = (none, a) ∧ ∀ chunk ∈ a.chunks, ¬Suits false (unitsOf n) chunk) ∨
      ∃ before chunk after, a.chunks = before ++ chunk :: after ∧
        Best false (unitsOf n) before chunk after ∧ alloc a n false = (some (chunk.start * 32),
          { a with chunks := before ++ cut (unitsOf n) chunk ++ after }) := by
  have hsize : (n + memoryAlign - 1) % 2 ^ 64 / memoryAlign = unitsOf n := by
    simp only [unitsOf, memoryAlign]
    omega
  rw [alloc, if_neg (by omega)]
  simp only [hsize]
  cases hbest : bestFit false (unitsOf n) a.chunks 0 none with
  | none => exact .inl ⟨rfl, (bestFit_none.mp hbest).2⟩
  | some k =>
    rcases bestFit_some hbest with ⟨s, hs, -⟩ | ⟨before, chunk, after, hsplit, hk, hbestAt, -⟩
    · cases hs
    obtain rfl : k = before.length := by omega
    have hsmall : chunk.start + chunk.size < 2 ^ 28 :=
      (htiled.tiles.bounds (by simp [hsplit])).2.trans_lt htiled.small
    have hcarve := carve_eq (show unitsOf n ≤ chunk.size from hbestAt.suits.2) (by omega)
    refine .inr ⟨before, chunk, after, hsplit, hbestAt, ?_⟩
    simp [hsplit, hcarve, memoryAlign, cut]

/-! ## Freeing -/

theorem Tiled.neighbours {p cur : Chunk} (h : Tiled units (before ++ [p, cur] ++ after)) :
    p.size + cur.size < 2 ^ 28 := by
  obtain ⟨hi, hleft, hafter⟩ := tiles_append.mp h.tiles
  obtain ⟨lo, -, -, -, hend⟩ := tiles_append.mp hleft
  have hle := hafter.le
  have hsmall := h.small
  have heq : lo + p.size + cur.size = hi := hend
  omega

def used (chunks : List Chunk) : List Chunk := chunks.filter (! ·.free)

section

variable {before rest : List Chunk} {cur : Chunk}

theorem coalesced_reverse : Coalesced before.reverse ↔ Coalesced before := by
  unfold Coalesced
  rw [isChain_reverse]
  simp only [and_comm]

/-- A round of the merging loop joins `cur` to the chunks before it and keeps the others. -/
theorem absorb_spec (h : Tiled units (before.reverse ++ [cur] ++ rest)) (hpos : 0 < cur.size)
    (hfree : cur.free = true) (hbefore : Coalesced before) :
    Tiled units ((absorb before cur).reverse ++ rest) ∧ Coalesced (absorb before cur) ∧
      used (absorb before cur) = used before := by
  cases before with
  | nil => exact ⟨h, isChain_singleton _, by simp [absorb, used, hfree]⟩
  | cons p ps =>
    rw [absorb]
    by_cases hp : p.free ∨ cur.size = 0
    · have hpfree : p.free = true := hp.resolve_right (by omega)
      rw [if_pos hp]
      refine ⟨?_, isChain_cons.mpr (isChain_cons.mp hbefore), by simp [used, hpfree]⟩
      rw [reverse_cons] at h ⊢
      rw [append_assoc ps.reverse] at h
      have hmod : (p.size + cur.size) % 2 ^ 28 = p.size + cur.size :=
        Nat.mod_eq_of_lt h.neighbours
      rw [hmod]
      refine h.replace ?_ ?_
      · rintro lo hi ⟨hstart, hcurstart, hend⟩ -
        exact ⟨hstart, (add_assoc lo p.size cur.size).symm.trans hend⟩
      · intro _ chunk hchunk
        rw [mem_singleton.mp hchunk]
        exact Nat.add_pos_right _ hpos
    · rw [if_neg hp]
      exact ⟨by simpa using h, isChain_cons_cons.mpr ⟨by simp_all, hbefore⟩, by simp [used, hfree]⟩

theorem mergeLoop_spec (hunits : 0 < units) (h : Tiled units (before.reverse ++ [cur] ++ rest))
    (hfree : cur.free = true) (hbefore : Coalesced before) (hrest : Coalesced rest) :
    Tiled units (mergeLoop before cur rest) ∧ Coalesced (mergeLoop before cur rest) ∧
      used (mergeLoop before cur rest) = (used before).reverse ++ used rest := by
  induction rest generalizing before cur with
  | nil =>
    obtain ⟨htiled, hchain, hkept⟩ := absorb_spec h (h.pos hunits cur (by simp)) hfree hbefore
    rw [append_nil] at htiled
    refine ⟨htiled, coalesced_reverse.mpr hchain, ?_⟩
    rw [← hkept]
    simp [mergeLoop, used]
  | cons next rest ih =>
    obtain ⟨htiled, hchain, hkept⟩ := absorb_spec h (h.pos hunits cur (by simp)) hfree hbefore
    rw [mergeLoop, ← hkept]
    split_ifs with hnext
    · obtain ⟨hresult, hchain', hkept'⟩ :=
        ih (by simpa using htiled) hnext hchain (isChain_cons.mp hrest).2
      exact ⟨hresult, hchain', hkept'.trans (by simp [used, hnext])⟩
    · exact ⟨htiled, isChain_append.mpr ⟨coalesced_reverse.mpr hchain, hrest, by simp [hnext]⟩,
        by simp [used]⟩

/-- The chunk to free is found, and only it is given up. -/
theorem freeLoop_spec {start : Nat} (hunits : 0 < units) (h : Tiled units (before.reverse ++ rest))
    (hchain : Coalesced (before.reverse ++ rest)) :
    Tiled units (freeLoop start before rest) ∧ Coalesced (freeLoop start before rest) ∧
      used (freeLoop start before rest) =
        (used before).reverse ++ (used rest).filter (·.start ≠ start) := by
  induction rest generalizing before with
  | nil =>
    rw [append_nil] at h hchain
    exact ⟨h, hchain, by simp [freeLoop, used]⟩
  | cons cur rest ih =>
    rw [freeLoop]
    split_ifs with hstart
    · have hcur : Tiled units (before.reverse ++ [cur] ++ rest) := by simpa using h
      have hfreed : Tiled units (before.reverse ++ [{ cur with free := true }] ++ rest) := by
        refine hcur.replace (fun lo hi htile _ => htile) ?_
        intro hpos chunk hchunk
        rw [mem_singleton.mp hchunk]
        exact hcur.pos hpos cur (by simp)
      obtain ⟨hleft, hright, -⟩ := isChain_append.mp hchain
      obtain ⟨hresult, hchain', hkept⟩ := mergeLoop_spec hunits hfreed rfl
        (coalesced_reverse.mp hleft) (isChain_cons.mp hright).2
      refine ⟨hresult, hchain', hkept.trans (congrArg _ ?_)⟩
      have hafter : ∀ chunk ∈ used rest, decide (chunk.start ≠ start) = true := by
        intro chunk hchunk
        obtain ⟨mid, -, hmid, htiles⟩ := tiles_append.mp h.tiles
        have hbounds := htiles.bounds (mem_of_mem_filter hchunk)
        have hpos := h.pos hunits cur (by simp)
        exact decide_eq_true (by omega)
      rw [← filter_eq_self.mpr hafter]
      cases hfree : cur.free <;> simp [used, hfree, hstart]
    · obtain ⟨hresult, hchain', hkept⟩ := @ih (cur :: before) (by simpa using h)
        (by simpa using hchain)
      refine ⟨hresult, hchain', hkept.trans ?_⟩
      cases hfree : cur.free <;> simp [used, hfree, hstart]

end

/-! ## Runs -/

structure Inv (units : Nat) (state : State) : Prop where
  tiled : Tiled units state.allocator.chunks
  coalesced : Coalesced state.allocator.chunks
  nonempty : state.allocator.chunks ≠ []
  heap : units = state.allocator.heapSize / 32 % 2 ^ 28
  heap_lt : state.allocator.heapSize ≤ 2 ^ 33
  pos : ∀ allocation ∈ state.live, 0 < allocation.2
  live : ((used state.allocator.chunks).map fun chunk => (chunk.start * 32, chunk.size)).Perm
    (state.live.map fun allocation => (allocation.1, unitsOf allocation.2))

section

variable {state : State} (hinv : Inv units state)
include hinv

theorem Inv.owned {allocation : Nat × Nat} (h : allocation ∈ state.live) :
    ∃ chunk ∈ state.allocator.chunks, chunk.free = false ∧ chunk.start * 32 = allocation.1 ∧
      chunk.size = unitsOf allocation.2 := by
  obtain ⟨chunk, hchunk, heq⟩ := mem_map.mp (hinv.live.mem_iff.mpr (mem_map_of_mem h))
  obtain ⟨hmem, hused⟩ := mem_filter.mp hchunk
  exact ⟨chunk, hmem, by simpa using hused, congrArg Prod.fst heq, congrArg Prod.snd heq⟩

theorem Inv.held (hchunk : chunk ∈ state.allocator.chunks) (hused : chunk.free = false) :
    ∃ allocation ∈ state.live, allocation.1 = chunk.start * 32 ∧
      chunk.size = unitsOf allocation.2 := by
  have hmem : chunk ∈ used state.allocator.chunks := mem_filter.mpr ⟨hchunk, by simp [hused]⟩
  obtain ⟨allocation, hallocation, heq⟩ := mem_map.mp (hinv.live.mem_iff.mp (mem_map_of_mem hmem))
  exact ⟨allocation, hallocation, congrArg Prod.fst heq, (congrArg Prod.snd heq).symm⟩

end

theorem inv_new (hsize : (Allocator.new size).heapSize ≤ 2 ^ 33) :
    Inv ((Allocator.new size).heapSize / 32 % 2 ^ 28) { allocator := .new size } where
  tiled := {
    tiles := ⟨rfl, zero_add _⟩
    small := Nat.mod_lt _ (by norm_num)
    pos := fun hpos chunk hchunk => by
      rw [mem_singleton.mp hchunk]
      exact hpos }
  coalesced := isChain_singleton _
  nonempty := cons_ne_nil _ _
  heap := rfl
  heap_lt := hsize
  pos := nofun
  live := .refl _

/-- Clients ask for something and give back only what they hold. -/
def Valid (state : State) : Call → Prop
  | .allocate n => 0 < n ∧ n < 2 ^ 64
  | .deallocate offset => ∃ allocation ∈ state.live, allocation.1 = offset

/-- An offset that is returned belongs to memory inside the heap that no one else holds. -/
def Exclusive (state : State) : Call → Prop
  | .allocate n => ∀ offset, (alloc state.allocator n false).1 = some offset →
      offset + n ≤ state.allocator.heapSize ∧ ∀ other ∈ state.live,
        offset + n ≤ other.1 ∨ other.1 + other.2 ≤ offset
  | .deallocate _ => True

/-- The request does not wrap when it is rounded up, or there is no free chunk to answer it. -/
def Sane (state : State) : Call → Prop
  | .allocate n => n + 31 < 2 ^ 64 ∨ ∀ chunk ∈ state.allocator.chunks, chunk.free = false
  | .deallocate _ => True

/-- A property of every call of a run, with the state before it. -/
def Along (P : State → Call → Prop) : State → List Call → Prop
  | _, [] => True
  | state, call :: calls => P state call ∧ Along P (step state call) calls

theorem not_suits_of_used (h : ∀ chunk ∈ chunks, chunk.free = false) (size : Nat) :
    bestFit false size chunks 0 none = none := by
  rw [bestFit_none]
  refine ⟨rfl, fun chunk hchunk hsuits => ?_⟩
  have hfree := hsuits.1
  rw [h chunk hchunk] at hfree
  exact absurd hfree (by decide)

theorem alloc_none (h : ∀ chunk ∈ a.chunks, chunk.free = false) (hn : 0 < n) :
    alloc a n false = (none, a) := by
  rw [alloc, if_neg (by omega)]
  simp only [not_suits_of_used h]

theorem alloc_wrapped (hchunk : chunk ∈ a.chunks) (hfree : chunk.free = true) (hn : n < 2 ^ 64)
    (hwrap : 2 ^ 64 ≤ n + 31) : ∃ offset, (alloc a n false).1 = some offset := by
  have hzero : (n + memoryAlign - 1) % 2 ^ 64 / memoryAlign = 0 := by
    simp only [memoryAlign]
    omega
  rw [alloc, if_neg (by omega)]
  simp only [hzero]
  cases hbest : bestFit false 0 a.chunks 0 none with
  | none =>
    have hnone := (bestFit_none.mp hbest).2 chunk hchunk
    exact absurd ⟨hfree, Nat.zero_le _⟩ hnone
  | some k =>
    rcases bestFit_some hbest with ⟨s, hs, -⟩ | ⟨before, found, after, hsplit, hk, -⟩
    · cases hs
    · obtain rfl : k = before.length := by omega
      have hget : a.chunks[before.length]? = some found := by simp [hsplit]
      simp only [hget]
      exact ⟨_, rfl⟩

section

variable {state : State}

section

variable (hinv : Inv units state) {call : Call} (hvalid : Valid state call)
include hinv hvalid

theorem exclusive_iff_sane : Exclusive state call ↔ Sane state call := by
  cases call with
  | deallocate offset => exact Iff.rfl
  | allocate n =>
    obtain ⟨hn, hlt⟩ := hvalid
    by_cases hwrap : n + 31 < 2 ^ 64
    · refine iff_of_true ?_ (.inl hwrap)
      intro offset hoffset
      obtain ⟨-, hround⟩ := unitsOf_spec hn
      have hheap := hinv.heap
      rcases alloc_spec hn hwrap hinv.tiled with ⟨hnone, -⟩ |
        ⟨before, chunk, after, hsplit, hbest, hok⟩
      · simp [hnone] at hoffset
      have hchunk : chunk ∈ state.allocator.chunks := by simp [hsplit]
      have hbounds := hinv.tiled.tiles.bounds hchunk
      have hroom : unitsOf n ≤ chunk.size := hbest.suits.2
      obtain rfl : chunk.start * 32 = offset := by simpa [hok] using hoffset
      refine ⟨by omega, fun other hother => ?_⟩
      obtain ⟨mine, hmine, hused, hstart, hsize⟩ := hinv.owned hother
      obtain ⟨-, hround'⟩ := unitsOf_spec (hinv.pos other hother)
      rcases hinv.tiled.tiles.apart hmine hchunk with rfl | hle | hle
      · simp [hbest.suits.1] at hused
      · omega
      · omega
    · by_cases hused : ∀ chunk ∈ state.allocator.chunks, chunk.free = false
      · refine iff_of_true ?_ (.inr hused)
        intro offset hoffset
        rw [alloc_none hused hn] at hoffset
        exact absurd hoffset (by simp)
      · refine iff_of_false ?_ ?_
        · intro hexclusive
          push Not at hused
          obtain ⟨chunk, hchunk, hfree⟩ := hused
          obtain ⟨offset, hoffset⟩ :=
            alloc_wrapped hchunk (by simpa using hfree) hlt (by omega)
          have hbound := (hexclusive offset hoffset).1
          have hheap := hinv.heap_lt
          omega
        · rintro (hsane | hsane)
          · exact hwrap hsane
          · exact hused hsane

theorem inv_step (hsane : Sane state call) : Inv units (step state call) := by
  cases call with
  | deallocate offset =>
    obtain ⟨allocation, hallocation, hoffset⟩ := hvalid
    obtain ⟨chunk, hchunk, -, hstart, hsize⟩ := hinv.owned hallocation
    have hsizepos := (unitsOf_spec (hinv.pos _ hallocation)).1
    have hbounds := hinv.tiled.tiles.bounds hchunk
    obtain ⟨htiled, hchain, hkept⟩ := @freeLoop_spec units [] state.allocator.chunks
      (offset / memoryAlign) (by omega) hinv.tiled hinv.coalesced
    have hunit : offset / memoryAlign * 32 = offset := by
      simp only [memoryAlign]
      omega
    refine ⟨htiled, hchain, ?_, hinv.heap, hinv.heap_lt,
      fun other hother => hinv.pos other (mem_of_mem_filter hother), ?_⟩
    · intro hnil
      have htiles := htiled.tiles
      rw [show freeLoop _ _ _ = [] from hnil] at htiles
      have hzero : 0 = units := htiles
      omega
    · have hperm := hinv.live.filter (·.1 ≠ offset)
      rw [List.filter_map, List.filter_map] at hperm
      rw [step, dealloc, hkept]
      refine Perm.trans (.of_eq (congrArg _ (filter_congr fun chunk _ => ?_))) hperm
      simp only [Function.comp_apply, ne_eq, decide_not]
      congr 2
      exact propext (by omega)
  | allocate n =>
    obtain ⟨hn, hlt⟩ := hvalid
    have hfailed : alloc state.allocator n false = (none, state.allocator) →
        Inv units (step state (.allocate n)) := fun hnone => by simpa [step, hnone] using hinv
    by_cases hused : ∀ chunk ∈ state.allocator.chunks, chunk.free = false
    · exact hfailed (alloc_none hused hn)
    rcases alloc_spec hn (hsane.resolve_right hused) hinv.tiled with
      ⟨hnone, -⟩ | ⟨before, chunk, after, hsplit, hbest, hok⟩
    · exact hfailed hnone
    have hroom : unitsOf n ≤ chunk.size := hbest.suits.2
    obtain ⟨hsize, -⟩ := unitsOf_spec hn
    have hsplit' : state.allocator.chunks = before ++ [chunk] ++ after := by simp [hsplit]
    simp only [step, hok]
    refine ⟨?_, coalesced_cut hbest.suits.1 (hsplit ▸ hinv.coalesced), by simp [cut], hinv.heap,
      hinv.heap_lt, forall_mem_cons.mpr ⟨hn, hinv.pos⟩, ?_⟩
    · refine (hsplit' ▸ hinv.tiled).replace (fun lo hi htiles _ => tiles_cut hroom htiles) ?_
      intro _ part hpart
      rcases mem_cut hpart with rfl | ⟨-, hpos⟩
      · exact hsize
      · exact hpos
    · have hcut : used (cut (unitsOf n) chunk) = [⟨chunk.start, unitsOf n, false⟩] := by
        unfold cut
        split_ifs <;> simp [used]
      have hperm := hinv.live
      rw [hsplit', used, filter_append, filter_append, filter_cons_of_neg (by simp [hbest.suits.1]),
        filter_nil, append_nil, map_append] at hperm
      rw [used, filter_append, filter_append, show filter _ _ = _ from hcut,
        append_assoc, map_append]
      exact perm_middle.trans (hperm.cons _)

end

theorem along_iff (hinv : Inv units state) {calls : List Call} (hvalid : Along Valid state calls) :
    Along Exclusive state calls ↔ Along Sane state calls := by
  induction calls generalizing state with
  | nil => exact Iff.rfl
  | cons call calls ih =>
    obtain ⟨hcall, hrest⟩ := hvalid
    have hiff := exclusive_iff_sane hinv hcall
    constructor
    · rintro ⟨hexclusive, hexclusives⟩
      have hsane := hiff.mp hexclusive
      exact ⟨hsane, (ih (inv_step hinv hcall hsane) hrest).mp hexclusives⟩
    · rintro ⟨hsane, hsanes⟩
      exact ⟨hiff.mpr hsane, (ih (inv_step hinv hcall hsane) hrest).mpr hsanes⟩

end

/-- For every heap below eight gigabytes and every run, all memory handed out is inside the heap
and exclusive exactly when no request wraps while there is a free chunk. -/
theorem exclusive_along_iff {size : Nat} (hsize : size < 2 ^ 33) {calls : List Call}
    (hvalid : Along Valid { allocator := .new size } calls) :
    Along Exclusive { allocator := .new size } calls ↔
      Along Sane { allocator := .new size } calls := by
  have hheap : (Allocator.new size).heapSize ≤ 2 ^ 33 := by
    simp only [Allocator.new, pagesize]
    omega
  exact along_iff (inv_new hheap) hvalid

theorem exclusive_along_twoAllocations :
    Along Exclusive { allocator := .new 4096 }
      [.allocate 100, .allocate 33, .deallocate 0, .allocate 64] := by
  refine (exclusive_along_iff (by norm_num) ?_).mpr ?_
  · refine ⟨by simp [Valid], by simp [Valid], ⟨(0, 100), by decide, rfl⟩, by simp [Valid], trivial⟩
  · simp [Along, Sane]

/-- The largest request is answered with the whole heap's first byte. -/
theorem allocate_sizeMax_not_exclusive :
    Along Valid { allocator := .new 4096 } [.allocate (2 ^ 64 - 1)] ∧
      (alloc (.new 4096) (2 ^ 64 - 1) false).1 = some 0 ∧
      ¬Along Exclusive { allocator := .new 4096 } [.allocate (2 ^ 64 - 1)] := by
  have hresult : (alloc (.new 4096) (2 ^ 64 - 1) false).1 = some 0 := by decide +kernel
  refine ⟨⟨by simp [Valid], trivial⟩, hresult, ?_⟩
  rintro ⟨hexclusive, -⟩
  have hbound := (hexclusive 0 hresult).1
  have hheap : (Allocator.new 4096).heapSize = 4096 := by decide +kernel
  simp only [hheap] at hbound
  omega

end ShieldTv.Binder.MemoryDealer
