import ShieldTv.Binder.Proofs.MemoryDealer

/-!
# The allocator is best fit and coalescing

The maximal gaps between the live allocations are the free chunks, as long as the size of the
heap fits the 28 bits that a chunk has for it.
-/

namespace ShieldTv.Binder.MemoryDealer

open Lib List

/-- A unit of the heap that a live allocation holds. -/
def Held (state : State) (u : Nat) : Prop :=
  ∃ allocation ∈ state.live, allocation.1 / memoryAlign ≤ u ∧
    u < allocation.1 / memoryAlign + unitsOf allocation.2

/-- The units from `lo` to `hi` are a maximal free part of the heap. -/
structure Gap (state : State) (lo hi : Nat) : Prop where
  lt : lo < hi
  le : hi ≤ state.allocator.heapSize / memoryAlign
  free : ∀ u, lo ≤ u → u < hi → ¬Held state u
  left : lo = 0 ∨ Held state (lo - 1)
  right : hi = state.allocator.heapSize / memoryAlign ∨ Held state hi

/-- What `alloc` is to do with a request: fail if no gap is large enough, and take the first of the
smallest of those that are. -/
def Serves (state : State) (n : Nat) : Option Nat → Prop
  | none => ∀ lo hi, Gap state lo hi → hi - lo < unitsOf n
  | some offset => ∃ lo hi, Gap state lo hi ∧ unitsOf n ≤ hi - lo ∧ offset = lo * memoryAlign ∧
      ∀ lo' hi', Gap state lo' hi' → unitsOf n ≤ hi' - lo' →
        hi - lo < hi' - lo' ∨ hi - lo = hi' - lo' ∧ lo ≤ lo'

structure BestFit (state : State) : Prop where
  tiles : Tiles Chunk.start Chunk.size 0 state.allocator.chunks
    (state.allocator.heapSize / memoryAlign)
  coalesced : Coalesced state.allocator.chunks
  serves : ∀ n, 0 < n → n ≤ 2 ^ 31 → Serves state n (alloc state.allocator n false).1
  single : state.live = [] →
    state.allocator.chunks = [⟨0, state.allocator.heapSize / memoryAlign, true⟩]

/-- Requests of at most two gigabytes, and offsets that are held. -/
def Modest (state : State) : Call → Prop
  | .allocate n => 0 < n ∧ n ≤ 2 ^ 31
  | .deallocate offset => ∃ allocation ∈ state.live, allocation.1 = offset

section

variable {units : Nat} {state : State} (hinv : Inv units state) {chunk : Chunk}
include hinv

theorem held_iff (hchunk : chunk ∈ state.allocator.chunks) {u : Nat} (hlo : chunk.start ≤ u)
    (hhi : u < chunk.start + chunk.size) : Held state u ↔ chunk.free = false := by
  constructor
  · rintro ⟨allocation, hallocation, hle, hlt⟩
    obtain ⟨mine, hmine, hused, hstart, hsize⟩ := hinv.owned hallocation
    simp only [memoryAlign] at hle hlt
    rcases hinv.tiled.tiles.apart hmine hchunk with rfl | hapart | hapart
    · exact hused
    · omega
    · omega
  · intro hused
    obtain ⟨allocation, hallocation, hstart, hsize⟩ := hinv.held hchunk hused
    refine ⟨allocation, hallocation, ?_, ?_⟩ <;> simp only [memoryAlign] <;> omega

variable (hheap : state.allocator.heapSize < 2 ^ 33)
include hheap

theorem units_eq : units = state.allocator.heapSize / memoryAlign := by
  have hunits := hinv.heap
  simp only [memoryAlign]
  omega

theorem gap_of_free (hchunk : chunk ∈ state.allocator.chunks) (hfree : chunk.free = true)
    (hpos : 0 < chunk.size) : Gap state chunk.start (chunk.start + chunk.size) := by
  have hbounds := hinv.tiled.tiles.bounds hchunk
  obtain ⟨before, after, hsplit⟩ := append_of_mem hchunk
  have htiles := hinv.tiled.tiles
  have hchain := hinv.coalesced
  have hsizes := hinv.tiled.pos (by omega)
  rw [hsplit] at htiles hchain
  obtain ⟨mid, hbefore, hmid, hafter⟩ := tiles_append.mp htiles
  have hunits := units_eq hinv hheap
  refine ⟨by omega, hunits ▸ hbounds.2, fun u hlo hhi => ?_, ?_, ?_⟩
  · rw [held_iff hinv hchunk hlo hhi, hfree]
    exact Bool.noConfusion
  · rcases eq_nil_or_concat before with rfl | ⟨front, p, rfl⟩
    · exact .inl (hmid.trans hbefore.symm)
    · rw [concat_eq_append] at hbefore hchain hsplit
      obtain ⟨lo, -, hstart, hend⟩ := tiles_append.mp hbefore
      have hmem : p ∈ state.allocator.chunks := by simp [hsplit]
      have hppos := hsizes p hmem
      have hused : p.free = false := by
        rw [append_assoc, singleton_append] at hchain
        simpa [hfree] using (isChain_append_cons_cons.mp hchain).2.1
      have hend' : lo + p.size = mid := hend
      exact .inr ((held_iff hinv hmem (by omega) (by omega)).mpr hused)
  · cases after with
    | nil =>
      have hend : mid + chunk.size = units := hafter
      exact .inl (by omega)
    | cons next after =>
      have hmem : next ∈ state.allocator.chunks := by simp [hsplit]
      have hnext := hafter.1
      have hnpos := hsizes next hmem
      have hused : next.free = false := by
        simpa [hfree] using (isChain_append_cons_cons.mp hchain).2.1
      exact .inr ((held_iff hinv hmem (by omega) (by omega)).mpr hused)

theorem free_of_gap {lo hi : Nat} (h : Gap state lo hi) :
    ∃ chunk ∈ state.allocator.chunks, chunk.free = true ∧ chunk.start = lo ∧
      chunk.start + chunk.size = hi := by
  have hunits := units_eq hinv hheap
  have hle := h.le
  have hlt := h.lt
  obtain ⟨chunk, hchunk, hlo, hhi⟩ :=
    hinv.tiled.tiles.exists_mem (Nat.zero_le lo) (show lo < units by omega)
  have hfree : chunk.free = true := by
    have hnot := h.free lo le_rfl hlt
    rw [held_iff hinv hchunk hlo hhi] at hnot
    simpa using hnot
  -- a free chunk of the list is itself a gap, so the two end where the other does
  have hgap := gap_of_free hinv hheap hchunk hfree (by omega)
  have hstart : chunk.start = lo := by
    by_contra hne
    rcases h.left with hzero | hheld
    · omega
    · exact hgap.free (lo - 1) (by omega) (by omega) hheld
  refine ⟨chunk, hchunk, hfree, hstart, ?_⟩
  rcases Nat.lt_trichotomy (chunk.start + chunk.size) hi with hless | heq | hmore
  · rcases hgap.right with hend | hheld
    · omega
    · exact absurd hheld (h.free _ (by omega) hless)
  · exact heq
  · rcases h.right with hend | hheld
    · have hbound := hgap.le
      omega
    · exact absurd hheld (hgap.free hi (by omega) hmore)

theorem alloc_serves {n : Nat} (hn : 0 < n) (hle : n ≤ 2 ^ 31) :
    Serves state n (alloc state.allocator n false).1 := by
  have hpos := (unitsOf_spec hn).1
  have hsuits {lo hi : Nat} (hgap : Gap state lo hi) (hroom : unitsOf n ≤ hi - lo) :
      ∃ chunk ∈ state.allocator.chunks, Suits false (unitsOf n) chunk ∧ chunk.start = lo ∧
        chunk.size = hi - lo := by
    obtain ⟨chunk, hchunk, hfree, rfl, rfl⟩ := free_of_gap hinv hheap hgap
    exact ⟨chunk, hchunk, ⟨hfree, by simpa [extra] using hroom⟩, rfl, by omega⟩
  rcases alloc_spec hn (by omega) hinv.tiled with
    ⟨hnone, hall⟩ | ⟨before, chunk, after, hsplit, hbest, hok⟩
  · rw [hnone]
    intro lo hi hgap
    by_contra hroom
    obtain ⟨chunk, hchunk, hsuit, -⟩ := hsuits hgap (not_lt.mp hroom)
    exact hall chunk hchunk hsuit
  · rw [hok]
    have hroom : unitsOf n ≤ chunk.size := hbest.suits.2
    refine ⟨_, _, gap_of_free hinv hheap (by simp [hsplit]) hbest.suits.1 (by omega),
      by omega, rfl, ?_⟩
    intro lo hi hgap hroom'
    obtain ⟨other, hother, hsuit, rfl, hsize⟩ := hsuits hgap hroom'
    have htiles := hinv.tiled.tiles
    rw [hsplit] at hother htiles
    obtain ⟨mid, hbefore, hmid, hafter⟩ := tiles_append.mp htiles
    rcases mem_append.mp hother with hmem | hmem
    · have hlt := hbest.first other hmem hsuit
      exact .inl (by omega)
    · rcases mem_cons.mp hmem with rfl | hmem
      · exact .inr ⟨by omega, le_rfl⟩
      · have hlarger := hbest.smallest other hmem hsuit
        have hlater := (hafter.bounds hmem).1
        rcases hlarger.lt_or_eq with hlt | heq
        · exact .inl (by omega)
        · exact .inr ⟨by omega, by omega⟩

theorem Inv.bestFit : BestFit state where
  tiles := units_eq hinv hheap ▸ hinv.tiled.tiles
  coalesced := hinv.coalesced
  serves n hn hle := alloc_serves hinv hheap hn hle
  single := by
    intro hlive
    have hfree : ∀ chunk ∈ state.allocator.chunks, chunk.free = true := by
      intro chunk hchunk
      by_contra hused
      obtain ⟨allocation, hallocation, -⟩ := hinv.held hchunk (by simpa using hused)
      simp [hlive] at hallocation
    have htiles := hinv.tiled.tiles
    have hchain := hinv.coalesced
    rw [units_eq hinv hheap] at htiles
    obtain ⟨chunk, rest, hchunks⟩ := exists_cons_of_ne_nil hinv.nonempty
    rw [hchunks] at hfree htiles hchain ⊢
    cases rest with
    | nil =>
      obtain ⟨start, size, free⟩ := chunk
      obtain ⟨rfl, hend⟩ : start = 0 ∧ 0 + size = _ := htiles
      obtain rfl : free = true := hfree _ mem_cons_self
      rw [← hend, zero_add]
    | cons next rest =>
      have hnot := (isChain_cons_cons.mp hchain).1
      exact absurd ⟨hfree chunk (by simp), hfree next (by simp)⟩ hnot

end

/-! ## Runs -/

theorem heapSize_step (state : State) (call : Call) :
    (step state call).allocator.heapSize = state.allocator.heapSize := by
  cases call with
  | deallocate offset => rfl
  | allocate n =>
    simp only [step, alloc]
    split
    · rfl
    · split
      · rfl
      · split <;> rfl

theorem bestFit_run {units : Nat} {state : State} (hinv : Inv units state)
    (hheap : state.allocator.heapSize < 2 ^ 33) {calls : List Call}
    (hcalls : Along Modest state calls) : BestFit (calls.foldl step state) := by
  induction calls generalizing state with
  | nil => exact hinv.bestFit hheap
  | cons call calls ih =>
    obtain ⟨hcall, hcalls⟩ := hcalls
    refine ih ?_ ((heapSize_step state call).trans_lt hheap) hcalls
    cases call with
    | deallocate offset => exact inv_step hinv hcall trivial
    | allocate n =>
      obtain ⟨hpos, hle⟩ := hcall
      exact @inv_step units state hinv (.allocate n) ⟨hpos, by omega⟩ (.inl (by omega))

theorem heapSize_lt {size : Nat} (h : BestFit { allocator := .new size }) :
    (Allocator.new size).heapSize < 2 ^ 33 := by
  obtain ⟨-, hend⟩ := h.tiles
  have hunits : 0 + (Allocator.new size).heapSize / 32 % 2 ^ 28 =
    (Allocator.new size).heapSize / 32 := hend
  omega

/-- Every run keeps the chunks a coalesced tiling of the heap and answers requests from the first
of the smallest gaps, exactly if the heap is smaller than eight gigabytes. -/
theorem bestFit_runs_iff (size : Nat) :
    (∀ calls, Along Modest { allocator := .new size } calls →
      BestFit (calls.foldl step { allocator := .new size })) ↔
    (Allocator.new size).heapSize < 2 ^ 33 := by
  constructor
  · intro hall
    exact heapSize_lt (hall [] trivial)
  · intro hheap calls hcalls
    exact bestFit_run (inv_new hheap.le) hheap hcalls

/-- A heap of eight gigabytes has a single chunk of size 0, and the first request fails. -/
theorem eight_gigabytes_not_tiled :
    (Allocator.new (2 ^ 33)).heapSize = 2 ^ 33 ∧ (alloc (.new (2 ^ 33)) 1 false).1 = none ∧
      ¬BestFit { allocator := .new (2 ^ 33) } := by
  have hheap : (Allocator.new (2 ^ 33)).heapSize = 2 ^ 33 := by decide +kernel
  refine ⟨hheap, by decide +kernel, fun hbest => ?_⟩
  exact absurd (hheap ▸ heapSize_lt hbest) (lt_irrefl _)

end ShieldTv.Binder.MemoryDealer
