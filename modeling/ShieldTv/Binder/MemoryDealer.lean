import ShieldTv.Lib.Tiling

/-!
# `libs/binder/MemoryDealer.cpp`

The best-fit allocator behind a `MemoryDealer`. The doubly linked list of chunks is a
list; starts and sizes are counted in units of 32 bytes, sizes in a field of 28 bits.
`size_t` has 64 bits.
-/

namespace ShieldTv.Binder.MemoryDealer

structure Chunk where
  start : Nat
  size : Nat
  free : Bool
deriving DecidableEq, Repr

/-- The constructor of `chunk_t`: `size` is a field of 28 bits. -/
def Chunk.new (start size : Nat) : Chunk := ⟨start, size % 2 ^ 28, true⟩

def memoryAlign : Nat := 32
def pagesize : Nat := 4096

structure Allocator where
  heapSize : Nat
  chunks : List Chunk
deriving DecidableEq, Repr

def Allocator.new (size : Nat) : Allocator :=
  -- the mask with `~(pagesize-1)`
  let heapSize := (size + pagesize - 1) % 2 ^ 64 / pagesize * pagesize
  { heapSize, chunks := [.new 0 (heapSize / memoryAlign)] }

/-! ## `alloc` -/

/-- `extra`: the units up to the next page, from a chunk's start. -/
def extra (pageAligned : Bool) (chunk : Chunk) : Nat :=
  if pageAligned then (2 ^ 64 - chunk.start) &&& (pagesize / memoryAlign - 1) else 0

/-- The better of the best chunk so far, given by index and size, and the chunk `cur`. -/
def better (best : Option (Nat × Nat)) (i : Nat) (cur : Chunk) : Option (Nat × Nat) :=
  match best with
  | none => some (i, cur.size)
  | some (j, s) => if cur.size < s then some (i, cur.size) else some (j, s)

def bestFit (pageAligned : Bool) (size : Nat) :
    List Chunk → Nat → Option (Nat × Nat) → Option Nat
  | [], _, best => best.map Prod.fst
  | cur :: rest, i, best =>
    if cur.free ∧ size + extra pageAligned cur ≤ cur.size then
      if cur.size = size then (better best i cur).map Prod.fst
      else bestFit pageAligned size rest (i + 1) (better best i cur)
    else bestFit pageAligned size rest (i + 1) best

/-- What takes the place of a free chunk: the units before a page, the allocated chunk and
what is left. -/
def carve (pageAligned : Bool) (size : Nat) (chunk : Chunk) : List Chunk × Chunk × List Chunk :=
  let gap := if size < chunk.size then extra pageAligned chunk else 0
  let used : Chunk := ⟨chunk.start + gap, size % 2 ^ 28, false⟩
  let tailFree : Int := if size < chunk.size then (chunk.size : Int) - (size + gap) else 0
  (if gap ≠ 0 then [.new chunk.start gap] else [], used,
    if 0 < tailFree then [.new (used.start + used.size) tailFree.toNat] else [])

/-- `alloc`: the offset, or `NO_MEMORY`. -/
def alloc (a : Allocator) (size : Nat) (pageAligned : Bool) : Option Nat × Allocator :=
  if size = 0 then (some 0, a)
  else
    let size := (size + memoryAlign - 1) % 2 ^ 64 / memoryAlign
    match bestFit pageAligned size a.chunks 0 none with
    | none => (none, a)
    | some k =>
      match a.chunks[k]? with
      | none => (none, a)
      | some chunk =>
        let (before, used, after) := carve pageAligned size chunk
        (some (used.start * memoryAlign),
          { a with chunks := a.chunks.take k ++ (before ++ used :: after) ++
            a.chunks.drop (k + 1) })

/-! ## `dealloc` -/

/-- A round of the merging loop: `cur` goes into the chunk before it, if that is free. The
chunks before are in reverse. -/
def absorb (before : List Chunk) (cur : Chunk) : List Chunk :=
  match before with
  | p :: ps =>
    if p.free ∨ cur.size = 0 then { p with size := (p.size + cur.size) % 2 ^ 28 } :: ps
    else cur :: p :: ps
  | [] => [cur]

def mergeLoop (before : List Chunk) (cur : Chunk) : List Chunk → List Chunk
  | [] => (absorb before cur).reverse
  | next :: rest =>
    if next.free then mergeLoop (absorb before cur) next rest
    else (absorb before cur).reverse ++ next :: rest

def freeLoop (start : Nat) : List Chunk → List Chunk → List Chunk
  | before, [] => before.reverse
  | before, cur :: rest =>
    if cur.start = start then mergeLoop before { cur with free := true } rest
    else freeLoop start (cur :: before) rest

def dealloc (a : Allocator) (start : Nat) : Allocator :=
  { a with chunks := freeLoop (start / memoryAlign) [] a.chunks }

/-! ## Runs -/

/-- A call of `MemoryDealer::allocate` or, as an allocation is dropped, of
`MemoryDealer::deallocate`. -/
inductive Call
  | allocate (n : Nat)
  | deallocate (offset : Nat)
deriving DecidableEq, Repr

/-- An allocator and the allocations its clients hold: offset and requested size. -/
structure State where
  allocator : Allocator
  live : List (Nat × Nat) := []
deriving DecidableEq, Repr

def step (state : State) : Call → State
  | .allocate n =>
    let (offset, allocator) := alloc state.allocator n false
    { allocator, live := (offset.map fun o => (o, n)).toList ++ state.live }
  | .deallocate offset =>
    { allocator := dealloc state.allocator offset
      live := state.live.filter fun allocation => allocation.1 ≠ offset }

end ShieldTv.Binder.MemoryDealer
