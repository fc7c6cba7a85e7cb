import ShieldTv.Lib.OrderedDict
import ShieldTv.Releasetools.RangeLib

/-!
# `blockimgdiff`: from two images to an ordered list of transfers

One transfer per domain of the target image, the digraph of "reads what the
other writes", the heuristic vertex order, the reversal of the edges that order
violates (which is where stashes come from) and the final greedy topological
sort.  A transfer is named by its `id`, its index in the list that
`FindTransfers` builds; `none` is a Python exception.
-/

namespace ShieldTv.Releasetools.BlockImageDiff

open Lib Releasetools.RangeLib

/-! ## Images -/

/-- A key of a file map: a path name, or one of the special domains. -/
abbrev Name := List Char

instance : LawfulBEq Name := inferInstance

def zeroDomain : Name := ['_', '_', 'Z', 'E', 'R', 'O']

def copyDomain : Name := ['_', '_', 'C', 'O', 'P', 'Y']

/-- An image object.  `fileMap` lists a dict in whatever order it iterates;
`block` is what `ReadRangeSet` reads one block at a time.  The fields after it
are what the comment on image objects and the image classes promise. -/
structure Image (B : Type) [Zero B] where
  totalBlocks : Int
  careMap : RangeSet
  fileMap : List (Name × RangeSet)
  extended : RangeSet
  block : Int → B
  totalBlocks_nonneg : 0 ≤ totalBlocks
  careMap_canonical : careMap.Canonical
  careMap_bounds : ∀ b ∈ careMap.blocks, 0 ≤ b ∧ b < totalBlocks
  fileMap_canonical : ∀ file ∈ fileMap, file.2.Canonical
  fileMap_nodup : (fileMap.map Prod.fst).Nodup
  extended_canonical : extended.Canonical
  extended_bounds : ∀ b ∈ extended.blocks, 0 ≤ b ∧ b < totalBlocks
  extended_careMap : ∀ b ∈ extended.blocks, b ∉ careMap.blocks
  zero_blocks : ∀ file ∈ fileMap, file.1 = zeroDomain → ∀ b ∈ file.2.blocks, block b = 0

/-- `ReadRangeSet`, the pieces joined: block contents in increasing order. -/
def Image.readRangeSet {B : Type} [Zero B] (img : Image B) (r : RangeSet) : List B :=
  r.blocks.map img.block

def assertPartitionLoop (total soFar : RangeSet) : List RangeSet → Bool
  | [] => soFar.eq total
  | i :: seq => !soFar.overlaps i && assertPartitionLoop total (soFar.union i) seq

def assertPartition (total : RangeSet) (seq : List RangeSet) : Bool :=
  assertPartitionLoop total RangeSet.empty seq

/-! ## Transfers -/

inductive Style
  | zero
  | new
  | diff
  | move
  | bsdiff
  | imgdiff
deriving DecidableEq, Repr

/-- The fields that `Transfer.__init__` sets and nothing before
`ComputePatches` changes. -/
structure Transfer where
  tgtName : Name
  srcName : Option Name
  tgtRanges : RangeSet
  srcRanges : RangeSet
  style : Style
  intact : Bool
deriving DecidableEq, Repr

instance : Inhabited Transfer :=
  ⟨⟨[], none, RangeSet.empty, RangeSet.empty, .new, false⟩⟩

def Transfer.init (tgtName : Name) (srcName : Option Name) (tgtRanges srcRanges : RangeSet)
    (style : Style) : Transfer :=
  { tgtName, srcName, tgtRanges, srcRanges, style
    intact := tgtRanges.monotonic && srcRanges.monotonic }

/-- `os.path.basename`. -/
def basename (path : Name) : Name := (path.reverse.takeWhile (· ≠ '/')).reverse

/-- `re.sub("[0-9]+", "#", text)`; `inRun` while inside a run of digits. -/
def subDigits (inRun : Bool) : Name → Name
  | [] => []
  | c :: text =>
    if c.isDigit then
      if inRun then subDigits true text else '#' :: subDigits true text
    else c :: subDigits false text

/-- `src_basenames` and `src_numpatterns`. -/
structure SourceNames where
  basenames : OrderedDict Name Name
  numpatterns : OrderedDict Name Name

def abbreviateSourceNames {B : Type} [Zero B] (src : Image B) : SourceNames :=
  src.fileMap.foldl
    (fun names file =>
      let b := basename file.1
      { basenames := names.basenames.set b file.1
        numpatterns := names.numpatterns.set (subDigits false b) file.1 })
    { basenames := OrderedDict.empty, numpatterns := OrderedDict.empty }

/-- `self.src.file_map[fn]`, with `default` for `.get`. -/
def Image.file {B : Type} [Zero B] (img : Image B) (fn : Name) (default : RangeSet) : RangeSet :=
  (img.fileMap.lookup fn).getD default

def findTransfer {B : Type} [Zero B] (src : Image B) (names : SourceNames)
    (tgtFn : Name) (tgtRanges : RangeSet) : Transfer :=
  let empty := RangeSet.empty
  if tgtFn = zeroDomain then
    Transfer.init tgtFn (some zeroDomain) tgtRanges (src.file zeroDomain empty) .zero
  else if tgtFn = copyDomain then
    Transfer.init tgtFn none tgtRanges empty .new
  else if tgtFn ∈ src.fileMap.map Prod.fst then
    -- an exact pathname match in the source
    Transfer.init tgtFn (some tgtFn) tgtRanges (src.file tgtFn empty) .diff
  else
    match names.basenames.get? (basename tgtFn) with
    | some srcFn => Transfer.init tgtFn (some srcFn) tgtRanges (src.file srcFn empty) .diff
    | none =>
      match names.numpatterns.get? (subDigits false (basename tgtFn)) with
      | some srcFn => Transfer.init tgtFn (some srcFn) tgtRanges (src.file srcFn empty) .diff
      | none => Transfer.init tgtFn none tgtRanges empty .new

def findTransfers {B : Type} [Zero B] (src tgt : Image B) : List Transfer :=
  tgt.fileMap.map fun file => findTransfer src (abbreviateSourceNames src) file.1 file.2

def xfer (xfs : List Transfer) (id : Nat) : Transfer := xfs.getD id default

/-! ## The digraph -/

/-- The edges of every transfer, each with its weight. -/
structure Digraph where
  goesBefore : Nat → OrderedDict Nat Int
  goesAfter : Nat → OrderedDict Nat Int

def Digraph.empty : Digraph :=
  { goesBefore := fun _ => OrderedDict.empty, goesAfter := fun _ => OrderedDict.empty }

/-- If the blocks written by `a` are read by `b`, then `b` needs to go before
`a`; removing source blocks of the zero domain costs nothing. -/
def addDependency (xfs : List Transfer) (a : Nat) (g : Digraph) (b : Nat) : Digraph :=
  if a = b then g
  else
    let i := (xfer xfs a).tgtRanges.intersect (xfer xfs b).srcRanges
    if i.nonzero then
      let size := if (xfer xfs b).srcName = some zeroDomain then 0 else i.size
      { goesBefore := Function.update g.goesBefore b ((g.goesBefore b).set a size)
        goesAfter := Function.update g.goesAfter a ((g.goesAfter a).set b size) }
    else g

def generateDigraph (xfs : List Transfer) : Digraph :=
  (List.range xfs.length).foldl
    (fun g a => (List.range xfs.length).foldl (addDependency xfs a) g) Digraph.empty

/-! ## `FindVertexSequence` -/

/-- The working copy of the edges, the vertices still in `G` and the two
deques. -/
structure VertexState where
  incoming : Nat → OrderedDict Nat Int
  outgoing : Nat → OrderedDict Nat Int
  G : List Nat
  s1 : List Nat
  s2 : List Nat

/-- `for iu in us: del iu.edges[u]`. -/
def detach (u : Nat) : List Nat → (Nat → OrderedDict Nat Int) →
    Option (Nat → OrderedDict Nat Int)
  | [], edges => some edges
  | iu :: us, edges => do
    let d ← (edges iu).del u
    detach u us (Function.update edges iu d)

def removeVertex (G : List Nat) (u : Nat) : Option (List Nat) :=
  if u ∈ G then some (G.erase u) else none

/-- Put a sink at the end of the sequence. -/
def takeSink (st : VertexState) (u : Nat) : Option VertexState := do
  let G ← removeVertex st.G u
  let outgoing ← detach u (st.incoming u).keys st.outgoing
  some { st with G, outgoing, s2 := u :: st.s2 }

/-- Put a source at the beginning of the sequence. -/
def takeSource (st : VertexState) (u : Nat) : Option VertexState := do
  let G ← removeVertex st.G u
  let incoming ← detach u (st.outgoing u).keys st.incoming
  some { st with G, incoming, s1 := st.s1 ++ [u] }

/-- Put any vertex next, as if it were a source. -/
def takeBest (st : VertexState) (u : Nat) : Option VertexState := do
  let G ← removeVertex st.G u
  let incoming ← detach u (st.outgoing u).keys st.incoming
  let outgoing ← detach u (incoming u).keys st.outgoing
  some { st with G, incoming, outgoing, s1 := st.s1 ++ [u] }

/-- `while True: sinks = ...`, at most `fuel` rounds. -/
def takeSinks : Nat → VertexState → Option VertexState
  | 0, _ => none
  | fuel + 1, st =>
    let sinks := st.G.filter fun u => (st.outgoing u).items.isEmpty
    if sinks.isEmpty then some st else do takeSinks fuel (← sinks.foldlM takeSink st)

/-- `while True: sources = ...`, at most `fuel` rounds. -/
def takeSources : Nat → VertexState → Option VertexState
  | 0, _ => none
  | fuel + 1, st =>
    let sources := st.G.filter fun u => (st.incoming u).items.isEmpty
    if sources.isEmpty then some st else do takeSources fuel (← sources.foldlM takeSource st)

/-- The loop that finds the vertex with the greatest `d`, the first one among
equals. -/
def bestVertex (st : VertexState) : Option (Int × Nat) → List Nat → Option (Int × Nat)
  | best, [] => best
  | best, u :: us =>
    let d := (st.outgoing u).values.sum - (st.incoming u).values.sum
    match best with
    | none => bestVertex st (some (d, u)) us
    | some (maxD, bestU) =>
      if maxD < d then bestVertex st (some (d, u)) us
      else bestVertex st (some (maxD, bestU)) us

def vertexLoop : Nat → VertexState → Option VertexState
  | 0, st => if st.G.isEmpty then some st else none
  | fuel + 1, st =>
    if st.G.isEmpty then some st
    else do
      let st ← takeSinks (st.G.length + 1) st
      let st ← takeSources (st.G.length + 1) st
      match bestVertex st none st.G with
      | none => some st
      | some (_, u) => vertexLoop fuel (← takeBest st u)

/-- The new order of the transfers; a transfer's `order` is its position. -/
def findVertexSequence (n : Nat) (g : Digraph) : Option (List Nat) := do
  let st ← vertexLoop n
    { incoming := g.goesAfter, outgoing := g.goesBefore, G := List.range n, s1 := [], s2 := [] }
  some (st.s1 ++ st.s2)

/-! ## `ReverseBackwardEdges` -/

/-- The graph and the stash lists while edges are being reversed. -/
structure Stashing where
  graph : Digraph
  stashBefore : Nat → List (Nat × RangeSet)
  useStash : Nat → List (Nat × RangeSet)
  stashes : Nat

/-- The body of the inner loop: `xf` should go before `u`; when the sequence
says otherwise, `u` stashes what it writes and `xf` reads, and must go first. -/
def reverseEdge (xfs : List Transfer) (order : Nat → Nat) (xf : Nat)
    (st : Stashing) (u : Nat) : Option Stashing :=
  if order xf < order u then some st
  else
    let overlap := (xfer xfs xf).srcRanges.intersect (xfer xfs u).tgtRanges
    if overlap.nonzero then do
      let before ← (st.graph.goesBefore xf).del u
      let after ← (st.graph.goesAfter u).del xf
      let goesBefore := Function.update st.graph.goesBefore xf before
      let goesAfter := Function.update st.graph.goesAfter u after
      -- the weight of a reversed edge does not matter
      some
        { graph :=
            { goesBefore := Function.update goesBefore u ((goesBefore u).set xf 0)
              goesAfter := Function.update goesAfter xf ((goesAfter xf).set u 0) }
          stashBefore := Function.update st.stashBefore u
            (st.stashBefore u ++ [(st.stashes, overlap)])
          useStash := Function.update st.useStash xf (st.useStash xf ++ [(st.stashes, overlap)])
          stashes := st.stashes + 1 }
    else none

def reverseEdges (xfs : List Transfer) (order : Nat → Nat) (st : Stashing) (xf : Nat) :
    Option Stashing :=
  (st.graph.goesBefore xf).keys.foldlM (reverseEdge xfs order xf) st

def reverseBackwardEdges (xfs : List Transfer) (seq : List Nat) (g : Digraph) :
    Option Stashing :=
  seq.foldlM (reverseEdges xfs fun x => seq.idxOf x)
    { graph := g, stashBefore := fun _ => [], useStash := fun _ => [], stashes := 0 }

/-! ## `ImproveVertexSequence` -/

def netStashChange (st : Stashing) (u : Nat) : Int :=
  ((st.stashBefore u).map fun stash => stash.2.size).sum -
    ((st.useStash u).map fun stash => stash.2.size).sum

/-- A heap item `(u.NetStashChange(), u.order, u)`; `order` tells any two
apart, so the transfer itself is never compared. -/
abbrev HeapItem := Int × Nat × Nat

def heapLt (a b : HeapItem) : Bool := decide (a.1 < b.1 ∨ a.1 = b.1 ∧ a.2.1 < b.2.1)

def heapMin (least : HeapItem) : List HeapItem → HeapItem
  | [] => least
  | item :: heap => if heapLt item least then heapMin item heap else heapMin least heap

/-- `heapq.heappop`, on the heap as a list without further structure. -/
def heappop : List HeapItem → Option (HeapItem × List HeapItem)
  | [] => none
  | item :: heap =>
    let least := heapMin item heap
    some (least, (item :: heap).erase least)

/-- `for u in xf.outgoing: del u.incoming[xf]; if not u.incoming: push`. -/
def releaseEdges (key : Nat → HeapItem) (xf : Nat) :
    List Nat → (Nat → OrderedDict Nat Int) × List HeapItem →
    Option ((Nat → OrderedDict Nat Int) × List HeapItem)
  | [], state => some state
  | u :: us, (incoming, S) => do
    let d ← (incoming u).del xf
    releaseEdges key xf us
      (Function.update incoming u d, if d.items.isEmpty then S ++ [key u] else S)

def improveLoop (outgoing : Nat → OrderedDict Nat Int) (key : Nat → HeapItem) :
    Nat → (Nat → OrderedDict Nat Int) → List HeapItem → List Nat → Option (List Nat)
  | 0, _, S, L => if S.isEmpty then some L else none
  | fuel + 1, incoming, S, L =>
    match heappop S with
    | none => some L
    | some ((_, _, xf), S) => do
      let (incoming, S) ← releaseEdges key xf (outgoing xf).keys (incoming, S)
      improveLoop outgoing key fuel incoming S (L ++ [xf])

def improveVertexSequence (seq : List Nat) (st : Stashing) : Option (List Nat) := do
  let key := fun u => (netStashChange st u, seq.idxOf u, u)
  let S := (seq.filter fun u => (st.graph.goesAfter u).items.isEmpty).map key
  let L ← improveLoop st.graph.goesBefore key seq.length st.graph.goesAfter S []
  -- if this fails then our graph had a cycle
  if L.length = seq.length then some L else none

/-! ## The sequence as a whole -/

structure StashedTransfer extends Transfer where
  stashBefore : List (Nat × RangeSet)
  useStash : List (Nat × RangeSet)
deriving DecidableEq, Repr

/-- `self.transfers`, in the given order of ids. -/
def stashedTransfers (xfs : List Transfer) (st : Stashing) (L : List Nat) :
    List StashedTransfer :=
  L.map fun id =>
    { toTransfer := xfer xfs id, stashBefore := st.stashBefore id, useStash := st.useStash id }

/-- The steps of `Compute` from `AbbreviateSourceNames` up to
`ImproveVertexSequence`, for version 2 and up. -/
def planTransfers {B : Type} [Zero B] (src tgt : Image B) : Option (List StashedTransfer) := do
  let xfs := findTransfers src tgt
  let g := generateDigraph xfs
  let seq ← findVertexSequence xfs.length g
  let st ← reverseBackwardEdges xfs seq g
  let L ← improveVertexSequence seq st
  some (stashedTransfers xfs st L)

/-- The loop of `AssertSequenceGood`, for version 2 and up. -/
def assertSequenceLoop (careMap touched : RangeSet) : List StashedTransfer → Bool
  | [] => touched.eq careMap
  | xf :: xfs =>
    let x := xf.useStash.foldl (fun x stash => x.subtract stash.2) xf.srcRanges
    !touched.overlaps x && !touched.overlaps xf.tgtRanges &&
      assertSequenceLoop careMap (touched.union xf.tgtRanges) xfs

def assertSequenceGood {B : Type} [Zero B] (tgt : Image B) (xfs : List StashedTransfer) : Bool :=
  assertSequenceLoop tgt.careMap RangeSet.empty xfs

end ShieldTv.Releasetools.BlockImageDiff
