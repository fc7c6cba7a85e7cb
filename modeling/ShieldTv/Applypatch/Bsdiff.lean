import ShieldTv.Applypatch.Bspatch

/-!
# `applypatch/bsdiff.c`

The patch maker, from the suffix array `I` on. The main loop takes what `search`
answers as a function of `scan`, and leaves the control, diff and extra data that are
then compressed.
-/

namespace ShieldTv.Applypatch

open Lib.Bytes

/-! ## Matches -/

def matchlen : Bytes → Bytes → Nat
  | a :: old, b :: new => if a ≠ b then 0 else matchlen old new + 1
  | _, _ => 0

def memcmpLt : Bytes → Bytes → Bool
  | a :: xs, b :: ys => if a = b then memcmpLt xs ys else decide (a < b)
  | _, _ => false

def search (I : List Nat) (old new : Bytes) : Nat → Nat → Nat → Nat × Nat
  | 0, _, en => (I.getD en 0, matchlen (old.drop (I.getD en 0)) new)
  | fuel + 1, st, en =>
    if en - st < 2 then
      let x := matchlen (old.drop (I.getD st 0)) new
      let y := matchlen (old.drop (I.getD en 0)) new
      if y < x then (I.getD st 0, x) else (I.getD en 0, y)
    else
      let x := st + (en - st) / 2
      let n := min (old.length - I.getD x 0) new.length
      if memcmpLt ((old.drop (I.getD x 0)).take n) (new.take n) then
        search I old new fuel x en
      else search I old new fuel st x

/-! ## The scan for the next match -/

section

variable (old new : Bytes) (find : Nat → Nat × Nat)

/-- `old[i + lastoffset] == new[i]`, below the end of `old`. -/
def agrees (lastoffset : Int) (i : Nat) : Bool :=
  decide ((i : Int) + lastoffset < old.length) &&
    old.getD ((i : Int) + lastoffset).toNat 0 == new.getD i 0

def countScore (lastoffset : Int) (oldscore : Int) (scsc n : Nat) : Int :=
  (List.range' scsc n).foldl
    (fun score i => if agrees old new lastoffset i then score + 1 else score)
    oldscore

structure Match where
  scan : Nat
  len : Nat
  pos : Nat
  oldscore : Int

/-- The inner loop, with `fuel` positions up to the end of `new`. -/
def scanLoop (lastoffset : Int) : Nat → Nat → Match → Match
  | 0, _, m => m
  | fuel + 1, scsc, m =>
    let (pos, len) := find m.scan
    let oldscore := countScore old new lastoffset m.oldscore scsc (m.scan + len - scsc)
    if ((len : Int) = oldscore ∧ len ≠ 0) ∨ oldscore + 8 < len then { m with len, pos, oldscore }
    else
      let oldscore := if agrees old new lastoffset m.scan then oldscore - 1 else oldscore
      scanLoop lastoffset fuel (max scsc (m.scan + len)) { scan := m.scan + 1, len, pos, oldscore }

/-! ## Extending the matches -/

/-- The best prefix: a longer one wins if `2 * s - i` grows. -/
structure Best where
  s : Int
  score : Int
  len : Nat

def Best.next (best : Best) (i : Nat) (equal : Bool) : Best :=
  let s := if equal then best.s + 1 else best.s
  if best.score * 2 - best.len < s * 2 - i then { s, score := s, len := i } else { best with s }

def forward (scan lastscan lastpos : Nat) : Nat :=
  ((List.range (min (scan - lastscan) (old.length - lastpos))).foldl
    (fun (best : Best) i => best.next (i + 1)
      (old.getD (lastpos + i) 0 == new.getD (lastscan + i) 0))
    ⟨0, 0, 0⟩).len

def backward (scan lastscan pos : Nat) : Nat :=
  ((List.range' 1 (min (scan - lastscan) pos)).foldl
    (fun (best : Best) i => best.next i (old.getD (pos - i) 0 == new.getD (scan - i) 0))
    ⟨0, 0, 0⟩).len

structure Split where
  s : Int := 0
  best : Int := 0
  lens : Nat := 0

def Split.next (split : Split) (i : Nat) (equalF equalB : Bool) : Split :=
  let s := if equalF then split.s + 1 else split.s
  let s := if equalB then s - 1 else s
  if split.best < s then { s, best := s, lens := i + 1 } else { split with s }

/-- `lens`: how much of an overlap the forward match keeps. -/
def splitOverlap (overlap newF oldF newB oldB : Nat) : Nat :=
  ((List.range overlap).foldl
    (fun (split : Split) i => split.next i (new.getD (newF + i) 0 == old.getD (oldF + i) 0)
      (new.getD (newB + i) 0 == old.getD (oldB + i) 0)) {}).lens

/-! ## Control triples -/

def offtout (x : Int) : Bytes :=
  let y := x.natAbs
  leBytes 7 y ++ [UInt8.ofNat (y / 256 ^ 7) ||| (if x < 0 then 0x80 else 0)]

/-- What is written to the three blocks, uncompressed. -/
structure Blocks where
  ctrl : Bytes := []
  db : Bytes := []
  eb : Bytes := []

structure DiffState where
  scan : Nat := 0
  len : Nat := 0
  pos : Nat := 0
  lastscan : Nat := 0
  lastpos : Nat := 0
  lastoffset : Int := 0
  blocks : Blocks := {}

def extents (state : DiffState) (m : Match) : Nat × Nat :=
  let lenf := forward old new m.scan state.lastscan state.lastpos
  let lenb := if m.scan < new.length then backward old new m.scan state.lastscan m.pos else 0
  if m.scan - lenb < state.lastscan + lenf then
    let overlap := state.lastscan + lenf - (m.scan - lenb)
    let lens := splitOverlap old new overlap (state.lastscan + lenf - overlap)
      (state.lastpos + lenf - overlap) (m.scan - lenb) (m.pos - lenb)
    (lenf + lens - overlap, lenb - lens)
  else (lenf, lenb)

def emit (state : DiffState) (m : Match) : DiffState :=
  let (lenf, lenb) := extents old new state m
  let extraStart := state.lastscan + lenf
  let extraLen := (m.scan - lenb) - extraStart
  { scan := m.scan
    len := m.len
    pos := m.pos
    lastscan := m.scan - lenb
    lastpos := m.pos - lenb
    lastoffset := (m.pos : Int) - m.scan
    blocks :=
      { ctrl := state.blocks.ctrl ++ offtout lenf ++ offtout extraLen ++
          offtout (((m.pos : Int) - lenb) - (state.lastpos + lenf))
        db := state.blocks.db ++ List.zipWith (· - ·) (slice new state.lastscan lenf)
          (slice old state.lastpos lenf)
        eb := state.blocks.eb ++ slice new extraStart extraLen } }

def diffRound (state : DiffState) : DiffState :=
  let scan := state.scan + state.len
  let m := scanLoop old new find state.lastoffset (new.length - scan) scan
    { scan, len := state.len, pos := state.pos, oldscore := 0 }
  if (m.len : Int) ≠ m.oldscore ∨ m.scan = new.length then emit old new state m
  else { state with scan := m.scan, len := m.len, pos := m.pos }

/-- The main loop; a round moves `scan + len` forward. -/
def diffLoop : Nat → DiffState → DiffState
  | 0, state => state
  | fuel + 1, state =>
    if state.scan < new.length then diffLoop fuel (diffRound old new find state) else state

def diffBlocks : Blocks := (diffLoop old new find (new.length + 1) {}).blocks

end

/-! ## The patch file -/

/-- A compressed block; the length that `BZ2_bzWrite` takes is an `int`, and a negative one
is an error that ends the program. -/
def bzWrite (bz : Bzip2) (data : Bytes) : Option Bytes :=
  if data.length % 2 ^ 32 < 2 ^ 31 then some (bz.compress (data.take (data.length % 2 ^ 32)))
  else none

/-- `bsdiff` over the answers of `search`: the contents of the patch file. -/
def bsdiffWith (bz : Bzip2) (find : Nat → Nat × Nat) (old new : Bytes) :
    Option Bytes := do
  let blocks := diffBlocks old new find
  -- the control data is written eight bytes at a time
  let ctrl := bz.compress blocks.ctrl
  let diff ← bzWrite bz blocks.db
  let extra ← bzWrite bz blocks.eb
  some (bsdiffMagic ++ offtout ctrl.length ++ offtout diff.length ++ offtout new.length ++
    ctrl ++ diff ++ extra)

/-- `bsdiff` with the suffix array `I`. -/
def bsdiff (bz : Bzip2) (I : List Nat) (old new : Bytes) : Option Bytes :=
  bsdiffWith bz (fun scan => search I old (new.drop scan) old.length 0 old.length) old new

end ShieldTv.Applypatch
