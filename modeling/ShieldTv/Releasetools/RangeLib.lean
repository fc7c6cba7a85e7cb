import ShieldTv.Lib.Endpoints
import ShieldTv.Lib.Text

/-!
# `rangelib.RangeSet`

The set type of the OTA generator.  A set of block numbers is kept as the flat
tuple of its endpoints, `[s₀, e₀, s₁, e₁, ...]`, and every operation is one
pass over the merged, signed endpoints of its two arguments.
-/

namespace ShieldTv.Releasetools.RangeLib

open Lib.Endpoints Lib.Text

/-- `data` is the tuple of endpoints; `monotonic` is set by the text parser
only and takes no part in comparisons. -/
structure RangeSet where
  data : List Int
  monotonic : Bool := false
deriving DecidableEq, Repr

namespace RangeSet

/-- `_remove_pairs`: drop two equal neighbours; `last` is the pending item. -/
def removePairs (last : Option Int) : List Int → List Int
  | [] => last.toList
  | i :: source =>
    if last = some i then removePairs none source
    else last.toList ++ removePairs (some i) source

def ofData (data : List Int) : RangeSet := { data := removePairs none data }

def empty : RangeSet := { data := [] }

def nonzero (r : RangeSet) : Bool := !r.data.isEmpty

/-- `__eq__` compares the endpoint tuples and nothing else. -/
def eq (r s : RangeSet) : Bool := decide (r.data = s.data)

/-- `__iter__`: the endpoints two by two. -/
def pairs : List Int → List (Int × Int)
  | s :: e :: rest => (s, e) :: pairs rest
  | _ => []

def ranges (r : RangeSet) : List (Int × Int) := pairs r.data

/-- `zip(data, itertools.cycle((a, b)))`. -/
def zipCycle (a b : Int) : List Int → List (Int × Int)
  | [] => []
  | p :: rest => (p, a) :: zipCycle b a rest

/-- The loop shared by `union`, `intersect` and `subtract`: keep the positions
where the running sum `z` steps from `lo` up to `hi` or from `hi` down. -/
def sweep (lo hi : Int) (z : Int) : List (Int × Int) → List Int
  | [] => []
  | (p, d) :: events =>
    if (z = lo ∧ d = 1) ∨ (z = hi ∧ d = -1) then p :: sweep lo hi (z + d) events
    else sweep lo hi (z + d) events

def union (r s : RangeSet) : RangeSet :=
  ofData (sweep 0 1 0 (merge lexLe (zipCycle 1 (-1) r.data) (zipCycle 1 (-1) s.data)))

def intersect (r s : RangeSet) : RangeSet :=
  ofData (sweep 1 2 0 (merge lexLe (zipCycle 1 (-1) r.data) (zipCycle 1 (-1) s.data)))

/-- The argument's endpoints enter with inverted signs. -/
def subtract (r s : RangeSet) : RangeSet :=
  ofData (sweep 0 1 0 (merge lexLe (zipCycle 1 (-1) r.data) (zipCycle (-1) 1 s.data)))

/-- The loop of `overlaps`: as in `intersect`, but the first kept position
ends it. -/
def overlapsLoop (z : Int) : List (Int × Int) → Bool
  | [] => false
  | (_, d) :: events =>
    if (z = 1 ∧ d = 1) ∨ (z = 2 ∧ d = -1) then true else overlapsLoop (z + d) events

def overlaps (r s : RangeSet) : Bool :=
  overlapsLoop 0 (merge lexLe (zipCycle 1 (-1) r.data) (zipCycle 1 (-1) s.data))

/-- The loop of `size`; `odd` is `i % 2`. -/
def sizeLoop (odd : Bool) (total : Int) : List Int → Int
  | [] => total
  | p :: data => sizeLoop (!odd) (if odd then total + p else total - p) data

def size (r : RangeSet) : Int := sizeLoop false 0 r.data

/-- The loop of `map_within`.  Arithmetic on `start` before it is set is
Python's `TypeError`, here `none`. -/
def mapWithinLoop (offset : Int) (start : Option Int) : List (Int × Int) → Option (List Int)
  | [] => some []
  | (p, d) :: events =>
    if d = -5 then mapWithinLoop offset (some p) events
    else
      match start with
      | none => none
      | some s =>
        if d = 5 then mapWithinLoop (offset + (p - s)) none events
        else (mapWithinLoop offset (some s) events).map ((offset + p - s) :: ·)

def mapWithin (r s : RangeSet) : Option RangeSet :=
  (mapWithinLoop 0 none
    (merge lexLe (zipCycle (-5) 5 r.data) (zipCycle (-1) 1 s.data))).map ofData

def toStringRaw (r : RangeSet) : Word :=
  decimal r.data.length ++ ',' :: join ',' (r.data.map decimal)

/-! ## What a range set denotes -/

/-- The tuple is of even length and strictly increasing. -/
structure Canonical (r : RangeSet) : Prop where
  even : r.data.length % 2 = 0
  sorted : r.data.Pairwise (· < ·)

instance (r : RangeSet) : Decidable r.Canonical :=
  decidable_of_iff (r.data.length % 2 = 0 ∧ r.data.Pairwise (· < ·))
    ⟨fun h => ⟨h.1, h.2⟩, fun h => ⟨h.even, h.sorted⟩⟩

/-- The integers inside one of the half-open ranges. -/
def toSet (r : RangeSet) : Set Int := {x | ∃ range ∈ r.ranges, range.1 ≤ x ∧ x < range.2}

/-- The same integers as a list, in the order in which an image's
`ReadRangeSet` and the updater's block loops visit them. -/
def blocks (r : RangeSet) : List Int :=
  r.ranges.flatMap fun range =>
    (List.range (range.2 - range.1).toNat).map fun i : Nat => range.1 + (i : Int)

end RangeSet

end ShieldTv.Releasetools.RangeLib
