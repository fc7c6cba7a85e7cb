import ShieldTv.Lib.SortedVector

/-!
# `SortedVectorImpl` in `libutils/VectorImpl.cpp`

A vector that is kept in order by the keys of its items.  Memory for its items can always be had
here.
-/

namespace ShieldTv.Libutils.SortedVectorImpl

open Lib.SortedVector

variable {α κ : Type} [LinearOrder κ] (key : α → κ)

def doCompare (a b : α) : Int := if key a < key b then -1 else if key b < key a then 1 else 0

def add (v : List α) (item : α) : Nat × List α :=
  ((indexOrderOf key v (key item)).2, Lib.SortedVector.add key v item)

def remove (v : List α) (item : α) : Option Nat × List α :=
  match indexOf key v (key item) with
  | none => (none, v)
  | some i => (some i, v.eraseIdx i)

/-- `merge(const VectorImpl&)`, which adds one item after the other. -/
def mergeVector (v vector : List α) : List α := addAll key v vector

/-- `merge(const SortedVectorImpl&)`: a status or an index, and the vector. There is nothing if an
item is compared with one of a vector that has none. -/
def merge (v vector : List α) : Option (Nat × List α) :=
  if vector = [] then
    some (0, v)
  else do
    let last ← vector[vector.length - 1]?
    let array ← v[0]?
    if doCompare key last array ≤ 0 then
      some (0, vector ++ v) -- `insertVectorAt`
    else
      let first ← vector[0]?
      let lastItem ← v[v.length - 1]?
      if 0 ≤ doCompare key first lastItem then
        some (v.length, v ++ vector) -- `appendVector`
      else
        some (0, mergeVector key v vector)

/-! ## Calls one after the other -/

inductive Call where
  | add (item : α)
  | remove (item : α)
  | mergeVector (vector : List α)
  | merge (vector : { w : List α // Sorted key w })

def apply (v : List α) : Call key → Option (List α)
  | .add item => some (add key v item).2
  | .remove item => some (remove key v item).2
  | .mergeVector vector => some (mergeVector key v vector)
  | .merge vector => (merge key v vector.1).map Prod.snd

end ShieldTv.Libutils.SortedVectorImpl
