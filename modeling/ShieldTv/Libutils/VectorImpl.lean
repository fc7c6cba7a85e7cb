import Mathlib

/-!
# `VectorImpl::sort` in `libutils/VectorImpl.cpp`

The items lie in a buffer that other vectors may use as well. The items before the one that the
loop is at are given last first, as the inner loop comes to them.
-/

namespace ShieldTv.Libutils.VectorImpl

open List

variable {α : Type}

/-- Which requests for memory are met: that for another buffer and that for one item. -/
structure Memory where
  buffer : Bool
  temp : Bool

inductive Status
  | noError
  | noMemory
deriving DecidableEq

/-- `editArrayImpl`: whether what it returns is a buffer that others still use. -/
def editArrayImpl (mem : Memory) (shared : Bool) : Bool := shared && !mem.buffer

/-- The `do` loop, where the items that are greater than `temp` move up. -/
def shift (cmp : α → α → Int) (temp : α) : List α → List α
  | [] => [temp]
  | curr :: before =>
    if 0 < cmp curr temp then curr :: shift cmp temp before else temp :: curr :: before

/-- The `while` loop, which starts at the second item: the status, the array, and whether there is
a `temp` and the array was written to. -/
def sortLoop (mem : Memory) (cmp : α → α → Int) :
    Bool → List α → List α → Status × List α × Bool
  | temp, before, [] => (.noError, before.reverse, temp)
  | temp, [], item :: rest => sortLoop mem cmp temp [item] rest
  | temp, curr :: before, item :: rest =>
    if 0 < cmp curr item then
      if temp || mem.temp then sortLoop mem cmp true (shift cmp item (curr :: before)) rest
      else (.noMemory, (curr :: before).reverse ++ item :: rest, false)
    else sortLoop mem cmp temp (item :: curr :: before) rest

/-- What is left of a call: the items of the vector, and those of the vectors that shared its
buffer before. -/
structure Sorting (α : Type) where
  status : Status
  array : List α
  others : List α
deriving DecidableEq

def sort (mem : Memory) (cmp : α → α → Int) (shared : Bool) (items : List α) : Sorting α :=
  let (status, array, written) := sortLoop mem cmp false [] items
  ⟨status, array, if written && editArrayImpl mem shared then array else items⟩

end ShieldTv.Libutils.VectorImpl
