import Mathlib

/-!
# `utils/LruCache.h`

The entries are given in the order of the list that is threaded through them, from `mOldest` to
`mYoungest`. The hash table only serves to find an entry by its key; when it is rebuilt the entries
are put into the new one in their order.
-/

namespace ShieldTv.Libutils

/-- A `maxCapacity` of 0 is `kUnlimitedCapacity`. -/
structure LruCache (K V : Type) where
  maxCapacity : Nat
  entries : List (K × V) := []
deriving DecidableEq

namespace LruCache

variable {K V : Type} [DecidableEq K]

variable (c : LruCache K V)

def find? (key : K) : Option (K × V) := c.entries.find? (·.1 = key)

def detachFromCache (key : K) : LruCache K V :=
  { c with entries := c.entries.eraseP (·.1 = key) }

def attachToCache (entry : K × V) : LruCache K V :=
  { c with entries := c.entries ++ [entry] }

def get (key : K) : Option V × LruCache K V :=
  match c.find? key with
  | none => (none, c)
  | some entry => (some entry.2, (c.detachFromCache key).attachToCache entry)

def remove (key : K) : Bool × LruCache K V :=
  match c.find? key with
  | none => (false, c)
  | some _ => (true, c.detachFromCache key)

def removeOldest : Bool × LruCache K V :=
  match c.entries with
  | [] => (false, c)
  | oldest :: _ => c.remove oldest.1

def clear : LruCache K V := { c with entries := [] }

/-- The cache is limited and has no room. -/
def Full : Prop := c.maxCapacity ≠ 0 ∧ c.maxCapacity ≤ c.entries.length

instance : Decidable c.Full := inferInstanceAs (Decidable (_ ∧ _))

def put (key : K) (value : V) : Bool × LruCache K V :=
  let c := if c.Full then c.removeOldest.2 else c
  match c.find? key with
  | some _ => (false, c)
  | none => (true, c.attachToCache (key, value))

end LruCache

end ShieldTv.Libutils
