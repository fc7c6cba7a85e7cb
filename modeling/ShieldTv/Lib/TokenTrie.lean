import Mathlib

/-!
# Tries whose levels are binary search trees

A node has an address, a key, perhaps a value, two siblings' subtrees and the tree of its
children. Search follows a comparison; all that is needed of it is that it calls only
equal keys equal. New nodes are put where the search for their key ends, which changes
what is found for no other key.
-/

namespace ShieldTv.Lib.TokenTrie

open List

inductive Trie (κ ν : Type*) where
  | leaf
  | node (addr : Nat) (key : κ) (val : Option ν) (left children right : Trie κ ν)

variable {κ ν : Type*}

variable {t c c' : Trie κ ν} {a new : Nat} {v v' : Option ν} {k k₁ : κ}

namespace Trie

def addr : Trie κ ν → Nat
  | leaf => 0
  | node a _ _ _ _ _ => a

def addrs : Trie κ ν → List Nat
  | leaf => []
  | node a _ _ l c r => l.addrs ++ a :: (c.addrs ++ r.addrs)

/-- All values, in the order of a traversal. -/
def vals : Trie κ ν → List ν
  | leaf => []
  | node _ _ v l c r => l.vals ++ (v.toList ++ (c.vals ++ r.vals))

variable (cmp : κ → κ → Ordering)

/-- The node of a key among siblings: its address, value and children. -/
def find (k : κ) : Trie κ ν → Option (Nat × Option ν × Trie κ ν)
  | leaf => none
  | node a k' v l c r =>
    match cmp k k' with
    | .eq => some (a, v, c)
    | .lt => l.find k
    | .gt => r.find k

def insert (k : κ) (new : Nat) : Trie κ ν → Trie κ ν
  | leaf => node new k none leaf leaf leaf
  | node a k' v l c r =>
    match cmp k k' with
    | .eq => node a k' v l c r
    | .lt => node a k' v (l.insert k new) c r
    | .gt => node a k' v l c (r.insert k new)

/-- Another value and other children for the node of a key. -/
def replace (k : κ) (v' : Option ν) (c' : Trie κ ν) : Trie κ ν → Trie κ ν
  | leaf => leaf
  | node a k' v l c r =>
    match cmp k k' with
    | .eq => node a k' v' l c' r
    | .lt => node a k' v (replace k v' c' l) c r
    | .gt => node a k' v l c (replace k v' c' r)

def lookup : List κ → Trie κ ν → Option ν
  | [], _ => none
  | [k], t => (t.find cmp k).bind fun (_, v, _) => v
  | k :: ks, t => (t.find cmp k).bind fun (_, _, c) => lookup ks c

/-- The value at a path from a node with the value `v` and the children `c`. -/
def lookupFrom (v : Option ν) (c : Trie κ ν) (path : List κ) : Option ν :=
  if path = [] then v else c.lookup cmp path

variable {cmp}

@[simp] theorem lookup_leaf (path : List κ) : lookup cmp path (leaf : Trie κ ν) = none := by
  match path with
  | [] | [_] | _ :: _ :: _ => rfl

theorem lookup_cons (k : κ) (ks : List κ) (t : Trie κ ν) :
    lookup cmp (k :: ks) t = (t.find cmp k).bind fun (_, v, c) => lookupFrom cmp v c ks := by
  cases ks with
  | nil | cons k' ks => rfl

theorem lookupFrom_none (c : Trie κ ν) (path : List κ) :
    lookupFrom cmp none c path = c.lookup cmp path := by
  cases path with
  | nil | cons k ks => rfl

@[simp] theorem addr_insert (k : κ) (new a : Nat) (k' : κ) (v : Option ν) (l c r : Trie κ ν) :
    ((node a k' v l c r).insert cmp k new).addr = a := by
  rw [insert]
  split <;> rfl

@[simp] theorem addr_replace (k : κ) (v' : Option ν) (c' t : Trie κ ν) :
    (replace cmp k v' c' t).addr = t.addr := by
  cases t with
  | leaf => rfl
  | node a k' v l c r =>
    rw [replace]
    split <;> rfl

/-! ## Traversal -/

theorem vals_insert (k : κ) (new : Nat) (t : Trie κ ν) : (t.insert cmp k new).vals = t.vals := by
  induction t with
  | leaf => rfl
  | node a k' v l c r ihl _ ihr =>
    rw [insert]
    split
    · rfl
    · simp only [vals, ihl]
    · simp only [vals, ihr]

theorem addrs_insert (new : Nat) (h : t.find cmp k = none) :
    (t.insert cmp k new).addrs.Perm (new :: t.addrs) := by
  induction t with
  | leaf => exact Perm.refl _
  | node a k' v l c r ihl _ ihr =>
    rw [find] at h
    rw [insert]
    apply perm_iff_count.mpr
    intro x
    split at h
    · cases h
    · have hl := (ihl h).count_eq x
      simp only [addrs, count_append, count_cons] at hl ⊢
      omega
    · have hr := (ihr h).count_eq x
      simp only [addrs, count_append, count_cons] at hr ⊢
      omega

section

variable (h : t.find cmp k = some (a, v, c))
include h

/-- Values that are new below or at a node are new in the traversal. -/
theorem vals_replace (new : List ν)
    (hnew : (v'.toList ++ c'.vals).Perm (new ++ (v.toList ++ c.vals))) :
    (replace cmp k v' c' t).vals.Perm (new ++ t.vals) := by
  classical
  apply perm_iff_count.mpr
  intro x
  have hcount := hnew.count_eq x
  simp only [count_append] at hcount ⊢
  induction t with
  | leaf => simp [find] at h
  | node a' k' w l d r ihl _ ihr =>
    rw [find] at h
    rw [replace]
    split at h
    · cases h
      simp only [vals, count_append]
      omega
    · have hl := ihl h
      simp only [vals, count_append]
      omega
    · have hr := ihr h
      simp only [vals, count_append]
      omega

theorem addrs_replace (v' : Option ν) (c' : Trie κ ν) :
    ((replace cmp k v' c' t).addrs ++ c.addrs).Perm (t.addrs ++ c'.addrs) := by
  induction t with
  | leaf => simp [find] at h
  | node a' k' w l d r ihl _ ihr =>
    rw [find] at h
    rw [replace]
    apply perm_iff_count.mpr
    intro x
    split at h
    · cases h
      simp only [addrs, count_append, count_cons]
      omega
    · have hl := (ihl h).count_eq x
      simp only [addrs, count_append, count_cons] at hl ⊢
      omega
    · have hr := (ihr h).count_eq x
      simp only [addrs, count_append, count_cons] at hr ⊢
      omega

theorem addrs_find : (a :: c.addrs).Subperm t.addrs := by
  induction t with
  | leaf => simp [find] at h
  | node a' k' w l d r ihl _ ihr =>
    rw [find] at h
    split at h
    · cases h
      exact ((sublist_append_left (a :: c.addrs) r.addrs).trans
        (sublist_append_right l.addrs _)).subperm
    · exact (ihl h).trans (sublist_append_left _ _).subperm
    · refine (ihr h).trans (Sublist.subperm ?_)
      exact ((sublist_append_right d.addrs r.addrs).cons a').trans (sublist_append_right l.addrs _)

theorem nodup_of_find (hnodup : t.addrs.Nodup) : (a :: c.addrs).Nodup := by
  obtain ⟨part, hperm, hsub⟩ := addrs_find h
  exact hperm.nodup_iff.mp (hsub.nodup hnodup)

/-! ## Search -/

theorem find_replace_self : (replace cmp k v' c' t).find cmp k = some (a, v', c') := by
  induction t with
  | leaf => simp [find] at h
  | node a' k' w l d r ihl _ ihr =>
    rw [find] at h
    rw [replace]
    split at h
    · rename_i heq
      cases h
      simp only [find, heq]
    · rename_i hlt
      simp only [find, hlt]
      exact ihl h
    · rename_i hgt
      simp only [find, hgt]
      exact ihr h

end

section

variable (hcmp : ∀ a b, cmp a b = .eq ↔ a = b)
include hcmp

theorem find_insert_self (h : t.find cmp k = none) :
    (t.insert cmp k new).find cmp k = some (new, none, leaf) := by
  induction t with
  | leaf => simp [insert, find, (hcmp k k).mpr rfl]
  | node a k' v l c r ihl _ ihr =>
    rw [find] at h
    rw [insert]
    split at h
    · cases h
    · rename_i hlt
      simp only [find, hlt]
      exact ihl h
    · rename_i hgt
      simp only [find, hgt]
      exact ihr h

theorem find_insert_of_ne (hne : k₁ ≠ k) (new : Nat) (t : Trie κ ν) :
    (t.insert cmp k new).find cmp k₁ = t.find cmp k₁ := by
  induction t with
  | leaf =>
    simp only [insert, find]
    split
    · rename_i heq
      exact absurd ((hcmp k₁ k).mp heq) hne
    · rfl
    · rfl
  | node a k' v l c r ihl _ ihr =>
    rw [insert]
    split
    · rfl
    · simp only [find, ihl]
    · simp only [find, ihr]

theorem find_replace_of_ne (hne : k₁ ≠ k) (v' : Option ν) (c' t : Trie κ ν) :
    (replace cmp k v' c' t).find cmp k₁ = t.find cmp k₁ := by
  induction t with
  | leaf => rfl
  | node a k' v l c r ihl _ ihr =>
    rw [replace]
    split
    · rename_i heq
      have hk := (hcmp k k').mp heq
      simp only [find]
      split
      · rename_i heq₁
        exact absurd (((hcmp k₁ k').mp heq₁).trans hk.symm) hne
      · rfl
      · rfl
    · simp only [find, ihl]
    · simp only [find, ihr]

/-! ## Paths -/

/-- A node without value or children is found at no path. -/
theorem lookup_insert (h : t.find cmp k = none) (path : List κ) :
    lookup cmp path (t.insert cmp k new) = lookup cmp path t := by
  cases path with
  | nil => rfl
  | cons k₁ ks =>
    rw [lookup_cons, lookup_cons]
    by_cases hk : k₁ = k
    · subst hk
      simp [find_insert_self hcmp h, h, lookupFrom]
    · rw [find_insert_of_ne hcmp hk]

variable [DecidableEq κ]

/-- Where the children of a node change, paths through it change with them. -/
theorem lookup_replace {ks : List κ} {r : Option ν} (h : t.find cmp k = some (a, v, c))
    (hnode : ∀ path, lookupFrom cmp v' c' path =
      if path = ks then r.or (lookupFrom cmp v c path) else lookupFrom cmp v c path)
    (path : List κ) :
    lookup cmp path (replace cmp k v' c' t) =
      if path = k :: ks then r.or (lookup cmp path t) else lookup cmp path t := by
  cases path with
  | nil => simp [lookup]
  | cons k₁ ks₁ =>
    rw [lookup_cons, lookup_cons]
    by_cases hk : k₁ = k
    · subst hk
      simp only [find_replace_self h, h, Option.bind_some, hnode, cons.injEq, true_and]
    · rw [find_replace_of_ne hcmp hk]
      simp [hk]

end

end Trie

end ShieldTv.Lib.TokenTrie
