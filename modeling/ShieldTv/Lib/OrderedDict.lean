import Mathlib

/-!
# Insertion-ordered dictionaries

A dictionary that remembers the order in which its keys were first set, as a
list of key and value pairs.  Deleting a missing key is an error.
-/

namespace ShieldTv.Lib

open List

/-- Keys in the order of their first insertion, each with its value. -/
structure OrderedDict (κ ν : Type*) where
  items : List (κ × ν)
deriving DecidableEq, Repr

namespace OrderedDict

variable {κ ν : Type*} [DecidableEq κ] {d : OrderedDict κ ν}

def empty : OrderedDict κ ν := ⟨[]⟩

def keys (d : OrderedDict κ ν) : List κ := d.items.map Prod.fst

def values (d : OrderedDict κ ν) : List ν := d.items.map Prod.snd

def get? (d : OrderedDict κ ν) (k : κ) : Option ν := d.items.lookup k

def contains (d : OrderedDict κ ν) (k : κ) : Bool := decide (k ∈ d.keys)

def setItems (k : κ) (v : ν) : List (κ × ν) → List (κ × ν)
  | [] => [(k, v)]
  | (k', v') :: rest => if k' = k then (k, v) :: rest else (k', v') :: setItems k v rest

def set (d : OrderedDict κ ν) (k : κ) (v : ν) : OrderedDict κ ν := ⟨setItems k v d.items⟩

def erase (d : OrderedDict κ ν) (k : κ) : OrderedDict κ ν :=
  ⟨d.items.filter fun item => decide (item.1 ≠ k)⟩

/-- Delete a key; `none` is the error for a missing one. -/
def del (d : OrderedDict κ ν) (k : κ) : Option (OrderedDict κ ν) :=
  if k ∈ d.keys then some (d.erase k) else none

def Unique (d : OrderedDict κ ν) : Prop := d.keys.Nodup

/-! ## Updates -/

theorem lookup_cons_ite (k j : κ) (v : ν) (rest : List (κ × ν)) :
    ((k, v) :: rest).lookup j = if j = k then some v else rest.lookup j := by
  by_cases h : j = k
  · simp [h]
  · have hne : (j == k) = false := by simp [h]
    simp [List.lookup, hne, h]

section

variable (d : OrderedDict κ ν)

theorem get?_set (k j : κ) (v : ν) : (d.set k v).get? j = if j = k then some v else d.get? j := by
  unfold set get?
  induction d.items with
  | nil => simp [setItems, lookup_cons_ite]
  | cons item rest ih =>
    obtain ⟨k', v'⟩ := item
    by_cases hk : k' = k
    · subst hk
      simp only [setItems, if_true, lookup_cons_ite]
      split_ifs <;> rfl
    · simp only [setItems, if_neg hk, lookup_cons_ite, ih]
      by_cases h : j = k'
      · subst h
        simp [hk]
      · simp [h]

theorem get?_erase (k j : κ) : (d.erase k).get? j = if j = k then none else d.get? j := by
  unfold erase get?
  induction d.items with
  | nil => simp
  | cons item rest ih =>
    obtain ⟨k', v'⟩ := item
    by_cases hk : k' = k
    · subst hk
      simp only [filter_cons, ne_eq, not_true, decide_false, Bool.false_eq_true,
        if_false, ih, lookup_cons_ite]
      split_ifs <;> rfl
    · simp only [filter_cons, ne_eq, hk, not_false_eq_true, decide_true, if_true,
        lookup_cons_ite, ih]
      by_cases h : j = k'
      · subst h
        simp [hk]
      · simp [h]

theorem get?_eq_none_iff (k : κ) : d.get? k = none ↔ k ∉ d.keys := by
  unfold get? keys
  rw [lookup_eq_none_iff]
  simp only [bne_iff_ne, mem_map, not_exists, not_and]
  exact forall₂_congr fun item _ => ne_comm

end

omit [DecidableEq κ] in
@[simp] theorem keys_empty : (empty : OrderedDict κ ν).keys = [] := rfl

omit [DecidableEq κ] in
theorem unique_empty : (empty : OrderedDict κ ν).Unique := nodup_nil

theorem mem_keys_set (d : OrderedDict κ ν) (k j : κ) (v : ν) :
    j ∈ (d.set k v).keys ↔ j = k ∨ j ∈ d.keys := by
  rw [← not_iff_not, ← get?_eq_none_iff, get?_set, not_or, ← get?_eq_none_iff]
  split_ifs with h <;> simp [h]

theorem unique_set (h : d.Unique) (k : κ) (v : ν) : (d.set k v).Unique := by
  obtain ⟨items⟩ := d
  unfold Unique set keys at *
  induction items with
  | nil => simp [setItems]
  | cons item rest ih =>
    obtain ⟨k', v'⟩ := item
    have hrest := nodup_cons.mp h
    simp only [setItems]
    split_ifs with heq
    · subst heq
      simpa using h
    · simp only [map_cons, nodup_cons]
      refine ⟨fun hmem => ?_, ih hrest.2⟩
      have := (mem_keys_set ⟨rest⟩ k k' v).mp hmem
      exact this.elim heq hrest.1

theorem mem_keys_erase (d : OrderedDict κ ν) (k j : κ) :
    j ∈ (d.erase k).keys ↔ j ≠ k ∧ j ∈ d.keys := by
  rw [← not_iff_not, ← get?_eq_none_iff, get?_erase, not_and, ← get?_eq_none_iff]
  split_ifs with h <;> simp [h]

theorem unique_erase (h : d.Unique) (k : κ) : (d.erase k).Unique :=
  h.sublist (filter_sublist.map Prod.fst)

section

variable {e : OrderedDict κ ν} {k : κ}

theorem eq_erase_of_del (h : d.del k = some e) : e = d.erase k := by
  unfold del at h
  split_ifs at h
  exact (Option.some.inj h).symm

theorem unique_of_del (hd : d.Unique) (h : d.del k = some e) : e.Unique := by
  rw [eq_erase_of_del h]
  exact unique_erase hd k

theorem mem_keys_of_del (h : d.del k = some e) (j : κ) : j ∈ e.keys ↔ j ≠ k ∧ j ∈ d.keys := by
  rw [eq_erase_of_del h]
  exact mem_keys_erase d k j

end

theorem exists_del {k : κ} (h : k ∈ d.keys) : ∃ e, d.del k = some e :=
  ⟨_, if_pos h⟩

theorem get?_of_mem (h : d.Unique) {item : κ × ν} (hitem : item ∈ d.items) :
    d.get? item.1 = some item.2 := by
  obtain ⟨items⟩ := d
  unfold get?
  induction items with
  | nil => cases hitem
  | cons first rest ih =>
    obtain ⟨k, v⟩ := first
    obtain ⟨hfirst, hrest⟩ := nodup_cons.mp h
    rw [lookup_cons_ite]
    rcases mem_cons.mp hitem with rfl | hmem
    · exact if_pos rfl
    · have hne : item.1 ≠ k := by
        rintro rfl
        exact hfirst (mem_map.mpr ⟨item, hmem, rfl⟩)
      rw [if_neg hne]
      exact ih hrest hmem

omit [DecidableEq κ] in
theorem keys_eq_nil_iff (d : OrderedDict κ ν) : d.keys = [] ↔ d.items = [] := by
  simp [keys]

/-! ## Sums over the entries -/

def sumOf (d : OrderedDict κ ν) (w : κ → ν → Int) : Int :=
  ∑ k ∈ d.keys.toFinset, (d.get? k).elim 0 (w k)

/-- The weight of one entry; none for a missing key. -/
def weightAt (d : OrderedDict κ ν) (w : κ → ν → Int) (k : κ) : Int := (d.get? k).elim 0 (w k)

section

variable (d : OrderedDict κ ν) (w : κ → ν → Int) (k : κ)

theorem sumOf_eq_add :
    d.sumOf w = d.weightAt w k + ∑ j ∈ d.keys.toFinset.erase k, d.weightAt w j := by
  by_cases hk : k ∈ d.keys.toFinset
  · exact (Finset.add_sum_erase _ _ hk).symm
  · have hnone := (d.get?_eq_none_iff k).mpr (by simpa using hk)
    rw [Finset.erase_eq_of_notMem hk, weightAt, hnone, Option.elim_none, Int.zero_add]
    rfl

theorem sumOf_set (v : ν) : (d.set k v).sumOf w = d.sumOf w - d.weightAt w k + w k v := by
  have hkeys : (d.set k v).keys.toFinset.erase k = d.keys.toFinset.erase k := by
    ext j
    simp only [Finset.mem_erase, mem_toFinset, mem_keys_set]
    tauto
  have hrest : ∑ j ∈ d.keys.toFinset.erase k, (d.set k v).weightAt w j =
      ∑ j ∈ d.keys.toFinset.erase k, d.weightAt w j := by
    apply Finset.sum_congr rfl
    intro j hj
    rw [weightAt, weightAt, get?_set, if_neg (Finset.ne_of_mem_erase hj)]
  have hone : (d.set k v).weightAt w k = w k v := by
    rw [weightAt, get?_set, if_pos rfl, Option.elim_some]
  rw [sumOf_eq_add (d.set k v) w k, sumOf_eq_add d w k, hkeys, hrest, hone]
  omega

theorem sumOf_erase : (d.erase k).sumOf w = d.sumOf w - d.weightAt w k := by
  have hkeys : (d.erase k).keys.toFinset = d.keys.toFinset.erase k := by
    ext j
    simp only [Finset.mem_erase, mem_toFinset, mem_keys_erase]
  have hrest : (d.erase k).sumOf w = ∑ j ∈ d.keys.toFinset.erase k, d.weightAt w j := by
    rw [sumOf, hkeys]
    apply Finset.sum_congr rfl
    intro j hj
    rw [weightAt, get?_erase, if_neg (Finset.ne_of_mem_erase hj)]
  rw [hrest, sumOf_eq_add d w k]
  omega

end

end OrderedDict

end ShieldTv.Lib
