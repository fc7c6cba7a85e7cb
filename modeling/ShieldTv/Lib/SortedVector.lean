import Mathlib

/-!
# Sorted vectors

A vector sorted by a key, with a binary search for a key and for the place where
it would be.
-/

namespace ShieldTv.Lib.SortedVector

open List

variable {α κ : Type} [LinearOrder κ] (key : α → κ)

/-- Binary search for `k` in `v[lo], …, v[hi - 1]`: its index if it is there, and
where it is or would be. -/
def search (v : List α) (k : κ) : Nat → Nat → Nat → Option Nat × Nat
  | 0, lo, _ => (none, lo)
  | fuel + 1, lo, hi =>
    if lo < hi then
      let mid := lo + (hi - 1 - lo) / 2
      match v[mid]? with
      | none => (none, lo)
      | some x =>
        if key x < k then search v k fuel (mid + 1) hi
        else if k < key x then search v k fuel lo mid
        else (some mid, mid)
    else (none, lo)

def indexOrderOf (v : List α) (k : κ) : Option Nat × Nat := search key v k v.length 0 v.length

def indexOf (v : List α) (k : κ) : Option Nat := (indexOrderOf key v k).1

def insertAt (v : List α) (i : Nat) (x : α) : List α := v.take i ++ x :: v.drop i

/-- Insert an element at its place, or replace the one with its key. -/
def add (v : List α) (x : α) : List α :=
  match indexOrderOf key v (key x) with
  | (none, i) => insertAt v i x
  | (some i, _) => v.set i x

def Sorted (v : List α) : Prop := v.Pairwise fun a b => key a < key b

variable {key} {v : List α} {k : κ} {x y : α}

theorem search_cases {fuel lo hi : Nat} (hfuel : hi ≤ lo + fuel) (hhi : hi ≤ v.length)
    (hbefore : ∀ x ∈ v.take lo, key x < k) (hafter : ∀ x ∈ v.drop hi, k < key x)
    (hsorted : Sorted key v) (hle : lo ≤ hi) :
    (∃ i x, search key v k fuel lo hi = (some i, i) ∧ v[i]? = some x ∧ key x = k) ∨
      ∃ i, search key v k fuel lo hi = (none, i) ∧ (∀ x ∈ v.take i, key x < k) ∧
        ∀ x ∈ v.drop i, k < key x := by
  induction fuel generalizing lo hi with
  | zero =>
    obtain rfl : lo = hi := by omega
    exact .inr ⟨lo, rfl, hbefore, hafter⟩
  | succ fuel ih =>
    rw [search]
    by_cases hlt : lo < hi
    · rw [if_pos hlt]
      generalize hmid : lo + (hi - 1 - lo) / 2 = mid
      have hmidlt : mid < v.length := by omega
      have hget : v[mid]? = some v[mid] := getElem?_eq_getElem hmidlt
      have hsplit : v = v.take mid ++ v[mid] :: v.drop (mid + 1) := by
        rw [getElem_cons_drop, take_append_drop]
      have hpair := hsorted
      rw [Sorted, hsplit, pairwise_append, pairwise_cons] at hpair
      simp only [hget]
      by_cases hless : key v[mid] < k
      · rw [if_pos hless]
        apply ih (by omega) hhi _ hafter (by omega)
        intro x hx
        rw [take_add_one, hget, Option.toList_some] at hx
        rcases mem_append.mp hx with hx | hx
        · exact (hpair.2.2 x hx v[mid] mem_cons_self).trans hless
        · rw [mem_singleton.mp hx]
          exact hless
      · rw [if_neg hless]
        by_cases hmore : k < key v[mid]
        · rw [if_pos hmore]
          apply ih (by omega) (by omega) hbefore _ (by omega)
          intro x hx
          rw [← getElem_cons_drop hmidlt] at hx
          rcases mem_cons.mp hx with rfl | hx
          · exact hmore
          · exact hmore.trans (hpair.2.1.1 x hx)
        · rw [if_neg hmore]
          exact .inl ⟨mid, v[mid], rfl, hget, le_antisymm (not_lt.mp hmore) (not_lt.mp hless)⟩
    · obtain rfl : lo = hi := by omega
      rw [if_neg hlt]
      exact .inr ⟨lo, rfl, hbefore, hafter⟩

theorem indexOrderOf_cases (hsorted : Sorted key v) (k : κ) :
    (∃ i x, indexOrderOf key v k = (some i, i) ∧ v[i]? = some x ∧ key x = k) ∨
      ∃ i, indexOrderOf key v k = (none, i) ∧ (∀ x ∈ v.take i, key x < k) ∧
        ∀ x ∈ v.drop i, k < key x :=
  search_cases (by omega) le_rfl (by simp) (by simp) hsorted (Nat.zero_le _)

theorem add_eq_set {i : Nat} (h : indexOf key v (key x) = some i) : add key v x = v.set i x := by
  unfold indexOf at h
  unfold add
  cases hindex : indexOrderOf key v (key x) with
  | mk found j =>
    rw [hindex] at h
    cases h
    rfl

/-- The new element stands between those with a lower and those with a higher key. -/
theorem add_cases (hsorted : Sorted key v) (x : α) :
    ∃ l mid r, v = l ++ (mid ++ r) ∧ add key v x = l ++ x :: r ∧ (∀ y ∈ l, key y < key x) ∧
      (∀ y ∈ mid, key y = key x) ∧ ∀ y ∈ r, key x < key y := by
  unfold add
  rcases indexOrderOf_cases hsorted (key x) with ⟨i, y, hindex, hget, hkey⟩ | ⟨i, hindex, hl, hr⟩
  · obtain ⟨hi, hy⟩ := List.getElem?_eq_some_iff.mp hget
    have hsplit : v = v.take i ++ ([y] ++ v.drop (i + 1)) := by
      rw [← hy, singleton_append, getElem_cons_drop, take_append_drop]
    have hpair := hsorted
    rw [Sorted, hsplit, pairwise_append, singleton_append, pairwise_cons] at hpair
    simp only [hindex]
    refine ⟨v.take i, [y], v.drop (i + 1), hsplit, set_eq_take_append_cons_drop.trans
      (if_pos hi), ?_, ?_, ?_⟩
    · intro z hz
      rw [← hkey]
      exact hpair.2.2 z hz y mem_cons_self
    · intro z hz
      rw [mem_singleton.mp hz, hkey]
    · rw [← hkey]
      exact hpair.2.1.1
  · simp only [hindex]
    exact ⟨v.take i, [], v.drop i, (take_append_drop i v).symm, rfl, hl, by simp, hr⟩

theorem sorted_add (hsorted : Sorted key v) : Sorted key (add key v x) := by
  obtain ⟨l, mid, r, hv, hadd, hl, -, hr⟩ := add_cases hsorted x
  rw [Sorted, hv, pairwise_append, pairwise_append] at hsorted
  rw [Sorted, hadd, pairwise_append, pairwise_cons]
  refine ⟨hsorted.1, ⟨hr, hsorted.2.1.2.1⟩, ?_⟩
  intro a ha b hb
  rcases mem_cons.mp hb with rfl | hb
  · exact hl a ha
  · exact hsorted.2.2 a ha b (mem_append_right mid hb)

theorem mem_add (hsorted : Sorted key v) : y ∈ add key v x ↔ y = x ∨ y ∈ v ∧ key y ≠ key x := by
  obtain ⟨l, mid, r, hv, hadd, hl, hmid, hr⟩ := add_cases hsorted x
  rw [hadd, hv, mem_append, mem_cons, mem_append, mem_append]
  constructor
  · rintro (hy | rfl | hy)
    · exact Or.inr ⟨Or.inl hy, (hl y hy).ne⟩
    · exact Or.inl rfl
    · exact Or.inr ⟨Or.inr (Or.inr hy), (hr y hy).ne'⟩
  · rintro (rfl | ⟨hy | hy | hy, hne⟩)
    · exact Or.inr (Or.inl rfl)
    · exact Or.inl hy
    · exact absurd (hmid y hy) hne
    · exact Or.inr (Or.inr hy)

theorem Sorted.ext {v' : List α} (h : Sorted key v) (h' : Sorted key v')
    (hmem : ∀ y, y ∈ v ↔ y ∈ v') : v = v' := by
  have hnodup : ∀ {w : List α}, Sorted key w → w.Nodup := by
    intro w hw
    refine Pairwise.imp (fun {a b} hlt heq => ?_) hw
    exact lt_irrefl _ (heq ▸ hlt)
  refine Perm.eq_of_pairwise ?_ h h' ((perm_ext_iff_of_nodup (hnodup h) (hnodup h')).mpr hmem)
  intro a b _ _ hab hba
  exact absurd hba (lt_asymm hab)

/-! ## Elements one after the other -/

variable (key) in
def addAll (v w : List α) : List α := w.foldl (add key) v

theorem sorted_addAll (hsorted : Sorted key v) (w : List α) : Sorted key (addAll key v w) := by
  induction w generalizing v with
  | nil => exact hsorted
  | cons x w ih => exact ih (sorted_add hsorted)

theorem mem_addAll {w : List α} (hsorted : Sorted key v) (hw : Sorted key w) :
    y ∈ addAll key v w ↔ y ∈ w ∨ y ∈ v ∧ ∀ x ∈ w, key x ≠ key y := by
  induction w generalizing v with
  | nil => simp [addAll]
  | cons x w ih =>
    obtain ⟨hx, hw⟩ := pairwise_cons.mp hw
    have hstep : addAll key v (x :: w) = addAll key (add key v x) w := rfl
    rw [hstep, ih (sorted_add hsorted) hw, mem_add hsorted, mem_cons, forall_mem_cons]
    constructor
    · rintro (hy | ⟨rfl | ⟨hy, hne⟩, hall⟩)
      · exact Or.inl (Or.inr hy)
      · exact Or.inl (Or.inl rfl)
      · exact Or.inr ⟨hy, hne.symm, hall⟩
    · rintro ((rfl | hy) | ⟨hy, hne, hall⟩)
      · exact Or.inr ⟨Or.inl rfl, fun z hz => (hx z hz).ne'⟩
      · exact Or.inl hy
      · exact Or.inr ⟨Or.inr ⟨hy, hne.symm⟩, hall⟩

theorem add_last (hsorted : Sorted key v) (hlast : ∀ y ∈ v, key y < key x) :
    add key v x = v ++ [x] := by
  obtain ⟨l, mid, r, rfl, hadd, -, hmid, hr⟩ := add_cases hsorted x
  have hmid : mid = [] := eq_nil_iff_forall_not_mem.mpr fun y hy =>
    (hlast y (by simp [hy])).ne (hmid y hy)
  have hr : r = [] := eq_nil_iff_forall_not_mem.mpr fun y hy =>
    lt_asymm (hr y hy) (hlast y (by simp [hy]))
  rw [hadd, hmid, hr, append_nil, append_nil]

end ShieldTv.Lib.SortedVector
