import ShieldTv.Libutils.SortedVectorImpl

/-!
# Vectors stay in order

A sorted vector is merged as if its items were added one by one, unless the receiver has no items or
the two vectors touch.
-/

namespace ShieldTv.Libutils.SortedVectorImpl

open Lib.SortedVector List Option

variable {α κ : Type} [LinearOrder κ] {key : α → κ} {v w : List α}

theorem doCompare_le_zero {a b : α} : doCompare key a b ≤ 0 ↔ key a ≤ key b := by
  unfold doCompare
  rcases lt_trichotomy (key a) (key b) with h | h | h
  · simp [h, h.le]
  · simp [h]
  · simp [h, h.not_gt, not_le.mpr h]

theorem zero_le_doCompare {a b : α} : 0 ≤ doCompare key a b ↔ key b ≤ key a := by
  unfold doCompare
  rcases lt_trichotomy (key a) (key b) with h | h | h
  · simp [h, not_le.mpr h]
  · simp [h]
  · simp [h, h.not_gt, h.le]

theorem append_eq_addAll_left (hv : Sorted key v) (hw : Sorted key w)
    (h : ∀ x ∈ w, ∀ y ∈ v, key x < key y) : w ++ v = addAll key v w := by
  refine Sorted.ext (pairwise_append.mpr ⟨hw, hv, h⟩) (sorted_addAll hv w) fun y => ?_
  rw [mem_addAll hv hw, mem_append]
  exact or_congr_right ⟨fun hy => ⟨hy, fun x hx => (h x hx y hy).ne⟩, And.left⟩

theorem append_eq_addAll_right (hv : Sorted key v) (hw : Sorted key w)
    (h : ∀ y ∈ v, ∀ x ∈ w, key y < key x) : v ++ w = addAll key v w := by
  refine Sorted.ext (pairwise_append.mpr ⟨hv, hw, h⟩) (sorted_addAll hv w) fun y => ?_
  rw [mem_addAll hv hw, mem_append, or_comm]
  exact or_congr_right ⟨fun hy => ⟨hy, fun x hx => (h y hy x hx).ne'⟩, And.left⟩

/-- The vectors can be merged: the receiver has items, and at their ends the vectors do not have the
same key. -/
def Apart (key : α → κ) (v w : List α) : Prop :=
  w = [] ∨ ∃ hv : v ≠ [], ∃ hw : w ≠ [], key (w.getLast hw) ≠ key (v.head hv) ∧
    key (w.head hw) ≠ key (v.getLast hv)

theorem merge_eq (hv : v ≠ []) (hw : w ≠ []) : merge key v w =
      if key (w.getLast hw) ≤ key (v.head hv) then some (0, w ++ v)
      else if key (v.getLast hv) ≤ key (w.head hw) then some (v.length, v ++ w)
      else some (0, addAll key v w) := by
  have hends : ∀ {u : List α} (hu : u ≠ []), u[u.length - 1]? = some (u.getLast hu) ∧
      u[0]? = some (u.head hu) := by
    intro u hu
    rw [← List.getLast?_eq_getElem?, ← List.head?_eq_getElem?]
    exact ⟨List.getLast?_eq_some_getLast hu, List.head?_eq_some_head hu⟩
  unfold merge
  simp only [if_neg hw, (hends hv).1, (hends hv).2, (hends hw).1, (hends hw).2,
    bind_eq_bind, bind_some, doCompare_le_zero, zero_le_doCompare]
  rfl

theorem le_getLast (h : Sorted key v) (hv : v ≠ []) {x : α} (hx : x ∈ v) :
    key x ≤ key (v.getLast hv) := by
  rw [← dropLast_append_getLast hv, Sorted, pairwise_append] at h
  rw [← dropLast_append_getLast hv] at hx
  rcases mem_append.mp hx with hx | hx
  · exact (h.2.2 x hx _ mem_cons_self).le
  · rw [mem_singleton.mp hx]

theorem head_le (h : Sorted key v) (hv : v ≠ []) {x : α} (hx : x ∈ v) :
    key (v.head hv) ≤ key x := by
  rw [← cons_head_tail hv] at h hx
  rcases mem_cons.mp hx with rfl | hx
  · exact le_rfl
  · exact ((pairwise_cons.mp h).1 x hx).le

theorem not_sorted_append {a b : α} (ha : a ∈ v) (hb : b ∈ w) (hkey : key a = key b) :
    ¬ Sorted key (v ++ w) :=
  fun h => ((pairwise_append.mp h).2.2 a ha b hb).ne hkey

theorem merge_iff (hv : Sorted key v) (hw : Sorted key w) :
    (merge key v w).map Prod.snd = some (addAll key v w) ↔ Apart key v w := by
  by_cases hwnil : w = []
  · simp [hwnil, merge, addAll, Apart]
  by_cases hvnil : v = []
  · have hnone : merge key v w = none := by
      unfold merge
      rw [if_neg hwnil, hvnil]
      cases w[w.length - 1]? <;> rfl
    rw [hnone]
    exact iff_of_false (by simp) fun h => h.elim hwnil fun h => h.1 hvnil
  have hsorted := sorted_addAll hv w
  have hlast := getLast_mem hwnil
  have hhead := head_mem hvnil
  have hlast' := getLast_mem hvnil
  have hhead' := head_mem hwnil
  have hapart : Apart key v w ↔ key (w.getLast hwnil) ≠ key (v.head hvnil) ∧
      key (w.head hwnil) ≠ key (v.getLast hvnil) := by
    simp [Apart, hwnil, hvnil]
  rw [merge_eq hvnil hwnil, hapart]
  by_cases hbefore : key (w.getLast hwnil) ≤ key (v.head hvnil)
  · rw [if_pos hbefore, map_some, some_inj]
    by_cases htouch : key (w.getLast hwnil) = key (v.head hvnil)
    · refine iff_of_false (fun h => not_sorted_append hlast hhead htouch ?_) fun h => h.1 htouch
      exact (show w ++ v = _ from h) ▸ hsorted
    · have hlt := lt_of_le_of_ne hbefore htouch
      refine iff_of_true ?_ ⟨htouch, ?_⟩
      · refine append_eq_addAll_left hv hw fun x hx y hy => ?_
        exact (le_getLast hw hwnil hx).trans_lt (hlt.trans_le (head_le hv hvnil hy))
      · exact ((head_le hw hwnil hlast).trans_lt (hlt.trans_le (head_le hv hvnil hlast'))).ne
  · rw [if_neg hbefore]
    by_cases hafter : key (v.getLast hvnil) ≤ key (w.head hwnil)
    · rw [if_pos hafter, map_some, some_inj]
      by_cases htouch : key (w.head hwnil) = key (v.getLast hvnil)
      · refine iff_of_false (fun h => not_sorted_append hlast' hhead' htouch.symm ?_)
          fun h => h.2 htouch
        exact (show v ++ w = _ from h) ▸ hsorted
      · refine iff_of_true ?_ ⟨fun h => hbefore h.le, htouch⟩
        refine append_eq_addAll_right hv hw fun y hy x hx => ?_
        exact (le_getLast hv hvnil hy).trans_lt
          ((lt_of_le_of_ne hafter (Ne.symm htouch)).trans_le (head_le hw hwnil hx))
    · rw [if_neg hafter]
      exact iff_of_true rfl ⟨fun h => hbefore h.le, fun h => hafter h.ge⟩

/-! ## Calls one after the other -/

/-- Each call comes to an end and leaves the items in strict order, and a merge of a sorted vector
adds its items. -/
def InOrder (key : α → κ) (v : List α) : List (Call key) → Prop
  | [] => True
  | call :: calls => ∃ v', apply key v call = some v' ∧ Sorted key v' ∧
      (∀ vector, call = .merge vector → v' = addAll key v vector.1) ∧ InOrder key v' calls

/-- The sorted vectors are apart from the receiver when they are merged. -/
def MergesApart (key : α → κ) (v : List α) : List (Call key) → Prop
  | [] => True
  | call :: calls => (∀ vector, call = .merge vector → Apart key v vector.1) ∧
      ∀ v', apply key v call = some v' → MergesApart key v' calls

theorem sorted_remove (hv : Sorted key v) (item : α) : Sorted key (remove key v item).2 := by
  unfold remove
  cases indexOf key v (key item) with
  | none => exact hv
  | some i => exact hv.sublist (eraseIdx_sublist v i)

theorem apply_iff (hv : Sorted key v) (call : Call key) :
    (∃ v', apply key v call = some v' ∧ Sorted key v' ∧
        ∀ vector, call = .merge vector → v' = addAll key v vector.1) ↔
      ∀ vector, call = .merge vector → Apart key v vector.1 := by
  cases call with
  | add item => simp [apply, add, sorted_add hv]
  | remove item => simp [apply, sorted_remove hv]
  | mergeVector vector => simp [apply, mergeVector, sorted_addAll hv]
  | merge vector =>
    simp only [apply, Call.merge.injEq, forall_eq', ← merge_iff hv vector.2]
    constructor
    · rintro ⟨v', hv', -, rfl⟩
      exact hv'
    · exact fun h => ⟨_, h, sorted_addAll hv _, rfl⟩

theorem inOrder_iff (hv : Sorted key v) (calls : List (Call key)) :
    InOrder key v calls ↔ MergesApart key v calls := by
  induction calls generalizing v with
  | nil => exact Iff.rfl
  | cons call calls ih =>
    constructor
    · rintro ⟨v', happly, hsorted, hmerge, hrest⟩
      refine ⟨(apply_iff hv call).mp ⟨v', happly, hsorted, hmerge⟩, fun v'' happly' => ?_⟩
      obtain rfl := some.inj (happly.symm.trans happly')
      exact (ih hsorted).mp hrest
    · rintro ⟨hapart, hrest⟩
      obtain ⟨v', happly, hsorted, hmerge⟩ := (apply_iff hv call).mpr hapart
      exact ⟨v', happly, hsorted, hmerge, (ih hsorted).mpr (hrest v' happly)⟩

/-- From an empty vector, the items stay in strict order and merging adds items exactly if the
sorted vectors are apart from the receiver. -/
theorem calls_in_order_iff (key : α → κ) (calls : List (Call key)) :
    InOrder key [] calls ↔ MergesApart key [] calls :=
  inOrder_iff Pairwise.nil calls

/-- Merging into an empty vector compares with an item that is not there, and merging a vector that
begins with the last item leaves that item twice. -/
theorem merges_not_in_order :
    merge (fun n : Nat => n) [] [1] = none ∧
      merge (fun n : Nat => n) (add (fun n : Nat => n) [] 1).2 [1, 2] = some (1, [1, 1, 2]) ∧
      ¬ InOrder (fun n : Nat => n) [] [.merge ⟨[1], pairwise_singleton _ _⟩] ∧
      ¬ InOrder (fun n : Nat => n) [] [.add 1, .merge ⟨[1, 2], by unfold Sorted; decide⟩] := by
  refine ⟨rfl, rfl, ?_, ?_⟩
  · rintro ⟨v', happly, -⟩
    cases happly
  · rintro ⟨v₁, hadd, -, -, v₂, hmerge, hsorted, -⟩
    cases hadd
    cases hmerge
    exact absurd hsorted (by unfold Sorted; decide)

end ShieldTv.Libutils.SortedVectorImpl
