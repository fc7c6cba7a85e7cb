import ShieldTv.Libutils.VectorImpl

/-!
# Stable sorting

The loop inserts each item behind the ones that are not larger, as an insertion sort does.
-/

namespace ShieldTv.Libutils.VectorImpl

open List

variable {α : Type}

structure TotalPreorder (cmp : α → α → Int) : Prop where
  swap : ∀ a b, cmp a b < 0 ↔ 0 < cmp b a
  trans : ∀ a b c, cmp a b ≤ 0 → cmp b c ≤ 0 → cmp a c ≤ 0

def InOrder (cmp : α → α → Int) (items : List α) : Prop := items.Pairwise (cmp · · ≤ 0)

/-- The same items, where those that compare equal come in the same order. -/
structure Rearranged (cmp : α → α → Int) (items items' : List α) : Prop where
  perm : items'.Perm items
  stable : ∀ a, items'.filter (cmp a · = 0) = items.filter (cmp a · = 0)

theorem Rearranged.refl (cmp : α → α → Int) (items : List α) : Rearranged cmp items items :=
  ⟨Perm.refl _, fun _ => rfl⟩

section

variable (cmp : α → α → Int)

/-- What holds of the items in the order of the inner loop, which goes down. -/
def Below (a b : α) : Prop := cmp b a ≤ 0

instance : DecidableRel (Below cmp) := fun a b => inferInstanceAs (Decidable (cmp b a ≤ 0))

theorem shift_eq (temp : α) (before : List α) :
    shift cmp temp before = before.orderedInsert (Below cmp) temp := by
  induction before with
  | nil => rfl
  | cons curr before ih =>
    rw [shift, orderedInsert_cons, ih]
    by_cases hgreater : 0 < cmp curr temp
    · have hnot : ¬Below cmp temp curr := Int.not_le.mpr hgreater
      rw [if_pos hgreater, if_neg hnot]
    · have hbelow : Below cmp temp curr := Int.not_lt.mp hgreater
      rw [if_neg hgreater, if_pos hbelow]

theorem sortLoop_written (mem : Memory) (temp : Bool) (before rest : List α) :
    ((sortLoop mem cmp temp before rest).2.2 = false ∧ temp = false ∧
      (sortLoop mem cmp temp before rest).2.1 = before.reverse ++ rest) ∨
    ((sortLoop mem cmp temp before rest).2.2 = true ∧ (temp || mem.temp) = true) := by
  induction rest generalizing temp before with
  | nil => cases temp <;> simp [sortLoop]
  | cons item rest ih =>
    cases before with
    | nil => simpa [sortLoop] using ih temp [item]
    | cons curr before =>
      rw [sortLoop]
      split_ifs with hgreater htemp
      · rcases ih true (shift cmp item (curr :: before)) with ⟨-, hfalse, -⟩ | ⟨hwritten, -⟩
        · cases hfalse
        · exact Or.inr ⟨hwritten, htemp⟩
      · exact Or.inl ⟨rfl, by simp_all, rfl⟩
      · simpa using ih temp (item :: curr :: before)

variable {cmp}

theorem sortLoop_eq {mem : Memory} (hmem : mem.temp = true) (temp : Bool) (before rest : List α) :
    ∃ written, sortLoop mem cmp temp before rest =
      (.noError, (rest.reverse.foldr (List.orderedInsert (Below cmp)) before).reverse,
        written) := by
  rw [foldr_reverse]
  induction rest generalizing temp before with
  | nil => exact ⟨temp, rfl⟩
  | cons item rest ih =>
    cases before with
    | nil => exact ih temp [item]
    | cons curr before =>
      rw [sortLoop, foldl_cons, ← shift_eq]
      split_ifs with hgreater htemp
      · exact ih true _
      · simp [hmem] at htemp
      · rw [shift, if_neg hgreater]
        exact ih temp _

theorem sortLoop_inOrder (mem : Memory) (temp : Bool) {before rest : List α}
    (h : InOrder cmp (before.reverse ++ rest)) :
    sortLoop mem cmp temp before rest = (.noError, before.reverse ++ rest, temp) := by
  induction rest generalizing before with
  | nil => simp [sortLoop]
  | cons item rest ih =>
    have hnext : InOrder cmp ((item :: before).reverse ++ rest) := by simpa using h
    cases before with
    | nil => simpa [sortLoop] using ih hnext
    | cons curr before =>
      have hle : cmp curr item ≤ 0 := by
        rw [InOrder, pairwise_append] at h
        exact h.2.2 curr (by simp) item (by simp)
      rw [sortLoop, if_neg (Int.not_lt.mpr hle), ih hnext]
      simp

variable (hcmp : TotalPreorder cmp)
include hcmp

theorem TotalPreorder.total : Std.Total (Below cmp) where
  total a b := by
    have := hcmp.swap a b
    simp only [Below]
    omega

theorem TotalPreorder.isTrans : IsTrans α (Below cmp) where
  trans a b c hab hbc := hcmp.trans c b a hbc hab

/-- Items that compare equal come in both orders, and so a stable sort leaves them as they are. -/
theorem sorted_stable (items : List α) :
    InOrder cmp (items.reverse.insertionSort (Below cmp)).reverse ∧
      Rearranged cmp items (items.reverse.insertionSort (Below cmp)).reverse := by
  have := hcmp.total
  have := hcmp.isTrans
  have hperm := perm_insertionSort (Below cmp) items.reverse
  refine ⟨?_, (reverse_perm _).trans (hperm.trans (reverse_perm _)), fun a => ?_⟩
  · rw [InOrder, pairwise_reverse]
    exact pairwise_insertionSort (Below cmp) _
  · have hequal : (items.reverse.filter (cmp a · = 0)).Pairwise (Below cmp) := by
      rw [pairwise_iff_forall_sublist]
      intro b c hbc
      have hb := of_mem_filter (hbc.subset (by simp : b ∈ [b, c]))
      have hc := of_mem_filter (hbc.subset (by simp : c ∈ [b, c]))
      simp only [decide_eq_true_eq] at hb hc
      have := hcmp.swap a c
      exact hcmp.trans c a b (by omega) (by omega)
    have hsub := (sublist_insertionSort hequal filter_sublist).filter (cmp a · = 0)
    rw [filter_filter] at hsub
    have heq := hsub.eq_of_length (by simpa using (hperm.filter _).length_eq.symm)
    rw [filter_reverse, ← heq]
    simp

end

/-- The call sorts its own vector and only that, stably, exactly if there is nothing to do or the
memory for it can be had. -/
theorem sort_stable_iff {cmp : α → α → Int} (hcmp : TotalPreorder cmp) (mem : Memory)
    (shared : Bool) (items : List α) :
    (InOrder cmp (sort mem cmp shared items).array ∧
        Rearranged cmp items (sort mem cmp shared items).array ∧
        (sort mem cmp shared items).others = items) ↔
      InOrder cmp items ∨ (mem.temp = true ∧ (shared = true → mem.buffer = true)) := by
  unfold sort
  dsimp only
  constructor
  · rintro ⟨horder, -, hothers⟩
    rcases sortLoop_written cmp mem false [] items with ⟨-, -, harray⟩ | ⟨hwritten, htemp⟩
    · left
      rwa [harray] at horder
    · by_cases hedit : editArrayImpl mem shared = true
      · left
        rw [hwritten, hedit] at hothers
        rwa [← hothers]
      · right
        exact ⟨htemp, fun hshared => by simpa [editArrayImpl, hshared] using hedit⟩
  · rintro (horder | ⟨htemp, hbuffer⟩)
    · rw [sortLoop_inOrder mem false (by exact horder)]
      exact ⟨horder, Rearranged.refl cmp items, rfl⟩
    · obtain ⟨written, hloop⟩ := sortLoop_eq htemp false [] items
      have hedit : editArrayImpl mem shared = false := by
        cases shared with
        | false => rfl
        | true => simp [editArrayImpl, hbuffer]
      rw [hloop, hedit, Bool.and_false]
      obtain ⟨horder, hrearranged⟩ := sorted_stable hcmp items
      exact ⟨horder, hrearranged, rfl⟩

theorem totalPreorder_sub : TotalPreorder fun a b : Int × Int => a.1 - b.1 where
  swap a b := by omega
  trans a b c := by omega

/-- The vectors had one buffer in common and get one of their own. -/
theorem sort_stable_iff_copied :
    InOrder (fun a b : Int × Int => a.1 - b.1)
      (sort ⟨true, true⟩ (fun a b => a.1 - b.1) true [(2, 0), (1, 1), (1, 2)]).array :=
  ((sort_stable_iff totalPreorder_sub ⟨true, true⟩ true [(2, 0), (1, 1), (1, 2)]).mpr
    (Or.inr ⟨rfl, fun _ => rfl⟩)).1

/-- There is no memory for a second buffer, and what the other vector holds is sorted as well. -/
theorem sort_reorders_others :
    sort ⟨false, true⟩ (fun a b : Int × Int => a.1 - b.1) true [(2, 0), (1, 1)] =
      ⟨.noError, [(1, 1), (2, 0)], [(1, 1), (2, 0)]⟩ := by decide

end ShieldTv.Libutils.VectorImpl
