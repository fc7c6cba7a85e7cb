import Mathlib

/-!
# Endpoint lists

A finite union of half-open ranges is a list of endpoints: a point belongs to
it when an odd number of endpoints lie at or below the point.  This module
gives that reading of a list, the merge of two sorted lists, and the running
height of a sorted list of signed endpoints.  Nothing here knows about blocks
or images.
-/

namespace ShieldTv.Lib.Endpoints

open List

variable {α β : Type*}

/-! ## Merging -/

/-- Emit the elements of the second list that come before `x`, then `x`, then
whatever `rest` makes of the remainder. -/
def mergeFrom (le : β → β → Bool) (x : β) (rest : List β → List β) : List β → List β
  | [] => x :: rest []
  | y :: ys => if le x y then x :: rest (y :: ys) else y :: mergeFrom le x rest ys

/-- `List.merge` (`merge_eq`), by structural recursion on both lists: the recursion of `List.merge`
is well-founded, and does not evaluate in the kernel. -/
def merge (le : β → β → Bool) : List β → List β → List β
  | [], ys => ys
  | x :: xs, ys => mergeFrom le x (merge le xs) ys

theorem merge_eq (le : β → β → Bool) (xs ys : List β) : merge le xs ys = List.merge xs ys le := by
  induction xs generalizing ys with
  | nil => simp [merge]
  | cons x xs ih =>
    induction ys with
    | nil => simp [merge, mergeFrom, ih]
    | cons y ys ihy =>
      simp only [merge, mergeFrom, cons_merge_cons] at ihy ⊢
      split_ifs with hle
      · rw [ih]
      · rw [ihy]

theorem merge_perm (le : β → β → Bool) (xs ys : List β) : (merge le xs ys).Perm (xs ++ ys) := by
  rw [merge_eq]
  exact merge_perm_append le

theorem merge_split {le : β → β → Bool} {x : β} {xs ys zs : List β}
    (hys : ∀ y ∈ ys, le x y = false) (hzs : ∀ z ∈ zs, le x z = true) :
    merge le (x :: xs) (ys ++ zs) = ys ++ x :: merge le xs zs := by
  induction ys with
  | nil =>
    cases zs with
    | nil => rfl
    | cons z zs => simp [merge, mergeFrom, hzs z (by simp)]
  | cons y ys ih =>
    have hrest := ih fun z hz => hys z (by simp [hz])
    rw [merge] at hrest ⊢
    rw [cons_append, mergeFrom, hys y (by simp), hrest]
    simp

section Order

variable [LinearOrder α] {x e p : α} {es : List α}

/-- The order of pairs: by position, then by sign. -/
def lexLe (a b : α × Int) : Bool := decide (a.1 < b.1 ∨ a.1 = b.1 ∧ a.2 ≤ b.2)

theorem lexLe_iff (a b : α × Int) : lexLe a b = true ↔ a.1 < b.1 ∨ a.1 = b.1 ∧ a.2 ≤ b.2 := by
  simp [lexLe]

theorem lexLe_iff_toLex (a b : α × Int) : lexLe a b = true ↔ toLex a ≤ toLex b := by
  rw [lexLe_iff, Prod.Lex.toLex_le_toLex]

theorem lexLe_trans (a b c : α × Int) (hab : lexLe a b = true) (hbc : lexLe b c = true) :
    lexLe a c = true := by
  rw [lexLe_iff_toLex] at *
  exact hab.trans hbc

theorem lexLe_total (a b : α × Int) : (lexLe a b || lexLe b a) = true := by
  rw [Bool.or_eq_true, lexLe_iff_toLex, lexLe_iff_toLex]
  exact le_total _ _

theorem merge_pairwise {xs ys : List (α × Int)} (hxs : xs.Pairwise (fun a b => lexLe a b = true))
    (hys : ys.Pairwise (fun a b => lexLe a b = true)) :
    (merge lexLe xs ys).Pairwise (fun a b => lexLe a b = true) := by
  rw [merge_eq]
  exact pairwise_merge lexLe_trans lexLe_total xs ys hxs hys

theorem fst_le_of_lexLe {a b : α × Int} (h : lexLe a b = true) : a.1 ≤ b.1 := by
  rw [lexLe_iff] at h
  rcases h with h | ⟨h, -⟩
  · exact h.le
  · exact h.le

/-! ## Points of an endpoint list -/

/-- An odd number of the endpoints lie at or below `x`. -/
def OddAt (es : List α) (x : α) : Prop := es.countP (fun e => decide (e ≤ x)) % 2 = 1

instance (es : List α) (x : α) : Decidable (OddAt es x) :=
  inferInstanceAs (Decidable (_ = _))

@[simp] theorem not_oddAt_nil (x : α) : ¬OddAt ([] : List α) x := by
  simp [OddAt]

theorem not_oddAt_iff_even (h : ∀ e ∈ es, e ≤ x) : ¬OddAt es x ↔ es.length % 2 = 0 := by
  rw [OddAt, countP_eq_length.mpr fun e he => decide_eq_true (h e he)]
  omega

theorem oddAt_cons_of_le (h : e ≤ x) (es : List α) : OddAt (e :: es) x ↔ ¬OddAt es x := by
  simp only [OddAt, countP_cons, h, decide_true, if_true]
  omega

theorem oddAt_cons_of_lt (h : x < e) (es : List α) : OddAt (e :: es) x ↔ OddAt es x := by
  simp [OddAt, not_le.mpr h]

theorem oddAt_append (es fs : List α) (x : α) :
    OddAt (es ++ fs) x ↔ ¬(OddAt es x ↔ OddAt fs x) := by
  simp only [OddAt, countP_append]
  omega

theorem not_oddAt_of_lt (h : ∀ e ∈ es, x < e) : ¬OddAt es x := by
  induction es with
  | nil => exact not_oddAt_nil x
  | cons e es ih =>
    rw [oddAt_cons_of_lt (h e (by simp))]
    exact ih fun e' he' => h e' (by simp [he'])

/-- A strictly increasing endpoint list is determined by its points. -/
theorem eq_of_oddAt {xs ys : List α} (hxs : xs.Pairwise (· < ·)) (hys : ys.Pairwise (· < ·))
    (h : ∀ x, OddAt xs x ↔ OddAt ys x) : xs = ys := by
  induction xs generalizing ys with
  | nil =>
    cases ys with
    | nil => rfl
    | cons y ys =>
      have hy := (pairwise_cons.mp hys).1
      have := h y
      rw [oddAt_cons_of_le le_rfl] at this
      exact absurd (this.mpr (not_oddAt_of_lt hy)) (not_oddAt_nil y)
  | cons x xs ih =>
    have hx := pairwise_cons.mp hxs
    cases ys with
    | nil =>
      have := h x
      rw [oddAt_cons_of_le le_rfl] at this
      exact absurd (this.mp (not_oddAt_of_lt hx.1)) (not_oddAt_nil x)
    | cons y ys =>
      have hy := pairwise_cons.mp hys
      have hxy : x = y := by
        rcases lt_trichotomy x y with hlt | heq | hlt
        · have := h x
          rw [oddAt_cons_of_le le_rfl, oddAt_cons_of_lt hlt] at this
          exact absurd (this.mp (not_oddAt_of_lt hx.1))
            (not_oddAt_of_lt fun e he => hlt.trans (hy.1 e he))
        · exact heq
        · have := h y
          rw [oddAt_cons_of_le le_rfl, oddAt_cons_of_lt hlt] at this
          exact absurd (this.mpr (not_oddAt_of_lt hy.1))
            (not_oddAt_of_lt fun e he => hlt.trans (hx.1 e he))
      subst hxy
      congr 1
      apply ih hx.2 hy.2
      intro z
      rcases le_or_gt x z with hle | hlt
      · have := h z
        rw [oddAt_cons_of_le hle, oddAt_cons_of_le hle] at this
        exact not_iff_not.mp this
      · have := h z
        rwa [oddAt_cons_of_lt hlt, oddAt_cons_of_lt hlt] at this

/-! ## Height of signed endpoints -/

/-- The sum of the signs of the events at or below `x`. -/
def height (es : List (α × Int)) (x : α) : Int :=
  ((es.filter fun e => decide (e.1 ≤ x)).map Prod.snd).sum

@[simp] theorem height_nil (x : α) : height ([] : List (α × Int)) x = 0 := rfl

theorem height_cons_of_le (h : p ≤ x) (d : Int) (es : List (α × Int)) :
    height ((p, d) :: es) x = d + height es x := by
  simp [height, h]

theorem height_cons_of_lt (h : x < p) (d : Int) (es : List (α × Int)) :
    height ((p, d) :: es) x = height es x := by
  simp [height, not_le.mpr h]

theorem height_append (es fs : List (α × Int)) (x : α) :
    height (es ++ fs) x = height es x + height fs x := by
  simp [height]

theorem height_perm {es fs : List (α × Int)} (h : es.Perm fs) (x : α) :
    height es x = height fs x := by
  exact ((h.filter _).map _).sum_eq

theorem height_merge (es fs : List (α × Int)) (x : α) :
    height (merge lexLe es fs) x = height es x + height fs x := by
  rw [height_perm (merge_perm lexLe es fs), height_append]

theorem height_of_lt {es : List (α × Int)} (h : ∀ e ∈ es, x < e.1) : height es x = 0 := by
  induction es with
  | nil => rfl
  | cons e es ih =>
    rw [show e = (e.1, e.2) from rfl, height_cons_of_lt (h e (by simp))]
    exact ih fun e' he' => h e' (by simp [he'])

end Order

end ShieldTv.Lib.Endpoints
