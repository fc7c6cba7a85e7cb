import Mathlib

/-!
# Lists of adjacent intervals

Items with a start and a size that cover an interval without gaps, in order.
-/

namespace ShieldTv.Lib

variable {α : Type} (start size : α → Nat)

/-- The items cover the interval from `lo` to `hi`, each beginning where the last ended. -/
def Tiles : Nat → List α → Nat → Prop
  | lo, [], hi => lo = hi
  | lo, x :: xs, hi => start x = lo ∧ Tiles (lo + size x) xs hi

variable {start size} {lo hi : Nat} {xs ys : List α}

theorem tiles_append : Tiles start size lo (xs ++ ys) hi ↔
      ∃ mid, Tiles start size lo xs mid ∧ Tiles start size mid ys hi := by
  induction xs generalizing lo with
  | nil => simp [Tiles]
  | cons x xs ih =>
    rw [List.cons_append, Tiles, ih]
    constructor
    · rintro ⟨hx, mid, hxs, hys⟩
      exact ⟨mid, ⟨hx, hxs⟩, hys⟩
    · rintro ⟨mid, ⟨hx, hxs⟩, hys⟩
      exact ⟨hx, mid, hxs, hys⟩

section

variable (h : Tiles start size lo xs hi)
include h

theorem Tiles.le : lo ≤ hi := by
  induction xs generalizing lo with
  | nil => exact Nat.le_of_eq h
  | cons x xs ih => exact (Nat.le_add_right _ _).trans (ih h.2)

theorem Tiles.bounds {x : α} (hx : x ∈ xs) : lo ≤ start x ∧ start x + size x ≤ hi := by
  induction xs generalizing lo with
  | nil => simp at hx
  | cons y xs ih =>
    obtain ⟨hy, hxs⟩ := h
    rcases List.mem_cons.mp hx with rfl | hx
    · exact ⟨hy.ge, hy ▸ hxs.le⟩
    · have hrest := ih hxs hx
      exact ⟨(Nat.le_add_right _ _).trans hrest.1, hrest.2⟩

theorem Tiles.apart {x y : α} (hx : x ∈ xs) (hy : y ∈ xs) :
    x = y ∨ start x + size x ≤ start y ∨ start y + size y ≤ start x := by
  induction xs generalizing lo with
  | nil => simp at hx
  | cons z xs ih =>
    obtain ⟨hz, hxs⟩ := h
    rcases List.mem_cons.mp hx with rfl | hx
    · rcases List.mem_cons.mp hy with rfl | hy
      · exact .inl rfl
      · exact .inr (.inl (hz ▸ (hxs.bounds hy).1))
    · rcases List.mem_cons.mp hy with rfl | hy
      · exact .inr (.inr (hz ▸ (hxs.bounds ‹_›).1))
      · exact ih hxs hx hy

theorem Tiles.exists_mem {u : Nat} (hlo : lo ≤ u) (hhi : u < hi) :
    ∃ x ∈ xs, start x ≤ u ∧ u < start x + size x := by
  induction xs generalizing lo with
  | nil => exact absurd (h ▸ hhi) (not_lt.mpr hlo)
  | cons x xs ih =>
    obtain ⟨rfl, hxs⟩ := h
    by_cases hu : u < start x + size x
    · exact ⟨x, List.mem_cons_self, hlo, hu⟩
    · obtain ⟨y, hy, hbounds⟩ := ih hxs (not_lt.mp hu)
      exact ⟨y, List.mem_cons_of_mem _ hy, hbounds⟩

end

end ShieldTv.Lib
