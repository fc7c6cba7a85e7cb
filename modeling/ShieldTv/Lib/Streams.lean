import Mathlib

/-!
# Lists that differ in how their streams are interleaved

Each item belongs to a stream.  Two lists have the same streams if each stream, taken alone, is the
same in both; items of different streams may have changed places.  Where only some items must not
be overtaken, what stands behind one of them stays behind it.
-/

namespace ShieldTv.Lib

open List

variable {α κ : Type} [DecidableEq κ] (stream : α → κ)

def SameStreams (a b : List α) : Prop :=
  ∀ k, a.filter (stream · = k) = b.filter (stream · = k)

namespace SameStreams

variable {stream} {a a' b b' c : List α}

theorem refl (a : List α) : SameStreams stream a a := fun _ => rfl

theorem trans (hab : SameStreams stream a b) (hbc : SameStreams stream b c) :
    SameStreams stream a c := fun k => (hab k).trans (hbc k)

theorem append (ha : SameStreams stream a a') (hb : SameStreams stream b b') :
    SameStreams stream (a ++ b) (a' ++ b') := by
  intro k
  rw [filter_append, filter_append, ha k, hb k]

/-- Items without a stream in common change places. -/
theorem swap (h : ∀ x ∈ a, ∀ y ∈ b, stream x ≠ stream y) :
    SameStreams stream (a ++ b) (b ++ a) := by
  intro k
  rw [filter_append, filter_append]
  by_cases hk : ∃ x ∈ a, stream x = k
  · obtain ⟨x, hx, rfl⟩ := hk
    have hb : b.filter (stream · = stream x) = [] := by
      simpa using fun y hy => (h x hx y hy).symm
    rw [hb, append_nil, nil_append]
  · have ha : a.filter (stream · = k) = [] := by
      simpa using fun x hx heq => hk ⟨x, hx, heq⟩
    rw [ha, append_nil, nil_append]

theorem perm [DecidableEq α] (h : SameStreams stream a b) : a.Perm b := by
  rw [perm_iff_count]
  intro x
  have hx := congrArg (List.count x) (h (stream x))
  rwa [count_filter (by simp), count_filter (by simp)] at hx

end SameStreams

/-! ## Items that are not overtaken -/

theorem pair_sublist_append {x y : α} {a b : List α} :
    [x, y] <+ a ++ b ↔ [x, y] <+ a ∨ (x ∈ a ∧ y ∈ b) ∨ [x, y] <+ b := by
  constructor
  · intro h
    obtain ⟨_ | ⟨z, _ | ⟨w, l₁⟩⟩, l₂, heq, h₁, h₂⟩ := sublist_append_iff.mp h
    · rw [heq]
      exact .inr (.inr h₂)
    · obtain ⟨rfl, rfl⟩ := cons.inj heq
      exact .inr (.inl ⟨singleton_sublist.mp h₁, singleton_sublist.mp h₂⟩)
    · obtain ⟨rfl, rfl, hnil⟩ := (cons.inj heq).imp_right cons.inj
      obtain ⟨rfl, rfl⟩ := append_eq_nil_iff.mp hnil.symm
      exact .inl h₁
  · rintro (h | ⟨hx, hy⟩ | h)
    · exact h.trans (sublist_append_left a b)
    · exact (singleton_sublist.mpr hx).append (singleton_sublist.mpr hy)
    · exact h.trans (sublist_append_right a b)

/-- The items of `a` are in `b`, and what stands behind one with `p` in `a` stands behind it in
`b`. -/
structure KeepsBehind (p : α → Prop) (a b : List α) : Prop where
  subset : a ⊆ b
  pair : ∀ x y, p x → [x, y] <+ a → [x, y] <+ b

namespace KeepsBehind

variable {p : α → Prop} {a a' b b' c : List α}

theorem refl (a : List α) : KeepsBehind p a a := ⟨Subset.refl a, fun _ _ _ => id⟩

theorem trans (hab : KeepsBehind p a b) (hbc : KeepsBehind p b c) : KeepsBehind p a c :=
  ⟨Subset.trans hab.subset hbc.subset, fun x y hx h => hbc.pair x y hx (hab.pair x y hx h)⟩

theorem append (ha : KeepsBehind p a a') (hb : KeepsBehind p b b') :
    KeepsBehind p (a ++ b) (a' ++ b') where
  subset := append_subset.mpr ⟨subset_append_of_subset_left b' ha.subset,
    subset_append_of_subset_right a' hb.subset⟩
  pair x y hx h := by
    rw [pair_sublist_append] at h ⊢
    exact h.imp (ha.pair x y hx) (.imp (fun h => ⟨ha.subset h.1, hb.subset h.2⟩) (hb.pair x y hx))

end KeepsBehind

end ShieldTv.Lib
