import Mathlib

/-!
# Computations that can fail

A computation in `Except` or `Option` that succeeds is taken apart into its
steps, and a fold keeps what each of its steps keeps.
-/

namespace ShieldTv.Lib.Fallible

variable {ε α β : Type} {x : Except ε α}

theorem bind_eq_ok {f : α → Except ε β} {b : β} :
    (x >>= f) = .ok b ↔ ∃ a, x = .ok a ∧ f a = .ok b := by
  cases x with
  | error e => exact ⟨nofun, fun ⟨_, ha, _⟩ => by cases ha⟩
  | ok a => exact ⟨fun h => ⟨a, rfl, h⟩, fun ⟨_, ha, hf⟩ => by cases ha; exact hf⟩

theorem map_eq_ok {f : α → β} {b : β} : x.map f = .ok b ↔ ∃ a, x = .ok a ∧ f a = b := by
  cases x with
  | error e => exact ⟨nofun, fun ⟨_, ha, _⟩ => by cases ha⟩
  | ok a => exact ⟨fun h => ⟨a, rfl, Except.ok.inj h⟩,
    fun ⟨_, ha, hf⟩ => by cases ha; rw [← hf]; rfl⟩

section

variable {f : β → α → Option β} {s s' : β} {xs : List α}

theorem foldlM_cons_eq_some {x : α} :
    (x :: xs).foldlM f s = some s' ↔ ∃ s₁, f s x = some s₁ ∧ xs.foldlM f s₁ = some s' := by
  rw [List.foldlM_cons, Option.bind_eq_bind, Option.bind_eq_some_iff]

@[elab_as_elim]
theorem foldlM_invariant {P : β → Prop} (h : xs.foldlM f s = some s') (hs : P s)
    (hf : ∀ x ∈ xs, ∀ s s', f s x = some s' → P s → P s') : P s' := by
  induction xs generalizing s with
  | nil => exact Option.some.inj h ▸ hs
  | cons x xs ih =>
    obtain ⟨s₁, hone, hrest⟩ := foldlM_cons_eq_some.mp h
    obtain ⟨hx, hf⟩ := List.forall_mem_cons.mp hf
    exact ih hrest (hx s s₁ hone hs) hf

end

end ShieldTv.Lib.Fallible
