import Mathlib

/-!
# Effects and the states between them

A computation that changes a store is described by the list of effects it
performs, in order.  Stopping it after any number of them leaves one of the
states that `Always` ranges over.
-/

namespace ShieldTv.Lib.Trace

variable {σ ε : Type*} (apply : σ → ε → σ)

def run (s : σ) (effects : List ε) : σ := effects.foldl apply s

/-- `P` holds before the first effect, between any two and after the last. -/
def Always (P : σ → Prop) (s : σ) (effects : List ε) : Prop :=
  ∀ k, P (run apply s (effects.take k))

variable {apply} {P Q : σ → Prop} {s : σ} {es : List ε}

@[simp] theorem run_nil : run apply s [] = s := rfl

@[simp] theorem run_cons (e : ε) (es : List ε) :
    run apply s (e :: es) = run apply (apply s e) es := rfl

@[simp] theorem run_append (es fs : List ε) :
    run apply s (es ++ fs) = run apply (run apply s es) fs := List.foldl_append

@[simp] theorem always_nil : Always apply P s [] ↔ P s := by
  simp [Always]

theorem always_cons {e : ε} : Always apply P s (e :: es) ↔ P s ∧ Always apply P (apply s e) es := by
  constructor
  · intro h
    exact ⟨h 0, fun k => h (k + 1)⟩
  · rintro ⟨h₀, h⟩ k
    cases k with
    | zero => exact h₀
    | succ k => exact h k

theorem always_append {fs : List ε} : Always apply P s (es ++ fs) ↔
      Always apply P s es ∧ Always apply P (run apply s es) fs := by
  induction es generalizing s with
  | nil =>
    simp only [List.nil_append, run_nil, always_nil]
    exact ⟨fun h => ⟨h 0, h⟩, And.right⟩
  | cons e es ih => rw [List.cons_append, always_cons, ih, always_cons, run_cons, and_assoc]

theorem Always.final (h : Always apply P s es) : P (run apply s es) := by
  have hlast := h es.length
  rwa [List.take_length] at hlast

theorem Always.mono (h : Always apply P s es) (hPQ : ∀ s, P s → Q s) : Always apply Q s es :=
  fun k => hPQ _ (h k)

end ShieldTv.Lib.Trace
