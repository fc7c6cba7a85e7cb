import Mathlib

/-!
# Computations with recorded reads

A computation over memory that can fail, together with the addresses it reads,
and the rules that bound the reads and the value of a program at once.
-/

namespace ShieldTv.Lib

open Option

/-- The outcome of a computation that reads cells named by `ρ`. -/
structure Tracked (ρ α : Type) where
  result : Option α
  reads : List ρ

namespace Tracked

variable {ρ α β : Type} {m : Tracked ρ α} {f : α → Tracked ρ β} {c : Prop} {x : α}

protected def pure (x : α) : Tracked ρ α := ⟨some x, []⟩

/-- What was read stays read when a later step fails. -/
protected def bind (m : Tracked ρ α) (f : α → Tracked ρ β) : Tracked ρ β :=
  match m.result with
  | none => ⟨none, m.reads⟩
  | some x => ⟨(f x).result, m.reads ++ (f x).reads⟩

instance : Monad (Tracked ρ) where
  pure := Tracked.pure
  bind := Tracked.bind

def fail : Tracked ρ α := ⟨none, []⟩

def load (a : ρ) (x : α) : Tracked ρ α := ⟨some x, [a]⟩

/-! ## Values -/

@[simp] theorem result_pure (x : α) : (pure x : Tracked ρ α).result = some x := rfl

@[simp] theorem result_fail : (fail : Tracked ρ α).result = none := rfl

@[simp] theorem result_load (a : ρ) (x : α) : (load a x).result = some x := rfl

@[simp] theorem result_bind (m : Tracked ρ α) (f : α → Tracked ρ β) :
    (m >>= f).result = m.result.bind fun x => (f x).result := by
  change (Tracked.bind m f).result = _
  unfold Tracked.bind
  cases m.result <;> rfl

theorem result_bind_eq_some {y : β} :
    (m >>= f).result = some y ↔ ∃ x, m.result = some x ∧ (f x).result = some y := by
  rw [result_bind, bind_eq_some_iff]

theorem result_guard_eq_some [Decidable c] :
    (if c then fail else m).result = some x ↔ ¬c ∧ m.result = some x := by
  by_cases hc : c <;> simp [hc]

/-! ## Reads and values together -/

/-- All reads satisfy `P`, and a returned value satisfies `Q`. -/
structure Spec (P : ρ → Prop) (Q : α → Prop) (m : Tracked ρ α) : Prop where
  reads : ∀ a ∈ m.reads, P a
  value : ∀ x, m.result = some x → Q x

variable {P : ρ → Prop} {Q : α → Prop} {R : β → Prop}

theorem spec_pure (hx : Q x) : Spec P Q (pure x : Tracked ρ α) where
  reads := nofun
  value := fun _ hy => some.inj hy ▸ hx

theorem spec_fail : Spec P Q (fail : Tracked ρ α) where
  reads := nofun
  value := nofun

theorem spec_load {a : ρ} (ha : P a) (hx : Q x) : Spec P Q (load a x) where
  reads := fun _ hb => List.mem_singleton.mp hb ▸ ha
  value := fun _ hy => some.inj hy ▸ hx

theorem spec_bind (hm : Spec P Q m) (hf : ∀ x, Q x → Spec P R (f x)) : Spec P R (m >>= f) := by
  change Spec P R (Tracked.bind m f)
  unfold Tracked.bind
  cases hx : m.result with
  | none => exact ⟨hm.reads, nofun⟩
  | some x =>
    have hfx := hf x (hm.value x hx)
    refine ⟨fun a ha => ?_, hfx.value⟩
    rcases List.mem_append.mp ha with ha | ha
    · exact hm.reads a ha
    · exact hfx.reads a ha

theorem spec_ite [Decidable c] {m' : Tracked ρ α} (hm : c → Spec P Q m) (hm' : ¬c → Spec P Q m') :
    Spec P Q (if c then m else m') := by
  split
  · exact hm ‹c›
  · exact hm' ‹¬c›

theorem spec_unless [Decidable c] (hm : ¬c → Spec P Q m) :
    Spec P Q (if c then fail else m) := spec_ite (fun _ => spec_fail) hm

end Tracked

end ShieldTv.Lib
