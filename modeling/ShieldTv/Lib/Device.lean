import ShieldTv.Lib.Trace

/-!
# Programs over a device

A program reads the store of a device and changes it by effects, one at a time, and it may fail.
Its specification says what holds whenever it is stopped between two effects, and what holds when it
has succeeded.
-/

namespace ShieldTv.Lib.Device

open Lib.Trace

/-- A store and what one effect does to it. -/
class Effects (σ ε : Type) where
  apply : σ → ε → σ

/-- The effects that a program performs from a store on, and its result unless it fails. -/
def Prog (σ ε α : Type) : Type := σ → List ε × Option α

variable {σ ε α β : Type} [Effects σ ε]

namespace Prog

def fail : Prog σ ε α := fun _ => ([], none)

def store : Prog σ ε σ := fun s => ([], some s)

def emit (e : ε) : Prog σ ε Unit := fun _ => ([e], some ())

instance : Monad (Prog σ ε) where
  pure a := fun _ => ([], some a)
  bind m f := fun s =>
    match m s with
    | (es, none) => (es, none)
    | (es, some a) =>
      let next := f a (run Effects.apply s es)
      (es ++ next.1, next.2)

def forEach : List α → (α → Prog σ ε Unit) → Prog σ ε Unit
  | [], _ => pure ()
  | x :: xs, f => do
    f x
    forEach xs f

end Prog

/-! ## Specifications -/

/-- From `s` on the program succeeds. `I` holds of every store on the way, and `Q` of the result and
the last store. -/
def Spec (I : σ → Prop) (m : Prog σ ε α) (s : σ) (Q : α → σ → Prop) : Prop :=
  ∃ es a, m s = (es, some a) ∧ Always Effects.apply I s es ∧ Q a (run Effects.apply s es)

variable {Q : α → σ → Prop} {m : Prog σ ε α} {R : β → σ → Prop}

section Rules

variable {I : σ → Prop} {s : σ} {f : α → Prog σ ε β}

theorem Spec.pure {a : α} (hI : I s) (hQ : Q a s) : Spec I (Pure.pure a : Prog σ ε α) s Q :=
  ⟨[], a, rfl, always_nil.mpr hI, hQ⟩

theorem Spec.store {Q : σ → σ → Prop} (hI : I s) (hQ : Q s s) :
    Spec I (Prog.store : Prog σ ε σ) s Q :=
  ⟨[], s, rfl, always_nil.mpr hI, hQ⟩

theorem Spec.emit {e : ε} {Q : Unit → σ → Prop} (hI : I s) (hI' : I (Effects.apply s e))
    (hQ : Q () (Effects.apply s e)) : Spec I (Prog.emit e) s Q :=
  ⟨[e], (), rfl, always_cons.mpr ⟨hI, always_nil.mpr hI'⟩, hQ⟩

theorem Spec.emit_eq {e : ε} {s' : σ} {Q : Unit → σ → Prop} (he : Effects.apply s e = s') (hI : I s)
    (hI' : I s') (hQ : Q () s') : Spec I (Prog.emit e) s Q := by
  subst he
  exact Spec.emit hI hI' hQ

theorem Spec.bind {m : Prog σ ε α} {Q : α → σ → Prop} {R : β → σ → Prop} (hm : Spec I m s Q)
    (hf : ∀ a s', Q a s' → Spec I (f a) s' R) : Spec I (m >>= f) s R := by
  obtain ⟨es, a, hrun, halways, hQ⟩ := hm
  obtain ⟨es', b, hrun', halways', hR⟩ := hf a _ hQ
  refine ⟨es ++ es', b, ?_, always_append.mpr ⟨halways, halways'⟩, ?_⟩
  · change (match m s with
      | (es, none) => (es, none)
      | (es, some a) =>
        (es ++ (f a (run Effects.apply s es)).1, (f a (run Effects.apply s es)).2)) = _
    rw [hrun]
    simp only [hrun']
  · rw [run_append]
    exact hR

theorem Spec.store_bind {f : σ → Prog σ ε β} (hI : I s) (hf : Spec I (f s) s R) :
    Spec I (Prog.store >>= f) s R := by
  refine Spec.bind (Q := fun a s' => a = s ∧ s' = s) (Spec.store hI ⟨rfl, rfl⟩) ?_
  rintro a s' ⟨ha, hs'⟩
  rw [ha, hs']
  exact hf

/-- One program after another, when it is known where the first one ends. -/
theorem Spec.seq (t : σ) (hm : Spec I m s fun _ s' => s' = t) (hf : ∀ a, Spec I (f a) t R) :
    Spec I (m >>= f) s R := by
  refine Spec.bind hm ?_
  rintro a _ rfl
  exact hf a

theorem Spec.mono {R : α → σ → Prop} (hm : Spec I m s Q) (hQR : ∀ a s', Q a s' → R a s') :
    Spec I m s R := by
  obtain ⟨es, a, hrun, halways, hQ⟩ := hm
  exact ⟨es, a, hrun, halways, hQR a _ hQ⟩

theorem Spec.weaken (hm : Spec I m s Q) {K : σ → Prop} (hIK : ∀ s', I s' → K s') :
    Spec K m s Q := by
  obtain ⟨es, a, hrun, halways, hQ⟩ := hm
  exact ⟨es, a, hrun, halways.mono hIK, hQ⟩

section

variable {f : α → Prog σ ε Unit} {J : List α → σ → Prop} {xs : List α}
  (hI : ∀ ys s', J ys s' → I s')
  (hf : ∀ ys, ∀ x ∈ xs, ∀ s', J ys s' → Spec I (f x) s' fun _ s'' => J (x :: ys) s'')
include hI hf

/-- A loop keeps an invariant that lists the elements it has done, the last one first. -/
theorem Spec.forEach_from (ys : List α) (h : J ys s) :
    Spec I (Prog.forEach xs f) s fun _ s' => J (xs.reverse ++ ys) s' := by
  induction xs generalizing ys s with
  | nil => exact Spec.pure (hI ys s h) h
  | cons x xs ih =>
    refine Spec.bind (hf ys x List.mem_cons_self s h) fun _ s' hs' => ?_
    refine Spec.mono (ih (fun ys y hy => hf ys y (List.mem_cons_of_mem _ hy)) (x :: ys) hs') ?_
    intro _ s'' hs''
    rwa [List.reverse_cons, List.append_assoc]

theorem Spec.forEach (h : J [] s) : Spec I (Prog.forEach xs f) s fun _ s' => J xs.reverse s' := by
  refine Spec.mono (Spec.forEach_from hI hf [] h) fun _ s' hs' => ?_
  rwa [List.append_nil] at hs'

end

/-- A loop whose turns leave the store as it is. -/
theorem Spec.forEach_same {f : α → Prog σ ε Unit} {xs : List α} (hI : I s)
    (hf : ∀ x ∈ xs, Spec I (f x) s fun _ s' => s' = s) :
    Spec I (Prog.forEach xs f) s fun _ s' => s' = s := by
  refine Spec.mono (Spec.forEach (J := fun _ s' => s' = s) ?_ ?_ rfl) fun _ _ h => h
  · rintro _ _ rfl
    exact hI
  · rintro _ x hx _ rfl
    exact hf x hx

end Rules

end ShieldTv.Lib.Device
