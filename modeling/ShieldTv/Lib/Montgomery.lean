import Mathlib

/-!
# Montgomery multiplication

Arithmetic of products `a * b / R` modulo an odd `n`, with a word radix `W`. Operands
need not be reduced: only `< R` is kept.
-/

namespace ShieldTv.Lib.Montgomery

variable {W R n : Nat}

/-! ## One word -/

/-- A quotient step stays below `R + n`, so one subtraction brings it below `R`. -/
theorem quotient_lt {a b c d V : Nat} (hc : c < R) (ha : a < W) (hb : b < R) (hd : d < W)
    (hV : W * V = c + a * b + d * n) : V < R + n := by
  have hab : a * b ≤ (W - 1) * (R - 1) := Nat.mul_le_mul (by omega) (by omega)
  have hdn : d * n ≤ (W - 1) * n := Nat.mul_le_mul_right n (by omega)
  obtain ⟨w, rfl⟩ : ∃ w, W = w + 1 := ⟨W - 1, by omega⟩
  obtain ⟨r, rfl⟩ : ∃ r, R = r + 1 := ⟨R - 1, by omega⟩
  simp only [Nat.add_sub_cancel] at hab hdn
  apply Nat.lt_of_mul_lt_mul_left (a := w + 1)
  calc (w + 1) * V = c + a * b + d * n := hV
    _ ≤ r + w * r + w * n := by omega
    _ < (w + 1) * (r + 1 + n) := by ring_nf; omega

theorem quotient_modEq {a b c d V : Nat} (hV : W * V = c + a * b + d * n) :
    V * W ≡ c + a * b [MOD n] := by
  rw [mul_comm, hV, Nat.ModEq, Nat.add_mul_mod_self_right]

theorem product_succ {a b c c' x k : Nat} (hc : c * W ^ k ≡ x * b [MOD n])
    (hc' : c' * W ≡ c + a * b [MOD n]) : c' * W ^ (k + 1) ≡ (x + W ^ k * a) * b [MOD n] := by
  calc c' * W ^ (k + 1) = c' * W * W ^ k := by ring
    _ ≡ (c + a * b) * W ^ k [MOD n] := hc'.mul_right _
    _ = c * W ^ k + W ^ k * a * b := by ring
    _ ≡ x * b + W ^ k * a * b [MOD n] := hc.add_right _
    _ = (x + W ^ k * a) * b := by ring

/-! ## Montgomery form -/

def Represents (R n x y : Nat) : Prop := x ≡ y * R [MOD n]

variable (hR : Nat.Coprime n R)
include hR

theorem represents_of_modEq {x y : Nat} (h : x * R ≡ y * (R * R) [MOD n]) : Represents R n x y := by
  apply Nat.ModEq.cancel_right_of_coprime hR
  rwa [Nat.mul_assoc]

theorem represents_mul {x y z a b : Nat} (hx : Represents R n x a) (hy : Represents R n y b)
    (hz : z * R ≡ x * y [MOD n]) : Represents R n z (a * b) := by
  apply Nat.ModEq.cancel_right_of_coprime hR
  calc z * R ≡ x * y [MOD n] := hz
    _ ≡ a * R * (b * R) [MOD n] := hx.mul hy
    _ = a * b * R * R := by ring

theorem modEq_of_represents {x z a b : Nat} (hx : Represents R n x a)
    (hz : z * R ≡ x * b [MOD n]) : z ≡ a * b [MOD n] := by
  apply Nat.ModEq.cancel_right_of_coprime hR
  calc z * R ≡ x * b [MOD n] := hz
    _ ≡ a * R * b [MOD n] := hx.mul_right b
    _ = a * b * R := by ring

end ShieldTv.Lib.Montgomery
