import Mathlib

/-!
# Little-endian numbers and parts of byte strings
-/

abbrev ShieldTv.Bytes := List UInt8

namespace ShieldTv.Lib.Bytes

open List

/-- The `k` low bytes of a number, least significant first. -/
def leBytes : Nat → Nat → Bytes
  | 0, _ => []
  | k + 1, v => UInt8.ofNat v :: leBytes k (v / 256)

/-- The number that little-endian bytes stand for. -/
def leValue : Bytes → Nat
  | [] => 0
  | b :: bytes => b.toNat + 256 * leValue bytes

@[simp] theorem length_leBytes (k v : Nat) : (leBytes k v).length = k := by
  induction k generalizing v with
  | zero => rfl
  | succ k ih => rw [leBytes, length_cons, ih]

theorem leValue_leBytes (k v : Nat) : leValue (leBytes k v) = v % 256 ^ k := by
  induction k generalizing v with
  | zero => rw [leBytes, leValue, pow_zero, Nat.mod_one]
  | succ k ih =>
    have hbyte : (UInt8.ofNat v).toNat = v % 256 := UInt8.toNat_ofNat'
    rw [leBytes, leValue, ih, hbyte, pow_succ', Nat.mod_mul]

theorem leValue_leBytes_of_lt {k v : Nat} (h : v < 256 ^ k) : leValue (leBytes k v) = v := by
  rw [leValue_leBytes, Nat.mod_eq_of_lt h]

/-! ## Parts -/

def slice (bytes : Bytes) (offset len : Nat) : Bytes := (bytes.drop offset).take len

theorem length_slice {bytes : Bytes} {offset len : Nat} (h : offset + len ≤ bytes.length) :
    (slice bytes offset len).length = len := by
  rw [slice, length_take, length_drop]
  omega

theorem slice_append (before part after : Bytes) :
    slice (before ++ (part ++ after)) before.length part.length = part := by
  rw [slice, drop_left, take_left]

theorem slice_part {part : Bytes} {k : Nat} (h : part.length = k) (rest : Bytes) :
    slice (part ++ rest) 0 k = part := by
  rw [slice, drop_zero, take_left' h]

theorem slice_skip_part {part : Bytes} {k offset : Nat} (hpart : part.length = k)
    (rest : Bytes) (len : Nat) (h : k ≤ offset) :
    slice (part ++ rest) offset len = slice rest (offset - k) len := by
  rw [slice, slice, drop_append, drop_of_length_le (by rw [hpart]; exact h), hpart, nil_append]

/-! A record of little-endian fields is read field by field. -/

theorem slice_field (k v : Nat) (rest : Bytes) :
    slice (leBytes k v ++ rest) 0 k = leBytes k v :=
  slice_part (length_leBytes k v) rest

theorem slice_last_field (k v : Nat) : slice (leBytes k v) 0 k = leBytes k v := by
  rw [← append_nil (leBytes k v), slice_field, append_nil]

theorem slice_skip_field {k offset : Nat} (v : Nat) (rest : Bytes) (len : Nat)
    (h : k ≤ offset) : slice (leBytes k v ++ rest) offset len = slice rest (offset - k) len :=
  slice_skip_part (length_leBytes k v) rest len h

end ShieldTv.Lib.Bytes
