import ShieldTv.Ui.Region

/-!
# What is taken off a rectangle, and what comes back from the wire

`Rect::reduce` keeps every pixel that it has to keep, but a rectangle that lies beside the other
one at a distance grows towards it.  `Region::unflatten` trusts the number of rectangles that the
bytes announce.
-/

namespace ShieldTv.Ui

open Lib.Bytes List

namespace Rect

/-! ## `Rect::reduce` -/

/-- The pixels of a rectangle. -/
def Contains (r : Rect) (x y : Int) : Prop :=
  (r.left.toInt ≤ x ∧ x < r.right.toInt) ∧ r.top.toInt ≤ y ∧ y < r.bottom.toInt

instance (r : Rect) (x y : Int) : Decidable (r.Contains x y) := inferInstanceAs (Decidable (_ ∧ _))

/-- `exclude` has all rows of `r` and lies to the left or to the right of it, at a distance. -/
def Beside (r exclude : Rect) : Prop :=
  r.top < r.bottom ∧ exclude.top ≤ r.top ∧ r.bottom ≤ exclude.bottom ∧
    (r.left < exclude.left ∧ r.right < exclude.left ∧ r.right ≤ exclude.right ∨
      exclude.right < r.left ∧ exclude.right < r.right ∧ exclude.left ≤ r.left)

def transpose (r : Rect) : Rect := ⟨r.top, r.left, r.bottom, r.right⟩

/-- `result` lies in `r`. -/
def Within (result r : Rect) : Prop := ∀ x y, result.Contains x y → r.Contains x y

/-- `result` has every pixel of `r` that is not in `exclude`. -/
def Keeps (r exclude result : Rect) : Prop :=
  ∀ x y, r.Contains x y → ¬exclude.Contains x y → result.Contains x y

/-- It is enough to look at two opposite corners. -/
theorem within_iff_corners (r result : Rect) :
    result.Within r ↔
      (result.left < result.right → result.top < result.bottom →
        (r.left ≤ result.left ∧ result.right ≤ r.right) ∧
          r.top ≤ result.top ∧ result.bottom ≤ r.bottom) := by
  simp only [Within, Contains, Int32.lt_iff_toInt_lt, Int32.le_iff_toInt_le]
  constructor
  · intro h hwidth hheight
    have hlow := h result.left.toInt result.top.toInt
    have hhigh := h (result.right.toInt - 1) (result.bottom.toInt - 1)
    omega
  · intro h x y hmem
    omega

/-- `reduce` always keeps what is not in `exclude`.  The side of `exclude` that becomes one of `r`
may lie outside of `r`, and then the result reaches beyond it. -/
theorem reduce_subtracts_iff (r exclude : Rect) :
    Keeps r exclude (r.reduce exclude) ∧
      ((r.reduce exclude).Within r ↔
        ¬Beside r exclude ∧ ¬Beside r.transpose exclude.transpose) := by
  -- which sides of `r` show beside `exclude`
  by_cases hl : exclude.left > r.left <;> by_cases ht : exclude.top > r.top <;>
    by_cases hr : exclude.right < r.right <;> by_cases hb : exclude.bottom < r.bottom
  all_goals
    simp [reduce, hl, ht, hr, hb]
    rw [within_iff_corners]
    refine ⟨fun x y => ?_, ?_⟩
    all_goals
      simp only [Contains, Beside, transpose, Int32.lt_iff_toInt_lt, Int32.le_iff_toInt_le] at *
      omega

theorem reduce_grows : isValid ⟨0, 0, 5, 5⟩ ∧ isValid ⟨10, 0, 20, 5⟩ ∧
    ¬(reduce ⟨0, 0, 5, 5⟩ ⟨10, 0, 20, 5⟩).Within ⟨0, 0, 5, 5⟩ := by
  refine ⟨by decide, by decide, fun h => ?_⟩
  exact absurd (h 7 2 (by decide)) (by decide)

theorem ofBytes_toBytes (r : Rect) (rest : Bytes) : ofBytes (r.toBytes ++ rest) = r := by
  have hvalue (x : Int32) : (UInt32.ofNat (leValue (leBytes 4 x.toUInt32.toNat))).toInt32 = x := by
    rw [leValue_leBytes_of_lt (by exact x.toUInt32.toNat_lt), UInt32.ofNat_toNat,
      Int32.toInt32_toUInt32]
  simp [ofBytes, int32At, toBytes, slice_skip_field, slice_field, hvalue]

@[simp] theorem length_toBytes (r : Rect) : r.toBytes.length = sizeofRect := by
  simp [toBytes, sizeofRect]

end Rect

namespace Region

open Rect

variable (w : Nat) {buffer : Bytes} {reg : Region}

/-! ## Any bytes -/

theorem validate_eq_none : reg.validate = none ↔ reg.mStorage = [] := by
  obtain ⟨_ | ⟨first, rest⟩⟩ := reg
  · simp [validate]
  · simp [validate, getBounds]

theorem unflattenRects_eq_none {n : Nat} :
    unflattenRects n buffer = none ↔ buffer.length < n * sizeofRect := by
  induction n generalizing buffer with
  | zero => simp [unflattenRects]
  | succ n ih =>
    rw [unflattenRects]
    split_ifs with hlen
    · simp only [Nat.succ_mul, true_iff]
      omega
    · rw [Option.map_eq_none_iff, ih, length_drop, Nat.succ_mul]
      omega

theorem length_unflattenRects {n : Nat} {storage : List Rect}
    (h : unflattenRects n buffer = some storage) : storage.length = n := by
  induction n generalizing buffer storage with
  | zero =>
    cases h
    rfl
  | succ n ih =>
    rw [unflattenRects] at h
    split_ifs at h
    obtain ⟨rest, hrest, rfl⟩ := Option.map_eq_some_iff.mp h
    rw [length_cons, ih hrest]

/-- An error leaves the region as it is, and anything else has been validated. -/
def Unflattens (reg : Region) (buffer : Bytes) : Prop :=
  ∃ status reg', unflatten w reg buffer = some (status, reg') ∧
    (status ≠ .noError → reg' = reg) ∧ (status = .noError → reg'.validate = some true)

/-- The number of rectangles is not zero, and the test of the size does not wrap past it. -/
def Counted (buffer : Bytes) : Prop :=
  4 ≤ buffer.length → numRects buffer ≠ 0 ∧
    (buffer.length - 4 < numRects buffer * sizeofRect →
      buffer.length - 4 < numRects buffer * sizeofRect % 2 ^ w)

theorem unflattens_iff (reg : Region) (buffer : Bytes) :
    Unflattens w reg buffer ↔ Counted w buffer := by
  rw [Unflattens, unflatten]
  split_ifs with hshort hsize
  · exact iff_of_true ⟨_, _, rfl, fun _ => rfl, nofun⟩ fun h => absurd h (by omega)
  · refine iff_of_true ⟨_, _, rfl, fun _ => rfl, nofun⟩ fun _ => ⟨fun hzero => ?_, fun _ => hsize⟩
    simp [hzero] at hsize
  · cases hrects : unflattenRects (numRects buffer) (buffer.drop 4) with
    | none =>
      have hless := unflattenRects_eq_none.mp hrects
      rw [length_drop] at hless
      exact iff_of_false (by simp) fun h => hsize ((h (by omega)).2 hless)
    | some storage =>
      have hlength := length_unflattenRects hrects
      have hread : ¬ (buffer.drop 4).length < numRects buffer * sizeofRect :=
        fun hless => by simp [unflattenRects_eq_none.mpr hless] at hrects
      rw [length_drop] at hread
      cases hvalid : validate ⟨storage⟩ with
      | none =>
        have hnil : storage = [] := validate_eq_none.mp hvalid
        refine iff_of_false (by simp [hvalid]) fun h => (h (by omega)).1 ?_
        rw [← hlength, hnil, length_nil]
      | some result =>
        have hne : storage ≠ [] := by
          rintro rfl
          simp [validate] at hvalid
        refine iff_of_true ?_ fun _ => ⟨?_, fun hless => absurd hless hread⟩
        · cases result with
          | false => exact ⟨.badValue, reg, by simp [hvalid], fun _ => rfl, nofun⟩
          | true => exact ⟨.noError, ⟨storage⟩, by simp [hvalid], absurd rfl, fun _ => hvalid⟩
        · rw [← hlength]
          exact fun hzero => hne (length_eq_zero_iff.mp hzero)

/-! ## There and back -/

theorem flattenRects_eq {rects : List Rect} (h : rects.length * sizeofRect ≤ buffer.length) :
    flattenRects rects buffer =
      (.noError, rects.flatMap toBytes ++ buffer.drop (rects.length * sizeofRect)) := by
  induction rects generalizing buffer with
  | nil => simp [flattenRects]
  | cons rect rects ih =>
    rw [length_cons, Nat.succ_mul] at h
    rw [flattenRects, if_neg (by omega), ih (by rw [length_drop]; omega)]
    simp [Nat.succ_mul, Nat.add_comm]

theorem unflattenRects_flatMap (rects : List Rect) (rest : Bytes) :
    unflattenRects rects.length (rects.flatMap toBytes ++ rest) = some rects := by
  induction rects with
  | nil => rfl
  | cons rect rects ih =>
    rw [flatMap_cons, append_assoc, length_cons, unflattenRects, if_neg (by simp),
      ofBytes_toBytes, drop_left' (length_toBytes rect), ih, Option.map_some]

theorem flatten_eq (h : 4 + reg.mStorage.length * sizeofRect ≤ buffer.length) :
    flatten w reg buffer = some (.noError, leBytes 4 reg.mStorage.length ++
      (reg.mStorage.flatMap toBytes ++ buffer.drop (4 + reg.mStorage.length * sizeofRect))) := by
  have hsize := Nat.mod_le (4 + reg.mStorage.length * sizeofRect) (2 ^ w)
  rw [flatten, getFlattenedSize, if_neg (by omega), if_neg (by omega),
    flattenRects_eq (by rw [length_drop]; omega)]
  simp

theorem numRects_leBytes (n : Nat) (rest : Bytes) :
    numRects (leBytes 4 n ++ rest) = n % 2 ^ 32 := by
  rw [numRects, slice_field, leValue_leBytes]
  rfl

theorem length_of_unflatten {reg' : Region} (h : unflatten w reg buffer = some (.noError, reg')) :
    reg'.mStorage.length = numRects buffer := by
  rw [unflatten] at h
  split_ifs at h
  · cases h
  · cases h
  · obtain ⟨storage, hrects, h⟩ := Option.bind_eq_some_iff.mp h
    obtain ⟨result, -, h⟩ := Option.bind_eq_some_iff.mp h
    split_ifs at h
    · cases h
      exact length_unflattenRects hrects
    · cases h

theorem unflatten_flattened (hvalid : reg.validate = some true)
    (hcount : reg.mStorage.length < 2 ^ 32) (old : Region) (rest : Bytes) :
    unflatten w old (leBytes 4 reg.mStorage.length ++ (reg.mStorage.flatMap toBytes ++ rest)) =
      some (.noError, reg) := by
  have hnum : numRects (leBytes 4 reg.mStorage.length ++ (reg.mStorage.flatMap toBytes ++ rest)) =
      reg.mStorage.length := by
    rw [numRects_leBytes, Nat.mod_eq_of_lt hcount]
  have hlength : (reg.mStorage.flatMap toBytes).length = reg.mStorage.length * sizeofRect := by
    simp [length_flatMap]
  have hsize := Nat.mod_le (reg.mStorage.length * sizeofRect) (2 ^ w)
  rw [unflatten, hnum, if_neg (by simp), if_neg (by simp [hlength]; omega),
    drop_left' (length_leBytes _ _), unflattenRects_flatMap]
  simp [hvalid]

/-- Any bytes are unflattened safely as long as they announce a rectangle and the announced size
does not wrap, and a valid region comes back as long as its size fits the announcement. -/
theorem unflatten_total :
    (∀ reg buffer, Unflattens w reg buffer ↔ Counted w buffer) ∧
    ∀ (reg old : Region) (buffer : Bytes), reg.validate = some true →
      4 + reg.mStorage.length * sizeofRect ≤ buffer.length →
      ((∃ flat, flatten w reg buffer = some (.noError, flat) ∧
        unflatten w old flat = some (.noError, reg)) ↔ reg.mStorage.length < 2 ^ 32) := by
  refine ⟨unflattens_iff w, fun reg old buffer hvalid hroom => ?_⟩
  rw [flatten_eq w hroom]
  constructor
  · rintro ⟨flat, ⟨⟩, hback⟩
    have hlength := length_of_unflatten w hback
    rw [numRects_leBytes] at hlength
    omega
  · intro hcount
    exact ⟨_, rfl, unflatten_flattened w hvalid hcount old _⟩

/-- Two squares side by side and their bounds. -/
def twoSquares : Region := ⟨[⟨0, 0, 1, 1⟩, ⟨2, 0, 3, 1⟩, ⟨0, 0, 3, 1⟩]⟩

theorem unflatten_total_twoSquares :
    Unflattens 64 ⟨[⟨0, 0, 0, 0⟩]⟩ (leBytes 4 3 ++ twoSquares.mStorage.flatMap toBytes) ∧
      ∃ flat, flatten 64 twoSquares (replicate 60 0) = some (.noError, flat) ∧
        unflatten 64 ⟨[⟨0, 0, 0, 0⟩]⟩ flat = some (.noError, twoSquares) :=
  ⟨((unflatten_total 64).1 _ _).mpr fun _ => by decide,
    ((unflatten_total 64).2 _ _ _ (by decide) (by decide)).mpr (by decide)⟩

/-- Four zero bytes announce no rectangle, and the storage without one is read. -/
theorem unflatten_empty_storage : ¬ Unflattens 64 ⟨[⟨0, 0, 0, 0⟩]⟩ (leBytes 4 0) := by
  rw [unflattens_iff]
  exact fun h => (h (by decide)).1 (by decide)

end Region

end ShieldTv.Ui
