import ShieldTv.Releasetools.RangeLib

/-!
# `RangeSet` is an exact set algebra

The argument goes through the parity reading of an endpoint list.  One sweep
lemma says which points the kept positions enclose, one lemma says that
removing pairs changes neither the points nor the order, and each operation is
then the sweep at its own threshold.
-/

namespace ShieldTv.Releasetools.RangeLib.RangeSet

open Lib.Endpoints List
open Option hiding mem_map

/-! ## Removing pairs -/

theorem removePairs_oddAt (last : Option Int) (source : List Int) (x : Int) :
    OddAt (removePairs last source) x ↔ OddAt (last.toList ++ source) x := by
  induction source generalizing last with
  | nil => simp [removePairs]
  | cons i source ih =>
    rw [removePairs]
    split_ifs with hlast
    · subst hlast
      rw [ih]
      simp only [toList_none, toList_some, nil_append, singleton_append]
      rcases le_or_gt i x with h | h
      · rw [oddAt_cons_of_le h, oddAt_cons_of_le h, not_not]
      · rw [oddAt_cons_of_lt h, oddAt_cons_of_lt h]
    · rw [oddAt_append, ih, oddAt_append last.toList, toList_some, singleton_append]

theorem mem_of_mem_removePairs {last : Option Int} {source : List Int} {x : Int}
    (h : x ∈ removePairs last source) : x ∈ last.toList ++ source := by
  induction source generalizing last with
  | nil => simpa [removePairs] using h
  | cons i source ih =>
    rw [removePairs] at h
    split_ifs at h with hlast
    · have := ih h
      simp at this
      simp [this]
    · rcases mem_append.mp h with h | h
      · simp [h]
      · have := ih h
        exact mem_append_right _ this

theorem removePairs_sorted {last : Option Int} {source : List Int}
    (h : (last.toList ++ source).Pairwise (· ≤ ·)) :
    (removePairs last source).Pairwise (· < ·) := by
  induction source generalizing last with
  | nil => cases last <;> simp [removePairs]
  | cons i source ih =>
    have htail : (i :: source).Pairwise (· ≤ ·) := (pairwise_append.mp h).2.1
    rw [removePairs]
    split_ifs with hlast
    · exact ih (by simpa using (pairwise_cons.mp htail).2)
    · cases last with
      | none => simpa using @ih (some i) (by simpa using htail)
      | some l =>
        have hl : ∀ a ∈ i :: source, l ≤ a := by
          simpa using (pairwise_cons.mp h).1
        have hne : l ≠ i := fun he => hlast (by rw [he])
        refine pairwise_cons.mpr ⟨fun a ha => ?_, ih (by simpa using htail)⟩
        have ha' : a ∈ i :: source := by simpa using mem_of_mem_removePairs ha
        have hli : l < i := lt_of_le_of_ne (hl i (by simp)) hne
        rcases mem_cons.mp ha' with rfl | ha'
        · exact hli
        · exact hli.trans_le ((pairwise_cons.mp htail).1 a ha')

variable {data : List Int} {lo hi z a : Int} {r s : RangeSet}

theorem ofData_oddAt (data : List Int) (x : Int) : OddAt (ofData data).data x ↔ OddAt data x := by
  simpa [ofData] using removePairs_oddAt none data x

theorem ofData_canonical (hsorted : data.Pairwise (· ≤ ·)) (heven : data.length % 2 = 0) :
    (ofData data).Canonical where
  even := by
    obtain ⟨x, hx⟩ := data.toFinset.exists_le
    simp only [List.mem_toFinset] at hx
    have hle : ∀ p ∈ (ofData data).data, p ≤ x := fun p hp =>
      hx p (by simpa using mem_of_mem_removePairs hp)
    rwa [← not_oddAt_iff_even hle, ofData_oddAt, not_oddAt_iff_even hx]
  sorted := removePairs_sorted (by simpa using hsorted)

/-! ## Signed endpoints -/

section

variable {b : Int} {e : Int × Int} (h : e ∈ zipCycle a b data)
include h

theorem fst_mem_of_mem_zipCycle : e.1 ∈ data := by
  induction data generalizing a b with
  | nil => simp [zipCycle] at h
  | cons p data ih =>
    rcases mem_cons.mp h with rfl | h
    · simp
    · exact mem_cons_of_mem _ (ih h)

theorem snd_of_mem_zipCycle : e.2 = a ∨ e.2 = b := by
  induction data generalizing a b with
  | nil => simp [zipCycle] at h
  | cons p data ih =>
    rcases mem_cons.mp h with rfl | h
    · exact .inl rfl
    · exact (ih h).symm

end

theorem zipCycle_pairwise (h : data.Pairwise (· < ·)) (a b : Int) :
    (zipCycle a b data).Pairwise (fun e f => lexLe e f = true) := by
  induction data generalizing a b with
  | nil => simp [zipCycle]
  | cons p data ih =>
    have hp := pairwise_cons.mp h
    refine pairwise_cons.mpr ⟨fun e he => ?_, ih hp.2 b a⟩
    rw [lexLe_iff]
    exact .inl (hp.1 e.1 (fst_mem_of_mem_zipCycle he))

/-- The signed endpoints of a sorted tuple have height `a` inside and `0`
outside. -/
theorem zipCycle_height (h : data.Pairwise (· < ·)) (a x : Int) :
    height (zipCycle a (-a) data) x = if OddAt data x then a else 0 := by
  induction data generalizing a with
  | nil => simp [zipCycle]
  | cons p data ih =>
    have hp := pairwise_cons.mp h
    have hrest := ih hp.2 (-a)
    rw [neg_neg] at hrest
    rw [zipCycle]
    rcases le_or_gt p x with hle | hlt
    · rw [height_cons_of_le hle, hrest]
      simp only [oddAt_cons_of_le hle]
      split_ifs <;> simp_all
    · rw [height_cons_of_lt hlt, hrest]
      simp only [oddAt_cons_of_lt hlt]
      rw [if_neg, if_neg] <;> exact not_oddAt_of_lt fun e he => hlt.trans (hp.1 e he)

/-! ## The sweep -/

/-- A kept position changes whether the running sum has reached `hi`; a
dropped one does not. -/
theorem kept_iff {d : Int} (hhi : hi = lo + 1) (hd : d = 1 ∨ d = -1) :
    (z = lo ∧ d = 1) ∨ (z = hi ∧ d = -1) ↔ ¬(hi ≤ z ↔ hi ≤ z + d) := by
  rcases hd with rfl | rfl <;> omega

theorem not_not_iff_of_flip {p q r : Prop} (h : ¬(p ↔ q)) : ¬¬(q ↔ r) ↔ ¬(p ↔ r) := by
  by_cases hp : p <;> by_cases hq : q <;> simp_all

theorem sweep_subset {events : List (Int × Int)} :
    (sweep lo hi z events).Sublist (events.map Prod.fst) := by
  induction events generalizing z with
  | nil => simp [sweep]
  | cons e events ih =>
    obtain ⟨p, d⟩ := e
    simp only [sweep, map_cons]
    split_ifs
    · exact ih.cons_cons p
    · exact ih.cons p

/-- The points enclosed by the kept positions are those where the height,
added to the start value, lies on the other side of `hi`. -/
theorem sweep_oddAt (hhi : hi = lo + 1) {events : List (Int × Int)}
    (hsorted : events.Pairwise (fun e f => lexLe e f = true))
    (hsign : ∀ e ∈ events, e.2 = 1 ∨ e.2 = -1) (z x : Int) :
    OddAt (sweep lo hi z events) x ↔ ¬(hi ≤ z ↔ hi ≤ z + height events x) := by
  induction events generalizing z with
  | nil => simp [sweep]
  | cons e events ih =>
    obtain ⟨p, d⟩ := e
    have hp := pairwise_cons.mp hsorted
    have hrest := ih hp.2 (fun e he => hsign e (by simp [he])) (z + d)
    have hkept := kept_iff (z := z) hhi (hsign (p, d) (by simp))
    rw [sweep]
    rcases le_or_gt p x with hle | hlt
    · rw [height_cons_of_le hle, ← add_assoc]
      split_ifs with hk
      · rw [oddAt_cons_of_le hle, hrest]
        exact not_not_iff_of_flip (hkept.mp hk)
      · rw [hrest, not_not.mp (mt hkept.mpr hk)]
    · have hfar : ∀ e ∈ events, x < e.1 := fun e he =>
        hlt.trans_le (fst_le_of_lexLe (hp.1 e he))
      have hfar' : ∀ y ∈ sweep lo hi (z + d) events, x < y := by
        intro y hy
        obtain ⟨e, he, rfl⟩ := mem_map.mp (sweep_subset.subset hy)
        exact hfar e he
      rw [height_cons_of_lt hlt, height_of_lt hfar]
      have hnot : ¬OddAt (sweep lo hi (z + d) events) x := not_oddAt_of_lt hfar'
      split_ifs
      · rw [oddAt_cons_of_lt hlt]
        simp [hnot]
      · simp [hnot]

theorem sweep_sorted {events : List (Int × Int)}
    (hsorted : events.Pairwise (fun e f => lexLe e f = true)) :
    (sweep lo hi z events).Pairwise (· ≤ ·) := by
  refine Pairwise.sublist sweep_subset ?_
  rw [pairwise_map]
  exact hsorted.imp fun h => fst_le_of_lexLe h

/-! ## Points of a range set -/

theorem even_cons_cons {s e : Int} {rest : List Int} :
    (s :: e :: rest).length % 2 = 0 ↔ rest.length % 2 = 0 := by
  simp only [length_cons]
  omega

@[elab_as_elim]
theorem evenInduction {motive : (data : List Int) → data.length % 2 = 0 → Prop}
    (nil : motive [] rfl)
    (cons : ∀ s e rest (hrest : rest.length % 2 = 0), motive rest hrest →
      motive (s :: e :: rest) (even_cons_cons.mpr hrest))
    (data : List Int) (heven : data.length % 2 = 0) : motive data heven := by
  induction data using pairs.induct with
  | case1 s e rest ih => exact cons s e rest (even_cons_cons.mp heven) (ih _)
  | case2 data hne =>
    cases data with
    | nil => exact nil
    | cons s rest =>
      cases rest with
      | nil => simp at heven
      | cons e rest => exact absurd rfl (hne s e rest)

theorem exists_pairs_iff_oddAt (heven : data.length % 2 = 0) (hsorted : data.Pairwise (· ≤ ·))
    (x : Int) : (∃ range ∈ pairs data, range.1 ≤ x ∧ x < range.2) ↔ OddAt data x := by
  induction data, heven using evenInduction with
  | nil => simp [pairs]
  | cons s e rest _ ih =>
    obtain ⟨hs, hrest⟩ := pairwise_cons.mp hsorted
    obtain ⟨he, hrest⟩ := pairwise_cons.mp hrest
    have hse : s ≤ e := hs e (by simp)
    simp only [pairs, mem_cons, exists_eq_or_imp, ih hrest]
    rcases lt_or_ge x e with hxe | hxe
    · have hnot : ¬OddAt rest x := not_oddAt_of_lt fun p hp => hxe.trans_le (he p hp)
      rcases lt_or_ge x s with hxs | hxs
      · rw [oddAt_cons_of_lt hxs, oddAt_cons_of_lt hxe]
        exact or_iff_right fun h => absurd h.1 (not_le.mpr hxs)
      · rw [oddAt_cons_of_le hxs, oddAt_cons_of_lt hxe]
        exact ⟨fun _ => hnot, fun _ => .inl ⟨hxs, hxe⟩⟩
    · rw [oddAt_cons_of_le (hse.trans hxe), oddAt_cons_of_le hxe, not_not]
      exact or_iff_right fun h => absurd h.2 (not_lt.mpr hxe)

theorem mem_toSet (hr : r.Canonical) (x : Int) : x ∈ r.toSet ↔ OddAt r.data x :=
  exists_pairs_iff_oddAt hr.even (hr.sorted.imp fun h => h.le) x

theorem data_eq_iff (hr : r.Canonical) (hs : s.Canonical) :
    r.data = s.data ↔ r.toSet = s.toSet := by
  constructor
  · intro h
    simp only [toSet, ranges, h]
  · intro h
    refine eq_of_oddAt hr.sorted hs.sorted fun x => ?_
    rw [← mem_toSet hr, ← mem_toSet hs, h]

theorem eq_iff (hr : r.Canonical) (hs : s.Canonical) : r.eq s = true ↔ r.toSet = s.toSet := by
  rw [eq, decide_eq_true_eq, data_eq_iff hr hs]

/-! ## The operations -/

/-- The merged signed endpoints of two sets, the second with sign `a`. -/
def events (a : Int) (r s : RangeSet) : List (Int × Int) :=
  merge lexLe (zipCycle 1 (-1) r.data) (zipCycle a (-a) s.data)

section Operations

variable (hr : r.Canonical) (hs : s.Canonical)

include hr hs

theorem events_pairwise (a : Int) : (events a r s).Pairwise (fun e f => lexLe e f = true) :=
  merge_pairwise (zipCycle_pairwise hr.sorted _ _) (zipCycle_pairwise hs.sorted _ _)

omit hr hs in
theorem events_sign (ha : a = 1 ∨ a = -1) : ∀ e ∈ events a r s, e.2 = 1 ∨ e.2 = -1 := by
  intro e he
  rcases mem_append.mp ((merge_perm _ _ _).mem_iff.mp he) with he | he
  · exact snd_of_mem_zipCycle he
  · rcases snd_of_mem_zipCycle he with h | h <;> rcases ha with rfl | rfl <;> simp [h]

theorem events_height (a x : Int) : height (events a r s) x =
      (if OddAt r.data x then 1 else 0) + (if OddAt s.data x then a else 0) := by
  rw [events, height_merge, zipCycle_height hr.sorted, zipCycle_height hs.sorted]

omit hr hs in
theorem fst_mem_of_mem_events {e : Int × Int} (he : e ∈ events a r s) : e.1 ∈ r.data ++ s.data := by
  rcases mem_append.mp ((merge_perm _ _ _).mem_iff.mp he) with he | he
  · exact mem_append_left _ (fst_mem_of_mem_zipCycle he)
  · exact mem_append_right _ (fst_mem_of_mem_zipCycle he)

/-- Every sweep over the events of two canonical sets gives the canonical set
of the points whose height reaches `hi`. -/
theorem sweep_events_spec (hhi : hi = lo + 1) (hpos : 0 < hi) (ha : a = 1 ∨ a = -1) :
    (ofData (sweep lo hi 0 (events a r s))).Canonical ∧
      ∀ x, OddAt (ofData (sweep lo hi 0 (events a r s))).data x ↔
        hi ≤ (if OddAt r.data x then 1 else 0) + (if OddAt s.data x then a else 0) := by
  have hsorted := events_pairwise hr hs a
  have hsign := events_sign (r := r) (s := s) ha
  have hnot : ¬hi ≤ 0 := not_le.mpr hpos
  have hodd (x : Int) : OddAt (sweep lo hi 0 (events a r s)) x ↔
      hi ≤ (if OddAt r.data x then 1 else 0) + (if OddAt s.data x then a else 0) := by
    rw [sweep_oddAt hhi hsorted hsign, zero_add, events_height hr hs]
    simp [hnot]
  refine ⟨ofData_canonical (sweep_sorted hsorted) ?_, fun x => (ofData_oddAt _ x).trans (hodd x)⟩
  -- behind all endpoints the height is zero
  obtain ⟨x, hx⟩ := (r.data ++ s.data).toFinset.exists_le
  simp only [List.mem_toFinset, forall_mem_append] at hx
  rw [← not_oddAt_iff_even, hodd, if_neg ((not_oddAt_iff_even hx.1).mpr hr.even),
    if_neg ((not_oddAt_iff_even hx.2).mpr hs.even)]
  · exact hnot
  · intro p hp
    obtain ⟨e, he, rfl⟩ := mem_map.mp (sweep_subset.subset hp)
    exact forall_mem_append.mpr hx _ (fst_mem_of_mem_events he)

theorem union_canonical : (r.union s).Canonical :=
  (sweep_events_spec hr hs (a := 1) (by norm_num) (by norm_num) (.inl rfl)).1

theorem toSet_union : (r.union s).toSet = r.toSet ∪ s.toSet := by
  ext x
  rw [mem_toSet (union_canonical hr hs), Set.mem_union, mem_toSet hr, mem_toSet hs]
  rw [show (r.union s) = ofData (sweep 0 1 0 (events 1 r s)) from rfl,
    (sweep_events_spec hr hs (by norm_num) (by norm_num) (.inl rfl)).2]
  split_ifs <;> simp_all

theorem intersect_canonical : (r.intersect s).Canonical :=
  (sweep_events_spec hr hs (a := 1) (by norm_num) (by norm_num) (.inl rfl)).1

theorem toSet_intersect : (r.intersect s).toSet = r.toSet ∩ s.toSet := by
  ext x
  rw [mem_toSet (intersect_canonical hr hs), Set.mem_inter_iff, mem_toSet hr, mem_toSet hs]
  rw [show (r.intersect s) = ofData (sweep 1 2 0 (events 1 r s)) from rfl,
    (sweep_events_spec hr hs (by norm_num) (by norm_num) (.inl rfl)).2]
  split_ifs <;> simp_all

theorem subtract_canonical : (r.subtract s).Canonical :=
  (sweep_events_spec hr hs (a := -1) (by norm_num) (by norm_num) (.inr rfl)).1

theorem toSet_subtract : (r.subtract s).toSet = r.toSet \ s.toSet := by
  ext x
  rw [mem_toSet (subtract_canonical hr hs), Set.mem_sdiff, mem_toSet hr, mem_toSet hs]
  rw [show (r.subtract s) = ofData (sweep 0 1 0 (events (-1) r s)) from rfl,
    (sweep_events_spec hr hs (by norm_num) (by norm_num) (.inr rfl)).2]
  split_ifs <;> simp_all

end Operations

/-! ## `overlaps` -/

/-- At the position of a `+1` event all later events of the same position are
`+1` too, because ends sort before starts. -/
theorem height_nonneg_of_tie {p : Int} {events : List (Int × Int)}
    (h : ∀ e ∈ events, lexLe (p, 1) e = true) : 0 ≤ height events p := by
  induction events with
  | nil => simp
  | cons e events ih =>
    obtain ⟨q, d⟩ := e
    have hrest := ih fun e he => h e (by simp [he])
    have hhead := (lexLe_iff _ _).mp (h (q, d) (by simp))
    rcases le_or_gt q p with hle | hlt
    · rw [height_cons_of_le hle]
      rcases hhead with hlt | ⟨-, hd⟩
      · exact absurd hle (not_le.mpr hlt)
      · omega
    · rwa [height_cons_of_lt hlt]

theorem overlapsLoop_iff {events : List (Int × Int)}
    (hsorted : events.Pairwise (fun e f => lexLe e f = true))
    (hsign : ∀ e ∈ events, e.2 = 1 ∨ e.2 = -1) (hz : z ≤ 1) :
    overlapsLoop z events = true ↔ ∃ x, 2 ≤ z + height events x := by
  induction events generalizing z with
  | nil =>
    simp only [overlapsLoop, height_nil, Bool.false_eq_true, false_iff, not_exists]
    omega
  | cons e events ih =>
    obtain ⟨p, d⟩ := e
    have hp := pairwise_cons.mp hsorted
    have hd := hsign (p, d) (by simp)
    rw [overlapsLoop]
    split_ifs with hkept
    · -- the first step up to two happens at `p`
      obtain ⟨rfl, rfl⟩ | ⟨rfl, -⟩ := hkept
      · have hnonneg := height_nonneg_of_tie hp.1
        refine iff_of_true rfl ⟨p, ?_⟩
        rw [height_cons_of_le le_rfl]
        omega
      · omega
    · have hz' : z + d ≤ 1 := by omega
      rw [ih hp.2 (fun e he => hsign e (by simp [he])) hz']
      refine exists_congr fun x => ?_
      rcases le_or_gt p x with hle | hlt
      · rw [height_cons_of_le hle, add_assoc]
      · rw [height_cons_of_lt hlt,
          height_of_lt fun e he => hlt.trans_le (fst_le_of_lexLe (hp.1 e he))]
        omega

theorem overlaps_iff (hr : r.Canonical) (hs : s.Canonical) :
    r.overlaps s = true ↔ (r.toSet ∩ s.toSet).Nonempty := by
  rw [show r.overlaps s = overlapsLoop 0 (events 1 r s) from rfl,
    overlapsLoop_iff (events_pairwise hr hs 1) (events_sign (.inl rfl)) (by norm_num)]
  refine exists_congr fun x => ?_
  rw [events_height hr hs, Set.mem_inter_iff, mem_toSet hr, mem_toSet hs]
  split_ifs <;> simp_all

/-! ## The blocks of a set and their number -/

theorem mem_blocks (r : RangeSet) (x : Int) : x ∈ r.blocks ↔ x ∈ r.toSet := by
  simp only [blocks, mem_flatMap, mem_map, mem_range, toSet, Set.mem_ofPred_eq]
  refine exists_congr fun range => and_congr_right fun _ => ?_
  constructor
  · rintro ⟨i, hi, rfl⟩
    omega
  · rintro ⟨hlo, hhi⟩
    exact ⟨(x - range.1).toNat, by omega, by omega⟩

theorem rangeBlocks_sorted (s : Int) (n : Nat) :
    ((List.range n).map fun i : Nat => s + (i : Int)).Pairwise (· < ·) := by
  rw [pairwise_map]
  exact pairwise_lt_range.imp fun h => by omega

theorem pairs_bounds (hlo : ∀ p ∈ data, lo < p) {range : Int × Int} (h : range ∈ pairs data) :
    lo < range.1 := by
  induction data using pairs.induct with
  | case1 s e rest ih =>
    rcases mem_cons.mp h with rfl | h
    · exact hlo s (by simp)
    · exact ih (fun p hp => hlo p (by simp [hp])) h
  | case2 data hne => simp [pairs] at h

theorem blocks_sorted (hr : r.Canonical) : r.blocks.Pairwise (· < ·) := by
  obtain ⟨data, monotonic⟩ := r
  have hsorted := hr.sorted
  simp only [blocks, ranges] at hsorted ⊢
  clear hr
  induction data using pairs.induct with
  | case1 s e rest ih =>
    obtain ⟨hs, hrest⟩ := pairwise_cons.mp hsorted
    obtain ⟨he, hrest⟩ := pairwise_cons.mp hrest
    refine pairwise_append.mpr ⟨rangeBlocks_sorted _ _, ih hrest, ?_⟩
    intro x hx y hy
    obtain ⟨i, hi, rfl⟩ := mem_map.mp hx
    obtain ⟨range, hrange, hy⟩ := mem_flatMap.mp hy
    obtain ⟨j, -, rfl⟩ := mem_map.mp hy
    have hlt := pairs_bounds he hrange
    have hi' := mem_range.mp hi
    omega
  | case2 data hne => simp [pairs]

theorem sizeLoop_add (odd : Bool) (total : Int) (data : List Int) :
    sizeLoop odd total data = total + sizeLoop odd 0 data := by
  induction data generalizing odd total with
  | nil => simp [sizeLoop]
  | cons p data ih =>
    rw [sizeLoop, sizeLoop, ih, ih (!odd) (if odd then 0 + p else 0 - p)]
    split_ifs <;> ring

theorem size_eq_length_blocks (hr : r.Canonical) : r.size = r.blocks.length := by
  obtain ⟨data, monotonic⟩ := r
  obtain ⟨heven, hsorted⟩ := hr
  simp only [size, blocks, ranges] at heven hsorted ⊢
  induction data, heven using evenInduction with
  | nil => rfl
  | cons s e rest _ ih =>
    obtain ⟨hs, hrest⟩ := pairwise_cons.mp hsorted
    have hse : s < e := hs e (by simp)
    have ih := ih (pairwise_cons.mp hrest).2
    simp only [sizeLoop, pairs, flatMap_cons, length_append, length_map,
      length_range, Bool.not_false, Bool.not_true, if_true, Bool.false_eq_true, if_false]
    rw [sizeLoop_add, ih]
    omega

theorem size_eq_ncard (hr : r.Canonical) : r.size = r.toSet.ncard := by
  have hset : r.toSet = ↑(r.blocks.toFinset) := by
    ext x
    simp [mem_blocks]
  have hnodup : r.blocks.Nodup := (blocks_sorted hr).imp fun h => h.ne
  rw [size_eq_length_blocks hr, hset, Set.ncard_coe_finset, toFinset_card_of_nodup hnodup]

/-! ## The algebra as a whole -/

/-- **`RangeSet` is an exact, canonical set algebra.**  On canonical arguments
every operation returns the canonical tuple of the set it is named after, the
two queries answer about the sets, and `==` is set equality. -/
theorem rangeSet_exact_algebra (r s : RangeSet) (hr : r.Canonical) (hs : s.Canonical) :
    ((r.union s).Canonical ∧ (r.union s).toSet = r.toSet ∪ s.toSet) ∧
    ((r.intersect s).Canonical ∧ (r.intersect s).toSet = r.toSet ∩ s.toSet) ∧
    ((r.subtract s).Canonical ∧ (r.subtract s).toSet = r.toSet \ s.toSet) ∧
    (r.overlaps s = true ↔ (r.toSet ∩ s.toSet).Nonempty) ∧
    r.size = r.toSet.ncard ∧
    (r.eq s = true ↔ r.toSet = s.toSet) :=
  ⟨⟨union_canonical hr hs, toSet_union hr hs⟩,
    ⟨intersect_canonical hr hs, toSet_intersect hr hs⟩,
    ⟨subtract_canonical hr hs, toSet_subtract hr hs⟩,
    overlaps_iff hr hs, size_eq_ncard hr, eq_iff hr hs⟩

/-- Touching, nested and equal ranges in one pair of arguments. -/
theorem rangeSet_exact_algebra_touching :
    (RangeSet.union ⟨[10, 20, 30, 35], false⟩ ⟨[18, 30], false⟩).toSet =
      (RangeSet.toSet ⟨[10, 20, 30, 35], false⟩) ∪ (RangeSet.toSet ⟨[18, 30], false⟩) :=
  (rangeSet_exact_algebra ⟨[10, 20, 30, 35], false⟩ ⟨[18, 30], false⟩
    ⟨by decide, by decide⟩ ⟨by decide, by decide⟩).1.2

example : (RangeSet.union ⟨[10, 20, 30, 35], false⟩ ⟨[18, 30], false⟩).data = [10, 35] := by
  decide

example : (RangeSet.subtract ⟨[10, 20, 30, 35], false⟩ ⟨[18, 33], false⟩).data =
    [10, 18, 33, 35] := by
  decide

end ShieldTv.Releasetools.RangeLib.RangeSet
