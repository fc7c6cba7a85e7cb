import ShieldTv.Releasetools.Proofs.RangeAlgebra

/-!
# `map_within` is the rank map

A block of a range set is renumbered by the number of blocks of the set below
it.  For a subset, `map_within` returns the canonical set of the ranks, in which
touching pieces are merged; block by block it lists the ranks of the subset's
blocks in order.
-/

namespace ShieldTv.Releasetools.RangeLib.RangeSet

open Lib.Endpoints
open List hiding Disjoint

/-- The place of a block among the blocks of `r`. -/
def rank (r : RangeSet) (b : Int) : Nat := r.blocks.countP (· < b)

/-! ## The rank map -/

variable {p b a : Int} {data xs : List Int} {range : Int × Int}

theorem countP_range (c p : Int) (n : Nat) :
    ((List.range n).map fun i : Nat => c + (i : Int)).countP (· < p) = min n (p - c).toNat := by
  induction n with
  | zero => simp
  | succ n ih =>
    rw [range_succ, map_append, countP_append, ih, map_singleton, countP_singleton]
    split_ifs with hlt
    · have hlt := of_decide_eq_true hlt
      omega
    · simp only [decide_eq_true_eq] at hlt
      omega

theorem rank_cons (c e : Int) (rest : List Int) (monotonic : Bool) (p : Int) :
    rank ⟨c :: e :: rest, monotonic⟩ p =
      min (e - c).toNat (p - c).toNat + rank ⟨rest, monotonic⟩ p := by
  rw [rank, blocks, ranges, pairs, flatMap_cons, countP_append, countP_range]
  rfl

theorem rank_of_le (heven : data.length % 2 = 0) (monotonic : Bool) (h : ∀ q ∈ data, p ≤ q) :
    rank ⟨data, monotonic⟩ p = 0 := by
  induction data, heven using evenInduction with
  | nil => rfl
  | cons s e rest _ ih =>
    have hs := h s (by simp)
    rw [rank_cons, ih fun q hq => h q (by simp [hq])]
    omega

theorem countP_lt_getElem (h : xs.Pairwise (· < ·)) {i : Nat} (hi : i < xs.length) :
    xs.countP (· < xs[i]) = i := by
  have hsplit : xs.take i ++ xs[i] :: xs.drop (i + 1) = xs := by
    rw [getElem_cons_drop, take_append_drop]
  rw [← hsplit, pairwise_append, pairwise_cons] at h
  obtain ⟨-, ⟨hafter, -⟩, hbefore⟩ := h
  have hlow : (xs.take i).countP (· < xs[i]) = (xs.take i).length :=
    countP_eq_length.mpr fun a ha => decide_eq_true (hbefore a ha _ mem_cons_self)
  have hhigh : (xs[i] :: xs.drop (i + 1)).countP (· < xs[i]) = 0 := by
    refine countP_eq_zero.mpr (forall_mem_cons.mpr ⟨by simp, fun a ha => ?_⟩)
    simpa using (hafter a ha).le
  calc xs.countP (· < xs[i])
      = (xs.take i ++ xs[i] :: xs.drop (i + 1)).countP (· < xs[i]) := by rw [hsplit]
    _ = i := by rw [countP_append, hlow, hhigh, add_zero, length_take_of_le hi.le]

theorem rank_mono (r : RangeSet) (h : a ≤ b) : r.rank a ≤ r.rank b := by
  refine countP_mono_left fun x _ hx => ?_
  exact decide_eq_true ((of_decide_eq_true hx).trans_le h)

/-- A block counts for everything behind it. -/
theorem rank_lt_rank {r : RangeSet} (ha : a ∈ r.toSet) (h : a < b) : r.rank a < r.rank b := by
  refine lt_of_le_of_ne (rank_mono r h.le) fun heq => ?_
  have hsub : (r.blocks.filter (· < a)).Sublist (r.blocks.filter (· < b)) :=
    monotone_filter_right _ fun x hx => decide_eq_true ((of_decide_eq_true hx).trans h)
  have hmem : a ∈ r.blocks.filter (· < b) :=
    mem_filter.mpr ⟨(mem_blocks r a).mpr ha, decide_eq_true h⟩
  rw [rank, rank, countP_eq_length_filter, countP_eq_length_filter] at heq
  rw [← hsub.eq_of_length heq, mem_filter] at hmem
  exact lt_irrefl a (of_decide_eq_true hmem.2)

theorem rank_injective {r : RangeSet} (ha : a ∈ r.toSet) (hb : b ∈ r.toSet)
    (h : r.rank a = r.rank b) : a = b := by
  rcases lt_trichotomy a b with hlt | heq | hlt
  · exact absurd h (rank_lt_rank ha hlt).ne
  · exact heq
  · exact absurd h (rank_lt_rank hb hlt).ne'

section

variable {r : RangeSet} (hr : r.Canonical)
include hr

theorem rank_getElem {i : Nat} (hi : i < r.blocks.length) : r.rank r.blocks[i] = i :=
  countP_lt_getElem (blocks_sorted hr) hi

theorem rank_lt (hb : b ∈ r.toSet) : r.rank b < r.blocks.length := by
  obtain ⟨i, hi, rfl⟩ := getElem_of_mem ((mem_blocks r b).mpr hb)
  rwa [rank_getElem hr hi]

end

/-! ## The loop -/

theorem zipCycle_append (a b : Int) (heven : xs.length % 2 = 0) (ys : List Int) :
    zipCycle a b (xs ++ ys) = zipCycle a b xs ++ zipCycle a b ys := by
  induction xs, heven using evenInduction with
  | nil => rfl
  | cons s e rest _ ih => simp [zipCycle, ih]

/-- Inside a range that starts at `c`, the endpoints of the other set are
moved by a constant. -/
theorem mapWithinLoop_inside (offset c : Int) (xs : List Int) (rest : List (Int × Int))
    (ha : a = 1 ∨ a = -1) (hb : b = 1 ∨ b = -1) :
    mapWithinLoop offset (some c) (zipCycle a b xs ++ rest) =
      (mapWithinLoop offset (some c) rest).map (xs.map (fun p => offset + p - c) ++ ·) := by
  induction xs generalizing a b with
  | nil => simp [zipCycle]
  | cons p xs ih =>
    have h5 : a ≠ 5 := by omega
    have h5' : a ≠ -5 := by omega
    rw [zipCycle, cons_append, mapWithinLoop, if_neg h5']
    simp only [if_neg h5, ih hb ha, Option.map_map]
    rfl

/-- Endpoints that no range straddles fall into those up to `e` and those
after it. -/
theorem exists_split_at (heven : data.length % 2 = 0) (hsorted : data.Pairwise (· < ·)) {e : Int}
    (h : ∀ range ∈ pairs data, range.2 ≤ e ∨ e < range.1) :
    ∃ xs ys, data = xs ++ ys ∧ xs.length % 2 = 0 ∧ ys.length % 2 = 0 ∧
      (∀ p ∈ xs, p ≤ e) ∧ (∀ p ∈ ys, e < p) := by
  induction data, heven using evenInduction with
  | nil => exact ⟨[], [], rfl, rfl, rfl, by simp, by simp⟩
  | cons s t rest hrestEven ih =>
    obtain ⟨hs, hrest⟩ := pairwise_cons.mp hsorted
    obtain ⟨ht, hrest⟩ := pairwise_cons.mp hrest
    rcases h (s, t) (by simp [pairs]) with hle | hlt
    · obtain ⟨xs, ys, rfl, hxs, hys, hlow, hhigh⟩ := ih hrest fun range hrange =>
        h range (by simp [pairs, hrange])
      refine ⟨s :: t :: xs, ys, rfl, even_cons_cons.mpr hxs, hys, ?_, hhigh⟩
      intro p hp
      have hst : s < t := hs t (by simp)
      simp only [mem_cons] at hp
      rcases hp with rfl | rfl | hp
      · exact hst.le.trans hle
      · exact hle
      · exact hlow p hp
    · refine ⟨[], s :: t :: rest, rfl, rfl, even_cons_cons.mpr hrestEven, by simp, ?_⟩
      intro p hp
      rcases mem_cons.mp hp with rfl | hp
      · exact hlt
      · exact hlt.trans (hs p hp)

theorem mem_data_of_mem_pairs (h : range ∈ pairs data) : range.1 ∈ data ∧ range.2 ∈ data := by
  induction data using pairs.induct with
  | case1 s e rest ih =>
    rcases mem_cons.mp h with rfl | h
    · simp
    · have hrest := ih h
      simp [hrest]
  | case2 data hne => simp [pairs] at h

theorem exists_mem_pairs (heven : data.length % 2 = 0) (h : p ∈ data) :
    ∃ range ∈ pairs data, p = range.1 ∨ p = range.2 := by
  induction data, heven using evenInduction with
  | nil => simp at h
  | cons s e rest _ ih =>
    simp only [mem_cons] at h
    simp only [pairs, mem_cons, exists_eq_or_imp]
    rcases h with rfl | rfl | h
    · exact .inl (.inl rfl)
    · exact .inl (.inr rfl)
    · exact .inr (ih h)

theorem pairs_append (heven : xs.length % 2 = 0) (ys : List Int) :
    pairs (xs ++ ys) = pairs xs ++ pairs ys := by
  induction xs, heven using evenInduction with
  | nil => rfl
  | cons s e rest _ ih => simp [pairs, ih]

theorem pairs_lt (hsorted : data.Pairwise (· < ·)) (h : range ∈ pairs data) :
    range.1 < range.2 := by
  induction data using pairs.induct with
  | case1 s e rest ih =>
    obtain ⟨hs, hrest⟩ := pairwise_cons.mp hsorted
    rcases mem_cons.mp h with rfl | h
    · exact hs e (by simp)
    · exact ih (pairwise_cons.mp hrest).2 h
  | case2 data hne => simp [pairs] at h

/-- Every range of one list of endpoints lies in a range of another. -/
def Within (sub data : List Int) : Prop :=
  ∀ range ∈ pairs sub, ∃ outer ∈ pairs data, outer.1 ≤ range.1 ∧ range.2 ≤ outer.2

theorem eq_nil_of_within (heven : data.length % 2 = 0) (h : Within data []) : data = [] := by
  by_contra hne
  obtain ⟨p, hp⟩ := exists_mem_of_ne_nil data hne
  obtain ⟨range, hrange, -⟩ := exists_mem_pairs heven hp
  simpa [pairs] using h range hrange

section

variable {c e : Int} {rest ys : List Int}

/-- A subset falls into what lies in the first range and what lies in the later ones. -/
theorem Within.split (h : Within data (c :: e :: rest)) (hrest : ∀ q ∈ rest, e < q)
    (heven : data.length % 2 = 0) (hsorted : data.Pairwise (· < ·)) :
    ∃ xs ys, data = xs ++ ys ∧ xs.length % 2 = 0 ∧ ys.length % 2 = 0 ∧
      (∀ p ∈ xs, c ≤ p ∧ p ≤ e) ∧ (∀ p ∈ ys, e < p) ∧ Within ys rest := by
  have hcases : ∀ range ∈ pairs data, (c ≤ range.1 ∧ range.2 ≤ e) ∨
      (e < range.1 ∧ ∃ outer ∈ pairs rest, outer.1 ≤ range.1 ∧ range.2 ≤ outer.2) := by
    intro range hrange
    obtain ⟨outer, houter, hin⟩ := h range hrange
    rcases mem_cons.mp houter with rfl | houter
    · exact .inl hin
    · exact .inr ⟨(pairs_bounds hrest houter).trans_le hin.1, outer, houter, hin⟩
  obtain ⟨xs, ys, rfl, hxs, hys, hlow, hhigh⟩ := exists_split_at heven hsorted
    fun range hrange => (hcases range hrange).imp And.right And.left
  rw [pairs_append hxs] at hcases
  refine ⟨xs, ys, rfl, hxs, hys, fun p hp => ⟨?_, hlow p hp⟩, hhigh, fun range hrange => ?_⟩
  · obtain ⟨range, hrange, hrp⟩ := exists_mem_pairs hxs hp
    have hlt := pairs_lt (pairwise_append.mp hsorted).1 hrange
    have hle := hlow range.1 (mem_data_of_mem_pairs hrange).1
    rcases hcases range (mem_append_left _ hrange) with hin | hlater <;> omega
  · have hgt := hhigh range.2 (mem_data_of_mem_pairs hrange).2
    rcases hcases range (mem_append_right _ hrange) with hin | hlater
    · omega
    · exact hlater.2

/-- The events in order: `c`, the subset inside `[c, e)`, `e`, the rest. -/
theorem merge_range (hce : c < e) (heven : xs.length % 2 = 0)
    (hlow : ∀ p ∈ xs, c ≤ p ∧ p ≤ e) (hhigh : ∀ p ∈ ys, e < p) :
    merge lexLe (zipCycle (-5) 5 (c :: e :: rest)) (zipCycle (-1) 1 (xs ++ ys)) =
      (c, -5) :: (zipCycle (-1) 1 xs ++
        (e, 5) :: merge lexLe (zipCycle (-5) 5 rest) (zipCycle (-1) 1 ys)) := by
  have hsign : ∀ (zs : List Int), ∀ y ∈ zipCycle (-1) 1 zs, y.1 ∈ zs ∧ (y.2 = -1 ∨ y.2 = 1) :=
    fun zs y hy => ⟨fst_mem_of_mem_zipCycle hy, snd_of_mem_zipCycle hy⟩
  have hfirst : ∀ y ∈ zipCycle (-1) 1 (xs ++ ys), lexLe (c, -5) y = true := by
    intro y hy
    obtain ⟨hmem, hsgn⟩ := hsign _ y hy
    rw [lexLe_iff]
    simp only
    rcases mem_append.mp hmem with h | h
    · have := hlow y.1 h
      omega
    · have := hhigh y.1 h
      omega
  have hbefore : ∀ y ∈ zipCycle (-1) 1 xs, lexLe (e, 5) y = false := by
    intro y hy
    obtain ⟨hmem, hsgn⟩ := hsign _ y hy
    have := hlow y.1 hmem
    rw [← Bool.not_eq_true, lexLe_iff]
    omega
  have hafter : ∀ y ∈ zipCycle (-1) 1 ys, lexLe (e, 5) y = true := by
    intro y hy
    have := hhigh y.1 (hsign _ y hy).1
    rw [lexLe_iff]
    simp only
    omega
  have hstart := @merge_split _ lexLe (c, (-5 : Int)) (zipCycle 5 (-5) (e :: rest)) [] _
    (by simp) hfirst
  simp only [nil_append] at hstart
  rw [zipCycle, hstart, zipCycle_append (-1) 1 heven, zipCycle, merge_split hbefore hafter]

end

theorem mapWithinLoop_eq (heven : data.length % 2 = 0) (hsorted : data.Pairwise (· < ·))
    (monotonic : Bool) (offset : Int) {sub : List Int} (hsubEven : sub.length % 2 = 0)
    (hsubSorted : sub.Pairwise (· < ·)) (hsub : Within sub data) :
    mapWithinLoop offset none (merge lexLe (zipCycle (-5) 5 data) (zipCycle (-1) 1 sub)) =
      some (sub.map fun p => offset + rank ⟨data, monotonic⟩ p) := by
  induction data, heven using evenInduction generalizing offset sub with
  | nil =>
    rw [eq_nil_of_within hsubEven hsub]
    rfl
  | cons c e rest hrestEven ih =>
    obtain ⟨hc, hrest⟩ := pairwise_cons.mp hsorted
    obtain ⟨he, hrest⟩ := pairwise_cons.mp hrest
    have hce : c < e := hc e (by simp)
    obtain ⟨xs, ys, rfl, hxs, hys, hlow, hhigh, hlater⟩ := hsub.split he hsubEven hsubSorted
    have hloop := ih hrest (offset + (e - c)) hys (pairwise_append.mp hsubSorted).2.1 hlater
    rw [merge_range hce hxs hlow hhigh, mapWithinLoop, if_pos rfl,
      mapWithinLoop_inside offset c xs _ (.inr rfl) (.inl rfl), mapWithinLoop]
    simp only [hloop, if_true, Option.map_some, Option.some.injEq, map_append,
      show ¬((5 : Int) = -5) by decide, if_false]
    congr 1
    · apply map_congr_left
      intro p hp
      obtain ⟨hcp, hpe⟩ := hlow p hp
      rw [rank_cons, rank_of_le hrestEven monotonic fun q hq => hpe.trans (he q hq).le]
      omega
    · apply map_congr_left
      intro p hp
      have hep := hhigh p hp
      rw [rank_cons]
      omega

/-! ## The result -/

theorem pairs_map (f : Int → Int) (data : List Int) :
    pairs (data.map f) = (pairs data).map fun range => (f range.1, f range.2) := by
  induction data using pairs.induct with
  | case1 s e rest ih => simp [pairs, ih]
  | case2 data hne =>
    rcases data with _ | ⟨s, _ | ⟨e, rest⟩⟩
    · rfl
    · rfl
    · exact absurd rfl (hne s e rest)

section

variable {r s : RangeSet} (hr : r.Canonical) (hs : s.Canonical)

include hr

theorem pairs_pairwise : (pairs r.data).Pairwise fun a b => a.2 < b.1 := by
  obtain ⟨data, monotonic⟩ := r
  have hsorted := hr.sorted
  clear hr
  induction data using pairs.induct with
  | case1 s e rest ih =>
    obtain ⟨he, hrest⟩ := pairwise_cons.mp (pairwise_cons.mp hsorted).2
    exact pairwise_cons.mpr ⟨fun range hrange => pairs_bounds he hrange, ih hrest⟩
  | case2 data hne => simp [pairs]

theorem end_notMem {outer : Int × Int} (h : outer ∈ pairs r.data) : outer.2 ∉ r.toSet := by
  rintro ⟨range, hrange, hlo, hhi⟩
  have hsymm : Std.Symm fun a b : Int × Int => a.2 < b.1 ∨ b.2 < a.1 := ⟨fun _ _ h => h.symm⟩
  have hapart : (pairs r.data).Pairwise fun a b => a.2 < b.1 ∨ b.2 < a.1 :=
    (pairs_pairwise hr).imp Or.inl
  have hne : range ≠ outer := by
    rintro rfl
    exact lt_irrefl _ hhi
  have hlt := pairs_lt hr.sorted h
  rcases hapart.forall hrange h hne with hrel | hrel <;> omega

include hs

theorem exists_outer (hsub : s.toSet ⊆ r.toSet) : Within s.data r.data := by
  intro range hrange
  have hlt := pairs_lt hs.sorted hrange
  obtain ⟨outer, houter, hin⟩ := hsub ⟨range, hrange, le_rfl, hlt⟩
  refine ⟨outer, houter, hin.1, ?_⟩
  by_contra hgt
  exact end_notMem hr houter (hsub ⟨range, hrange, by omega, by omega⟩)

/-- **`map_within`** lists the ranks of the subset's blocks. -/
theorem mapWithin_spec (hsub : s.toSet ⊆ r.toSet) :
    ∃ m, r.mapWithin s = some m ∧ m.Canonical ∧
      m.blocks = s.blocks.map fun b => (r.rank b : Int) := by
  have hloop := mapWithinLoop_eq hr.even hr.sorted r.monotonic 0 hs.even hs.sorted
    (exists_outer hr hs hsub)
  simp only [zero_add] at hloop
  have heven : (s.data.map fun p => (r.rank p : Int)).length % 2 = 0 := by
    simpa using hs.even
  have hsorted : (s.data.map fun p => (r.rank p : Int)).Pairwise (· ≤ ·) := by
    rw [pairwise_map]
    exact hs.sorted.imp fun h => Int.ofNat_le.mpr (rank_mono r h.le)
  have hcanonical := ofData_canonical hsorted heven
  refine ⟨_, by unfold mapWithin; rw [hloop]; rfl, hcanonical, ?_⟩
  -- both lists are increasing; a rank lies in the result when its block is in the subset
  have hranks : (s.blocks.map fun b => (r.rank b : Int)).Pairwise (· < ·) := by
    rw [pairwise_map]
    refine Pairwise.imp_of_mem ?_ (blocks_sorted hs)
    intro a b ha hb hab
    exact Int.ofNat_lt.mpr (rank_lt_rank (hsub ((mem_blocks s a).mp ha)) hab)
  refine (blocks_sorted hcanonical).eq_of_mem_iff hranks fun x => ?_
  rw [mem_blocks, mem_toSet hcanonical, ofData_oddAt, ← exists_pairs_iff_oddAt heven hsorted,
    pairs_map]
  simp only [mem_map, exists_exists_and_eq_and, mem_blocks]
  constructor
  · rintro ⟨range, hrange, hlo, hhi⟩
    have hx : x.toNat < r.blocks.length := by
      have hle : r.rank range.2 ≤ r.blocks.length := countP_le_length
      omega
    have hrank := rank_getElem hr hx
    have hmem : r.blocks[x.toNat] ∈ r.toSet := (mem_blocks _ _).mp (getElem_mem hx)
    refine ⟨r.blocks[x.toNat], ⟨range, hrange, ?_, ?_⟩, by omega⟩
    · by_contra hlt
      have := rank_lt_rank hmem (not_le.mp hlt)
      omega
    · by_contra hge
      have := rank_mono r (not_lt.mp hge)
      omega
  · rintro ⟨b, ⟨range, hrange, hlo, hhi⟩, rfl⟩
    exact ⟨range, hrange, Int.ofNat_le.mpr (rank_mono r hlo),
      Int.ofNat_lt.mpr (rank_lt_rank (hsub ⟨range, hrange, hlo, hhi⟩) hhi)⟩

end

/-! ## Ranks as numbers of blocks -/

/-- The number of blocks of a set before a block. -/
noncomputable def before (r : RangeSet) (b : Int) : Int := {y ∈ r.toSet | y < b}.ncard

section

variable {r s m : RangeSet} {x : Int} (hr : r.Canonical)
include hr

theorem exists_rank_iff : (∃ b ∈ r.toSet, (r.rank b : Int) = x) ↔ x ∈ Set.Ico 0 r.size := by
  rw [size_eq_length_blocks hr, Set.mem_Ico]
  constructor
  · rintro ⟨b, hb, rfl⟩
    exact ⟨Int.natCast_nonneg _, by exact_mod_cast rank_lt hr hb⟩
  · rintro ⟨h₀, hlt⟩
    have hi : x.toNat < r.blocks.length := by omega
    refine ⟨r.blocks[x.toNat], (mem_blocks _ _).mp (getElem_mem hi), ?_⟩
    rw [rank_getElem hr hi]
    omega

theorem before_eq (b : Int) : r.before b = r.rank b := by
  have hset : {y ∈ r.toSet | y < b} = ↑(r.blocks.filter (· < b)).toFinset := by
    ext y
    simp [mem_blocks]
  have hnodup : (r.blocks.filter (· < b)).Nodup :=
    ((blocks_sorted hr).imp fun h => h.ne).filter _
  rw [before, hset, Set.ncard_coe_finset, toFinset_card_of_nodup hnodup, rank,
    countP_eq_length_filter]

theorem mem_mapWithin_iff (hs : s.Canonical) (hsub : s.toSet ⊆ r.toSet)
    (hm : r.mapWithin s = some m) : x ∈ m.toSet ↔ ∃ b ∈ s.toSet, (r.rank b : Int) = x := by
  obtain ⟨m', hm', -, hblocks⟩ := mapWithin_spec hr hs hsub
  obtain rfl := Option.some.inj (hm.symm.trans hm')
  rw [← mem_blocks, hblocks, mem_map]
  simp only [mem_blocks]

section

variable {parts maps : List RangeSet} (hmaps : parts.map r.mapWithin = maps.map some)
  (hparts : ∀ p ∈ parts, p.Canonical ∧ p.toSet ⊆ r.toSet)
include hmaps

omit hr in
theorem mem_maps_iff : m ∈ maps ↔ ∃ p ∈ parts, r.mapWithin p = some m := by
  rw [← mem_map_of_injective (Option.some_injective _), ← hmaps, mem_map]

include hparts

theorem mapWithin_canonical : ∀ m ∈ maps, m.Canonical := by
  intro m hm
  obtain ⟨p, hp, hm⟩ := (mem_maps_iff hmaps).mp hm
  obtain ⟨m', hm', hcanonical, -⟩ := mapWithin_spec hr (hparts p hp).1 (hparts p hp).2
  obtain rfl := Option.some.inj (hm.symm.trans hm')
  exact hcanonical

theorem mapWithin_disjoint (hdisjoint : parts.Pairwise fun p q => Disjoint p.toSet q.toSet) :
    maps.Pairwise fun m n => Disjoint m.toSet n.toSet := by
  have hpairs : (maps.map some).Pairwise fun o o' => ∀ m n, o = some m → o' = some n →
      Disjoint m.toSet n.toSet := by
    rw [← hmaps, pairwise_map]
    refine hdisjoint.imp_of_mem fun {p q} hp hq hpq m n hm hn => ?_
    obtain ⟨hpc, hps⟩ := hparts p hp
    obtain ⟨hqc, hqs⟩ := hparts q hq
    rw [Set.disjoint_left] at hpq ⊢
    intro x hx hx'
    obtain ⟨b, hb, hbx⟩ := (mem_mapWithin_iff hr hpc hps hm).mp hx
    obtain ⟨c, hc, hcx⟩ := (mem_mapWithin_iff hr hqc hqs hn).mp hx'
    have hbc := rank_injective (hps hb) (hqs hc) (by omega)
    exact hpq hb (hbc ▸ hc)
  exact (pairwise_map.mp hpairs).imp fun h => h _ _ rfl rfl

theorem mapWithin_cover (hcover : ∀ b ∈ r.toSet, ∃ p ∈ parts, b ∈ p.toSet) (x : Int) :
    x ∈ Set.Ico 0 r.size ↔ ∃ m ∈ maps, x ∈ m.toSet := by
  rw [← exists_rank_iff hr]
  constructor
  · rintro ⟨b, hb, hbx⟩
    obtain ⟨p, hp, hbp⟩ := hcover b hb
    obtain ⟨m, hm, -⟩ := mapWithin_spec hr (hparts p hp).1 (hparts p hp).2
    exact ⟨m, (mem_maps_iff hmaps).mpr ⟨p, hp, hm⟩,
      (mem_mapWithin_iff hr (hparts p hp).1 (hparts p hp).2 hm).mpr ⟨b, hbp, hbx⟩⟩
  · rintro ⟨m, hm, hx⟩
    obtain ⟨p, hp, hm⟩ := (mem_maps_iff hmaps).mp hm
    obtain ⟨b, hb, hbx⟩ := (mem_mapWithin_iff hr (hparts p hp).1 (hparts p hp).2 hm).mp hx
    exact ⟨b, (hparts p hp).2 hb, hbx⟩

end

/-- `map_within` maps each block to the number of blocks before it, and so a partition to a
partition. -/
theorem mapWithin_ranks :
    (∀ s : RangeSet, s.Canonical → s.toSet ⊆ r.toSet → ∃ m, r.mapWithin s = some m ∧ m.Canonical ∧
      m.toSet = r.before '' s.toSet ∧ m.size = s.size ∧ m.toSet ⊆ Set.Ico 0 r.size) ∧
    ∀ parts maps : List RangeSet, parts.map r.mapWithin = maps.map some →
      (∀ p ∈ parts, p.Canonical) →
      parts.Pairwise (fun p q => Disjoint p.toSet q.toSet) → ⋃ p ∈ parts, p.toSet = r.toSet →
      maps.Pairwise (fun m n => Disjoint m.toSet n.toSet) ∧
        ⋃ m ∈ maps, m.toSet = Set.Ico 0 r.size := by
  refine ⟨fun s hs hsub => ?_, fun parts maps hmaps hparts hdisjoint hunion => ?_⟩
  · obtain ⟨m, hm, hcanonical, hblocks⟩ := mapWithin_spec hr hs hsub
    refine ⟨m, hm, hcanonical, ?_, ?_, fun x hx => ?_⟩
    · ext x
      rw [mem_mapWithin_iff hr hs hsub hm]
      refine exists_congr fun b => and_congr_right fun hb => ?_
      rw [before_eq hr b]
    · rw [size_eq_length_blocks hcanonical, size_eq_length_blocks hs, hblocks, length_map]
    · obtain ⟨b, hb, heq⟩ := (mem_mapWithin_iff hr hs hsub hm).mp hx
      exact (exists_rank_iff hr).mp ⟨b, hsub hb, heq⟩
  · have hparts' : ∀ p ∈ parts, p.Canonical ∧ p.toSet ⊆ r.toSet := fun p hp =>
      ⟨hparts p hp, hunion ▸ Set.subset_biUnion_of_mem hp⟩
    refine ⟨mapWithin_disjoint hr hmaps hparts' hdisjoint, ?_⟩
    ext x
    rw [Set.mem_iUnion₂, mapWithin_cover hr hmaps hparts' fun b hb => by
      simpa using hunion.symm.subset hb]
    simp

end

/-- Pieces on both sides of a gap become neighbours. -/
theorem mapWithin_ranks_gap :
    ∃ m, mapWithin ⟨[0, 3, 5, 8], false⟩ ⟨[2, 3, 5, 6], false⟩ = some m ∧ m.size = 2 := by
  obtain ⟨m, hm, -, -, hsize, -⟩ := (mapWithin_ranks (r := ⟨[0, 3, 5, 8], false⟩) (by decide)).1
    ⟨[2, 3, 5, 6], false⟩ (by decide) fun x hx => by
      simp [toSet, ranges, pairs] at hx ⊢
      omega
  exact ⟨m, hm, hsize⟩

end ShieldTv.Releasetools.RangeLib.RangeSet
