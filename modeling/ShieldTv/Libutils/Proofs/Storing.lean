import ShieldTv.Libutils.Proofs.Persistence

/-!
# What `set` stores

A pair within the limits is stored if there is room for it beside the other entries, or if there
is room for it beside whatever `clean` may leave of them.  `clean` removes entries one after the
other until the total is at most half of the limit, so it may leave any part of the entries that
is within this half and was above it with one entry more.
-/

namespace ShieldTv.Libutils.BlobCache

open Lib List Option Lib.Fallible Lib.SortedVector

/-! ## Room -/

/-- The part of the total that belongs to no entry. -/
def Cache.stale (c : Cache) : Nat := c.totalSize - entriesSize c.cacheEntries

/-- There is room for the pair, at once or after any cleaning. -/
def Room (lim : Limits) (c : Cache) (key value : Bytes) : Prop :=
  needed c.stale c.cacheEntries key value ≤ lim.maxTotalSize ∨
    (lim.maxTotalSize / 2 < c.totalSize ∧ c.stale ≤ lim.maxTotalSize / 2 ∧
      ∀ left, MayLeave lim c.stale c.cacheEntries left →
        needed c.stale left key value ≤ lim.maxTotalSize)

variable {c : Cache} {e : CacheEntry} {left : List CacheEntry} {lim : Limits} {stale : Nat}

theorem Sound.stale_of (h : Sound lim stale c) : c.stale = stale := by
  rw [Cache.stale, h.total_eq, Nat.add_sub_cancel_left]

/-! ## Looking a key up -/

theorem get_of_mem (hsorted : Sorted CacheEntry.order c.cacheEntries) (he : e ∈ c.cacheEntries)
    (hkey : e.key.length ≤ lim.maxKeySize) {valueSize : Nat} (hsize : e.value.length ≤ valueSize) :
    get lim e.key valueSize c = (e.value.length, e.value) := by
  rw [get, if_neg (not_lt.mpr hkey)]
  rcases indexOf_cases hsorted e.key with ⟨i, e', hindex, hget, hkey'⟩ | ⟨-, habsent⟩
  · obtain rfl := eq_of_key_eq hsorted (mem_of_getElem? hget) he hkey'
    simp only [hindex, hget, map_some, getD_some]
    rw [if_pos hsize]
  · exact absurd rfl (habsent e he)

theorem get_ne_of_no_room (h : Sound lim stale c) {key value : Bytes}
    (hfits : CacheEntry.Fits lim ⟨key, value⟩)
    (hroom : lim.maxTotalSize < needed stale c.cacheEntries key value) :
    get lim key value.length c ≠ (value.length, value) := by
  have hvalue := hfits.value_pos
  have htotal := h.total_eq
  have hle := h.total_le
  rw [get, if_neg (not_lt.mpr hfits.key_le)]
  rcases indexOf_cases h.sorted key with ⟨i, e, hindex, hget, rfl⟩ | ⟨hindex, -⟩
  · have hneeded := needed_of_present h.sorted (mem_of_getElem? hget) stale value
    simp only [hindex, hget, map_some, getD_some]
    intro heq
    have hlength := congrArg Prod.fst heq
    omega
  · simp only [hindex]
    intro heq
    have hlength := congrArg Prod.fst heq
    dsimp only at hlength hvalue
    omega

/-! ## What `clean` leaves -/

/-- A part that lacks something lacks one entry at least. -/
theorem exists_sublist_eraseIdx {α : Type*} {xs ys : List α} (h : xs.Sublist ys) (hne : xs ≠ ys) :
    ∃ i < ys.length, xs.Sublist (ys.eraseIdx i) := by
  induction h with
  | slnil => exact absurd rfl hne
  | cons y h ih => exact ⟨0, by simp, h⟩
  | cons_cons y h ih =>
    obtain ⟨i, hi, hsub⟩ := ih fun heq => hne (by rw [heq])
    exact ⟨i + 1, by simpa using hi, hsub.cons_cons y⟩

/-- Whatever may be left is left for some random choices. -/
theorem exists_cleanLoop_eq {abi : Abi} (hroomy : lim.Roomy abi) {entries : List CacheEntry}
    (h : Sound lim stale (cacheOf stale entries)) (hmay : MayLeave lim stale entries left)
    {fuel : Nat} (turn : Nat) (hfuel : entries.length < fuel) :
    ∃ picks : Nat → Nat, ∀ rand : Nat → Nat, (∀ t, turn ≤ t → rand t = picks t) →
      cleanLoop abi lim rand fuel turn (cacheOf stale entries) = .ok (cacheOf stale left) := by
  induction fuel generalizing entries turn with
  | zero => omega
  | succ fuel ih =>
    obtain ⟨above, i, habove, hi, hleft, hfull, hhalf⟩ := hmay
    have hsize := entriesSize_le habove
    have hpick : ∀ j, j < entries.length → ∀ rand : Nat → Nat, rand turn = j →
        cleanLoop abi lim rand (fuel + 1) turn (cacheOf stale entries)
          = cleanLoop abi lim rand fuel (turn + 1) (cacheOf stale (entries.eraseIdx j)) := by
      intro j hj rand hrand
      have hmod : rand turn % entries.length = j := by rw [hrand, Nat.mod_eq_of_lt hj]
      rw [cleanLoop_succ hroomy h (by omega) (by omega), hmod]
    by_cases hall : above = entries
    · subst hall
      refine ⟨fun _ => i, fun rand hrand => ?_⟩
      rw [hpick i hi rand (hrand turn le_rfl), ← hleft, cleanLoop_done hhalf]
    · obtain ⟨j, hj, hsub⟩ := exists_sublist_eraseIdx habove hall
      have hlength := length_eraseIdx_of_lt hj
      obtain ⟨picks, hpicks⟩ := ih (h.sublist (eraseIdx_sublist entries j))
        ⟨above, i, hsub, hi, hleft, hfull, hhalf⟩ (turn + 1) (by omega)
      refine ⟨Function.update picks turn j, fun rand hrand => ?_⟩
      rw [hpick j hj rand (by rw [hrand turn le_rfl, Function.update_self])]
      apply hpicks
      intro t ht
      rw [hrand t (by omega), Function.update_of_ne (by omega)]

/-! ## What `set` does -/

def Stores (abi : Abi) (lim : Limits) (rand : Nat → Nat) (key value : Bytes) (c : Cache) :
    Prop :=
  ∃ c', set abi lim rand key value c = .ok c' ∧
    ∀ valueSize, value.length ≤ valueSize → get lim key valueSize c' = (value.length, value)

section

variable {abi : Abi} (hroomy : lim.Roomy abi) (h : Sound lim stale c) {key value : Bytes}
  (hfits : CacheEntry.Fits lim ⟨key, value⟩)

include hroomy h hfits

/-- A pair that does not fit beside the entries is refused or leads to a cleaning. -/
theorem setLoop_of_no_room (rand : Nat → Nat) (fuel : Nat)
    (hover : lim.maxTotalSize < needed stale c.cacheEntries key value) :
    setLoop abi lim rand key value (fuel + 1) c =
      if isCleanable lim c then do
        let c ← clean abi lim rand c
        setLoop abi lim rand key value fuel c
      else .ok c := by
  rw [setLoop_eq hroomy h hfits, if_pos hover]

theorem setLoop_of_room (rand : Nat → Nat) (fuel : Nat)
    (hroom : needed stale c.cacheEntries key value ≤ lim.maxTotalSize) :
    ∃ stored, setLoop abi lim rand key value (fuel + 1) c = .ok stored ∧
      ∀ valueSize, value.length ≤ valueSize →
        get lim key valueSize stored = (value.length, value) := by
  have hsound := h.stored hfits hroom
  have hmem := (mem_add (x := ⟨key, value⟩) h.sorted).mpr (.inl rfl)
  refine ⟨_, ?_, fun valueSize hvalue => get_of_mem hsound.sorted hmem hfits.key_le hvalue⟩
  rw [setLoop_eq hroomy h hfits, if_neg (not_lt.mpr hroom)]

theorem stores_of_room (hroom : Room lim c key value) (rand : Nat → Nat) :
    Stores abi lim rand key value c := by
  rw [Room, h.stale_of] at hroom
  unfold Stores
  rw [set_eq_setLoop hroomy hfits]
  by_cases hnow : needed stale c.cacheEntries key value ≤ lim.maxTotalSize
  · exact setLoop_of_room hroomy h hfits rand 1 hnow
  · obtain ⟨hfull, hstale, hleft⟩ := hroom.resolve_left hnow
    rcases clean_spec hroomy h rand with ⟨_, hclean, left, rfl, hsound, -, hmay⟩ | ⟨-, hstale'⟩
    · rw [setLoop_of_no_room hroomy h hfits rand 1 (not_le.mp hnow), isCleanable,
        if_pos (decide_eq_true hfull), hclean]
      exact setLoop_of_room hroomy hsound hfits rand 0 (hleft left (hmay hfull))
    · omega

theorem room_of_stores (hstores : ∀ rand, Stores abi lim rand key value c) :
    Room lim c key value := by
  unfold Stores at hstores
  simp only [set_eq_setLoop hroomy hfits] at hstores
  rw [Room, h.stale_of]
  by_cases hnow : needed stale c.cacheEntries key value ≤ lim.maxTotalSize
  · exact Or.inl hnow
  · have hover := not_le.mp hnow
    have hloop := fun rand => setLoop_of_no_room hroomy h hfits rand 1 hover
    have hfull : lim.maxTotalSize / 2 < c.totalSize := by
      by_contra hhalf
      obtain ⟨c', hset, hget⟩ := hstores fun _ => 0
      rw [hloop, isCleanable, if_neg (by simpa using hhalf)] at hset
      cases hset
      exact get_ne_of_no_room h hfits hover (hget _ le_rfl)
    have hcleans : ∀ rand, setLoop abi lim rand key value 2 c
        = (do
          let c ← clean abi lim rand c
          setLoop abi lim rand key value 1 c) := by
      intro rand
      rw [hloop, isCleanable, if_pos (decide_eq_true hfull)]
    refine Or.inr ⟨hfull, ?_, ?_⟩
    · by_contra hstale
      obtain ⟨c', hset, -⟩ := hstores fun _ => 0
      rw [hcleans] at hset
      rcases clean_spec hroomy h fun _ => 0 with ⟨_, -, left, -, -, hhalf, -⟩ | ⟨hclean, -⟩
      · omega
      · rw [hclean] at hset
        cases hset
    · intro left hmay
      by_contra hno
      have hcacheOf := h
      rw [h.eq_cacheOf] at hcacheOf
      obtain ⟨above, i, habove, hi, rfl, hsizes⟩ := id hmay
      have hsound := hcacheOf.sublist ((eraseIdx_sublist above i).trans habove)
      obtain ⟨picks, hpicks⟩ :=
        exists_cleanLoop_eq hroomy hcacheOf hmay 0 (Nat.lt_succ_self _)
      have hclean : clean abi lim picks c = .ok (cacheOf stale (above.eraseIdx i)) := by
        rw [clean, h.eq_cacheOf]
        exact hpicks picks fun _ _ => rfl
      obtain ⟨c', hset, hget⟩ := hstores picks
      rw [hcleans, hclean] at hset
      have hagain := setLoop_of_no_room hroomy hsound hfits picks 0 (not_le.mp hno)
      rw [isCleanable, cacheOf_totalSize, if_neg (by simpa using hsizes.2)] at hagain
      change setLoop abi lim picks key value 1 _ = _ at hset
      rw [hagain] at hset
      cases hset
      exact get_ne_of_no_room hsound hfits (not_le.mp hno) (hget _ le_rfl)

end

/-- In a cache that a client can bring about, `set` of a pair within the limits stores it, whatever
the random choices, if and only if there is room for it at once or after any cleaning; a pair above
one of the limits leaves the cache as it is. -/
theorem set_stores_iff {abi : Abi} {lim : Limits} (hroomy : lim.Roomy abi) {buildId : BuildId}
    {c : Cache} (hreach : Reachable abi lim buildId c) (key value : Bytes)
    (hkey : key ≠ []) (hvalue : value ≠ []) :
    (key.length ≤ lim.maxKeySize → value.length ≤ lim.maxValueSize →
      key.length + value.length ≤ lim.maxTotalSize →
      ((∀ rand, Stores abi lim rand key value c) ↔ Room lim c key value)) ∧
    (lim.maxKeySize < key.length ∨ lim.maxValueSize < value.length ∨
      lim.maxTotalSize < key.length + value.length →
      ∀ rand, set abi lim rand key value c = .ok c) := by
  obtain ⟨stale, hsound⟩ := hreach.sound hroomy
  constructor
  · intro hkeyle hvaluele hsize
    have hfits := fits_iff.mpr
      ⟨length_pos_iff.mpr hkey, length_pos_iff.mpr hvalue, hkeyle, hvaluele, hsize⟩
    exact ⟨room_of_stores hroomy hsound hfits, stores_of_room hroomy hsound hfits⟩
  · intro hexceeds rand
    apply set_of_not_fits hroomy
    rw [fits_iff]
    omega

/-- Two bytes of twenty are in use. -/
theorem set_stores_iff_oneEntry :
    ((∀ rand, Stores .lp64 smallLimits rand [3] [4] oneEntry) ↔
      Room smallLimits oneEntry [3] [4]) ∧ Room smallLimits oneEntry [3] [4] :=
  ⟨(set_stores_iff roomy_smallLimits reachable_oneEntry [3] [4] (by simp) (by simp)).1
    (by decide) (by decide) (by decide), Or.inl (by decide)⟩

/-- A key and a value of ten bytes each are within the limits, and are not stored beside the two
bytes in use: the cache is not full enough to be cleaned. -/
theorem set_does_not_store :
    ∃ c, Reachable .lp64 smallLimits noBuildId c ∧
      set .lp64 smallLimits (fun _ => 0) (List.replicate 10 1) (List.replicate 10 1) c = .ok c ∧
      get smallLimits (List.replicate 10 1) 10 c = (0, []) :=
  ⟨oneEntry, reachable_oneEntry, by decide, by decide⟩

end ShieldTv.Libutils.BlobCache
