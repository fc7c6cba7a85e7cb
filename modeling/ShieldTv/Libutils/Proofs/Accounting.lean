import ShieldTv.Lib.Fallible
import ShieldTv.Libutils.BlobCache

/-!
# The accounting of a `BlobCache`

How far the total size is from the sum of the sizes of the entries.  Only
`unflatten` changes that, when it drops the entries and keeps the total.
-/

namespace ShieldTv.Libutils.BlobCache

open Lib List Option Nat Lib.Fallible Lib.SortedVector

def entriesSize (entries : List CacheEntry) : Nat := (entries.map CacheEntry.size).sum

@[simp] theorem entriesSize_nil : entriesSize [] = 0 := rfl

@[simp] theorem entriesSize_cons (e : CacheEntry) (entries : List CacheEntry) :
    entriesSize (e :: entries) = e.size + entriesSize entries := rfl

@[simp] theorem entriesSize_append (xs ys : List CacheEntry) :
    entriesSize (xs ++ ys) = entriesSize xs + entriesSize ys := by
  rw [entriesSize, map_append, sum_append_nat]
  rfl

/-- Sums of sizes within the limits do not overflow. -/
structure Limits.Roomy (abi : Abi) (lim : Limits) : Prop where
  entry_lt : lim.maxKeySize + lim.maxValueSize < abi.range
  total_lt : 2 * lim.maxTotalSize < abi.range

/-- An entry that `set` lets in. -/
structure CacheEntry.Fits (lim : Limits) (e : CacheEntry) : Prop where
  key_pos : 0 < e.key.length
  value_pos : 0 < e.value.length
  key_le : e.key.length ≤ lim.maxKeySize
  value_le : e.value.length ≤ lim.maxValueSize
  size_le : e.size ≤ lim.maxTotalSize

theorem fits_iff {lim : Limits} {key value : Bytes} : CacheEntry.Fits lim ⟨key, value⟩ ↔
    0 < key.length ∧ 0 < value.length ∧ key.length ≤ lim.maxKeySize ∧
      value.length ≤ lim.maxValueSize ∧ key.length + value.length ≤ lim.maxTotalSize :=
  ⟨fun ⟨hk, hv, hkey, hvalue, hsize⟩ => ⟨hk, hv, hkey, hvalue, hsize⟩,
    fun ⟨hk, hv, hkey, hvalue, hsize⟩ => ⟨hk, hv, hkey, hvalue, hsize⟩⟩

/-- A cache whose total size is `stale` more than the size of its entries. -/
structure Sound (lim : Limits) (stale : Nat) (c : Cache) : Prop where
  sorted : Sorted CacheEntry.order c.cacheEntries
  fits : ∀ e ∈ c.cacheEntries, e.Fits lim
  total_eq : c.totalSize = entriesSize c.cacheEntries + stale
  total_le : c.totalSize ≤ lim.maxTotalSize

theorem sound_new (lim : Limits) : Sound lim 0 Cache.new where
  sorted := Pairwise.nil
  fits := by simp [Cache.new]
  total_eq := rfl
  total_le := zero_le _

variable {lim : Limits} {stale i total : Nat} {c : Cache} {e : CacheEntry}
  {scanned : List CacheEntry × Bool} {abi : Abi}

theorem Sound.clear (h : Sound lim stale c) :
    Sound lim c.totalSize { c with cacheEntries := [] } where
  sorted := Pairwise.nil
  fits := by simp
  total_eq := by rw [entriesSize_nil, zero_add]
  total_le := h.total_le

theorem entriesSize_le {xs ys : List CacheEntry} (h : xs.Sublist ys) :
    entriesSize xs ≤ entriesSize ys := (h.map CacheEntry.size).sum_le_sum (by simp)

/-- There is a result with a property, or a division by zero because the stale size alone is above
half of the limit. -/
def Yields {α : Type} (lim : Limits) (stale : Nat) (result : Except Fault α)
    (P : α → Prop) : Prop :=
  (∃ a, result = .ok a ∧ P a) ∨ result = .error .divisionByZero ∧ lim.maxTotalSize / 2 < stale

section

variable {α β : Type} {result : Except Fault α} {P Q : α → Prop}

theorem Yields.bind {f : α → Except Fault β} {Q : β → Prop} (h : Yields lim stale result P)
    (hf : ∀ a, P a → Yields lim stale (f a) Q) : Yields lim stale (result >>= f) Q := by
  obtain ⟨a, rfl, ha⟩ | ⟨rfl, hstale⟩ := h
  · exact hf a ha
  · exact .inr ⟨rfl, hstale⟩

theorem Yields.mono (h : Yields lim stale result P) (hPQ : ∀ a, P a → Q a) :
    Yields lim stale result Q :=
  h.imp_left fun ⟨a, ha, hP⟩ => ⟨a, ha, hPQ a hP⟩

theorem Yields.of_ok {a : α} (h : Yields lim stale result P) (hok : result = .ok a) : P a := by
  subst hok
  obtain ⟨_, heq, ha⟩ | ⟨heq, -⟩ := h
  · cases heq
    exact ha
  · cases heq

end

/-! ## `clean` -/

theorem entriesSize_eraseIdx {entries : List CacheEntry} (h : entries[i]? = some e) :
    e.size + entriesSize (entries.eraseIdx i) = entriesSize entries := by
  obtain ⟨hi, rfl⟩ := List.getElem?_eq_some_iff.mp h
  calc entries[i].size + entriesSize (entries.eraseIdx i)
      = entriesSize (entries.take i) + (entries[i].size + entriesSize (entries.drop (i + 1))) := by
        rw [eraseIdx_eq_take_drop_succ, entriesSize_append]
        omega
    _ = entriesSize (entries.take i ++ entries[i] :: entries.drop (i + 1)) := by
        rw [entriesSize_append, entriesSize_cons]
    _ = entriesSize entries := by rw [getElem_cons_drop, take_append_drop]

/-- The cache with these entries and this stale part of the total. -/
def cacheOf (stale : Nat) (entries : List CacheEntry) : Cache :=
  { totalSize := entriesSize entries + stale, cacheEntries := entries }

theorem cacheOf_totalSize (stale : Nat) (entries : List CacheEntry) :
    (cacheOf stale entries).totalSize = entriesSize entries + stale := rfl

theorem Sound.eq_cacheOf (h : Sound lim stale c) : c = cacheOf stale c.cacheEntries := by
  rw [cacheOf, ← h.total_eq]

/-- The entries that `clean` may leave. -/
def MayLeave (lim : Limits) (stale : Nat) (entries left : List CacheEntry) : Prop :=
  ∃ above i, above.Sublist entries ∧ i < above.length ∧ left = above.eraseIdx i ∧
    lim.maxTotalSize / 2 < entriesSize above + stale ∧
    entriesSize left + stale ≤ lim.maxTotalSize / 2

section

variable {abi : Abi} (hroomy : lim.Roomy abi) {entries left : List CacheEntry}
  (h : Sound lim stale (cacheOf stale entries))

theorem MayLeave.of_sublist {entries' : List CacheEntry} (h : MayLeave lim stale entries' left)
    (hsub : entries'.Sublist entries) : MayLeave lim stale entries left := by
  obtain ⟨above, i, habove, hi, hleft, hsizes⟩ := h
  exact ⟨above, i, habove.trans hsub, hi, hleft, hsizes⟩

theorem cleanLoop_done (hhalf : entriesSize entries + stale ≤ lim.maxTotalSize / 2)
    (rand : Nat → Nat) (fuel turn : Nat) :
    cleanLoop abi lim rand fuel turn (cacheOf stale entries) = .ok (cacheOf stale entries) := by
  cases fuel with
  | zero => rfl
  | succ fuel => rw [cleanLoop, cacheOf_totalSize, if_neg (not_lt.mpr hhalf)]

include h

theorem Sound.sublist (hsub : left.Sublist entries) : Sound lim stale (cacheOf stale left) where
  sorted := h.sorted.sublist hsub
  fits e he := h.fits e (hsub.subset he)
  total_eq := rfl
  total_le := (Nat.add_le_add_right (entriesSize_le hsub) stale).trans h.total_le

include hroomy

theorem cleanLoop_succ (hfull : lim.maxTotalSize / 2 < entriesSize entries + stale)
    {rand : Nat → Nat} {turn : Nat} (hlt : rand turn % entries.length < entries.length)
    (fuel : Nat) :
    cleanLoop abi lim rand (fuel + 1) turn (cacheOf stale entries) =
      cleanLoop abi lim rand fuel (turn + 1)
        (cacheOf stale (entries.eraseIdx (rand turn % entries.length))) := by
  have hget := getElem?_eq_getElem hlt
  have hsum := entriesSize_eraseIdx hget
  have hroom := hroomy.total_lt
  have hle : entriesSize entries + stale ≤ lim.maxTotalSize := h.total_le
  generalize entries[rand turn % entries.length] = e at hget hsum
  have htotal : (entriesSize entries + stale + abi.range - e.size % abi.range) % abi.range =
      entriesSize (entries.eraseIdx (rand turn % entries.length)) + stale := by
    rw [mod_eq_of_lt (show e.size < abi.range by omega),
      show entriesSize entries + stale + abi.range - e.size =
        entriesSize (entries.eraseIdx (rand turn % entries.length)) + stale + abi.range by omega,
      add_mod_right, mod_eq_of_lt (by omega)]
  rw [cleanLoop, cacheOf_totalSize, if_pos hfull]
  simp only [cacheOf, hget, htotal]

/-- `clean` ends below half of the limit. -/
theorem cleanLoop_spec (rand : Nat → Nat) {fuel : Nat} (turn : Nat)
    (hfuel : entries.length < fuel) :
    Yields lim stale (cleanLoop abi lim rand fuel turn (cacheOf stale entries)) fun c' =>
      ∃ left, c' = cacheOf stale left ∧ left.Sublist entries ∧
        entriesSize left + stale ≤ lim.maxTotalSize / 2 ∧
        (lim.maxTotalSize / 2 < entriesSize entries + stale → MayLeave lim stale entries left) := by
  induction fuel generalizing entries turn with
  | zero => omega
  | succ fuel ih =>
    by_cases hfull : lim.maxTotalSize / 2 < entriesSize entries + stale
    · by_cases hempty : entries = []
      · subst hempty
        rw [cleanLoop, cacheOf_totalSize, if_pos hfull]
        exact .inr ⟨rfl, by simpa using hfull⟩
      · have hlt := mod_lt (rand turn) (length_pos_iff.mpr hempty)
        have hsub := eraseIdx_sublist entries (rand turn % entries.length)
        have hlength := length_eraseIdx_of_lt hlt
        rw [cleanLoop_succ hroomy h hfull hlt]
        by_cases hagain : lim.maxTotalSize / 2 <
            entriesSize (entries.eraseIdx (rand turn % entries.length)) + stale
        · refine (ih (h.sublist hsub) (turn + 1) (by omega)).mono ?_
          rintro _ ⟨left, rfl, hleft, hhalf, hmay⟩
          exact ⟨left, rfl, hleft.trans hsub, hhalf, fun _ => (hmay hagain).of_sublist hsub⟩
        · have hhalf := not_lt.mp hagain
          rw [cleanLoop_done hhalf]
          exact .inl ⟨_, rfl, _, rfl, hsub, hhalf, fun _ =>
            ⟨entries, _, Sublist.refl _, hlt, rfl, hfull, hhalf⟩⟩
    · have hhalf := not_lt.mp hfull
      exact .inl ⟨_, cleanLoop_done hhalf rand _ turn, entries, rfl, Sublist.refl _, hhalf,
        fun hfull => absurd hfull (not_lt.mpr hhalf)⟩

end

theorem clean_spec (hroomy : lim.Roomy abi) (h : Sound lim stale c) (rand : Nat → Nat) :
    Yields lim stale (clean abi lim rand c) fun c' => ∃ left, c' = cacheOf stale left ∧
      Sound lim stale c' ∧ entriesSize left + stale ≤ lim.maxTotalSize / 2 ∧
      (lim.maxTotalSize / 2 < c.totalSize → MayLeave lim stale c.cacheEntries left) := by
  have hsound := h
  rw [h.eq_cacheOf] at hsound
  rw [clean, h.total_eq, h.eq_cacheOf]
  refine (cleanLoop_spec hroomy hsound rand 0 (lt_succ_self _)).mono ?_
  rintro _ ⟨left, rfl, hleft, hspec⟩
  exact ⟨left, rfl, hsound.sublist hleft, hspec⟩

/-! ## `set` -/

theorem blobKey_injective : Function.Injective blobKey := by
  intro a b h
  have hmap : a.map UInt8.toNat = b.map UInt8.toNat := congrArg (fun k => (ofLex k).2) h
  exact map_injective_iff.mpr (fun _ _ => UInt8.toNat_inj.mp) hmap

/-- The total after the pair is stored beside the other entries. -/
def needed (stale : Nat) (entries : List CacheEntry) (key value : Bytes) : Nat :=
  stale + entriesSize (entries.filter (·.key ≠ key)) + key.length + value.length

section

variable {entries : List CacheEntry} (hsorted : Sorted CacheEntry.order entries)
include hsorted

theorem indexOf_cases (key : Bytes) :
    (∃ i e, indexOf CacheEntry.order entries (blobKey key) = some i ∧
      entries[i]? = some e ∧ e.key = key) ∨
    (indexOf CacheEntry.order entries (blobKey key) = none ∧
      ∀ e ∈ entries, e.key ≠ key) := by
  rcases indexOrderOf_cases hsorted (blobKey key) with
    ⟨i, e, hfound, hget, hkey⟩ | ⟨i, hfound, hbefore, hafter⟩
  · exact .inl ⟨i, e, by rw [indexOf, hfound], hget, blobKey_injective hkey⟩
  · refine .inr ⟨by rw [indexOf, hfound], ?_⟩
    rintro e he rfl
    rw [← take_append_drop i entries] at he
    rcases mem_append.mp he with he | he
    · exact lt_irrefl _ (hbefore e he)
    · exact lt_irrefl _ (hafter e he)

theorem eq_of_key_eq {a b : CacheEntry} (ha : a ∈ entries) (hb : b ∈ entries)
    (hkey : a.key = b.key) : a = b := by
  by_contra hne
  have hsymm : Std.Symm fun a b : CacheEntry => a.order ≠ b.order := ⟨fun _ _ h => h.symm⟩
  have hdistinct : entries.Pairwise fun a b => a.order ≠ b.order := hsorted.imp fun h => h.ne
  exact hdistinct.forall ha hb hne (congrArg blobKey hkey)

theorem entriesSize_add (e : CacheEntry) :
    entriesSize (add CacheEntry.order entries e) =
      entriesSize (entries.filter (·.key ≠ e.key)) + e.size := by
  obtain ⟨l, mid, r, hv, hadd, hl, hmid, hr⟩ := add_cases hsorted e
  have hkeep : ∀ {xs : List CacheEntry}, (∀ y ∈ xs, y.order ≠ e.order) →
      xs.filter (·.key ≠ e.key) = xs := fun h =>
    filter_eq_self.mpr fun y hy => decide_eq_true fun hkey => h y hy (congrArg blobKey hkey)
  have hdrop : mid.filter (·.key ≠ e.key) = [] :=
    filter_eq_nil_iff.mpr fun y hy => by simpa using blobKey_injective (hmid y hy)
  rw [hadd, hv, filter_append, filter_append, hkeep fun y hy => (hl y hy).ne, hdrop,
    hkeep fun y hy => (hr y hy).ne', nil_append, entriesSize_append, entriesSize_append,
    entriesSize_cons]
  omega

theorem needed_eq (stale : Nat) (key value : Bytes) :
    needed stale entries key value =
      (cacheOf stale (add CacheEntry.order entries ⟨key, value⟩)).totalSize := by
  rw [cacheOf_totalSize, entriesSize_add hsorted, needed, CacheEntry.size]
  dsimp only
  omega

theorem add_of_mem (he : e ∈ entries) : add CacheEntry.order entries e = entries := by
  refine Sorted.ext (sorted_add hsorted) hsorted fun y => ?_
  rw [mem_add hsorted]
  constructor
  · rintro (rfl | ⟨hy, -⟩)
    · exact he
    · exact hy
  · intro hy
    by_cases hkey : y.order = e.order
    · exact .inl (eq_of_key_eq hsorted hy he (blobKey_injective hkey))
    · exact .inr ⟨hy, hkey⟩

theorem needed_of_present (he : e ∈ entries) (stale : Nat) (value : Bytes) :
    needed stale entries e.key value + e.value.length
      = stale + entriesSize entries + value.length := by
  have hfilter := entriesSize_add hsorted e
  rw [add_of_mem hsorted he, CacheEntry.size] at hfilter
  rw [needed]
  omega

end

section

variable {abi : Abi} (hroomy : lim.Roomy abi) (h : Sound lim stale c) {key value : Bytes}
  (hfits : CacheEntry.Fits lim ⟨key, value⟩)

include h hfits

theorem Sound.stored (hle : needed stale c.cacheEntries key value ≤ lim.maxTotalSize) :
    Sound lim stale
      (cacheOf stale (add CacheEntry.order c.cacheEntries ⟨key, value⟩)) where
  sorted := sorted_add h.sorted
  fits e he := by
    rcases (mem_add h.sorted).mp he with rfl | ⟨he, -⟩
    · exact hfits
    · exact h.fits e he
  total_eq := rfl
  total_le := (needed_eq h.sorted stale key value).ge.trans hle

include hroomy

/-- A turn of the loop of `set`. -/
theorem setLoop_eq (rand : Nat → Nat) (fuel : Nat) :
    setLoop abi lim rand key value (fuel + 1) c =
      if lim.maxTotalSize < needed stale c.cacheEntries key value then
        if isCleanable lim c then do
          let c ← clean abi lim rand c
          setLoop abi lim rand key value fuel c
        else .ok c
      else .ok (cacheOf stale (add CacheEntry.order c.cacheEntries ⟨key, value⟩)) := by
  have hroom := hroomy.total_lt
  have hbound := h.total_le
  have htotal := h.total_eq
  have hsize := fits_iff.mp hfits
  have hstored := needed_eq h.sorted stale key value
  rw [setLoop]
  rcases indexOf_cases h.sorted key with ⟨i, e, hindex, hget, rfl⟩ | ⟨hindex, habsent⟩
  · have hneeded := needed_of_present h.sorted (mem_of_getElem? hget) stale value
    have hentry := entriesSize_eraseIdx hget
    have hnew : (c.totalSize + value.length + abi.range - e.value.length) % abi.range
        = needed stale c.cacheEntries e.key value := by
      rw [show c.totalSize + value.length + abi.range - e.value.length =
        needed stale c.cacheEntries e.key value + abi.range by omega, add_mod_right,
        mod_eq_of_lt (by omega)]
    have hmodify : c.cacheEntries.modify i (fun e => { e with value }) =
        add CacheEntry.order c.cacheEntries ⟨e.key, value⟩ := by
      refine Eq.trans ?_ (add_eq_set (x := (⟨e.key, value⟩ : CacheEntry)) hindex).symm
      rw [modify_eq_set_getElem?, hget]
      rfl
    simp only [hindex, hget, map_some, getD_some, hnew, hmodify, hstored, cacheOf]
  · have hneeded : needed stale c.cacheEntries key value =
        stale + entriesSize c.cacheEntries + key.length + value.length := by
      rw [needed, filter_eq_self.mpr fun e he => decide_eq_true (habsent e he)]
    have hnew : (c.totalSize + key.length + value.length) % abi.range
        = needed stale c.cacheEntries key value := by
      rw [mod_eq_of_lt (by omega)]
      omega
    simp only [hindex, hnew, hstored, cacheOf]

/-- The cache is cleaned first, or the entry is let in or refused.  Whatever happens, something is
in the total. -/
theorem setLoop_succ (rand : Nat → Nat) (fuel : Nat) :
    (isCleanable lim c = true ∧ setLoop abi lim rand key value (fuel + 1) c =
      (do
        let c ← clean abi lim rand c
        setLoop abi lim rand key value fuel c)) ∨
    ∃ c', setLoop abi lim rand key value (fuel + 1) c = .ok c' ∧ Sound lim stale c' ∧
      0 < c'.totalSize := by
  have htotal := h.total_eq
  have hsize := fits_iff.mp hfits
  have hothers := entriesSize_le (filter_sublist (l := c.cacheEntries) (p := (·.key ≠ key)))
  have hneeded : needed stale c.cacheEntries key value = stale +
    entriesSize (c.cacheEntries.filter (·.key ≠ key)) + key.length + value.length := rfl
  rw [setLoop_eq hroomy h hfits]
  split_ifs with hover hclean
  · exact .inl ⟨hclean, rfl⟩
  · exact .inr ⟨c, rfl, h, by omega⟩
  · refine .inr ⟨_, rfl, h.stored hfits (not_lt.mp hover), ?_⟩
    rw [← needed_eq h.sorted]
    omega

omit h in
theorem set_eq_setLoop (rand : Nat → Nat) :
    set abi lim rand key value c = setLoop abi lim rand key value 2 c := by
  have hsizes := fits_iff.mp hfits
  have hentry := hroomy.entry_lt
  rw [set, if_neg (by omega), if_neg (by omega), mod_eq_of_lt (by omega), if_neg (by omega),
    if_neg (by omega), if_neg (by omega)]

omit h hfits in
theorem set_of_not_fits (hnot : ¬CacheEntry.Fits lim ⟨key, value⟩) (rand : Nat → Nat) :
    set abi lim rand key value c = .ok c := by
  have hentry := hroomy.entry_lt
  unfold set
  split_ifs with hkey hvalue hsize hkeypos hvaluepos
  · rfl
  · rfl
  · rfl
  · rfl
  · rfl
  · rw [mod_eq_of_lt (by omega)] at hsize
    rw [fits_iff] at hnot
    omega

omit hfits in
theorem set_spec (rand : Nat → Nat) :
    Yields lim stale (set abi lim rand key value c) fun c' => Sound lim stale c' ∧
      (CacheEntry.Fits lim ⟨key, value⟩ → 0 < c'.totalSize) ∧
      (¬CacheEntry.Fits lim ⟨key, value⟩ → c' = c) := by
  by_cases hfits : CacheEntry.Fits lim ⟨key, value⟩
  · simp only [hfits, not_true_eq_false, forall_const, false_implies, and_true]
    rw [set_eq_setLoop hroomy hfits]
    rcases setLoop_succ hroomy h hfits rand 1 with ⟨-, hloop⟩ | hdone
    · rw [hloop]
      refine (clean_spec hroomy h rand).bind ?_
      rintro _ ⟨left, rfl, hsound, hhalf, -⟩
      rcases setLoop_succ hroomy hsound hfits rand 0 with ⟨hagain, -⟩ | hdone
      · exact absurd hhalf (not_le.mpr (of_decide_eq_true hagain))
      · exact .inl hdone
    · exact .inl hdone
  · exact .inl ⟨c, set_of_not_fits hroomy hfits rand, h, fun hfit => absurd hfit hfits,
      fun _ => rfl⟩

end

/-! ## `unflatten` -/

/-- The entries in a buffer, up to the first that does not fit into it, and
whether all of them do. -/
def scan (abi : Abi) (buffer : Memory.Mem) (size : Nat) : Nat → Nat → List CacheEntry × Bool
  | 0, _ => ([], true)
  | left + 1, byteOffset =>
    let keySize := Bytes.leValue (Memory.read buffer byteOffset abi.word)
    let valueSize := Bytes.leValue (Memory.read buffer (byteOffset + abi.word) abi.word)
    let totalSize := align4 abi ((abi.entryHeaderSize + keySize + valueSize) % abi.range)
    let data := byteOffset + abi.entryHeaderSize
    if size < (byteOffset + abi.entryHeaderSize) % abi.range ∨
        size < (byteOffset + totalSize) % abi.range then ([], false)
    else
      let (entries, complete) := scan abi buffer size left ((byteOffset + totalSize) % abi.range)
      (⟨Memory.read buffer data keySize, Memory.read buffer (data + keySize) valueSize⟩ :: entries,
        complete)

/-- The header is that of a cache of this build. -/
def Accepted (abi : Abi) (buildId : BuildId) (buffer : Memory.Mem) (size : Nat) : Prop :=
  abi.headerSize ≤ size ∧ Bytes.leValue (Memory.read buffer 0 4) = blobCacheMagic ∧
    Bytes.leValue (Memory.read buffer 4 4) = blobCacheVersion ∧
    Bytes.leValue (Memory.read buffer 8 4) = blobCacheDeviceVersion ∧
    buildId.1.length = Bytes.leValue (Memory.read buffer abi.buildIdLengthAt 4) ∧
    strncmpEq buildId.1 (Memory.read buffer abi.buildIdAt buildId.1.length)

def scanBuffer (abi : Abi) (buildId : BuildId) (buffer : Memory.Mem) (size : Nat) :
    List CacheEntry × Bool :=
  scan abi buffer size (Bytes.leValue (Memory.read buffer abi.numEntriesAt abi.word))
    (align4 abi (abi.headerSize + buildId.1.length))

/-- The buffer does not break off after an entry that the cache lets in. -/
def Intact (abi : Abi) (lim : Limits) (buildId : BuildId) (buffer : Memory.Mem)
    (size : Nat) : Prop :=
  Accepted abi buildId buffer size → (scanBuffer abi buildId buffer size).2 = false →
    ∀ e ∈ (scanBuffer abi buildId buffer size).1, ¬e.Fits lim

section

variable {abi : Abi} (buildId : BuildId) {buffer : Memory.Mem} {size : Nat}

theorem unflatten_of_accepted (h : Accepted abi buildId buffer size) (rand : Nat → Nat → Nat)
    (c : Cache) :
    unflatten abi lim rand buildId buffer size c = unflattenLoop abi lim rand buffer size
        (Bytes.leValue (Memory.read buffer abi.numEntriesAt abi.word))
        (align4 abi (abi.headerSize + buildId.1.length)) { c with cacheEntries := [] } := by
  obtain ⟨hsize, hmagic, hversion, hdevice, hlength, hid⟩ := h
  unfold unflatten
  rw [if_neg (not_lt.mpr hsize), if_neg (not_not.mpr hmagic), if_neg]
  simp only [hversion, hdevice, hid, ← hlength]
  simp

theorem unflatten_of_not_accepted (h : ¬Accepted abi buildId buffer size) (rand : Nat → Nat → Nat)
    (c : Cache) :
    ∃ status, unflatten abi lim rand buildId buffer size c =
      .ok (status, { c with cacheEntries := [] }) := by
  unfold unflatten
  split_ifs with hsize hmagic hrest
  · exact ⟨_, rfl⟩
  · exact ⟨_, rfl⟩
  · exact ⟨_, rfl⟩
  · simp only [not_or, not_not] at hrest hmagic
    exact absurd ⟨not_lt.mp hsize, hmagic, hrest.1, hrest.2.1, hrest.2.2.1, hrest.2.2.2⟩ h

structure Loaded (lim : Limits) (stale total : Nat) (scanned : List CacheEntry × Bool) (c : Cache) :
    Prop where
  complete : scanned.2 = true → Sound lim stale c
  empty : scanned.2 = false → c.cacheEntries = []
  total_le : c.totalSize ≤ lim.maxTotalSize
  total_eq : (∀ e ∈ scanned.1, ¬e.Fits lim) → c.totalSize = total
  total_pos : (∃ e ∈ scanned.1, e.Fits lim) → 0 < c.totalSize

theorem loaded_nil (h : Sound lim stale c) : Loaded lim stale c.totalSize ([], true) c where
  complete _ := h
  empty := nofun
  total_le := h.total_le
  total_eq _ := rfl
  total_pos := by simp

/-- What has been loaded of an entry more. -/
theorem Loaded.cons {total' : Nat} (h : Loaded lim stale total scanned c)
    (hpos : e.Fits lim → 0 < total) (hsame : ¬e.Fits lim → total = total') :
    Loaded lim stale total' (e :: scanned.1, scanned.2) c where
  complete := h.complete
  empty := h.empty
  total_le := h.total_le
  total_eq hnone := by
    obtain ⟨hnot, hrest⟩ := forall_mem_cons.mp hnone
    exact (h.total_eq hrest).trans (hsame hnot)
  total_pos hsome := by
    by_cases hlater : ∃ e' ∈ scanned.1, e'.Fits lim
    · exact h.total_pos hlater
    · rw [exists_mem_cons_iff, or_iff_left hlater] at hsome
      rw [h.total_eq fun e' he' hf => hlater ⟨e', he', hf⟩]
      exact hpos hsome

theorem unflattenLoop_loaded (hroomy : lim.Roomy abi) (rand : Nat → Nat → Nat) {left : Nat}
    (byteOffset : Nat) (h : Sound lim stale c) :
    Yields lim stale (unflattenLoop abi lim rand buffer size left byteOffset c) fun result =>
      Loaded lim stale c.totalSize (scan abi buffer size left byteOffset) result.2 := by
  induction left generalizing byteOffset c with
  | zero => exact .inl ⟨_, rfl, loaded_nil h⟩
  | succ left ih =>
    rw [unflattenLoop, scan]
    generalize Bytes.leValue (Memory.read buffer byteOffset abi.word) = keySize
    generalize Bytes.leValue (Memory.read buffer (byteOffset + abi.word) abi.word) = valueSize
    generalize htotal : align4 abi ((abi.entryHeaderSize + keySize + valueSize) % abi.range) =
      totalSize
    have hbroken : Loaded lim stale c.totalSize ([], false) { c with cacheEntries := [] } :=
      ⟨nofun, fun _ => rfl, h.total_le, fun _ => rfl, by simp⟩
    simp only [htotal]
    by_cases hheader : size < (byteOffset + abi.entryHeaderSize) % abi.range
    · rw [if_pos hheader, if_pos (.inl hheader)]
      exact .inl ⟨_, rfl, hbroken⟩
    · by_cases hentry : size < (byteOffset + totalSize) % abi.range
      · rw [if_neg hheader, if_pos hentry, if_pos (.inr hentry)]
        exact .inl ⟨_, rfl, hbroken⟩
      · rw [if_neg hheader, if_neg hentry, if_neg (not_or.mpr ⟨hheader, hentry⟩)]
        refine (set_spec hroomy h (rand left)).bind ?_
        rintro c' ⟨hsound, hpos, hsame⟩
        refine (ih _ hsound).mono fun result hloaded => hloaded.cons hpos fun hnot => ?_
        rw [hsame hnot]

end

/-! ## Runs -/

/-- A call that keeps the accounting right: the entries that `unflatten` drops are
none. -/
def Call.Safe (abi : Abi) (lim : Limits) (buildId : BuildId) (c : Cache) : Call → Prop
  | .unflatten _ buffer size => c.cacheEntries = [] ∧ Intact abi lim buildId buffer size
  | .set _ _ _ | .get _ _ | .flatten _ _ => True

section

variable {abi : Abi} (hroomy : lim.Roomy abi) (buildId : BuildId)

theorem Sound.stale_eq {stale' : Nat} (h : Sound lim stale c) (h' : Sound lim stale' c) :
    stale = stale' := by
  have heq := h.total_eq
  have heq' := h'.total_eq
  omega

theorem Sound.total_eq_zero_iff (h : Sound lim 0 c) : c.totalSize = 0 ↔ c.cacheEntries = [] := by
  have htotal := h.total_eq
  constructor
  · intro hzero
    cases hentries : c.cacheEntries with
    | nil => rfl
    | cons e entries =>
      have hpos := (h.fits e (by rw [hentries]; simp)).key_pos
      rw [hentries, entriesSize_cons, CacheEntry.size] at htotal
      omega
  · intro hempty
    rw [htotal, hempty, entriesSize_nil]

theorem sound_of_empty (hempty : c.cacheEntries = []) (hle : c.totalSize ≤ lim.maxTotalSize) :
    Sound lim c.totalSize c where
  sorted := by
    rw [hempty]
    exact Pairwise.nil
  fits := by simp [hempty]
  total_eq := by rw [hempty, entriesSize_nil, zero_add]
  total_le := hle

theorem Loaded.sound (h : Loaded lim stale total scanned c) : ∃ stale', Sound lim stale' c := by
  cases hcomplete : scanned.2 with
  | true => exact ⟨stale, h.complete hcomplete⟩
  | false => exact ⟨_, sound_of_empty (h.empty hcomplete) h.total_le⟩

theorem Loaded.sound_zero_iff (h : Loaded lim stale stale scanned c) :
    Sound lim 0 c ↔ stale = 0 ∧ (scanned.2 = false → ∀ e ∈ scanned.1, ¬e.Fits lim) := by
  cases hcomplete : scanned.2 with
  | true =>
    have hsound := h.complete hcomplete
    constructor
    · intro hzero
      exact ⟨hsound.stale_eq hzero, nofun⟩
    · rintro ⟨rfl, -⟩
      exact hsound
  | false =>
    have hempty := h.empty hcomplete
    have hsound := sound_of_empty hempty h.total_le
    constructor
    · intro hzero
      have htotal : c.totalSize = 0 := hsound.stale_eq hzero
      have hnone : ∀ e ∈ scanned.1, ¬e.Fits lim := fun e he hfits =>
        absurd htotal (h.total_pos ⟨e, he, hfits⟩).ne'
      exact ⟨(h.total_eq hnone).symm.trans htotal, fun _ => hnone⟩
    · rintro ⟨rfl, hnone⟩
      have htotal := h.total_eq (hnone rfl)
      rw [htotal] at hsound
      exact hsound

include hroomy

theorem unflatten_loaded (h : Sound lim stale c) (rand : Nat → Nat → Nat) (buffer : Memory.Mem)
    (size : Nat) :
    ∃ scanned : List CacheEntry × Bool, (Intact abi lim buildId buffer size ↔
        (scanned.2 = false → ∀ e ∈ scanned.1, ¬e.Fits lim)) ∧
      Yields lim c.totalSize (unflatten abi lim rand buildId buffer size c) fun result =>
        Loaded lim c.totalSize c.totalSize scanned result.2 := by
  by_cases haccepted : Accepted abi buildId buffer size
  · refine ⟨scanBuffer abi buildId buffer size, ⟨fun hi => hi haccepted, fun hi _ => hi⟩, ?_⟩
    rw [unflatten_of_accepted buildId haccepted]
    exact unflattenLoop_loaded hroomy rand _ h.clear
  · obtain ⟨status, hclear⟩ := @unflatten_of_not_accepted lim abi buildId _ _ haccepted rand c
    exact ⟨([], true), iff_of_true (fun ha => absurd ha haccepted) nofun,
      .inl ⟨_, hclear, loaded_nil h.clear⟩⟩

/-- `unflatten` keeps the accounting right exactly if it drops no entries, before
or after it loads some. -/
theorem unflatten_sound_iff (h : Sound lim 0 c) (rand : Nat → Nat → Nat) (buffer : Memory.Mem)
    (size : Nat) :
    (∃ status c', unflatten abi lim rand buildId buffer size c = .ok (status, c') ∧
        Sound lim 0 c') ↔
      c.cacheEntries = [] ∧ Intact abi lim buildId buffer size := by
  obtain ⟨scanned, hintact, hload⟩ := unflatten_loaded hroomy buildId h rand buffer size
  rw [← h.total_eq_zero_iff, hintact]
  rcases hload with ⟨⟨status, c'⟩, hload, hloaded⟩ | ⟨hload, hstale⟩
  · rw [hload, ← hloaded.sound_zero_iff]
    constructor
    · rintro ⟨status', c'', hok, hsound⟩
      cases hok
      exact hsound
    · intro hsound
      exact ⟨status, c', rfl, hsound⟩
  · rw [hload]
    constructor
    · rintro ⟨status', c'', hok, -⟩
      cases hok
    · rintro ⟨hzero, -⟩
      omega

/-- Whatever a call does, the total stays at or above the size of the entries. -/
theorem step_sound (h : Sound lim stale c) {call : Call} {c' : Cache}
    (hstep : step abi lim buildId c call = .ok c') : ∃ stale', Sound lim stale' c' := by
  cases call with
  | set rand key value =>
    exact ⟨stale, ((set_spec hroomy h rand).of_ok hstep).1⟩
  | get key valueSize | flatten buffer size =>
    cases hstep
    exact ⟨stale, h⟩
  | unflatten rand buffer size =>
    obtain ⟨result, hresult, rfl⟩ := map_eq_ok.mp hstep
    obtain ⟨scanned, -, hload⟩ := unflatten_loaded hroomy buildId h rand buffer size
    exact (hload.of_ok hresult).sound

theorem step_sound_iff (h : Sound lim 0 c) (call : Call) :
    (∃ c', step abi lim buildId c call = .ok c' ∧ Sound lim 0 c') ↔
      call.Safe abi lim buildId c := by
  cases call with
  | set rand key value =>
    refine iff_of_true ?_ True.intro
    rcases set_spec hroomy h rand with ⟨c', hset, hsound, -⟩ | ⟨-, hstale⟩
    · exact ⟨c', hset, hsound⟩
    · omega
  | get key valueSize | flatten buffer size => exact iff_of_true ⟨c, rfl, h⟩ True.intro
  | unflatten rand buffer size =>
    simp only [step, Call.Safe]
    rw [← unflatten_sound_iff hroomy buildId h rand]
    cases unflatten abi lim rand buildId buffer size c with
    | error e => simp [Except.map]
    | ok result => simp [Except.map, Prod.ext_iff]

end

/-- The total size is the size of the entries, within the limit. -/
def Accounts (lim : Limits) (c : Cache) : Prop :=
  c.totalSize = entriesSize c.cacheEntries ∧ c.totalSize ≤ lim.maxTotalSize

/-- The accounting is right in every state of a run, and no call fails. -/
def AccountsAlong (abi : Abi) (lim : Limits) (buildId : BuildId) : Cache → List Call → Prop
  | c, [] => Accounts lim c
  | c, call :: calls =>
    Accounts lim c ∧ ∃ c', step abi lim buildId c call = .ok c' ∧
      AccountsAlong abi lim buildId c' calls

/-- Every `unflatten` of a run is called on an empty cache and with a buffer that
does not break off after an entry. -/
def SafeAlong (abi : Abi) (lim : Limits) (buildId : BuildId) : Cache → List Call → Prop
  | _, [] => True
  | c, call :: calls =>
    call.Safe abi lim buildId c ∧
      ∀ c', step abi lim buildId c call = .ok c' → SafeAlong abi lim buildId c' calls

theorem Sound.accounts_iff (h : Sound lim stale c) : Accounts lim c ↔ stale = 0 := by
  have htotal := h.total_eq
  constructor
  · rintro ⟨heq, -⟩
    omega
  · rintro rfl
    exact ⟨htotal, h.total_le⟩

theorem accountsAlong_iff_of_sound (hroomy : lim.Roomy abi) (buildId : BuildId) (h : Sound lim 0 c)
    (calls : List Call) :
    AccountsAlong abi lim buildId c calls ↔ SafeAlong abi lim buildId c calls := by
  induction calls generalizing c with
  | nil => exact iff_of_true (h.accounts_iff.mpr rfl) True.intro
  | cons call calls ih =>
    have hstep := step_sound_iff hroomy buildId h call
    constructor
    · rintro ⟨-, c', hc', halong⟩
      obtain ⟨stale, hsound⟩ := step_sound hroomy buildId h hc'
      have haccounts : Accounts lim c' := by
        cases calls with
        | nil => exact halong
        | cons => exact halong.1
      obtain rfl := hsound.accounts_iff.mp haccounts
      refine ⟨hstep.mp ⟨c', hc', hsound⟩, fun c'' hc'' => ?_⟩
      obtain rfl : c' = c'' := Except.ok.inj (hc'.symm.trans hc'')
      exact (ih hsound).mp halong
    · rintro ⟨hsafe, hrest⟩
      obtain ⟨c', hc', hsound⟩ := hstep.mpr hsafe
      exact ⟨h.accounts_iff.mpr rfl, c', hc', (ih hsound).mpr (hrest c' hc')⟩

/-- From a new cache the accounting stays right, and `clean` always has an entry
to remove, exactly as long as `unflatten` never drops entries. -/
theorem accountsAlong_iff {abi : Abi} {lim : Limits} (hroomy : lim.Roomy abi) (buildId : BuildId)
    (calls : List Call) :
    AccountsAlong abi lim buildId Cache.new calls ↔ SafeAlong abi lim buildId Cache.new calls :=
  accountsAlong_iff_of_sound hroomy buildId (sound_new lim) calls

def noBuildId : BuildId := ⟨[], by decide⟩

/-- Keys and values of up to ten bytes, twenty bytes in all. -/
def smallLimits : Limits := { maxKeySize := 10, maxValueSize := 10, maxTotalSize := 20 }

theorem roomy_smallLimits : smallLimits.Roomy .lp64 := ⟨by decide, by decide⟩

def oneEntry : Cache := { totalSize := 2, cacheEntries := [⟨[1], [2]⟩] }

/-- A saved entry is loaded, and two more of ten bytes each are stored: the cache is cleaned
before the last. -/
def loadAndEvict : List Call :=
  [.unflatten (fun _ _ => 0) (flatten .lp64 noBuildId (fun _ => 0) 144 oneEntry).2 144,
    .set (fun _ => 0) [3] (List.replicate 9 4), .set (fun _ => 0) [5] (List.replicate 9 6)]

theorem accountsAlong_loadAndEvict :
    loadAndEvict.foldlM (step .lp64 smallLimits noBuildId) Cache.new = .ok
        { totalSize := 20
          cacheEntries := [⟨[3], List.replicate 9 4⟩, ⟨[5], List.replicate 9 6⟩] } ∧
      AccountsAlong .lp64 smallLimits noBuildId Cache.new loadAndEvict := by
  refine ⟨by decide +kernel, (accountsAlong_iff roomy_smallLimits noBuildId loadAndEvict).mpr
    ⟨⟨rfl, fun _ hbreaks => ?_⟩, fun _ _ => ⟨trivial, fun _ _ => ⟨trivial, fun _ _ => trivial⟩⟩⟩⟩
  exact absurd hbreaks (by decide +kernel)

/-- Fill the cache, load nothing into it, and store another entry. -/
def setLoadSet : List Call :=
  [.set (fun _ => 0) [1, 1, 1, 1, 1, 1, 1, 1, 1, 1] [2, 2, 2, 2, 2, 2, 2, 2, 2, 2],
    .unflatten (fun _ _ => 0) (fun _ => 0) 0, .set (fun _ => 0) [3] [4]]

/-- The total of the entries that are gone is cleaned from an empty vector. -/
theorem setLoadSet_divides_by_zero :
    setLoadSet.foldlM (step .lp64 smallLimits noBuildId) Cache.new = .error .divisionByZero := by
  decide +kernel

end ShieldTv.Libutils.BlobCache
