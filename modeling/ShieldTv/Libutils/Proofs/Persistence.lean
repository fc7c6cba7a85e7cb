import ShieldTv.Libutils.Proofs.Accounting

/-!
# Flattening and unflattening a `BlobCache`

A flattened cache holds its entries one after the other.  They can be loaded
again if there is room for them beside the size that the cache still counts.
-/

namespace ShieldTv.Libutils.BlobCache

open Lib List Lib.Memory Lib.Bytes Lib.Fallible Lib.SortedVector

/-! ## Sizes -/

def CacheEntry.span (abi : Abi) (e : CacheEntry) : Nat := (abi.entryHeaderSize + e.size + 3) / 4 * 4

def spans (abi : Abi) (entries : List CacheEntry) : Nat := (entries.map (CacheEntry.span abi)).sum

@[simp] theorem spans_cons (abi : Abi) (e : CacheEntry) (entries : List CacheEntry) :
    spans abi (e :: entries) = e.span abi + spans abi entries := rfl

theorem entryHeaderSize_le (abi : Abi) : abi.entryHeaderSize ≤ 16 := by
  cases abi <;> decide

theorem headerSize_le (abi : Abi) : abi.headerSize ≤ 32 := by
  cases abi <;> decide

variable {abi : Abi} {size offset numEntries : Nat} {entries : List CacheEntry} {buffer : Mem}
  {e : CacheEntry} {c : Cache}

theorem align4_eq (h : size + 3 < abi.range) : align4 abi size = (size + 3) / 4 * 4 := by
  rw [align4, Nat.mod_eq_of_lt h]

variable {lim : Limits} {buffer' : Mem}

theorem spans_le (h : ∀ e ∈ entries, e.Fits lim) :
    spans abi entries ≤ 16 * entriesSize entries := by
  induction entries with
  | nil => exact Nat.le_refl 0
  | cons e entries ih =>
    have hrest := ih fun e' he' => h e' (by simp [he'])
    have hfits := h e (by simp)
    have hkey := hfits.key_pos
    have hvalue := hfits.value_pos
    have hheader := entryHeaderSize_le abi
    rw [spans_cons, entriesSize_cons, CacheEntry.span, CacheEntry.size]
    omega

theorem length_le_entriesSize (h : ∀ e ∈ entries, e.Fits lim) :
    entries.length ≤ entriesSize entries := by
  induction entries with
  | nil => exact Nat.le_refl 0
  | cons e entries ih =>
    have hrest := ih fun e' he' => h e' (by simp [he'])
    have hkey := (h e (by simp)).key_pos
    rw [length_cons, entriesSize_cons, CacheEntry.size]
    omega

/-- A flattened cache within the limits is smaller than the memory. -/
structure Limits.Spacious (abi : Abi) (lim : Limits) : Prop where
  entry_lt : lim.maxKeySize + lim.maxValueSize < abi.range
  flat_le : 16 * lim.maxTotalSize + 256 ≤ abi.range

theorem Limits.Spacious.roomy (h : lim.Spacious abi) : lim.Roomy abi :=
  ⟨h.entry_lt, by have := h.flat_le; omega⟩

def entriesAt (abi : Abi) (buildId : BuildId) : Nat :=
  (abi.headerSize + buildId.1.length + 3) / 4 * 4

def headerSpan (abi : Abi) : Nat := (abi.headerSize + propertyValueMax + 3) / 4 * 4

theorem entriesAt_le (abi : Abi) (buildId : BuildId) : entriesAt abi buildId ≤ headerSpan abi := by
  have hlt := buildId.2
  unfold entriesAt headerSpan
  omega

section

variable (hspace : lim.Spacious abi) {stale : Nat} (h : Sound lim stale c)

include hspace h

theorem spans_bound : headerSpan abi + spans abi c.cacheEntries + 3 < abi.range := by
  have hle := @spans_le abi _ lim h.fits
  have hheader := headerSize_le abi
  have htotal := h.total_eq
  have hbound := h.total_le
  have hflat := hspace.flat_le
  have hmax : propertyValueMax = 92 := rfl
  unfold headerSpan
  omega

theorem getFlattenedSize_eq : getFlattenedSize abi c =
    headerSpan abi + spans abi c.cacheEntries := by
  have hbound := spans_bound hspace h
  have hheader : align4 abi (abi.headerSize + propertyValueMax) = headerSpan abi := by
    apply align4_eq
    unfold headerSpan at hbound
    omega
  unfold getFlattenedSize
  rw [hheader]
  generalize headerSpan abi = start at hbound
  generalize c.cacheEntries = entries at hbound
  induction entries generalizing start with
  | nil => rfl
  | cons e entries ih =>
    rw [spans_cons] at hbound
    have hspan : align4 abi (abi.entryHeaderSize + e.key.length + e.value.length) = e.span abi := by
      rw [align4_eq]
      · rw [CacheEntry.span, CacheEntry.size, add_assoc abi.entryHeaderSize]
      · unfold CacheEntry.span CacheEntry.size at hbound
        omega
    rw [foldl_cons, hspan, Nat.mod_eq_of_lt (by omega), ih (start + e.span abi) (by omega),
      spans_cons, add_assoc]

end

/-! ## Entries in a buffer -/

structure HoldsEntry (abi : Abi) (buffer : Mem) (offset : Nat) (e : CacheEntry) : Prop where
  keySize : leValue (read buffer offset abi.word) = e.key.length
  valueSize : leValue (read buffer (offset + abi.word) abi.word) = e.value.length
  key : read buffer (offset + abi.entryHeaderSize) e.key.length = e.key
  value : read buffer (offset + abi.entryHeaderSize + e.key.length) e.value.length = e.value

def Holds (abi : Abi) (buffer : Mem) : Nat → List CacheEntry → Prop
  | _, [] => True
  | offset, e :: entries =>
    HoldsEntry abi buffer offset e ∧ Holds abi buffer (offset + e.span abi) entries

def entryFields (abi : Abi) (offset pad : Nat) (e : CacheEntry) : List (Nat × Bytes) :=
  [(offset, leBytes abi.word e.key.length), (offset + abi.word, leBytes abi.word e.value.length),
    (offset + abi.entryHeaderSize, e.key), (offset + abi.entryHeaderSize + e.key.length, e.value),
    (offset + abi.entryHeaderSize + e.key.length + e.value.length, List.replicate pad 0)]

theorem leValue_field {fields : List (Nat × Bytes)} {at' k v : Nat}
    (hread : ∀ field ∈ fields, read buffer field.1 field.2.length = field.2)
    (hfield : (at', leBytes k v) ∈ fields) (hv : v < 256 ^ k) :
    leValue (read buffer at' k) = v := by
  have hbytes := hread _ hfield
  rw [length_leBytes] at hbytes
  rw [hbytes, leValue_leBytes_of_lt hv]

theorem holdsEntry_entryFields {pad bound : Nat} (hkey : e.key.length < abi.range)
    (hvalue : e.value.length < abi.range)
    (hbound : offset + abi.entryHeaderSize + e.size + pad = bound)
    (hsame : ∀ i < bound, buffer' i = writeAll buffer (entryFields abi offset pad e) i) :
    HoldsEntry abi buffer' offset e := by
  have hword : abi.entryHeaderSize = 2 * abi.word := rfl
  have hsize : e.size = e.key.length + e.value.length := rfl
  have hread := @read_writeAll (entryFields abi offset pad e) _ _ _ ?_ ?_ hsame
  · exact ⟨leValue_field hread (by simp [entryFields]) hkey,
      leValue_field hread (by simp [entryFields]) hvalue, hread (_, _) (by simp [entryFields]),
      hread (_, _) (by simp [entryFields])⟩
  · simp [entryFields, length_leBytes]
    omega
  · simp [entryFields, length_leBytes]
    omega

theorem entry_sizes (hsize : size + 3 < abi.range) (hroom : offset + e.span abi ≤ size) :
    (abi.entryHeaderSize + e.key.length + e.value.length) % abi.range =
        abi.entryHeaderSize + e.size ∧
      align4 abi (abi.entryHeaderSize + e.size) = e.span abi ∧
      (offset + e.span abi) % abi.range = offset + e.span abi ∧
      (offset + abi.entryHeaderSize) % abi.range = offset + abi.entryHeaderSize ∧
      offset + abi.entryHeaderSize + e.size ≤ offset + e.span abi := by
  have hadd : abi.entryHeaderSize + e.key.length + e.value.length = abi.entryHeaderSize + e.size :=
    add_assoc _ _ _
  have hspan : e.span abi = (abi.entryHeaderSize + e.size + 3) / 4 * 4 := rfl
  refine ⟨?_, ?_, ?_, ?_, ?_⟩
  · rw [hadd, Nat.mod_eq_of_lt (by omega)]
  · rw [align4_eq (by omega), hspan]
  · exact Nat.mod_eq_of_lt (by omega)
  · exact Nat.mod_eq_of_lt (by omega)
  · omega

theorem flattenLoop_holds {size : Nat} (hsize : size + 3 < abi.range) {offset : Nat}
    (hroom : offset + spans abi entries ≤ size) (buffer : Mem) :
    ∃ buffer', flattenLoop abi size offset entries buffer = (.ok, buffer') ∧
      Holds abi buffer' offset entries ∧ ∀ i < offset, buffer' i = buffer i := by
  induction entries generalizing offset buffer with
  | nil => exact ⟨buffer, rfl, True.intro, fun _ _ => rfl⟩
  | cons e entries ih =>
    rw [spans_cons] at hroom
    obtain ⟨hentry, halign, hnext, -, hle⟩ :=
      entry_sizes hsize (show offset + e.span abi ≤ size by omega)
    have hsizes : e.size = e.key.length + e.value.length := rfl
    let pad := e.span abi - (abi.entryHeaderSize + e.size)
    have hpad : offset + abi.entryHeaderSize + e.size + pad = offset + e.span abi := by
      omega
    obtain ⟨buffer', hloop, hholds, hsame⟩ := @ih (offset + e.span abi) (by omega)
      (writeAll buffer (entryFields abi offset pad e))
    refine ⟨buffer', ?_, ⟨?_, hholds⟩, ?_⟩
    · rw [flattenLoop]
      simp only [hentry, halign, hnext]
      rw [if_neg (by omega)]
      exact hloop
    · exact holdsEntry_entryFields (by omega) (by omega) hpad hsame
    · intro i hi
      rw [hsame i (by omega), writeAll_of_lt]
      simp [entryFields]
      omega

theorem scan_holds (hsize : size + 3 < abi.range) (hroom : offset + spans abi entries ≤ size)
    (h : Holds abi buffer offset entries) :
    scan abi buffer size entries.length offset = (entries, true) := by
  induction entries generalizing offset with
  | nil => rfl
  | cons e entries ih =>
    rw [spans_cons] at hroom
    obtain ⟨hentry, halign, hnext, hheader, hle⟩ :=
      entry_sizes hsize (show offset + e.span abi ≤ size by omega)
    rw [length_cons, scan]
    simp only [h.1.keySize, h.1.valueSize, hentry, halign, hnext, hheader]
    rw [if_neg (by omega), ih (by omega) h.2, h.1.key, h.1.value]

/-! ## The header -/

theorem strncmpEq_self (bytes : Bytes) : strncmpEq bytes bytes = true := by
  induction bytes with
  | nil => rfl
  | cons b bytes ih => simp [strncmpEq, ih]

structure HoldsHeader (abi : Abi) (buildId : BuildId) (numEntries : Nat) (buffer : Mem) : Prop where
  magic : leValue (read buffer 0 4) = blobCacheMagic
  version : leValue (read buffer 4 4) = blobCacheVersion
  deviceVersion : leValue (read buffer 8 4) = blobCacheDeviceVersion
  count : leValue (read buffer abi.numEntriesAt abi.word) = numEntries
  buildIdLength : leValue (read buffer abi.buildIdLengthAt 4) = buildId.1.length
  build : read buffer abi.buildIdAt buildId.1.length = buildId.1

def headerFields (abi : Abi) (buildId : BuildId) (numEntries : Nat) : List (Nat × Bytes) :=
  [(0, leBytes 4 blobCacheMagic), (4, leBytes 4 blobCacheVersion),
    (8, leBytes 4 blobCacheDeviceVersion), (abi.numEntriesAt, leBytes abi.word numEntries),
    (abi.buildIdLengthAt, leBytes 4 buildId.1.length), (abi.buildIdAt, buildId.1)]

theorem holdsHeader_flattenHeader (buildId : BuildId) (hcount : numEntries < abi.range)
    (hsame : ∀ i < entriesAt abi buildId,
      buffer' i = flattenHeader abi buildId numEntries buffer i) :
    HoldsHeader abi buildId numEntries buffer' := by
  have hid : buildId.1.length < 92 := buildId.2
  have hread := @read_writeAll (headerFields abi buildId numEntries) _ _ _ ?_ ?_ hsame
  · exact ⟨leValue_field hread (by simp [headerFields]) (by decide),
      leValue_field hread (by simp [headerFields]) (by decide),
      leValue_field hread (by simp [headerFields]) (by decide),
      leValue_field hread (by simp [headerFields]) hcount,
      leValue_field hread (by simp [headerFields]) (by omega),
      hread (abi.buildIdAt, _) (by simp [headerFields])⟩
  · cases abi <;> simp [headerFields, length_leBytes, Abi.numEntriesAt, Abi.buildIdLengthAt,
      Abi.buildIdAt, Abi.word]
  · cases abi <;> simp [headerFields, length_leBytes, Abi.numEntriesAt, Abi.buildIdLengthAt,
      Abi.buildIdAt, Abi.word, entriesAt, Abi.headerSize] <;> omega

/-! ## Loading -/

section

variable (hroomy : lim.Roomy abi) {stale : Nat}

include hroomy

theorem set_last (h : Sound lim stale (cacheOf stale entries))
    (hlast : ∀ e' ∈ entries, e'.order < e.order) (hfits : e.Fits lim)
    (hroom : entriesSize (entries ++ [e]) + stale ≤ lim.maxTotalSize) (rand : Nat → Nat) :
    set abi lim rand e.key e.value (cacheOf stale entries) = .ok (cacheOf stale (entries ++ [e])) ∧
      Sound lim stale (cacheOf stale (entries ++ [e])) := by
  have hadd := add_last h.sorted hlast
  have hneeded := needed_eq h.sorted stale e.key e.value
  rw [hadd] at hneeded
  have hle := hneeded.trans_le hroom
  have hsound := h.stored hfits hle
  rw [hadd] at hsound
  refine ⟨?_, hsound⟩
  rw [set_eq_setLoop hroomy hfits, setLoop_eq hroomy h hfits, if_neg (not_lt.mpr hle), hadd]
  rfl

/-- With room for all of them the entries of a buffer are loaded as they are. -/
theorem unflattenLoop_holds (hsize : size + 3 < abi.range) (hin : offset + spans abi entries ≤ size)
    (h : Holds abi buffer offset entries) (hfits : ∀ e ∈ entries, e.Fits lim)
    {done : List CacheEntry} (hsound : Sound lim stale (cacheOf stale done))
    (hsorted : Sorted CacheEntry.order (done ++ entries))
    (hroom : entriesSize (done ++ entries) + stale ≤ lim.maxTotalSize) (rand : Nat → Nat → Nat) :
    unflattenLoop abi lim rand buffer size entries.length offset (cacheOf stale done) =
      .ok (.ok, cacheOf stale (done ++ entries)) := by
  induction entries generalizing offset done with
  | nil => simp [unflattenLoop]
  | cons e entries ih =>
    rw [spans_cons] at hin
    rw [append_cons] at hsorted hroom
    have hroom' := entriesSize_le (sublist_append_left (done ++ [e]) entries)
    obtain ⟨hentry, halign, hnext, hheader, hle⟩ :=
      entry_sizes hsize (show offset + e.span abi ≤ size by omega)
    obtain ⟨hset, hnext'⟩ := set_last hroomy hsound
      (fun e' he' => (pairwise_append.mp (pairwise_append.mp hsorted).1).2.2 e' he' e mem_cons_self)
      (hfits e (by simp)) (by omega) (rand entries.length)
    rw [length_cons, append_cons, unflattenLoop]
    simp only [h.1.keySize, h.1.valueSize, hentry, halign, hnext, hheader]
    rw [if_neg (by omega), if_neg (by omega), h.1.key, h.1.value, hset]
    exact ih (by omega) h.2 (fun e' he' => hfits e' (by simp [he'])) hnext' hsorted hroom

end

/-! ## The round trip -/

/-- The states that a client can bring a cache to. -/
def Reachable (abi : Abi) (lim : Limits) (buildId : BuildId) (c : Cache) : Prop :=
  ∃ calls : List Call, calls.foldlM (step abi lim buildId) Cache.new = .ok c

section

variable (hroomy : lim.Roomy abi) {buildId : BuildId}
include hroomy

theorem run_sound {calls : List Call} {c' : Cache} (h : ∃ stale, Sound lim stale c)
    (hrun : calls.foldlM (step abi lim buildId) c = .ok c') : ∃ stale, Sound lim stale c' := by
  induction calls generalizing c with
  | nil =>
    cases hrun
    exact h
  | cons call calls ih =>
    obtain ⟨stale, hsound⟩ := h
    rw [foldlM_cons] at hrun
    obtain ⟨c'', hstep, hrest⟩ := bind_eq_ok.mp hrun
    exact ih (step_sound hroomy buildId hsound hstep) hrest

theorem Reachable.sound (h : Reachable abi lim buildId c) : ∃ stale, Sound lim stale c := by
  obtain ⟨calls, hrun⟩ := h
  exact run_sound hroomy ⟨0, sound_new lim⟩ hrun

end

section

variable (hspace : lim.Spacious abi) (buildId : BuildId) {stale : Nat} (h : Sound lim stale c)

include hspace h

theorem flatten_holds (buffer : Mem) :
    ∃ buffer', flatten abi buildId buffer (getFlattenedSize abi c) c = (.ok, buffer') ∧
      HoldsHeader abi buildId c.cacheEntries.length buffer' ∧
      Holds abi buffer' (entriesAt abi buildId) c.cacheEntries := by
  have hbound := spans_bound hspace h
  have hsize := getFlattenedSize_eq hspace h
  have hat := entriesAt_le abi buildId
  have hid := buildId.2
  have hcount : c.cacheEntries.length < abi.range := by
    have hle := length_le_entriesSize h.fits
    have htotal := h.total_eq
    have hlimit := h.total_le
    have hroom := hspace.roomy.total_lt
    omega
  have halign : align4 abi (abi.headerSize + buildId.1.length) = entriesAt abi buildId := by
    apply align4_eq
    unfold headerSpan at hbound
    omega
  obtain ⟨buffer', hloop, hholds, hsame⟩ := @flattenLoop_holds abi c.cacheEntries
    (getFlattenedSize abi c) (by omega) (entriesAt abi buildId) (by omega)
    (flattenHeader abi buildId c.cacheEntries.length buffer)
  refine ⟨buffer', ?_, holdsHeader_flattenHeader buildId hcount hsame, hholds⟩
  unfold flatten
  rw [if_neg, halign, hloop]
  rw [hsize]
  unfold headerSpan
  omega

theorem accepted_of_holdsHeader (hheader : HoldsHeader abi buildId numEntries buffer) :
    Accepted abi buildId buffer (getFlattenedSize abi c) := by
  have hsize := getFlattenedSize_eq hspace h
  refine ⟨?_, hheader.magic, hheader.version, hheader.deviceVersion, hheader.buildIdLength.symm, ?_⟩
  · rw [hsize]
    unfold headerSpan
    omega
  · rw [hheader.build]
    exact strncmpEq_self _

end

/-- A reachable cache is flattened into a buffer of its size, and another one with
the same limits loads its contents from there exactly if they fit beside the
total that it still counts. -/
theorem unflatten_flatten_iff {abi : Abi} {lim : Limits} (hspace : lim.Spacious abi)
    (buildId : BuildId) {c t : Cache} (hc : Reachable abi lim buildId c)
    (ht : Reachable abi lim buildId t) (rand : Nat → Nat → Nat) (buffer : Mem) :
    ∃ buffer', flatten abi buildId buffer (getFlattenedSize abi c) c = (.ok, buffer') ∧
      ((∃ t', unflatten abi lim rand buildId buffer' (getFlattenedSize abi c) t = .ok (.ok, t') ∧
          t'.cacheEntries = c.cacheEntries) ↔
        t.totalSize + entriesSize c.cacheEntries ≤ lim.maxTotalSize) := by
  obtain ⟨stale, hsound⟩ := hc.sound hspace.roomy
  obtain ⟨stale', hsound'⟩ := ht.sound hspace.roomy
  obtain ⟨buffer', hflatten, hheader, hholds⟩ := flatten_holds hspace buildId hsound buffer
  have haccepted := accepted_of_holdsHeader hspace buildId hsound hheader
  have hbound := spans_bound hspace hsound
  have hsize := getFlattenedSize_eq hspace hsound
  have hat := entriesAt_le abi buildId
  have halign : align4 abi (abi.headerSize + buildId.1.length) = entriesAt abi buildId := by
    have hid := buildId.2
    apply align4_eq
    unfold headerSpan at hbound
    omega
  refine ⟨buffer', hflatten, ?_⟩
  rw [unflatten_of_accepted buildId haccepted, hheader.count, halign]
  constructor
  · rintro ⟨t', hload, hentries⟩
    have hscan := scan_holds (show getFlattenedSize abi c + 3 < abi.range by omega)
      (show _ ≤ getFlattenedSize abi c by omega) hholds
    have hloaded := (unflattenLoop_loaded hspace.roomy rand _ hsound'.clear).of_ok hload
    rw [hscan] at hloaded
    have hloadedSound := hloaded.complete rfl
    have htotal := hloadedSound.total_eq
    have hle := hloadedSound.total_le
    rw [hentries] at htotal
    omega
  · intro hroom
    have hclear := hsound'.clear
    rw [hsound'.clear.eq_cacheOf] at hclear ⊢
    rw [Nat.add_comm] at hroom
    exact ⟨_, unflattenLoop_holds hspace.roomy (by omega) (by omega) hholds hsound.fits hclear
      hsound.sorted hroom rand, rfl⟩

theorem spacious_smallLimits : smallLimits.Spacious .lp64 := ⟨by decide, by decide⟩

theorem reachable_oneEntry : Reachable .lp64 smallLimits noBuildId oneEntry :=
  ⟨[.set (fun _ => 0) [1] [2]], by decide +kernel⟩

def threeEntries : Cache :=
  { totalSize := 9, cacheEntries := [⟨[1], [2]⟩, ⟨[3], [4, 5]⟩, ⟨[3, 6], [7, 8]⟩] }

theorem reachable_threeEntries : Reachable .lp64 smallLimits noBuildId threeEntries :=
  ⟨[.set (fun _ => 0) [3] [4, 5], .set (fun _ => 0) [1] [2], .set (fun _ => 0) [3, 6] [7, 8]],
    by decide +kernel⟩

/-- The receiver has an entry that it drops. -/
theorem unflatten_flatten_threeEntries :
    ∃ buffer t', flatten .lp64 noBuildId (fun _ => 0) (getFlattenedSize .lp64 threeEntries)
          threeEntries = (.ok, buffer) ∧
      unflatten .lp64 smallLimits (fun _ _ => 0) noBuildId buffer
        (getFlattenedSize .lp64 threeEntries) oneEntry = .ok (.ok, t') ∧
      t'.cacheEntries = threeEntries.cacheEntries := by
  obtain ⟨buffer, hflatten, hload⟩ := unflatten_flatten_iff spacious_smallLimits noBuildId
    reachable_threeEntries reachable_oneEntry (fun _ _ => 0) fun _ => 0
  obtain ⟨t', ht', hentries⟩ := hload.mpr (by decide)
  exact ⟨buffer, t', hflatten, ht', hentries⟩

/-- Whatever bytes were loaded, the keys differ and no limit is exceeded. -/
theorem reachable_within_limits (hroomy : lim.Roomy abi) {buildId : BuildId}
    (h : Reachable abi lim buildId c) :
    Sorted CacheEntry.order c.cacheEntries ∧ (∀ e ∈ c.cacheEntries, e.Fits lim) ∧
      entriesSize c.cacheEntries ≤ c.totalSize ∧ c.totalSize ≤ lim.maxTotalSize := by
  obtain ⟨stale, hsound⟩ := h.sound hroomy
  exact ⟨hsound.sorted, hsound.fits, by rw [hsound.total_eq]; omega, hsound.total_le⟩

theorem reachable_within_limits_oneEntry : CacheEntry.Fits smallLimits ⟨[1], [2]⟩ :=
  (reachable_within_limits roomy_smallLimits reachable_oneEntry).2.1 _ (.head _)

def fullCache : Cache :=
  { totalSize := 20
    cacheEntries := [⟨[1, 1, 1, 1, 1, 1, 1, 1, 1, 1], [2, 2, 2, 2, 2, 2, 2, 2, 2, 2]⟩] }

/-- Loaded into itself, a full cache counts its entries twice. -/
theorem unflatten_fullCache_divides_by_zero :
    Reachable .lp64 smallLimits noBuildId fullCache ∧
    (flatten .lp64 noBuildId (fun _ => 0) (getFlattenedSize .lp64 fullCache) fullCache).1 = .ok ∧
    unflatten .lp64 smallLimits (fun _ _ => 0) noBuildId
      (flatten .lp64 noBuildId (fun _ => 0) (getFlattenedSize .lp64 fullCache) fullCache).2
      (getFlattenedSize .lp64 fullCache) fullCache = .error .divisionByZero := by
  refine ⟨⟨[.set (fun _ => 0) [1, 1, 1, 1, 1, 1, 1, 1, 1, 1] [2, 2, 2, 2, 2, 2, 2, 2, 2, 2]], ?_⟩,
    ?_, ?_⟩
  · decide +kernel
  · decide +kernel
  · decide +kernel

end ShieldTv.Libutils.BlobCache
