import ShieldTv.Binder.Parcel

/-!
# Reads of a received parcel

Every reader that checks the padded end of what it reads keeps the position inside the data.
Two do not: `readCString` advances over padding that it has not looked at, and
`readExceptionCode` goes where a header of the data says.
-/

namespace ShieldTv.Binder

open Lib.Bytes Lib.Memory Option

variable {len size : Nat}

variable {p p' : Parcel} {examined first : List Extent} {α : Type} {x : Read α} {objects : List Nat}

namespace Read

/-! ## Staying inside -/

/-- No buffer is longer than this; addresses have fewer bits. -/
def bufferMax : Nat := 2 ^ 62

def Inside (p : Parcel) : Prop := p.dataPos ≤ p.dataSize ∧ p.dataSize < bufferMax

/-- What a read may do: the data stays, and the position and all that was examined are in it. -/
structure Stays (p p' : Parcel) (examined : List Extent) : Prop where
  size : p'.dataSize = p.dataSize
  data : p'.data = p.data
  pos : p'.dataPos ≤ p.dataSize
  extents : ∀ extent ∈ examined, extent.1 + extent.2 ≤ p.dataSize

def SafeAt {α : Type} (p : Parcel) (x : Read α) : Prop :=
  ∀ a p' examined, x p = some (a, p', examined) → Stays p p' examined

theorem Stays.inside (h : Stays p p' examined) (hp : Inside p) : Inside p' :=
  ⟨by rw [h.size]; exact h.pos, by rw [h.size]; exact hp.2⟩

theorem Stays.trans {p'' : Parcel} {second : List Extent} (h : Stays p p' first)
    (h' : Stays p' p'' second) : Stays p p'' (first ++ second) where
  size := h'.size.trans h.size
  data := h'.data.trans h.data
  pos := h'.pos.trans h.size.le
  extents := by
    intro extent hmem
    rcases List.mem_append.mp hmem with hmem | hmem
    · exact h.extents extent hmem
    · exact (h'.extents extent hmem).trans h.size.le

theorem stays_refl (hp : Inside p) : Stays p p [] :=
  ⟨rfl, rfl, hp.1, by simp⟩

theorem parcel_bind (f : Parcel → Read α) (p : Parcel) : (parcel >>= f) p = f p p := by
  simp only [Bind.bind, parcel]
  cases f p p <;> rfl

theorem ite_run (c : Prop) [Decidable c] (x y : Read α) (p : Parcel) :
    (if c then x else y : Read α) p = if c then x p else y p := by
  split_ifs <;> rfl

section

variable {β : Type} {f : α → Read β}

theorem bind_run {p₁ : Parcel} {a : α} (hx : x p = some (a, p₁, first)) :
    (x >>= f) p = (f a p₁).map fun (b, p₂, second) => (b, p₂, first ++ second) := by
  simp only [Bind.bind, hx]
  cases f a p₁ <;> rfl

theorem bind_eq_some {b : β} (h : (x >>= f) p = some (b, p', examined)) :
    ∃ a p₁ first second, x p = some (a, p₁, first) ∧ f a p₁ = some (b, p', second) ∧
      examined = first ++ second := by
  cases hx : x p with
  | none => simp [bind, hx] at h
  | some r =>
    obtain ⟨a, p₁, first⟩ := r
    rw [bind_run hx] at h
    obtain ⟨⟨b', p₂, second⟩, hf, heq⟩ := map_eq_some_iff.mp h
    cases heq
    exact ⟨a, p₁, first, second, rfl, hf, rfl⟩

end

theorem safeAt_pure (hp : Inside p) (a : α) : SafeAt p (pure a : Read α) := by
  intro a' p' examined h
  cases h
  exact stays_refl hp

theorem safeAt_bind {β : Type} (hp : Inside p) {f : α → Read β} (hx : SafeAt p x)
    (hf : ∀ a p', p'.dataSize = p.dataSize → Inside p' → SafeAt p' (f a)) : SafeAt p (x >>= f) := by
  intro b p' examined h
  obtain ⟨a, p₁, first, second, hx', hf', rfl⟩ := bind_eq_some h
  have hstays := hx a p₁ first hx'
  exact hstays.trans (hf a p₁ hstays.size (hstays.inside hp) b p' second hf')

theorem safeAt_parcel_bind {f : Parcel → Read α} (h : SafeAt p (f p)) :
    SafeAt p (parcel >>= f) := by
  intro a p' examined heq
  obtain ⟨q, p₁, first, second, hq, hf, rfl⟩ := bind_eq_some heq
  cases hq
  exact h a p' second hf

theorem safeAt_ite {c : Prop} [Decidable c] {x y : Read α}
    (hx : c → SafeAt p x) (hy : ¬ c → SafeAt p y) : SafeAt p (if c then x else y) := by
  split_ifs with hc
  · exact hx hc
  · exact hy hc

/-- What the readers share: a part of the data is examined and passed over. -/
theorem safeAt_consume (hp : Inside p) {pos : Nat} (hlen : p.dataPos + len ≤ p.dataSize)
    (hpos : pos ≤ p.dataSize) (hx : ∀ p', Inside p' → SafeAt p' x) :
    SafeAt p (do examine p.dataPos len; moveTo pos; x) := by
  refine safeAt_bind hp ?_ fun _ p₁ hsize hp₁ => safeAt_bind hp₁ ?_ fun _ p₂ _ hp₂ => hx p₂ hp₂
  · intro a p' examined h
    cases h
    exact ⟨rfl, rfl, hp.1, by simpa using hlen⟩
  · intro a p' examined h
    cases h
    exact ⟨rfl, rfl, hpos.trans hsize.ge, by simp⟩

/-! ## The readers -/

theorem le_padSize (len : Nat) : len ≤ padSize len := by
  simp only [padSize]
  omega

section

variable (hp : Inside p)
include hp

/-- The reader of `len` bytes and their padding. -/
theorem safeAt_padded (len : Nat) (tooLong a short : α) :
    SafeAt p (if len > int32Max then pure tooLong
      else if fits p len then do
        examine p.dataPos len
        moveTo (addSize p.dataPos (padSize len))
        pure a
      else pure short : Read α) := by
  split_ifs with hlen hfits
  · exact safeAt_pure hp _
  · have hle : p.dataPos + padSize len ≤ p.dataSize := by
      obtain ⟨hpos, hsize⟩ := hp
      simp only [int32Max] at hlen
      simp only [fits, addSize, padSize] at hfits ⊢
      omega
    have := le_padSize len
    exact safeAt_consume hp (by omega) ((Nat.mod_le _ _).trans hle) fun _ hp' => safeAt_pure hp' _
  · exact safeAt_pure hp _

theorem safeAt_readInplace (len : Nat) : SafeAt p (readInplace len) :=
  safeAt_parcel_bind (safeAt_padded hp len _ _ _)

theorem safeAt_read (len : Nat) : SafeAt p (read len) :=
  safeAt_parcel_bind (safeAt_padded hp len _ _ _)

theorem addSize_eq (hlen : len < 2 ^ 32) : addSize p.dataPos len = p.dataPos + len := by
  obtain ⟨hpos, hsize⟩ := hp
  simp only [bufferMax] at hsize
  simp only [addSize]
  omega

theorem safeAt_readAligned (hsize : size < 2 ^ 32) : SafeAt p (readAligned size) := by
  apply safeAt_parcel_bind
  rw [addSize_eq hp hsize]
  split_ifs with hfits
  · exact safeAt_consume hp hfits hfits fun _ hp' => safeAt_pure hp' _
  · exact safeAt_pure hp _

theorem safeAt_readInt32 : SafeAt p readInt32 :=
  safeAt_bind hp (safeAt_readAligned hp (by omega)) fun _ _ _ hp' => safeAt_pure hp' _

theorem safeAt_readInt64 : SafeAt p readInt64 :=
  safeAt_bind hp (safeAt_readAligned hp (by omega)) fun _ _ _ hp' => safeAt_pure hp' _

/-- The reader of a string behind its size. -/
theorem safeAt_sized {ok : Int → Prop} [DecidablePred ok] (bytes : Int → Nat)
    (str : Int → Nat → Parcel → α) (empty : α) :
    SafeAt p (do
      let size ← readInt32
      if ok size then
        match ← readInplace (bytes size) with
        | some pos => return str size pos (← parcel)
        | none => return empty
      else return empty) := by
  refine safeAt_bind hp (safeAt_readInt32 hp) ?_
  intro size p₁ _ hp₁
  split_ifs with hsize
  · refine safeAt_bind hp₁ (safeAt_readInplace hp₁ _) ?_
    intro str p₂ _ hp₂
    cases str with
    | none => exact safeAt_pure hp₂ _
    | some str => exact safeAt_parcel_bind (safeAt_pure hp₂ _)
  · exact safeAt_pure hp₁ _

theorem safeAt_readString8 : SafeAt p readString8 :=
  safeAt_sized hp _ (fun size str p => Lib.Memory.read p.data str size.toNat) []

theorem safeAt_readString16 : SafeAt p readString16 :=
  safeAt_sized hp _ (fun size str p => some (Lib.Memory.read p.data str (size.toNat * 2))) none

theorem safeAt_findObject (pos : Nat) : SafeAt p (findObject pos) := by
  have hfound : ∀ hint,
      SafeAt p (fun p => some (some pos, { p with nextObjectHint := hint }, [])) := by
    intro hint a p' examined h
    cases h
    exact ⟨rfl, rfl, hp.1, by simp⟩
  apply safeAt_parcel_bind
  refine safeAt_ite (fun _ => safeAt_ite (fun _ => hfound _) fun _ => ?_) fun _ => safeAt_pure hp _
  exact safeAt_ite (fun _ => hfound _) fun _ => safeAt_pure hp _

theorem safeAt_readObject (nullMetaData : Bool) : SafeAt p (readObject nullMetaData) := by
  apply safeAt_parcel_bind
  dsimp only
  rw [addSize_eq hp (by decide)]
  split_ifs with hfits hnull
  · exact safeAt_consume hp hfits hfits fun _ hp' => safeAt_pure hp' _
  · exact safeAt_consume hp hfits hfits fun _ hp' => safeAt_findObject hp' _
  · exact safeAt_pure hp _

end

/-! ## Strings -/

theorem memchr_lt {mem : Mem} {str avail : Nat} (h : memchr mem str avail = some len) :
    len < avail := by
  induction avail generalizing str len with
  | zero => simp [memchr] at h
  | succ avail ih =>
    rw [memchr] at h
    split_ifs at h with hzero
    · cases h
      omega
    · obtain ⟨len', hlen', rfl⟩ := map_eq_some_iff.mp h
      have := ih hlen'
      omega

/-- The padded end of the string at the position is in the data. -/
def CStringFits (p : Parcel) : Prop :=
  ∀ len, memchr p.data p.dataPos (p.dataSize - p.dataPos) = some len →
    p.dataPos + padSize (len + 1) ≤ p.dataSize

theorem readCString_eq (p : Parcel) : readCString p =
      if addSize p.dataSize (2 ^ 64 - p.dataPos) > 0 then
        match memchr p.data p.dataPos (addSize p.dataSize (2 ^ 64 - p.dataPos)) with
        | some len =>
          some (some (Lib.Memory.read p.data p.dataPos len),
            { p with dataPos := addSize p.dataPos (padSize (len + 1)) }, [(p.dataPos, len + 1)])
        | none => some (none, p, [(p.dataPos, addSize p.dataSize (2 ^ 64 - p.dataPos))])
      else some (none, p, []) := by
  rw [readCString, parcel_bind, ite_run]
  refine if_congr Iff.rfl ?_ rfl
  cases memchr p.data p.dataPos (addSize p.dataSize (2 ^ 64 - p.dataPos)) <;> rfl

theorem readCString_run
    (hchr : memchr p.data p.dataPos (addSize p.dataSize (2 ^ 64 - p.dataPos)) = some len) :
    readCString p = some (some (Lib.Memory.read p.data p.dataPos len),
      { p with dataPos := addSize p.dataPos (padSize (len + 1)) }, [(p.dataPos, len + 1)]) := by
  have hlen := memchr_lt hchr
  rw [readCString_eq, if_pos (by omega), hchr]

theorem safeAt_readCString_iff (hp : Inside p) : SafeAt p readCString ↔ CStringFits p := by
  obtain ⟨hpos, hsize⟩ := hp
  simp only [bufferMax] at hsize
  have havail : addSize p.dataSize (2 ^ 64 - p.dataPos) = p.dataSize - p.dataPos := by
    simp only [addSize]
    omega
  rw [SafeAt, readCString_eq, havail, CStringFits]
  by_cases hmore : p.dataSize - p.dataPos > 0
  · rw [if_pos hmore]
    cases hchr : memchr p.data p.dataPos (p.dataSize - p.dataPos) with
    | none =>
      simp only [reduceCtorEq, false_imp_iff, implies_true, iff_true]
      intro a p' examined h
      cases h
      exact ⟨rfl, rfl, hpos, by simp; omega⟩
    | some len =>
      have hlen := memchr_lt hchr
      have hend : addSize p.dataPos (padSize (len + 1)) = p.dataPos + padSize (len + 1) := by
        simp only [addSize, padSize]
        omega
      dsimp only
      rw [hend]
      constructor
      · intro h len' heq
        cases heq
        exact (h _ _ _ rfl).pos
      · intro h a p' examined heq
        cases heq
        exact ⟨rfl, rfl, h len rfl, by simp; omega⟩
  · rw [if_neg hmore, show p.dataSize - p.dataPos = 0 by omega]
    constructor
    · intro _ len heq
      simp [memchr] at heq
    · intro _ a p' examined h
      cases h
      exact ⟨rfl, rfl, hpos, by simp⟩

theorem readCString_keeps {p p' : Parcel} {str : Option Bytes} {examined : List Extent}
    (h : readCString p = some (str, p', examined)) :
    p'.dataSize = p.dataSize ∧ p'.data = p.data := by
  rw [readCString_eq] at h
  split_ifs at h
  · cases hchr : memchr p.data p.dataPos (addSize p.dataSize (2 ^ 64 - p.dataPos)) with
    | _ =>
      rw [hchr] at h
      cases h
      exact ⟨rfl, rfl⟩
  · cases h
    exact ⟨rfl, rfl⟩

/-! ## Exception codes -/

/-- The `int32_t` at an offset, or 0 past the end. -/
def int32At (p : Parcel) (pos : Nat) : Int :=
  if pos + 4 ≤ p.dataSize then toInt32 (leValue (Lib.Memory.read p.data pos 4)) else 0

/-- Where the header at the position says that the data goes on. -/
def headerEnd (p : Parcel) : Int :=
  (toInt32 (p.dataPos + 4) + int32At p (p.dataPos + 4)).bmod (2 ^ 32)

/-- There is no header at the position, or it ends in the data, or `setDataPosition` aborts. -/
def HeaderFits (p : Parcel) : Prop :=
  int32At p p.dataPos = -128 → headerEnd p < 0 ∨ headerEnd p ≤ p.dataSize

theorem readAligned_run (hp : Inside p) (hsize : size < 2 ^ 32) :
    readAligned size p = some (
      if p.dataPos + size ≤ p.dataSize then leValue (Lib.Memory.read p.data p.dataPos size) else 0,
      { p with dataPos := if p.dataPos + size ≤ p.dataSize then p.dataPos + size else p.dataPos },
      if p.dataPos + size ≤ p.dataSize then [(p.dataPos, size)] else []) := by
  rw [readAligned, parcel_bind, addSize_eq hp hsize, ite_run]
  split_ifs <;> rfl

theorem readInt32_run (hp : Inside p) : readInt32 p = some (int32At p p.dataPos,
      { p with dataPos := if p.dataPos + 4 ≤ p.dataSize then p.dataPos + 4 else p.dataPos },
      if p.dataPos + 4 ≤ p.dataSize then [(p.dataPos, 4)] else []) := by
  rw [readInt32, bind_run (readAligned_run hp (by omega)), int32At]
  split_ifs <;> rfl

/-- A sum of two `int32_t` is converted to a `size_t` that `setDataPosition` accepts iff it is
not negative. -/
theorem setDataPosition_bmod (p : Parcel) (x : Int) :
    setDataPosition ((x.bmod (2 ^ 32)) % 2 ^ 64).toNat p
      = if x.bmod (2 ^ 32) < 0 then none
        else some ((), { p with dataPos := (x.bmod (2 ^ 32)).toNat, nextObjectHint := 0 }, []) := by
  have hlow := Int.le_bmod (x := x) (m := 2 ^ 32) (by omega)
  have hhigh := Int.bmod_lt (x := x) (m := 2 ^ 32) (by omega)
  rw [setDataPosition, Parcel.setDataPosition, int32Max]
  by_cases hneg : x.bmod (2 ^ 32) < 0
  · rw [if_pos (by omega), if_pos hneg]
    rfl
  · rw [if_neg (by omega), if_neg hneg, Int.emod_eq_of_lt (by omega) (by omega)]
    rfl

theorem skipHeader_run (start : Int) {q q' : Parcel} {headerSize : Int}
    (hsize : readInt32 q = some (headerSize, q', examined)) :
    skipHeader start q = if (start + headerSize).bmod (2 ^ 32) < 0 then none
      else some (0, { q' with dataPos := ((start + headerSize).bmod (2 ^ 32)).toNat,
                              nextObjectHint := 0 }, examined) := by
  have hmove := setDataPosition_bmod q' (start + headerSize)
  rw [skipHeader, bind_run hsize]
  split_ifs at hmove ⊢ with hneg
  · simp only [bind, hmove, map_none]
  · rw [bind_run hmove]
    simp [pure]

/-- A header: the code and, if it is there, the size of the header are examined. -/
theorem readExceptionCode_header (hp : Inside p) (hcode : int32At p p.dataPos = -128) :
    ∃ examined, (∀ extent ∈ examined, extent.1 + extent.2 ≤ p.dataSize) ∧
      readExceptionCode p = if headerEnd p < 0 then none
        else some (0, { p with dataPos := (headerEnd p).toNat, nextObjectHint := 0 },
          examined) := by
  have hfits : p.dataPos + 4 ≤ p.dataSize := by
    by_contra hpast
    rw [int32At, if_neg hpast] at hcode
    omega
  have hfirst := readInt32_run hp
  rw [hcode, if_pos hfits, if_pos hfits] at hfirst
  have hp₁ : Inside { p with dataPos := p.dataPos + 4 } := ⟨hfits, hp.2⟩
  obtain ⟨pos, rest, hsecond⟩ : ∃ pos rest, readInt32 { p with dataPos := p.dataPos + 4 }
      = some (int32At p (p.dataPos + 4), { p with dataPos := pos }, rest) :=
    ⟨_, _, readInt32_run hp₁⟩
  refine ⟨(p.dataPos, 4) :: rest,
    List.forall_mem_cons.mpr ⟨hfits, (safeAt_readInt32 hp₁ _ _ _ hsecond).extents⟩, ?_⟩
  rw [readExceptionCode, bind_run hfirst, if_pos rfl, parcel_bind, skipHeader_run _ hsecond,
    ← headerEnd]
  split_ifs <;> rfl

theorem readExceptionCode_plain (hp : Inside p) (hcode : int32At p p.dataPos ≠ -128) :
    SafeAt p readExceptionCode := by
  have hfirst := readInt32_run hp
  intro a p' examined h
  have hstays := safeAt_readInt32 hp _ _ _ hfirst
  rw [readExceptionCode, bind_run hfirst, if_neg hcode] at h
  cases h
  simpa using hstays

theorem readExceptionCode_keeps (hp : Inside p) {code : Int}
    (h : readExceptionCode p = some (code, p', examined)) :
    p'.dataSize = p.dataSize ∧ p'.data = p.data := by
  by_cases hcode : int32At p p.dataPos = -128
  · obtain ⟨examined', _, hrun⟩ := readExceptionCode_header hp hcode
    rw [hrun] at h
    split_ifs at h
    cases h
    exact ⟨rfl, rfl⟩
  · have hstays := readExceptionCode_plain hp hcode code p' examined h
    exact ⟨hstays.size, hstays.data⟩

theorem safeAt_readExceptionCode_iff (hp : Inside p) :
    SafeAt p readExceptionCode ↔ HeaderFits p := by
  by_cases hcode : int32At p p.dataPos = -128
  · obtain ⟨examined, hextents, hrun⟩ := readExceptionCode_header hp hcode
    rw [SafeAt, hrun, HeaderFits]
    by_cases hneg : headerEnd p < 0
    · simp [hneg]
    · rw [if_neg hneg]
      constructor
      · intro h _
        have := (h _ _ _ rfl).pos
        dsimp only at this
        omega
      · intro h a p' examined' heq
        cases heq
        refine ⟨rfl, rfl, ?_, hextents⟩
        dsimp only
        omega
  · exact ⟨fun _ h => absurd h hcode, fun _ => readExceptionCode_plain hp hcode⟩

end Read

/-! ## Sequences of reads -/

inductive ReadCall where
  | read (len : Nat)
  | readInplace (len : Nat)
  | readInt32
  | readInt64
  | readCString
  | readString8
  | readString16
  | readExceptionCode
  | readObject (nullMetaData : Bool)

namespace ReadCall

open Read

def run : ReadCall → Parcel → Option (Parcel × List Extent)
  | read len, p => (Read.read len p).map (·.2)
  | readInplace len, p => (Read.readInplace len p).map (·.2)
  | readInt32, p => (Read.readInt32 p).map (·.2)
  | readInt64, p => (Read.readInt64 p).map (·.2)
  | readCString, p => (Read.readCString p).map (·.2)
  | readString8, p => (Read.readString8 p).map (·.2)
  | readString16, p => (Read.readString16 p).map (·.2)
  | readExceptionCode, p => (Read.readExceptionCode p).map (·.2)
  | readObject nullMetaData, p => (Read.readObject nullMetaData p).map (·.2)

/-- What a call examines and where it leaves the position is inside the data, call by call. -/
def SafeRun (p : Parcel) : List ReadCall → Prop
  | [] => True
  | call :: calls => ∀ p' examined, call.run p = some (p', examined) →
      (∀ extent ∈ examined, extent.1 + extent.2 ≤ p.dataSize) ∧ p'.dataPos ≤ p'.dataSize ∧
        SafeRun p' calls

/-- What a call needs of the data at the position. -/
def Fits (p : Parcel) : ReadCall → Prop
  | readCString => CStringFits p
  | readExceptionCode => HeaderFits p
  | _ => True

/-- Every string read by `readCString` is padded in the data, and every header that
`readExceptionCode` skips ends in the data. -/
def FitsRun (p : Parcel) : List ReadCall → Prop
  | [] => True
  | call :: calls => call.Fits p ∧ ∀ p' examined, call.run p = some (p', examined) →
      FitsRun p' calls

theorem stays_run_iff (p : Parcel) (x : Read α) :
    (∀ p' examined, (x p).map (·.2) = some (p', examined) → Stays p p' examined) ↔ SafeAt p x := by
  constructor
  · intro h a p' examined hx
    exact h p' examined (by rw [hx]; rfl)
  · intro h p' examined hx
    obtain ⟨r, hr, hrest⟩ := map_eq_some_iff.mp hx
    exact h r.1 p' examined (by rw [hr, ← hrest])

theorem stays_run (h : SafeAt p x) :
    (∀ p' examined, (x p).map (·.2) = some (p', examined) → Stays p p' examined) ↔ True :=
  (stays_run_iff p x).trans (iff_true_intro h)

/-- The spec of every call: it stays inside iff what it needs is there. -/
theorem stays_run_iff_fits (hp : Inside p) (call : ReadCall) :
    (∀ p' examined, call.run p = some (p', examined) → Stays p p' examined) ↔ call.Fits p := by
  cases call with
  | read len => exact stays_run (safeAt_read hp len)
  | readInplace len => exact stays_run (safeAt_readInplace hp len)
  | readInt32 => exact stays_run (safeAt_readInt32 hp)
  | readInt64 => exact stays_run (safeAt_readInt64 hp)
  | readCString => exact (stays_run_iff p _).trans (safeAt_readCString_iff hp)
  | readString8 => exact stays_run (safeAt_readString8 hp)
  | readString16 => exact stays_run (safeAt_readString16 hp)
  | readExceptionCode => exact (stays_run_iff p _).trans (safeAt_readExceptionCode_iff hp)
  | readObject nullMetaData => exact stays_run (safeAt_readObject hp nullMetaData)

theorem run_keeps (hp : Inside p) {call : ReadCall} (h : call.run p = some (p', examined)) :
    p'.dataSize = p.dataSize ∧ p'.data = p.data := by
  cases call with
  | readCString =>
    obtain ⟨r, hr, hrest⟩ := map_eq_some_iff.mp h
    exact @readCString_keeps p p' r.1 examined (by rw [hr, ← hrest])
  | readExceptionCode =>
    obtain ⟨r, hr, hrest⟩ := map_eq_some_iff.mp h
    exact readExceptionCode_keeps hp (by rw [hr, ← hrest])
  | _ =>
    have hstays : Stays p p' examined := by
      refine (stays_run_iff_fits hp _).mpr ?_ p' examined h
      trivial
    exact ⟨hstays.size, hstays.data⟩

theorem safeRun_iff (hp : Inside p) (calls : List ReadCall) :
    SafeRun p calls ↔ FitsRun p calls := by
  induction calls generalizing p with
  | nil => exact Iff.rfl
  | cons call calls ih =>
    have hstep := stays_run_iff_fits hp call
    constructor
    · intro h
      have hstays : ∀ p' examined, call.run p = some (p', examined) → Stays p p' examined := by
        intro p' examined hrun
        have ⟨hextents, hpos, _⟩ := h p' examined hrun
        obtain ⟨hsize, hdata⟩ := run_keeps hp hrun
        exact ⟨hsize, hdata, by omega, hextents⟩
      refine ⟨hstep.mp hstays, ?_⟩
      intro p' examined hrun
      exact (ih ((hstays p' examined hrun).inside hp)).mp (h p' examined hrun).2.2
    · intro h p' examined hrun
      have hstays := hstep.mpr h.1 p' examined hrun
      have hp' := hstays.inside hp
      exact ⟨hstays.extents, hp'.1, (ih hp').mpr (h.2 p' examined hrun)⟩

end ReadCall

/-! ## A received parcel -/

open Read ReadCall Parcel

theorem scanForFds_inside (mem : Mem)
    (hobjects : ∀ offset ∈ objects, offset + sizeofFlatBinderObject ≤ size) :
    ∀ extent ∈ (scanForFds mem objects).2, extent.1 + extent.2 ≤ size := by
  induction objects with
  | nil => simp [scanForFds]
  | cons offset offsets ih =>
    have hfirst := hobjects offset (by simp)
    have hrest := ih fun offset' hmem => hobjects offset' (by simp [hmem])
    simp only [sizeofFlatBinderObject] at hfirst
    intro extent hmem
    rw [scanForFds] at hmem
    split_ifs at hmem
    · obtain rfl := List.mem_singleton.mp hmem
      omega
    · rcases List.mem_cons.mp hmem with rfl | hmem
      · omega
      · exact hrest extent hmem

theorem ipcSetDataReference_scan (data : Mem)
    (hobjects : ∀ offset ∈ objects, offset + sizeofFlatBinderObject ≤ size) :
    ∀ extent ∈ (ipcSetDataReference data size objects).2, extent.1 + extent.2 ≤ size := by
  rw [ipcSetDataReference]
  apply scanForFds_inside
  intro offset hmem
  split_ifs at hmem
  · exact hobjects offset hmem
  · simp at hmem

/-- Taking over a buffer and reading it stays in the data iff each string and each header that is
read ends, with its padding, in the data. -/
theorem received_reads_inside_iff (data : Mem) {size : Nat} (hsize : size < bufferMax)
    {objects : List Nat}
    (hobjects : ∀ offset ∈ objects, offset + sizeofFlatBinderObject ≤ size)
    (calls : List ReadCall) :
    ((∀ extent ∈ (ipcSetDataReference data size objects).2, extent.1 + extent.2 ≤ size) ∧
        SafeRun (ipcSetDataReference data size objects).1 calls)
      ↔ FitsRun (ipcSetDataReference data size objects).1 calls := by
  rw [and_iff_right (ipcSetDataReference_scan data hobjects)]
  exact safeRun_iff ⟨Nat.zero_le _, hsize⟩ calls

def abcd : Mem := Lib.Memory.write (fun _ => 0) 0 [0x61, 0x62, 0x63, 0x64, 0]

theorem memchr_abcd (avail : Nat) : memchr abcd 0 (avail + 5) = some 4 := by
  have hbytes : abcd 0 = 0x61 ∧ abcd 1 = 0x62 ∧ abcd 2 = 0x63 ∧ abcd 3 = 0x64 ∧ abcd 4 = 0 := by
    decide
  simp [memchr, hbytes]

theorem received_reads_inside_iff_abcd :
    SafeRun (ipcSetDataReference abcd 8 []).1 [.readCString] := by
  have hfits : FitsRun (ipcSetDataReference abcd 8 []).1 [.readCString] := by
    refine ⟨?_, fun _ _ _ => trivial⟩
    intro len hlen
    have hchr : memchr abcd 0 8 = some 4 := memchr_abcd 3
    obtain rfl : 4 = len := some.inj (hchr.symm.trans hlen)
    decide
  exact ((received_reads_inside_iff abcd (by decide : 8 < bufferMax) (by simp) _).mpr hfits).2

/-- Without the padding, `readCString` leaves the position behind the data, and the next one
finds its string there. -/
theorem readCString_leaves_the_data :
    ¬ SafeRun (ipcSetDataReference abcd 5 []).1 [.readCString] ∧
    ∃ p' p'' examined, run .readCString (ipcSetDataReference abcd 5 []).1 = some (p', examined) ∧
      p'.dataSize = 5 ∧ p'.dataPos = 8 ∧ run .readCString p' = some (p'', [(8, 1)]) := by
  have hfirst : run .readCString (ipcSetDataReference abcd 5 []).1
      = some ({ (ipcSetDataReference abcd 5 []).1 with dataPos := 8 }, [(0, 5)]) := rfl
  have hsecond : run .readCString { (ipcSetDataReference abcd 5 []).1 with dataPos := 8 }
      = some ({ (ipcSetDataReference abcd 5 []).1 with dataPos := 12 }, [(8, 1)]) := by
    have hchr : memchr abcd 8 (2 ^ 64 - 4 + 1) = some 0 := by
      rw [memchr, if_pos (by decide)]
    rw [run, readCString_run hchr]
    rfl
  refine ⟨?_, _, _, _, hfirst, rfl, rfl, hsecond⟩
  intro hsafe
  exact absurd (hsafe _ _ hfirst).2.1 (by decide)

end ShieldTv.Binder
