import ShieldTv.Applypatch.Bsdiff

/-!
# What `bsdiff` emits

Whatever `search` answers, the triples cut the new file into consecutive pieces: a
part that differs from a part of the old file by the diff data, and a part that is
copied to the extra data.
-/

namespace ShieldTv.Applypatch

open Lib.Bytes List

/-! ## Pieces -/

/-- A control triple with its part of the diff and of the extra data. -/
structure Piece where
  diff : Bytes
  extra : Bytes
  seek : Int

def Piece.size (piece : Piece) : Nat := piece.diff.length + piece.extra.length

def Piece.ctrl (piece : Piece) : Bytes :=
  offtout piece.diff.length ++ offtout piece.extra.length ++ offtout piece.seek

def Blocks.ofPieces (pieces : List Piece) : Blocks where
  ctrl := pieces.flatMap Piece.ctrl
  db := pieces.flatMap Piece.diff
  eb := pieces.flatMap Piece.extra

variable {old new : Bytes}

/-- The piece describes `new` from `newpos` on in terms of `old` from `oldpos` on. -/
structure Describes (old new : Bytes) (newpos oldpos : Nat) (piece : Piece) : Prop where
  start : newpos < new.length
  room : newpos + piece.size ≤ new.length
  inOld : oldpos + piece.diff.length ≤ old.length
  diff_eq : piece.diff = List.zipWith (· - ·) (slice new newpos piece.diff.length)
    (slice old oldpos piece.diff.length)
  extra_eq : piece.extra = slice new (newpos + piece.diff.length) piece.extra.length

/-- The pieces describe `new` from `newpos` to its end. -/
inductive Rebuilds (old new : Bytes) : List Piece → Nat → Nat → Prop
  | nil (oldpos : Nat) : Rebuilds old new [] new.length oldpos
  | cons {piece : Piece} {pieces : List Piece} {newpos oldpos next : Nat}
      (describes : Describes old new newpos oldpos piece) (next_le : next ≤ old.length)
      (seek_eq : piece.seek = (next : Int) - (oldpos + piece.diff.length : Nat))
      (rest : Rebuilds old new pieces (newpos + piece.size) next) :
      Rebuilds old new (piece :: pieces) newpos oldpos

/-! ## Bounds of the extents -/

theorem len_next_le {best : Best} {i n : Nat} (equal : Bool) (hbest : best.len ≤ n) (hi : i ≤ n) :
    (best.next i equal).len ≤ n := by
  unfold Best.next
  dsimp only
  split_ifs <;> dsimp only <;> omega

theorem forward_le (old new : Bytes) (scan lastscan lastpos : Nat) :
    forward old new scan lastscan lastpos ≤ min (scan - lastscan) (old.length - lastpos) := by
  refine foldlRecOn (motive := fun best : Best => best.len ≤ _) _ _ (Nat.zero_le _) ?_
  intro best hbest i hi
  exact len_next_le _ hbest (mem_range.mp hi)

theorem backward_le (old new : Bytes) (scan lastscan pos : Nat) :
    backward old new scan lastscan pos ≤ min (scan - lastscan) pos := by
  refine foldlRecOn (motive := fun best : Best => best.len ≤ _) _ _ (Nat.zero_le _) ?_
  intro best hbest i hi
  have hlt := (mem_range'_1.mp hi).2
  exact len_next_le _ hbest (by omega)

theorem lens_next_le {split : Split} {i n : Nat} (equalF equalB : Bool) (hsplit : split.lens ≤ n)
    (hi : i < n) : (split.next i equalF equalB).lens ≤ n := by
  unfold Split.next
  dsimp only
  split_ifs <;> dsimp only <;> omega

theorem splitOverlap_le (old new : Bytes) (overlap newF oldF newB oldB : Nat) :
    splitOverlap old new overlap newF oldF newB oldB ≤ overlap := by
  refine foldlRecOn (motive := fun split : Split => split.lens ≤ _) _ _ (Nat.zero_le _) ?_
  intro split hsplit i hi
  exact lens_next_le _ _ hsplit (mem_range.mp hi)

/-- What a triple relies on: the two extents do not overlap and stay in both files. -/
structure Extents (old new : Bytes) (state : DiffState) (m : Match) (lenf lenb : Nat) :
    Prop where
  disjoint : state.lastscan + lenf ≤ m.scan - lenb
  lenb_le_scan : lenb ≤ m.scan
  inOld : state.lastpos + lenf ≤ old.length
  lenb_le_pos : lenb ≤ m.pos
  atEnd : m.scan = new.length → lenb = 0

theorem extents_spec (new : Bytes) {state : DiffState} {m : Match} (hlast : state.lastscan ≤ m.scan)
    (hpos : state.lastpos ≤ old.length) :
    Extents old new state m (extents old new state m).1 (extents old new state m).2 := by
  have hf := forward_le old new m.scan state.lastscan state.lastpos
  unfold extents
  simp only
  generalize forward old new m.scan state.lastscan state.lastpos = lenf at *
  have hb : (if m.scan < new.length then backward old new m.scan state.lastscan m.pos else 0) ≤
      min (m.scan - state.lastscan) m.pos := by
    split
    · exact backward_le old new m.scan state.lastscan m.pos
    · exact Nat.zero_le _
  have hend : m.scan = new.length →
      (if m.scan < new.length then backward old new m.scan state.lastscan m.pos else 0) = 0 :=
    fun h => if_neg (by omega)
  generalize (if m.scan < new.length then backward old new m.scan state.lastscan m.pos else 0) =
    lenb at *
  split
  · have hs := splitOverlap_le old new (state.lastscan + lenf - (m.scan - lenb))
      (state.lastscan + lenf - (state.lastscan + lenf - (m.scan - lenb)))
      (state.lastpos + lenf - (state.lastscan + lenf - (m.scan - lenb))) (m.scan - lenb)
      (m.pos - lenb)
    generalize splitOverlap old new _ _ _ _ _ = lens at *
    constructor <;> simp only <;> omega
  · constructor <;> simp only <;> omega

/-! ## The scan stops at a match -/

def agreements (old new : Bytes) (lastoffset : Int) (n : Nat) : Nat :=
  (List.range n).countP (agrees old new lastoffset)

section

variable (old new : Bytes)

theorem agreements_succ (lastoffset : Int) (n : Nat) : agreements old new lastoffset (n + 1) =
      agreements old new lastoffset n + if agrees old new lastoffset n then 1 else 0 := by
  rw [agreements, range_succ, countP_append, countP_singleton]
  rfl

theorem countScore_eq (lastoffset oldscore : Int) (scsc n : Nat) :
    countScore old new lastoffset oldscore scsc n =
      oldscore + agreements old new lastoffset (scsc + n) - agreements old new lastoffset scsc := by
  induction n with
  | zero =>
    rw [countScore, List.range'_zero, foldl_nil, add_zero]
    omega
  | succ n ih =>
    rw [countScore, List.range'_1_concat, foldl_append, ← countScore, ih, foldl_cons,
      foldl_nil, ← add_assoc, agreements_succ]
    split <;> push_cast <;> ring

end

/-- What is known when the inner loop ends: at the end of `new`, or at a match that is
worth something. -/
structure Stops (old new : Bytes) (scan : Nat) (m : Match) : Prop where
  scan_le : scan ≤ m.scan
  in_new : m.scan ≤ new.length
  pos_le : m.pos ≤ old.length
  found : m.scan < new.length → m.scan + m.len ≤ new.length ∧ 0 < m.len ∧
    ((m.len : Int) ≠ m.oldscore → 9 ≤ m.len)

def InBounds (old new : Bytes) (find : Nat → Nat × Nat) : Prop :=
  ∀ scan < new.length, (find scan).1 ≤ old.length ∧ scan + (find scan).2 ≤ new.length

variable {find : Nat → Nat × Nat}

theorem stops_scanLoop (hfind : InBounds old new find) (lastoffset : Int) (fuel scsc : Nat)
    (m : Match) {scan : Nat} (hscan : scan ≤ m.scan) (hfuel : m.scan + fuel = new.length)
    (hpos : m.pos ≤ old.length)
    (hscore : m.oldscore = (agreements old new lastoffset scsc : Int) -
      agreements old new lastoffset m.scan) :
    Stops old new scan (scanLoop old new find lastoffset fuel scsc m) := by
  induction fuel generalizing scsc m with
  | zero => exact ⟨hscan, by rw [scanLoop]; omega, hpos, fun h => by rw [scanLoop] at h; omega⟩
  | succ fuel ih =>
    obtain ⟨hfpos, hflen⟩ := hfind m.scan (by omega)
    rw [scanLoop]
    simp only [countScore_eq]
    -- the score is the number of agreements between `scan` and `scsc`
    have hscsc : scsc + (m.scan + (find m.scan).2 - scsc) =
        max scsc (m.scan + (find m.scan).2) := by omega
    have hmono : agreements old new lastoffset m.scan ≤
        agreements old new lastoffset (max scsc (m.scan + (find m.scan).2)) :=
      (range_sublist.mpr (by omega)).countP_le
    rw [hscsc]
    split
    · refine ⟨hscan, by simp only; omega, hfpos, fun _ => ⟨hflen, ?_, ?_⟩⟩
      · simp only
        omega
      · simp only
        omega
    · refine ih _ _ (Nat.le_succ_of_le hscan) ?_ hfpos ?_
      · simp only
        omega
      · simp only [agreements_succ]
        split <;> push_cast <;> omega

/-! ## A triple is emitted -/

def Leads (old new : Bytes) (pieces : List Piece) (lastscan lastpos : Nat) : Prop :=
  ∀ rest, Rebuilds old new rest lastscan lastpos → Rebuilds old new (pieces ++ rest) 0 0

theorem Leads.snoc {pieces : List Piece} {lastscan lastpos next : Nat} {piece : Piece}
    (h : Leads old new pieces lastscan lastpos)
    (hpiece : Describes old new lastscan lastpos piece) (hnext : next ≤ old.length)
    (hseek : piece.seek = (next : Int) - (lastpos + piece.diff.length : Nat)) :
    Leads old new (pieces ++ [piece]) (lastscan + piece.size) next := by
  intro rest hrest
  rw [append_assoc]
  exact h _ (.cons hpiece hnext hseek hrest)

structure DiffInv (old new : Bytes) (state : DiffState) (pieces : List Piece) : Prop where
  blocks_eq : state.blocks = Blocks.ofPieces pieces
  leads : Leads old new pieces state.lastscan state.lastpos
  last_le : state.lastscan ≤ state.scan
  lastpos_le : state.lastpos ≤ old.length
  pos_le : state.pos ≤ old.length
  in_new : state.scan < new.length → state.scan + state.len ≤ new.length
  few : state.scan < new.length → 9 * pieces.length ≤ state.scan + state.len

theorem diffInv_init : DiffInv old new {} [] where
  blocks_eq := rfl
  leads := fun _ hrest => hrest
  last_le := le_rfl
  lastpos_le := Nat.zero_le _
  pos_le := Nat.zero_le _
  in_new := fun _ => Nat.zero_le _
  few := fun _ => le_rfl

def emitted (old new : Bytes) (state : DiffState) (m : Match) : Piece :=
  let lenf := (extents old new state m).1
  let lenb := (extents old new state m).2
  { diff := List.zipWith (· - ·) (slice new state.lastscan lenf) (slice old state.lastpos lenf)
    extra := slice new (state.lastscan + lenf) ((m.scan - lenb) - (state.lastscan + lenf))
    seek := ((m.pos : Int) - lenb) - (state.lastpos + lenf) }

section

variable {state : DiffState} {m : Match} {pieces : List Piece}

section

variable (hinv : DiffInv old new state pieces) (hstops : Stops old new (state.scan + state.len) m)
include hinv hstops

theorem DiffInv.extents :
    Extents old new state m (extents old new state m).1 (extents old new state m).2 := by
  have hlast := hinv.last_le
  have hle := hstops.scan_le
  exact extents_spec new (by omega) hinv.lastpos_le

theorem length_emitted :
    (emitted old new state m).diff.length = (extents old new state m).1 ∧
      (emitted old new state m).extra.length = (m.scan - (extents old new state m).2) -
          (state.lastscan + (extents old new state m).1) := by
  have hin := hstops.in_new
  have hext := hinv.extents hstops
  have hdisj := hext.disjoint
  refine ⟨?_, length_slice (by omega)⟩
  rw [emitted, length_zipWith, length_slice (by omega), length_slice hext.inOld, min_self]

theorem describes_emitted (hscan : state.scan < new.length) :
    Describes old new state.lastscan state.lastpos (emitted old new state m) := by
  have hlast := hinv.last_le
  have hin := hstops.in_new
  have hext := hinv.extents hstops
  have hdisj := hext.disjoint
  obtain ⟨hdiff, hextra⟩ := length_emitted hinv hstops
  constructor
  · omega
  · rw [Piece.size, hdiff, hextra]
    omega
  · rw [hdiff]
    exact hext.inOld
  · rw [hdiff]
    rfl
  · rw [hdiff, hextra]
    rfl

theorem diffInv_emit (hscan : state.scan < new.length)
    (hworth : (m.len : Int) ≠ m.oldscore ∨ m.scan = new.length) :
    DiffInv old new (emit old new state m) (pieces ++ [emitted old new state m]) := by
  have hle := hstops.scan_le
  have hmpos := hstops.pos_le
  have hext := hinv.extents hstops
  have hdisj := hext.disjoint
  have hbpos := hext.lenb_le_pos
  obtain ⟨hdiff, hextra⟩ := length_emitted hinv hstops
  constructor
  · simp only [emit, hinv.blocks_eq, Blocks.ofPieces, flatMap_append, flatMap_singleton, Piece.ctrl,
      hdiff, hextra, append_assoc]
    rfl
  · have hsize : (emit old new state m).lastscan =
        state.lastscan + (emitted old new state m).size := by
      rw [Piece.size, hdiff, hextra]
      simp only [emit]
      omega
    rw [hsize]
    apply hinv.leads.snoc (describes_emitted hinv hstops hscan)
    · simp only [emit]
      omega
    · rw [hdiff]
      simp only [emit, emitted]
      push_cast [Nat.cast_sub hbpos]
      ring
  · exact Nat.sub_le _ _
  · simp only [emit]
    omega
  · exact hmpos
  · exact fun h => (hstops.found h).1
  · intro h
    have hm : m.scan < new.length := h
    have hnine := (hstops.found hm).2.2 (hworth.resolve_right (by omega))
    have hfew := hinv.few hscan
    rw [length_append, length_singleton]
    simp only [emit]
    omega

theorem lastscan_emit_end (hend : m.scan = new.length) :
    (emit old new state m).lastscan = new.length := by
  have hext := hinv.extents hstops
  simp only [emit, hext.atEnd hend]
  omega

end

/-! ## The main loop -/

/-- A round either comes to the end of `new` or moves `scan + len` forward. -/
structure RoundSpec (old new : Bytes) (state next : DiffState) (pieces : List Piece) : Prop
    where
  inv : DiffInv old new next pieces
  scan_le : next.scan ≤ new.length
  atEnd : next.scan = new.length → next.lastscan = new.length
  moves : next.scan < new.length → state.scan + state.len < next.scan + next.len
  few : 9 * pieces.length ≤ new.length + 9

theorem diffRound_spec (hfind : InBounds old new find) (hinv : DiffInv old new state pieces)
    (hscan : state.scan < new.length) :
    ∃ pieces', RoundSpec old new state (diffRound old new find state) pieces' := by
  have hin := hinv.in_new hscan
  have hfew := hinv.few hscan
  have hstops := stops_scanLoop hfind state.lastoffset
    (new.length - (state.scan + state.len)) (state.scan + state.len)
    { scan := state.scan + state.len, len := state.len, pos := state.pos, oldscore := 0 }
    le_rfl (by simp only; omega) hinv.pos_le (by simp only; omega)
  unfold diffRound
  simp only at hstops ⊢
  generalize scanLoop old new find state.lastoffset _ _ _ = m at *
  have hle := hstops.scan_le
  split
  · rename_i hworth
    refine ⟨_, diffInv_emit hinv hstops hscan hworth, hstops.in_new,
      lastscan_emit_end hinv hstops, ?_, ?_⟩
    · intro hlt
      have hlen := (hstops.found hlt).2.1
      simp only [emit]
      omega
    · rw [length_append, length_singleton]
      omega
  · rename_i hworth
    have hlt : m.scan < new.length := lt_of_le_of_ne hstops.in_new fun h => hworth (.inr h)
    have hlen := (hstops.found hlt).2.1
    have hlast := hinv.last_le
    refine ⟨pieces, ⟨hinv.blocks_eq, hinv.leads, ?_, hinv.lastpos_le, hstops.pos_le, ?_, ?_⟩,
      hstops.in_new, ?_, ?_, by omega⟩
    · simp only
      omega
    · exact fun _ => (hstops.found hlt).1
    · intro _
      simp only
      omega
    · intro h
      simp only at h
      omega
    · intro _
      simp only
      omega

theorem diffLoop_spec (hfind : InBounds old new find) (fuel : Nat)
    (hinv : DiffInv old new state pieces) (hscan : state.scan < new.length)
    (hfuel : new.length + 1 ≤ state.scan + state.len + fuel) :
    ∃ pieces', (diffLoop old new find fuel state).blocks = Blocks.ofPieces pieces' ∧
      Rebuilds old new pieces' 0 0 ∧ 9 * pieces'.length ≤ new.length + 9 := by
  induction fuel generalizing state pieces with
  | zero =>
    have hin := hinv.in_new hscan
    omega
  | succ fuel ih =>
    obtain ⟨pieces', hround⟩ := diffRound_spec hfind hinv hscan
    rw [diffLoop, if_pos hscan]
    by_cases hlt : (diffRound old new find state).scan < new.length
    · have hmoves := hround.moves hlt
      exact ih hround.inv hlt (by omega)
    · have hend := hround.atEnd (le_antisymm hround.scan_le (not_lt.mp hlt))
      have hrebuilds := hround.inv.leads [] (hend ▸ .nil _)
      rw [append_nil] at hrebuilds
      refine ⟨pieces', ?_, hrebuilds, hround.few⟩
      cases fuel with
      | zero => exact hround.inv.blocks_eq
      | succ fuel =>
        rw [diffLoop, if_neg hlt]
        exact hround.inv.blocks_eq

end

/-- The blocks of a patch describe the whole new file. -/
theorem diffBlocks_spec (hfind : InBounds old new find) :
    ∃ pieces, diffBlocks old new find = Blocks.ofPieces pieces ∧ Rebuilds old new pieces 0 0 ∧
      9 * pieces.length ≤ new.length + 9 := by
  by_cases hnew : 0 < new.length
  · exact diffLoop_spec hfind (new.length + 1) diffInv_init hnew (by simp)
  · have hzero : new.length = 0 := by omega
    have hnil : Rebuilds old new [] new.length 0 := .nil 0
    rw [hzero] at hnil
    refine ⟨[], ?_, hnil, by simp⟩
    rw [diffBlocks, diffLoop, if_neg hnew]
    rfl

/-! ## Answers of `search` -/

theorem matchlen_le (old new : Bytes) : matchlen old new ≤ new.length := by
  induction new generalizing old with
  | nil => cases old <;> simp [matchlen]
  | cons b new ih =>
    cases old with
    | nil => simp [matchlen]
    | cons a old =>
      rw [matchlen, length_cons]
      have hrest := ih old
      split <;> omega

section

variable {I : List Nat} (hI : ∀ i ∈ I, i ≤ old.length) (new : Bytes)
include hI

theorem search_bounds (fuel st en : Nat) : (search I old new fuel st en).1 ≤ old.length ∧
      (search I old new fuel st en).2 ≤ new.length := by
  have hget : ∀ i, I.getD i 0 ≤ old.length := by
    intro i
    by_cases hi : i < I.length
    · rw [getD_eq_getElem _ _ hi]
      exact hI _ (getElem_mem hi)
    · rw [getD_eq_default _ _ (by omega)]
      exact Nat.zero_le _
  induction fuel generalizing st en with
  | zero => exact ⟨hget en, matchlen_le _ _⟩
  | succ fuel ih =>
    rw [search]
    split
    · dsimp only
      split
      · exact ⟨hget st, matchlen_le _ _⟩
      · exact ⟨hget en, matchlen_le _ _⟩
    · dsimp only
      split <;> exact ih _ _

theorem inBounds_search :
    InBounds old new fun scan => search I old (new.drop scan) old.length 0 old.length := by
  intro scan hscan
  obtain ⟨hpos, hlen⟩ := search_bounds hI (new.drop scan) old.length 0 old.length
  rw [length_drop] at hlen
  exact ⟨hpos, by simp only; omega⟩

end

end ShieldTv.Applypatch
