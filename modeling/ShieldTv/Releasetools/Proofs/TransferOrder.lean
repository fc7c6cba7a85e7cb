import ShieldTv.Releasetools.Proofs.RangeAlgebra
import ShieldTv.Releasetools.Proofs.VertexSequence

/-!
# `ReverseBackwardEdges`, `ImproveVertexSequence` and `AssertSequenceGood`

Reversing the edges that a vertex order violates leaves an acyclic graph,
whatever the cycles of the original one, and gives every reversed edge one
stash.  The topological sort of that graph is then a sequence in which each
transfer finds its source blocks on the device or in a stash.
-/

namespace ShieldTv.Releasetools.BlockImageDiff

open Lib List Releasetools.RangeLib
open Option hiding or_assoc

/-! ## Reversing edges -/

def overlapOf (xfs : List Transfer) (xf u : Nat) : RangeSet :=
  (xfer xfs xf).srcRanges.intersect (xfer xfs u).tgtRanges

/-- A table of stashes: that of each edge of the `log`, under its index, at one end of the
edge. -/
structure Logged (xfs : List Transfer) (log : List (Nat × Nat)) (owner : Nat × Nat → Nat)
    (table : Nat → List (Nat × RangeSet)) : Prop where
  mem : ∀ w s r, (s, r) ∈ table w ↔
    ∃ e, log[s]? = some e ∧ owner e = w ∧ r = overlapOf xfs e.1 e.2
  sorted : ∀ w, ((table w).map Prod.fst).Pairwise (· < ·)

/-- The state after the edges `log` were reversed, in this order; the stash of
an edge is its index. -/
structure ReverseInv (xfs : List Transfer) (E : Nat → Nat → Prop) (order : Nat → Nat)
    (log : List (Nat × Nat)) (st : Stashing) : Prop where
  graph : Mirrored st.graph fun x u => (E x u ∧ (x, u) ∉ log) ∨ (u, x) ∈ log
  log_back : ∀ x u, (x, u) ∈ log → E x u ∧ ¬order x < order u
  before : Logged xfs log Prod.snd st.stashBefore
  use : Logged xfs log Prod.fst st.useStash
  stashes : st.stashes = log.length

variable {s xf : Nat} {r : RangeSet} {log : List (Nat × Nat)} {st : Stashing} {order : Nat → Nat}
  {seq : List Nat}

section

variable {xfs : List Transfer} {E : Nat → Nat → Prop} {order : Nat → Nat}

theorem getElem?_snoc_eq_some {α : Type*} {log : List α} {a b : α} :
    (log ++ [a])[s]? = some b ↔ log[s]? = some b ∨ (s = log.length ∧ b = a) := by
  rcases lt_trichotomy s log.length with h | h | h
  · rw [getElem?_append_left h]
    simp [h.ne]
  · subst h
    simp [eq_comm]
  · rw [getElem?_eq_none (by simp; omega), getElem?_eq_none (by omega)]
    simp [h.ne']

theorem Logged.append {owner : Nat × Nat → Nat} {table : Nat → List (Nat × RangeSet)}
    (h : Logged xfs log owner table) (e : Nat × Nat) :
    Logged xfs (log ++ [e]) owner (Function.update table (owner e)
      (table (owner e) ++ [(log.length, overlapOf xfs e.1 e.2)])) := by
  constructor
  · intro w s r
    simp only [getElem?_snoc_eq_some, or_and_right, exists_or, ← h.mem, and_assoc]
    by_cases hw : w = owner e
    · subst hw
      simp
    · simp [hw, Ne.symm hw]
  · intro w
    by_cases hw : w = owner e
    · subst hw
      rw [Function.update_self, map_append, pairwise_append]
      refine ⟨h.sorted _, by simp, ?_⟩
      rintro s hs m hm
      obtain ⟨⟨s, r⟩, hmem, rfl⟩ := mem_map.mp hs
      obtain ⟨e', he', -⟩ := (h.mem _ s r).mp hmem
      rw [mem_singleton.mp hm]
      exact (List.getElem?_eq_some_iff.mp he').1
    · rw [Function.update_of_ne hw]
      exact h.sorted w

variable (hinj : ∀ x u, E x u → order x ≠ order u)
  (hnonzero : ∀ x u, E x u → (overlapOf xfs x u).nonzero = true)
  (hst : ReverseInv xfs E order log st)
include hinj hnonzero hst

theorem reverseEdge_back {u : Nat} (hE : E xf u) (hlog : (xf, u) ∉ log)
    (hback : ¬order xf < order u) :
    ∃ st', reverseEdge xfs order xf st u = some st' ∧
      ReverseInv xfs E order (log ++ [(xf, u)]) st' := by
  have hswap : (u, xf) ∉ log := by
    intro h
    have h1 := (hst.log_back u xf h).2
    have h2 := hinj xf u hE
    omega
  obtain ⟨before, hbefore⟩ := OrderedDict.exists_del
    ((hst.graph.before xf u).mpr (Or.inl ⟨hE, hlog⟩))
  obtain ⟨after, hafter⟩ := OrderedDict.exists_del ((hst.graph.after xf u).mpr (Or.inl ⟨hE, hlog⟩))
  -- both tables after the deletion and the insertion
  have hrel : ∀ x w, ((x = u ∧ w = xf) ∨
        (((E x w ∧ (x, w) ∉ log) ∨ (w, x) ∈ log) ∧ ¬(x = xf ∧ w = u))) ↔
      ((E x w ∧ (x, w) ∉ log ++ [(xf, u)]) ∨ (w, x) ∈ log ++ [(xf, u)]) := by
    intro x w
    simp only [mem_append, mem_singleton, Prod.mk.injEq, not_or]
    constructor
    · rintro (⟨rfl, rfl⟩ | ⟨⟨h, hl⟩ | h, hnot⟩)
      · exact .inr (.inr ⟨rfl, rfl⟩)
      · exact .inl ⟨h, hl, hnot⟩
      · exact .inr (.inl h)
    · rintro (⟨h, hl, hnot⟩ | h | ⟨rfl, rfl⟩)
      · exact .inr ⟨.inl ⟨h, hl⟩, hnot⟩
      · refine .inr ⟨.inr h, ?_⟩
        rintro ⟨rfl, rfl⟩
        exact hswap h
      · exact .inl ⟨rfl, rfl⟩
  have hbu := update_del_unique hst.graph.before_unique hbefore
  have hau := update_del_unique hst.graph.after_unique hafter
  have hz := hnonzero xf u hE
  unfold overlapOf at hz
  refine ⟨_, by
    simp only [reverseEdge, hback, hz, hbefore, hafter, if_false, if_true, bind_eq_bind, bind_some]
    rfl, ?_⟩
  constructor
  · constructor
    · intro x w
      rw [update_set_keys, update_del_keys hbefore, hst.graph.before]
      exact hrel x w
    · intro x w
      rw [update_set_keys, update_del_keys hafter, hst.graph.after,
        ← hrel x w, and_comm (a := w = xf), and_comm (a := w = u)]
    · exact update_set_unique hbu _ _ _
    · exact update_set_unique hau _ _ _
  · intro x w hmem
    rcases mem_append.mp hmem with h | h
    · exact hst.log_back x w h
    · obtain ⟨rfl, rfl⟩ := Prod.mk.inj (mem_singleton.mp h)
      exact ⟨hE, hback⟩
  · rw [hst.stashes]
    exact hst.before.append (xf, u)
  · rw [hst.stashes]
    exact hst.use.append (xf, u)
  · simp [hst.stashes]

theorem foldlM_reverseEdge (us : List Nat) (hus : us.Nodup)
    (hpending : ∀ u ∈ us, order xf < order u ∨ (E xf u ∧ (xf, u) ∉ log)) :
    ∃ log' st', us.foldlM (reverseEdge xfs order xf) st = some st' ∧
      ReverseInv xfs E order log' st' ∧
      ∀ x u, (x, u) ∈ log' ↔ (x, u) ∈ log ∨ (x = xf ∧ u ∈ us ∧ ¬order xf < order u) := by
  induction us generalizing log st with
  | nil => exact ⟨log, st, rfl, hst, by simp⟩
  | cons w us ih =>
    have hcons := nodup_cons.mp hus
    by_cases hw : order xf < order w
    · have hskip : reverseEdge xfs order xf st w = some st := if_pos hw
      obtain ⟨log', st', hfold, hst', hlog'⟩ :=
        ih hst hcons.2 fun u hu => hpending u (by simp [hu])
      refine ⟨log', st', by simp [hskip, hfold], hst', fun x u => ?_⟩
      rw [hlog', mem_cons]
      refine or_congr_right ⟨fun h => ⟨h.1, Or.inr h.2.1, h.2.2⟩, fun h => ⟨h.1, ?_, h.2.2⟩⟩
      exact h.2.1.resolve_left fun hu => h.2.2 (hu ▸ hw)
    · obtain ⟨hE, hlog⟩ := (hpending w (by simp)).resolve_left hw
      obtain ⟨st₁, hstep, hst₁⟩ := reverseEdge_back hinj hnonzero hst hE hlog hw
      have hpending₁ : ∀ u ∈ us, order xf < order u ∨ (E xf u ∧ (xf, u) ∉ log ++ [(xf, w)]) := by
        intro u hu
        have hne : u ≠ w := fun h => hcons.1 (h ▸ hu)
        refine (hpending u (by simp [hu])).imp_right fun h => ⟨h.1, ?_⟩
        simp [h.2, hne]
      obtain ⟨log', st', hfold, hst', hlog'⟩ := ih hst₁ hcons.2 hpending₁
      refine ⟨log', st', by simp [hstep, hfold], hst', fun x u => ?_⟩
      rw [hlog', mem_append, mem_singleton, Prod.mk.injEq, mem_cons, or_assoc]
      refine or_congr_right ⟨?_, ?_⟩
      · rintro (⟨rfl, rfl⟩ | ⟨hx, hu, h⟩)
        · exact ⟨rfl, .inl rfl, hw⟩
        · exact ⟨hx, .inr hu, h⟩
      · rintro ⟨hx, rfl | hu, h⟩
        · exact .inl ⟨hx, rfl⟩
        · exact .inr ⟨hx, hu, h⟩

/-- The copied keys of one transfer: those that are edges of the original
graph are pending, the others were reversed towards `xf` and are skipped. -/
theorem reverseEdges_spec (xf : Nat) :
    ∃ log' st', reverseEdges xfs order st xf = some st' ∧ ReverseInv xfs E order log' st' ∧
      ∀ x u, (x, u) ∈ log' ↔ (x, u) ∈ log ∨ (x = xf ∧ E xf u ∧ ¬order xf < order u) := by
  have hforward : ∀ u, (u, xf) ∈ log → order xf < order u := by
    intro u h
    have hback := hst.log_back u xf h
    have := hinj u xf hback.1
    omega
  have hpending : ∀ u ∈ (st.graph.goesBefore xf).keys,
      order xf < order u ∨ (E xf u ∧ (xf, u) ∉ log) := by
    intro u hu
    exact ((hst.graph.before xf u).mp hu).symm.imp_left (hforward u)
  obtain ⟨log', st', hfold, hst', hlog'⟩ :=
    foldlM_reverseEdge hinj hnonzero hst _ (hst.graph.before_unique xf) hpending
  refine ⟨log', st', hfold, hst', fun x u => ?_⟩
  rw [hlog', hst.graph.before]
  constructor
  · rintro (h | ⟨rfl, ⟨hE, -⟩ | h, hback⟩)
    · exact .inl h
    · exact .inr ⟨rfl, hE, hback⟩
    · exact absurd (hforward u h) hback
  · rintro (h | ⟨rfl, hE, hback⟩)
    · exact .inl h
    · by_cases hlog : (x, u) ∈ log
      · exact .inl hlog
      · exact .inr ⟨rfl, .inl ⟨hE, hlog⟩, hback⟩

theorem foldlM_reverseEdges (seq : List Nat) :
    ∃ log' st', seq.foldlM (reverseEdges xfs order) st = some st' ∧
      ReverseInv xfs E order log' st' ∧
      ∀ x u, (x, u) ∈ log' ↔ (x, u) ∈ log ∨ (x ∈ seq ∧ E x u ∧ ¬order x < order u) := by
  induction seq generalizing log st with
  | nil => exact ⟨log, st, rfl, hst, by simp⟩
  | cons xf seq ih =>
    obtain ⟨log₁, st₁, hstep, hst₁, hlog₁⟩ := reverseEdges_spec hinj hnonzero hst xf
    obtain ⟨log', st', hfold, hst', hlog'⟩ := ih hst₁
    refine ⟨log', st', by simp [hstep, hfold], hst', fun x u => ?_⟩
    rw [hlog', hlog₁, or_assoc, mem_cons, or_and_right]
    refine or_congr_right (or_congr_left ?_)
    exact and_congr_right fun hx => by rw [hx]

end

/-- `ReverseBackwardEdges` reverses exactly the edges that the sequence
violates: what is left goes forward in it. -/
theorem reverseBackwardEdges_spec {xfs : List Transfer} {E : Nat → Nat → Prop} {g : Digraph}
    (hg : Mirrored g E) (hinj : ∀ x u, E x u → seq.idxOf x ≠ seq.idxOf u)
    (hnonzero : ∀ x u, E x u → (overlapOf xfs x u).nonzero = true) (hseq : ∀ x u, E x u → x ∈ seq) :
    ∃ log st, reverseBackwardEdges xfs seq g = some st ∧
      ReverseInv xfs E (fun x => seq.idxOf x) log st ∧
      (∀ x u, (x, u) ∈ log ↔ E x u ∧ seq.idxOf u < seq.idxOf x) ∧
      Mirrored st.graph fun x u => (E x u ∨ E u x) ∧ seq.idxOf x < seq.idxOf u := by
  have hinit : ReverseInv xfs E (fun x => seq.idxOf x) []
      { graph := g, stashBefore := fun _ => [], useStash := fun _ => [], stashes := 0 } :=
    ⟨hg.congr (by simp), by simp, ⟨by simp, by simp⟩, ⟨by simp, by simp⟩, rfl⟩
  obtain ⟨log, st, hrun, hst, hlog⟩ := foldlM_reverseEdges hinj hnonzero hinit seq
  have hlog' : ∀ x u, (x, u) ∈ log ↔ E x u ∧ seq.idxOf u < seq.idxOf x := by
    intro x u
    rw [hlog]
    constructor
    · rintro (h | ⟨-, hE, hback⟩)
      · exact absurd h not_mem_nil
      · have := hinj x u hE
        exact ⟨hE, by omega⟩
    · rintro ⟨hE, hlt⟩
      exact .inr ⟨hseq x u hE, hE, by omega⟩
  refine ⟨log, st, hrun, hst, hlog', hst.graph.congr fun x u => ?_⟩
  rw [hlog', hlog']
  constructor
  · rintro (⟨hE, hnot⟩ | ⟨hE, hlt⟩)
    · have := hinj x u hE
      exact ⟨.inl hE, by by_contra h; exact hnot ⟨hE, by omega⟩⟩
    · exact ⟨.inr hE, hlt⟩
  · rintro ⟨hE | hE, hlt⟩
    · exact .inl ⟨hE, by omega⟩
    · exact .inr ⟨hE, hlt⟩

/-! ## The topological sort -/

theorem heapMin_mem (least : HeapItem) (heap : List HeapItem) :
    heapMin least heap ∈ least :: heap := by
  induction heap generalizing least with
  | nil => simp [heapMin]
  | cons item heap ih =>
    unfold heapMin
    split_ifs with hlt
    · exact mem_cons_of_mem _ (ih item)
    · exact (mem_cons.mp (ih least)).elim (fun h => by simp [h]) fun h => by simp [h]

theorem heappop_spec {S : List HeapItem} (hS : S ≠ []) :
    ∃ least ∈ S, heappop S = some (least, S.erase least) := by
  cases S with
  | nil => exact absurd rfl hS
  | cons item heap => exact ⟨_, heapMin_mem item heap, rfl⟩

theorem releaseEdges_eq (key : Nat → HeapItem) {xf : Nat} {us : List Nat} (hus : us.Nodup)
    {incoming incoming' : Nat → OrderedDict Nat Int}
    (h : detach xf us incoming = some incoming') (S : List HeapItem) :
    releaseEdges key xf us (incoming, S) =
      some (incoming', S ++ (us.filter fun w => (incoming' w).items.isEmpty).map key) := by
  induction us generalizing incoming S with
  | nil =>
    cases h
    simp [releaseEdges]
  | cons u us ih =>
    obtain ⟨hu, hus⟩ := nodup_cons.mp hus
    obtain ⟨d, hd, h⟩ := bind_eq_some_iff.mp h
    have hlast : incoming' u = d := by
      rw [detach_of_notMem h hu, Function.update_self]
    simp only [releaseEdges, hd, bind_eq_bind, bind_some, ih hus h, filter_cons, hlast]
    split_ifs <;> simp

theorem releaseEdges_spec (key : Nat → HeapItem) (xf : Nat) (us : List Nat) (hus : us.Nodup)
    (incoming : Nat → OrderedDict Nat Int) (hunique : ∀ w, (incoming w).Unique)
    (hmem : ∀ w ∈ us, xf ∈ (incoming w).keys) (S : List HeapItem) :
    ∃ (incoming' : Nat → OrderedDict Nat Int) (new : List Nat),
      releaseEdges key xf us (incoming, S) = some (incoming', S ++ new.map key) ∧
      (∀ w, (incoming' w).Unique) ∧
      (∀ w v, v ∈ (incoming' w).keys ↔ v ∈ (incoming w).keys ∧ ¬(w ∈ us ∧ v = xf)) ∧
      new.Nodup ∧ ∀ w, w ∈ new ↔ w ∈ us ∧ ∀ v ∈ (incoming w).keys, v = xf := by
  obtain ⟨incoming', hdetach, hunique', hkeys⟩ := detach_spec xf us hus incoming hunique hmem
  refine ⟨incoming', _, releaseEdges_eq key hus hdetach S, hunique', hkeys, hus.filter _,
    fun w => ?_⟩
  rw [mem_filter, items_isEmpty_iff]
  refine and_congr_right fun hw => forall_congr' fun v => ?_
  simp [hkeys, hw]

/-- The state of the sort: `L` is done, the heap holds the vertices whose
predecessors are all in `L`, and `incoming` the edges from outside `L`. -/
structure ImproveInv (F : Nat → Nat → Prop) (seq : List Nat)
    (incoming : Nat → OrderedDict Nat Int) (S L : List Nat) : Prop where
  nodup : (L ++ S).Nodup
  subset : ∀ u ∈ L ++ S, u ∈ seq
  pending : ∀ u v, v ∈ (incoming u).keys ↔ F v u ∧ v ∉ L
  unique : ∀ u, (incoming u).Unique
  ready : ∀ u ∈ seq, u ∈ L ++ S ↔ ∀ v, F v u → v ∈ L
  ordered : L.Pairwise fun a b => ¬F b a

section

variable {F : Nat → Nat → Prop} {seq S : List Nat} {incoming : Nat → OrderedDict Nat Int}
  {L : List Nat}

theorem improve_step (hF : ∀ x u, F x u → u ∈ seq) {S' new : List Nat}
    (hinv : ImproveInv F seq incoming S L) (hpop : S.Perm (xf :: S'))
    {incoming' : Nat → OrderedDict Nat Int} (hunique : ∀ w, (incoming' w).Unique)
    (hkeys : ∀ w v, v ∈ (incoming' w).keys ↔ v ∈ (incoming w).keys ∧ ¬(F xf w ∧ v = xf))
    (hnew : new.Nodup) (hmem : ∀ w, w ∈ new ↔ F xf w ∧ ∀ v ∈ (incoming w).keys, v = xf) :
    ImproveInv F seq incoming' (S' ++ new) (L ++ [xf]) := by
  have hperm : (L ++ S).Perm (L ++ [xf] ++ S') := by
    simpa using hpop.append_left L
  have hnodup : (L ++ [xf] ++ S').Nodup := hperm.nodup_iff.mp hinv.nodup
  have hseq : ∀ u ∈ L ++ [xf] ++ S', u ∈ seq := fun u hu =>
    hinv.subset u (hperm.mem_iff.mpr hu)
  have hready : ∀ u ∈ L ++ [xf] ++ S', ∀ v, F v u → v ∈ L := fun u hu =>
    (hinv.ready u (hseq u hu)).mp (hperm.mem_iff.mpr hu)
  have hxf : xf ∉ L := by
    intro h
    exact (nodup_append.mp (nodup_append.mp hnodup).1).2.2 xf h xf (by simp) rfl
  -- a vertex that `xf` precedes is neither in `L` nor in the heap yet
  have hfresh : ∀ u ∈ L ++ [xf] ++ S', ¬F xf u := fun u hu h => hxf (hready u hu xf h)
  have hnew' : ∀ w, w ∈ new ↔ F xf w ∧ ∀ v, F v w → v ∈ L ++ [xf] := by
    intro w
    rw [hmem]
    refine and_congr_right fun _ => forall_congr' fun v => ?_
    rw [hinv.pending, mem_append, mem_singleton]
    constructor
    · intro h hv
      by_cases hL : v ∈ L
      · exact .inl hL
      · exact .inr (h ⟨hv, hL⟩)
    · rintro h ⟨hv, hL⟩
      exact (h hv).resolve_left hL
  constructor
  · rw [← append_assoc]
    refine nodup_append.mpr ⟨hnodup, hnew, ?_⟩
    intro u hu w hw huw
    exact hfresh u hu (huw ▸ ((hmem w).mp hw).1)
  · intro u hu
    rw [← append_assoc, mem_append] at hu
    exact hu.elim (hseq u) fun h => hF xf u ((hmem u).mp h).1
  · intro u v
    rw [hkeys, hinv.pending, mem_append, mem_singleton, not_or, and_assoc]
    refine and_congr_right fun hv => and_congr_right fun _ => ?_
    exact not_congr ⟨And.right, fun h => ⟨h ▸ hv, h⟩⟩
  · exact hunique
  · intro u hu
    rw [← append_assoc, mem_append, hnew']
    constructor
    · rintro (h | h)
      · exact fun v hv => mem_append_left _ (hready u h v hv)
      · exact h.2
    · intro h
      by_cases hxu : F xf u
      · exact .inr ⟨hxu, h⟩
      · refine .inl (hperm.mem_iff.mp ((hinv.ready u hu).mpr fun v hv => ?_))
        rcases mem_append.mp (h v hv) with hL | hL
        · exact hL
        · exact absurd (mem_singleton.mp hL ▸ hv) hxu
  · refine pairwise_append.mpr ⟨hinv.ordered, by simp, ?_⟩
    intro a ha b hb
    rw [mem_singleton.mp hb]
    exact hfresh a (by simp [ha])

/-- With an empty heap everything is done: a least vertex outside `L` would
have all its predecessors in `L`. -/
theorem ImproveInv.complete (hF : ∀ x u, F x u → x ∈ seq)
    (hacyclic : ∀ x u, F x u → order x < order u) (hinv : ImproveInv F seq incoming [] L) :
    ∀ u ∈ seq, u ∈ L := by
  have key : ∀ k u, u ∈ seq → order u = k → u ∈ L := by
    intro k
    induction k using Nat.strong_induction_on with
    | _ k ih =>
      intro u hu hk
      have hready := hinv.ready u hu
      rw [append_nil] at hready
      exact hready.mpr fun v hv => ih (order v) (hk ▸ hacyclic v u hv) v (hF v u hv) rfl
  exact fun u hu => key _ u hu rfl

theorem improveLoop_spec {outgoing : Nat → OrderedDict Nat Int}
    (hout : ∀ x u, u ∈ (outgoing x).keys ↔ F x u) (houtUnique : ∀ x, (outgoing x).Unique)
    (hF : ∀ x u, F x u → u ∈ seq) (key : Nat → HeapItem) (hkey : ∀ u, (key u).2.2 = u) (fuel : Nat)
    (hinv : ImproveInv F seq incoming S L) (hfuel : seq.length ≤ L.length + fuel) :
    ∃ L' incoming', improveLoop outgoing key fuel incoming (S.map key) L = some L' ∧
      ImproveInv F seq incoming' [] L' := by
  induction fuel generalizing incoming S L with
  | zero =>
    have hle : (L ++ S).length ≤ seq.length :=
      (hinv.nodup.subperm fun u hu => hinv.subset u hu).length_le
    rw [length_append] at hle
    have hS : S = [] := length_eq_zero_iff.mp (by omega)
    subst hS
    exact ⟨L, incoming, rfl, hinv⟩
  | succ fuel ih =>
    by_cases hS : S = []
    · subst hS
      exact ⟨L, incoming, rfl, hinv⟩
    obtain ⟨least, hleast, hpop⟩ := heappop_spec (mt map_eq_nil_iff.mp hS)
    obtain ⟨xf, hxf, rfl⟩ := mem_map.mp hleast
    have hinj : Function.Injective key := fun a b h => by rw [← hkey a, ← hkey b, h]
    rw [← map_erase hinj] at hpop
    -- a popped vertex is still missing from the incoming edges of its successors
    have hnotL : xf ∉ L := fun h => disjoint_of_nodup_append hinv.nodup h hxf
    have hmem : ∀ w ∈ (outgoing xf).keys, xf ∈ (incoming w).keys := fun w hw =>
      (hinv.pending w xf).mpr ⟨(hout xf w).mp hw, hnotL⟩
    obtain ⟨incoming', new, hrelease, hunique, hkeys, hnodup, hnew⟩ :=
      releaseEdges_spec key xf _ (houtUnique xf) incoming hinv.unique hmem ((S.erase xf).map key)
    simp only [hout] at hkeys hnew
    have hstep : ImproveInv F seq incoming' (S.erase xf ++ new) (L ++ [xf]) :=
      improve_step hF hinv (perm_cons_erase hxf) hunique hkeys hnodup hnew
    obtain ⟨L', incoming'', hloop, hdone⟩ := ih hstep (by simp; omega)
    refine ⟨L', incoming'', ?_, hdone⟩
    rw [map_append] at hloop
    simp only [improveLoop, hpop, hkey, hrelease, bind_eq_bind, bind_some, hloop]

end

/-- On an acyclic graph the sort succeeds, returns every vertex once and
breaks no edge. -/
theorem improveVertexSequence_spec {F : Nat → Nat → Prop} (hg : Mirrored st.graph F)
    (hseq : seq.Nodup) (hF : ∀ x u, F x u → x ∈ seq ∧ u ∈ seq)
    (hacyclic : ∀ x u, F x u → order x < order u) :
    ∃ L, improveVertexSequence seq st = some L ∧ L.Perm seq ∧ L.Pairwise fun a b => ¬F b a := by
  have hinit : ImproveInv F seq st.graph.goesAfter
      (seq.filter fun u => (st.graph.goesAfter u).items.isEmpty) [] := by
    constructor
    · exact hseq.filter _
    · intro u hu
      exact (mem_filter.mp hu).1
    · intro u v
      rw [hg.after]
      simp
    · exact hg.after_unique
    · intro u hu
      rw [nil_append, mem_filter, items_isEmpty_iff]
      simp only [hu, true_and, hg.after, not_mem_nil]
    · exact Pairwise.nil
  obtain ⟨L, incoming, hloop, hdone⟩ :=
    improveLoop_spec hg.before hg.before_unique (fun x u h => (hF x u h).2)
      (fun u => (netStashChange st u, seq.idxOf u, u)) (fun _ => rfl) seq.length hinit
      (by simp)
  have hL : L.Nodup := by simpa using hdone.nodup
  have hperm : L.Perm seq := (perm_ext_iff_of_nodup hL hseq).mpr fun u =>
    ⟨fun h => hdone.subset u (by simp [h]), hdone.complete (fun x u h => (hF x u h).1) hacyclic u⟩
  refine ⟨L, ?_, hperm, hdone.ordered⟩
  simp only [improveVertexSequence, hloop, bind_eq_bind, bind_some, hperm.length_eq, if_true]

end ShieldTv.Releasetools.BlockImageDiff
