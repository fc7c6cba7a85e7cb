import ShieldTv.Releasetools.BlockImageDiff

/-!
# `GenerateDigraph` and `FindVertexSequence`

The digraph holds every edge twice, once at each end.  `Mirrored` states that
both copies agree with one relation, and `VertexInv` that this stays true of
the edges between vertices of `G` while the three removal rules destroy the
working copy.  It follows that no rule ever deletes a missing edge and that
the sequence is a permutation of the transfers.  In an acyclic graph the rule
for sinks takes every vertex.
-/

namespace ShieldTv.Releasetools.BlockImageDiff

open Lib List Option OrderedDict Releasetools.RangeLib
open Function (update update_self update_of_ne)

/-! ## The digraph -/

structure Mirrored (g : Digraph) (E : Nat → Nat → Prop) : Prop where
  before : ∀ x u, u ∈ (g.goesBefore x).keys ↔ E x u
  after : ∀ x u, x ∈ (g.goesAfter u).keys ↔ E x u
  before_unique : ∀ x, (g.goesBefore x).Unique
  after_unique : ∀ u, (g.goesAfter u).Unique

variable {E F : Nat → Nat → Prop} {edges : Nat → OrderedDict Nat Int} {u n : Nat} {g : Digraph}
  {d : OrderedDict Nat Int} {us G : List Nat}

theorem Mirrored.congr (h : Mirrored g E) (hEF : ∀ x u, E x u ↔ F x u) : Mirrored g F where
  before x u := (h.before x u).trans (hEF x u)
  after x u := (h.after x u).trans (hEF x u)
  before_unique := h.before_unique
  after_unique := h.after_unique

def Reads (xfs : List Transfer) (x u : Nat) : Prop :=
  u ≠ x ∧ ((xfer xfs u).tgtRanges.intersect (xfer xfs x).srcRanges).nonzero = true

theorem update_set_keys (edges : Nat → OrderedDict Nat Int) (a b : Nat) (size : Int) (x u : Nat) :
    u ∈ (update edges b ((edges b).set a size) x).keys ↔
      (x = b ∧ u = a) ∨ u ∈ (edges x).keys := by
  by_cases hx : x = b
  · subst hx
    rw [update_self, mem_keys_set]
    simp
  · rw [update_of_ne hx]
    simp [hx]

theorem update_set_unique (h : ∀ x, (edges x).Unique) (a b : Nat) (size : Int) (x : Nat) :
    (update edges b ((edges b).set a size) x).Unique := by
  by_cases hx : x = b
  · subst hx
    rw [update_self]
    exact unique_set (h x) a size
  · rw [update_of_ne hx]
    exact h x

theorem addDependency_mirrored {xfs : List Transfer} (h : Mirrored g E) (a b : Nat) :
    Mirrored (addDependency xfs a g b) (fun x u => E x u ∨ (u = a ∧ x = b ∧ Reads xfs b a)) := by
  unfold addDependency
  by_cases hab : a = b
  · rw [if_pos hab]
    exact h.congr fun x u => by simp [Reads, hab]
  rw [if_neg hab]
  by_cases hi : ((xfer xfs a).tgtRanges.intersect (xfer xfs b).srcRanges).nonzero = true
  · have hreads : Reads xfs b a := ⟨hab, hi⟩
    simp only [hi, if_true]
    constructor
    · intro x u
      rw [update_set_keys, h.before]
      simp only [hreads, and_true]
      exact or_comm.trans (or_congr_right and_comm)
    · intro x u
      rw [update_set_keys, h.after]
      simp only [hreads, and_true]
      exact or_comm
    · exact update_set_unique h.before_unique _ _ _
    · exact update_set_unique h.after_unique _ _ _
  · simp only [hi, Bool.false_eq_true, if_false]
    exact h.congr fun x u => by simp [Reads, hi]

def Depends (xfs : List Transfer) (x u : Nat) : Prop :=
  x < xfs.length ∧ u < xfs.length ∧ Reads xfs x u

theorem Mirrored.foldl {f : Digraph → Nat → Digraph} {R : Nat → Nat → Nat → Prop}
    (hf : ∀ {g E} a, Mirrored g E → Mirrored (f g a) fun x u => E x u ∨ R a x u) (h : Mirrored g E)
    (as : List Nat) : Mirrored (as.foldl f g) fun x u => E x u ∨ ∃ a ∈ as, R a x u := by
  induction as generalizing g E with
  | nil => exact h.congr fun x u => by simp
  | cons a as ih =>
    refine (ih (hf a h)).congr fun x u => ?_
    rw [exists_mem_cons_iff]
    tauto

theorem generateDigraph_mirrored (xfs : List Transfer) :
    Mirrored (generateDigraph xfs) (Depends xfs) := by
  have hempty : Mirrored Digraph.empty (fun _ _ => False) :=
    ⟨fun _ _ => by simp [Digraph.empty], fun _ _ => by simp [Digraph.empty],
      fun _ => unique_empty, fun _ => unique_empty⟩
  refine (hempty.foldl (fun a h =>
    h.foldl (fun b h => addDependency_mirrored h a b) (range xfs.length)) _).congr fun x u => ?_
  simp [Depends, and_left_comm]

/-! ## Removing a vertex -/

theorem update_del_keys {a b : Nat} (hd : (edges b).del a = some d) (x u : Nat) :
    u ∈ (update edges b d x).keys ↔ u ∈ (edges x).keys ∧ ¬(x = b ∧ u = a) := by
  by_cases hx : x = b
  · subst hx
    rw [update_self, mem_keys_of_del hd]
    simp only [true_and]
    exact and_comm
  · rw [update_of_ne hx]
    simp [hx]

theorem update_del_unique (h : ∀ x, (edges x).Unique) {a b : Nat} (hd : (edges b).del a = some d)
    (x : Nat) : (update edges b d x).Unique := by
  by_cases hx : x = b
  · subst hx
    rw [update_self]
    exact unique_of_del (h x) hd
  · rw [update_of_ne hx]
    exact h x

theorem detach_of_notMem {edges' : Nat → OrderedDict Nat Int} (h : detach u us edges = some edges')
    {w : Nat} (hw : w ∉ us) : edges' w = edges w := by
  induction us generalizing edges with
  | nil =>
    cases h
    rfl
  | cons iu us ih =>
    obtain ⟨d, -, h⟩ := bind_eq_some_iff.mp h
    obtain ⟨hne, hw⟩ := not_or.mp (mt mem_cons.mpr hw)
    rw [ih h hw, update_of_ne hne]

theorem detach_spec (u : Nat) (us : List Nat) (hus : us.Nodup)
    (edges : Nat → OrderedDict Nat Int) (hunique : ∀ w, (edges w).Unique)
    (hmem : ∀ w ∈ us, u ∈ (edges w).keys) :
    ∃ edges', detach u us edges = some edges' ∧ (∀ w, (edges' w).Unique) ∧
      ∀ w v, v ∈ (edges' w).keys ↔ v ∈ (edges w).keys ∧ ¬(w ∈ us ∧ v = u) := by
  induction us generalizing edges with
  | nil => exact ⟨edges, rfl, hunique, by simp⟩
  | cons iu us ih =>
    have hcons := nodup_cons.mp hus
    obtain ⟨d, hd⟩ := exists_del (hmem iu (by simp))
    have hmem' : ∀ w ∈ us, u ∈ (update edges iu d w).keys := by
      intro w hw
      have hne : w ≠ iu := fun h => hcons.1 (h ▸ hw)
      rw [update_del_keys hd]
      exact ⟨hmem w (by simp [hw]), fun h => hne h.1⟩
    obtain ⟨edges', hdetach, hunique', hkeys⟩ :=
      ih hcons.2 _ (update_del_unique hunique hd) hmem'
    refine ⟨edges', by simp [detach, hd, hdetach], hunique', fun w v => ?_⟩
    rw [hkeys, update_del_keys hd, and_assoc, ← not_or, ← or_and_right, mem_cons]

/-- The working copy holds the relation `E` restricted to `G`, and no vertex
was lost or doubled. -/
structure VertexInv (E : Nat → Nat → Prop) (n : Nat) (st : VertexState) : Prop where
  nodup : st.G.Nodup
  outgoing : ∀ u ∈ st.G, ∀ v, v ∈ (st.outgoing u).keys ↔ v ∈ st.G ∧ E u v
  incoming : ∀ u ∈ st.G, ∀ v, v ∈ (st.incoming u).keys ↔ v ∈ st.G ∧ E v u
  outgoing_unique : ∀ u, (st.outgoing u).Unique
  incoming_unique : ∀ u, (st.incoming u).Unique
  perm : (st.s1 ++ st.G ++ st.s2).Perm (List.range n)

section

variable {st : VertexState}

theorem removeVertex_of_mem (hu : u ∈ G) : removeVertex G u = some (G.erase u) := if_pos hu

/-- Dropping `u` from the edge lists of its neighbours leaves the relation
restricted to what remains of `G`. -/
theorem detach_restrict (hnodup : st.G.Nodup) (hu : u ∈ st.G) (hnodup' : us.Nodup)
    (hunique : ∀ w, (edges w).Unique)
    (hedges : ∀ w ∈ st.G, ∀ v, v ∈ (edges w).keys ↔ v ∈ st.G ∧ F w v)
    (hus : ∀ w ∈ us, w ∈ st.G ∧ F w u) (hall : ∀ w ∈ st.G.erase u, F w u → w ∈ us) :
    ∃ edges', detach u us edges = some edges' ∧ (∀ w, (edges' w).Unique) ∧
      (∀ w v, v ∈ (edges' w).keys ↔ v ∈ (edges w).keys ∧ ¬(w ∈ us ∧ v = u)) ∧
      ∀ w ∈ st.G.erase u, ∀ v, v ∈ (edges' w).keys ↔ v ∈ st.G.erase u ∧ F w v := by
  have hmem : ∀ w ∈ us, u ∈ (edges w).keys := fun w hw =>
    (hedges w (hus w hw).1 u).mpr ⟨hu, (hus w hw).2⟩
  obtain ⟨edges', hdetach, hunique', hkeys⟩ := detach_spec u us hnodup' edges hunique hmem
  refine ⟨edges', hdetach, hunique', hkeys, fun w hw v => ?_⟩
  have hw' := (hnodup.mem_erase_iff.mp hw).2
  rw [hkeys, hedges w hw', hnodup.mem_erase_iff]
  by_cases hvu : v = u
  · subst hvu
    simpa using fun _ => hall w hw
  · simp [hvu]

/-- A vertex without edges to the remaining ones can be dropped from one of
the two tables for free. -/
theorem restrict_of_isolated (hnodup : st.G.Nodup) (hu : u ∈ st.G)
    (hunique : ∀ w, (edges w).Unique)
    (hedges : ∀ w ∈ st.G, ∀ v, v ∈ (edges w).keys ↔ v ∈ st.G ∧ F w v) (hnone : ∀ w ∈ st.G, ¬F w u) :
    ∀ w ∈ st.G.erase u, ∀ v, v ∈ (edges w).keys ↔ v ∈ st.G.erase u ∧ F w v := by
  obtain ⟨edges', hdetach, -, -, hrestrict⟩ := detach_restrict hnodup hu .nil hunique hedges nofun
    fun w hw hF => absurd hF (hnone w (mem_of_mem_erase hw))
  cases hdetach
  exact hrestrict

section

variable {G s1 s2 : List Nat} (hu : u ∈ G) (h : (s1 ++ G ++ s2).Perm (List.range n))
include hu h

theorem perm_takeLast : (s1 ++ G.erase u ++ u :: s2).Perm (List.range n) := by
  have hG : (u :: G.erase u).Perm G := (perm_cons_erase hu).symm
  have hmove : (G.erase u ++ u :: s2).Perm (u :: G.erase u ++ s2) := perm_middle
  have hall := (hmove.trans (hG.append_right s2)).append_left s1
  rw [← append_assoc, ← append_assoc] at hall
  exact hall.trans h

theorem perm_takeFirst : (s1 ++ [u] ++ G.erase u ++ s2).Perm (List.range n) := by
  have hG : (u :: G.erase u).Perm G := (perm_cons_erase hu).symm
  have hcons : s1 ++ [u] ++ G.erase u ++ s2 = s1 ++ (u :: G.erase u) ++ s2 := by simp
  rw [hcons]
  exact ((hG.append_left s1).append_right s2).trans h

end

theorem items_isEmpty_iff (d : OrderedDict Nat Int) : d.items.isEmpty = true ↔ ∀ v, v ∉ d.keys := by
  rw [List.isEmpty_iff, ← keys_eq_nil_iff, List.eq_nil_iff_forall_not_mem]

section

variable (hst : VertexInv E n st) (hu : u ∈ st.G)
include hst hu

theorem takeSink_spec (hsink : ∀ v ∈ st.G, ¬E u v) :
    ∃ st', takeSink st u = some st' ∧ VertexInv E n st' ∧ st'.G = st.G.erase u := by
  obtain ⟨outgoing, hdetach, hunique, -, hrestrict⟩ := detach_restrict hst.nodup hu
    (hst.incoming_unique u) hst.outgoing_unique hst.outgoing (fun w => (hst.incoming u hu w).mp)
    fun w hw hE => (hst.incoming u hu w).mpr ⟨mem_of_mem_erase hw, hE⟩
  refine ⟨_, by simp [takeSink, removeVertex_of_mem hu, hdetach]; rfl, ?_, rfl⟩
  constructor
  · exact hst.nodup.erase u
  · exact hrestrict
  · exact restrict_of_isolated hst.nodup hu hst.incoming_unique hst.incoming hsink
  · exact hunique
  · exact hst.incoming_unique
  · exact perm_takeLast hu hst.perm

/-- The loop over the outgoing edges of a vertex that is taken. -/
theorem detach_incoming :
    ∃ incoming, detach u (st.outgoing u).keys st.incoming = some incoming ∧
      (∀ w, (incoming w).Unique) ∧ (∀ w v, v ∈ (incoming w).keys ↔
        v ∈ (st.incoming w).keys ∧ ¬(w ∈ (st.outgoing u).keys ∧ v = u)) ∧
      ∀ w ∈ st.G.erase u, ∀ v, v ∈ (incoming w).keys ↔ v ∈ st.G.erase u ∧ E v w :=
  detach_restrict (F := fun v w => E w v) hst.nodup hu (hst.outgoing_unique u)
    hst.incoming_unique hst.incoming (fun w => (hst.outgoing u hu w).mp)
    fun w hw hE => (hst.outgoing u hu w).mpr ⟨mem_of_mem_erase hw, hE⟩

theorem takeSource_spec (hsource : ∀ v ∈ st.G, ¬E v u) :
    ∃ st', takeSource st u = some st' ∧ VertexInv E n st' ∧ st'.G = st.G.erase u := by
  obtain ⟨incoming, hdetach, hunique, -, hrestrict⟩ := detach_incoming hst hu
  refine ⟨_, by simp [takeSource, removeVertex_of_mem hu, hdetach]; rfl, ?_, rfl⟩
  constructor
  · exact hst.nodup.erase u
  · exact restrict_of_isolated hst.nodup hu hst.outgoing_unique hst.outgoing hsource
  · exact hrestrict
  · exact hst.outgoing_unique
  · exact hunique
  · exact perm_takeFirst hu hst.perm

theorem takeBest_spec :
    ∃ st', takeBest st u = some st' ∧ VertexInv E n st' ∧ st'.G = st.G.erase u := by
  obtain ⟨incoming, hdetach, hunique, hkeys, hrestrict⟩ := detach_incoming hst hu
  -- the first loop takes nothing but `u` itself from the list of `u`
  obtain ⟨outgoing, hdetach', hunique', -, hrestrict'⟩ := detach_restrict hst.nodup hu (hunique u)
    hst.outgoing_unique hst.outgoing (fun w hw => (hst.incoming u hu w).mp ((hkeys u w).mp hw).1)
    fun w hw hE => (hkeys u w).mpr ⟨(hst.incoming u hu w).mpr ⟨mem_of_mem_erase hw, hE⟩,
      fun h => (hst.nodup.mem_erase_iff.mp hw).1 h.2⟩
  refine ⟨_, by simp [takeBest, removeVertex_of_mem hu, hdetach, hdetach']; rfl, ?_, rfl⟩
  constructor
  · exact hst.nodup.erase u
  · exact hrestrict'
  · exact hrestrict
  · exact hunique'
  · exact hunique
  · exact perm_takeFirst hu hst.perm

end

/-! ## The loops -/

section

variable {take : VertexState → Nat → Option VertexState} {I : VertexState → Prop}
  (hnodup : ∀ st, I st → st.G.Nodup)
  (htake : ∀ st u, I st → u ∈ st.G → (∀ v ∈ st.G, ¬F u v) →
    ∃ st', take st u = some st' ∧ I st' ∧ st'.G = st.G.erase u)
include hnodup htake

theorem foldlM_take (us : List Nat) (hdistinct : us.Nodup) (st : VertexState) (hst : I st)
    (hus : ∀ u ∈ us, u ∈ st.G ∧ ∀ v ∈ st.G, ¬F u v) :
    ∃ st', us.foldlM take st = some st' ∧ I st' ∧ st'.G.length + us.length = st.G.length := by
  induction us generalizing st with
  | nil => exact ⟨st, rfl, hst, rfl⟩
  | cons u us ih =>
    have hcons := nodup_cons.mp hdistinct
    have hu := hus u (by simp)
    obtain ⟨st₁, htake₁, hst₁, hG⟩ := htake st u hst hu.1 hu.2
    have hrest : ∀ v ∈ us, v ∈ st₁.G ∧ ∀ w ∈ st₁.G, ¬F v w := by
      intro v hv
      have hne : v ≠ u := fun h => hcons.1 (h ▸ hv)
      obtain ⟨hvG, hnone⟩ := hus v (by simp [hv])
      rw [hG]
      exact ⟨(hnodup st hst).mem_erase_iff.mpr ⟨hne, hvG⟩,
        fun w hw => hnone w (mem_of_mem_erase hw)⟩
    obtain ⟨st', hfold, hst', hlen⟩ := ih hcons.2 st₁ hst₁ hrest
    refine ⟨st', by simp [htake₁, hfold], hst', ?_⟩
    have hpos := length_pos_of_mem hu.1
    rw [hG, length_erase_of_mem hu.1] at hlen
    simp only [length_cons]
    omega

/-- Rounds that take all vertices without edges, until there are none. -/
theorem rounds_spec {edges : VertexState → Nat → OrderedDict Nat Int}
    (hedges : ∀ st, I st → ∀ u ∈ st.G, ∀ v, v ∈ (edges st u).keys ↔ v ∈ st.G ∧ F u v)
    {loop : Nat → VertexState → Option VertexState}
    (hloop : ∀ fuel st, loop (fuel + 1) st =
      let us := st.G.filter fun u => (edges st u).items.isEmpty
      if us.isEmpty then some st else (us.foldlM take st).bind (loop fuel))
    (fuel : Nat) (st : VertexState) (hst : I st) (hfuel : st.G.length < fuel) :
    ∃ st', loop fuel st = some st' ∧ I st' ∧ st'.G.length ≤ st.G.length ∧
      ∀ u ∈ st'.G, ∃ v ∈ st'.G, F u v := by
  induction fuel generalizing st with
  | zero => omega
  | succ fuel ih =>
    rw [hloop]
    generalize hround : (st.G.filter fun u => (edges st u).items.isEmpty) = us
    by_cases hempty : us.isEmpty = true
    · refine ⟨st, by simp [hempty], hst, le_rfl, fun u hu => ?_⟩
      by_contra hnone
      have hmem : u ∈ us := by
        rw [← hround, mem_filter, items_isEmpty_iff]
        exact ⟨hu, fun v hv => hnone ⟨v, (hedges st hst u hu v).mp hv⟩⟩
      rw [List.isEmpty_iff.mp hempty] at hmem
      cases hmem
    have hus : ∀ u ∈ us, u ∈ st.G ∧ ∀ v ∈ st.G, ¬F u v := by
      intro u hu
      rw [← hround, mem_filter, items_isEmpty_iff] at hu
      exact ⟨hu.1, fun v hv hF => hu.2 v ((hedges st hst u hu.1 v).mpr ⟨hv, hF⟩)⟩
    obtain ⟨st₁, hfold, hst₁, hlen⟩ :=
      foldlM_take hnodup htake us (hround ▸ (hnodup st hst).filter _) st hst hus
    have hpos : 0 < us.length := length_pos_iff.mpr (by simpa using hempty)
    obtain ⟨st', hrounds, hst', hle, hnone⟩ := ih st₁ hst₁ (by omega)
    exact ⟨st', by simp [hempty, hfold, hrounds], hst', by omega, hnone⟩

end

theorem takeSinks_spec {I : VertexState → Prop} (hI : ∀ st, I st → VertexInv E n st)
    (htake : ∀ st u, I st → u ∈ st.G → (∀ v ∈ st.G, ¬E u v) →
      ∃ st', takeSink st u = some st' ∧ I st' ∧ st'.G = st.G.erase u)
    (fuel : Nat) (st : VertexState) (hst : I st) (hfuel : st.G.length < fuel) :
    ∃ st', takeSinks fuel st = some st' ∧ I st' ∧ st'.G.length ≤ st.G.length ∧
      ∀ u ∈ st'.G, ∃ v ∈ st'.G, E u v :=
  rounds_spec (fun st hst => (hI st hst).nodup) htake (fun st hst => (hI st hst).outgoing)
    (fun _ _ => rfl) fuel st hst hfuel

theorem takeSources_spec (fuel : Nat) (st : VertexState) (hst : VertexInv E n st)
    (hfuel : st.G.length < fuel) :
    ∃ st', takeSources fuel st = some st' ∧ VertexInv E n st' ∧ st'.G.length ≤ st.G.length ∧
      ∀ u ∈ st'.G, ∃ v ∈ st'.G, E v u :=
  rounds_spec (fun _ hst => hst.nodup) (fun _ _ hst hu hsource => takeSource_spec hst hu hsource)
    (fun _ hst => hst.incoming) (fun _ _ => rfl) fuel st hst hfuel

end

theorem bestVertex_mem (st : VertexState) (us : List Nat) (best : Option (Int × Nat)) :
    (bestVertex st best us = none ↔ best = none ∧ us = []) ∧
      ∀ d u, bestVertex st best us = some (d, u) → u ∈ us ∨ ∃ d', best = some (d', u) := by
  induction us generalizing best with
  | nil => exact ⟨by simp [bestVertex], fun d u h => .inr ⟨d, h⟩⟩
  | cons v us ih =>
    obtain ⟨best', hstep, hsome, hbest⟩ : ∃ best', bestVertex st best (v :: us) =
        bestVertex st best' us ∧ best' ≠ none ∧
        ∀ d u, best' = some (d, u) → u = v ∨ best = some (d, u) := by
      cases best with
      | none => exact ⟨_, rfl, nofun, by simp +contextual⟩
      | some best =>
        simp only [bestVertex]
        split_ifs
        · exact ⟨_, rfl, nofun, by simp +contextual⟩
        · exact ⟨_, rfl, nofun, fun d u h => .inr h⟩
    rw [hstep]
    refine ⟨by simp [(ih _).1, hsome], fun d u h => ?_⟩
    rcases (ih _).2 d u h with hu | ⟨d', hd'⟩
    · exact .inl (by simp [hu])
    · exact (hbest d' u hd').imp (fun h => by simp [h]) fun h => ⟨d', h⟩

theorem vertexLoop_spec (fuel : Nat) (st : VertexState) (hst : VertexInv E n st)
    (hfuel : st.G.length ≤ fuel) :
    ∃ st', vertexLoop fuel st = some st' ∧ VertexInv E n st' ∧ st'.G = [] := by
  induction fuel generalizing st with
  | zero =>
    have hG : st.G = [] := length_eq_zero_iff.mp (by omega)
    exact ⟨st, by simp [vertexLoop, hG], hst, hG⟩
  | succ fuel ih =>
    unfold vertexLoop
    by_cases hG : st.G = []
    · exact ⟨st, by simp [hG], hst, hG⟩
    obtain ⟨st₁, hsinks, hst₁, hlen₁, -⟩ := takeSinks_spec (fun _ => id)
      (fun _ _ => takeSink_spec) (st.G.length + 1) st hst (by omega)
    obtain ⟨st₂, hsources, hst₂, hlen₂, -⟩ :=
      takeSources_spec (st₁.G.length + 1) st₁ hst₁ (by omega)
    simp only [List.isEmpty_iff, hG, if_false, hsinks, hsources, bind_eq_bind, bind_some]
    have hbest := bestVertex_mem st₂ st₂.G none
    cases hb : bestVertex st₂ none st₂.G with
    | none => exact ⟨st₂, rfl, hst₂, (hbest.1.mp hb).2⟩
    | some best =>
      obtain ⟨d, u⟩ := best
      have hu : u ∈ st₂.G := (hbest.2 d u hb).resolve_right (by simp)
      obtain ⟨st₃, htake, hst₃, hG₃⟩ := takeBest_spec hst₂ hu
      obtain ⟨st', hloop, hst', hnil⟩ := ih st₃ hst₃ (by
        rw [hG₃, length_erase_of_mem hu]
        omega)
      exact ⟨st', by simp [htake, hloop], hst', hnil⟩

def VertexState.start (n : Nat) (g : Digraph) : VertexState :=
  { incoming := g.goesAfter, outgoing := g.goesBefore, G := List.range n, s1 := [], s2 := [] }

section

variable (hg : Mirrored g E) (hbound : ∀ x u, E x u → x < n ∧ u < n)
include hg hbound

theorem vertexInv_start : VertexInv E n (.start n g) := by
  constructor
  · exact nodup_range
  · intro u hu v
    rw [VertexState.start, hg.before, mem_range]
    exact ⟨fun h => ⟨(hbound u v h).2, h⟩, And.right⟩
  · intro u hu v
    rw [VertexState.start, hg.after, mem_range]
    exact ⟨fun h => ⟨(hbound v u h).1, h⟩, And.right⟩
  · exact hg.before_unique
  · exact hg.after_unique
  · simp [VertexState.start]

/-- `FindVertexSequence` never deletes a missing edge, comes to an end, and
returns the vertices in some order. -/
theorem findVertexSequence_perm :
    ∃ seq, findVertexSequence n g = some seq ∧ seq.Perm (List.range n) := by
  obtain ⟨st, hloop, hst, hG⟩ := vertexLoop_spec n _ (vertexInv_start hg hbound)
    (by simp [VertexState.start])
  rw [VertexState.start] at hloop
  refine ⟨st.s1 ++ st.s2, by simp [findVertexSequence, hloop], ?_⟩
  have hperm := hst.perm
  rw [hG, append_nil] at hperm
  exact hperm

end

/-! ## Acyclic graphs -/

/-- While nothing but sinks is taken, no edge leads back from them. -/
structure SinkInv (E : Nat → Nat → Prop) (n : Nat) (st : VertexState) : Prop
    extends VertexInv E n st where
  left : st.s1 = []
  sorted : st.s2.Pairwise fun a b => ¬E b a
  closed : ∀ a ∈ st.s2, ∀ b ∈ st.G, ¬E a b

theorem SinkInv.take {st : VertexState} (hst : SinkInv E n st) (hu : u ∈ st.G)
    (hsink : ∀ v ∈ st.G, ¬E u v) :
    ∃ st', takeSink st u = some st' ∧ SinkInv E n st' ∧ st'.G = st.G.erase u := by
  obtain ⟨st', htake, hinv, hG⟩ := takeSink_spec hst.toVertexInv hu hsink
  obtain ⟨hs1, hs2⟩ : st'.s1 = st.s1 ∧ st'.s2 = u :: st.s2 := by
    simp only [takeSink, bind_eq_bind, bind_eq_some_iff] at htake
    obtain ⟨G, -, outgoing, -, htake⟩ := htake
    exact some.inj htake ▸ ⟨rfl, rfl⟩
  refine ⟨st', htake, ⟨hinv, hs1.trans hst.left, ?_, ?_⟩, hG⟩
  · rw [hs2]
    exact pairwise_cons.mpr ⟨fun b hb => hst.closed b hb u hu, hst.sorted⟩
  · rw [hs2, hG]
    exact forall_mem_cons.mpr ⟨fun b hb => hsink b (mem_of_mem_erase hb),
      fun a ha b hb => hst.closed a ha b (mem_of_mem_erase hb)⟩

theorem eq_nil_of_acyclic (hacyclic : ∀ x, ¬Relation.TransGen E x x) (h : ∀ u ∈ G, ∃ v ∈ G, E u v) :
    G = [] := by
  by_contra hne
  obtain ⟨u, hu⟩ := exists_mem_of_ne_nil G hne
  let after (a b : {x // x ∈ G}) : Prop := Relation.TransGen E b a
  have : Std.Irrefl after := ⟨fun a => hacyclic a⟩
  obtain ⟨last, -, hlast⟩ := (Finite.wellFounded_of_trans_of_irrefl after).has_min Set.univ
    ⟨⟨u, hu⟩, trivial⟩
  obtain ⟨v, hv, hE⟩ := h last last.2
  exact hlast ⟨v, hv⟩ trivial (.single hE)

/-- In an acyclic graph the sinks are all there is. -/
theorem findVertexSequence_sorted (hg : Mirrored g E) (hbound : ∀ x u, E x u → x < n ∧ u < n)
    (hacyclic : ∀ x, ¬Relation.TransGen E x x) :
    ∃ seq, findVertexSequence n g = some seq ∧ seq.Pairwise fun a b => ¬E b a := by
  cases n with
  | zero => exact ⟨[], rfl, .nil⟩
  | succ n =>
    have hstart : SinkInv E (n + 1) (.start (n + 1) g) :=
      ⟨vertexInv_start hg hbound, rfl, .nil, nofun⟩
    obtain ⟨st, hsinks, hst, -, hnone⟩ := takeSinks_spec (fun _ hst => hst.toVertexInv)
      (fun _ _ hst hu hsink => hst.take hu hsink) _ _ hstart (Nat.lt_succ_self _)
    have hG := eq_nil_of_acyclic hacyclic hnone
    have hloop : vertexLoop (n + 1) (.start (n + 1) g) = some st := by
      rw [vertexLoop, if_neg (by simp [VertexState.start])]
      simp [hsinks, hG, takeSources, bestVertex]
    rw [VertexState.start] at hloop
    exact ⟨st.s2, by simp [findVertexSequence, hloop, hst.left], hst.sorted⟩

/-- Every vertex is in the sequence once, and in an acyclic graph all edges
point forward. -/
theorem findVertexSequence_order {g : Digraph} {n : Nat} (hg : Mirrored g E)
    (hbound : ∀ x u, E x u → x < n ∧ u < n) :
    ∃ seq, findVertexSequence n g = some seq ∧ seq.Perm (List.range n) ∧
      (∀ i (hi : i < seq.length), seq.idxOf seq[i] = i) ∧
      ((∀ x, ¬Relation.TransGen E x x) → ∀ x u, E x u → seq.idxOf x < seq.idxOf u) := by
  obtain ⟨seq, hseq, hperm⟩ := findVertexSequence_perm hg hbound
  have hnodup : seq.Nodup := hperm.nodup_iff.mpr nodup_range
  refine ⟨seq, hseq, hperm, fun i hi => hnodup.idxOf_getElem i hi, fun hacyclic x u hE => ?_⟩
  obtain ⟨sorted, hsorted, hpair⟩ := findVertexSequence_sorted hg hbound hacyclic
  obtain rfl : seq = sorted := some.inj (hseq.symm.trans hsorted)
  have hx : x ∈ seq := hperm.mem_iff.mpr (mem_range.mpr (hbound x u hE).1)
  have hu : u ∈ seq := hperm.mem_iff.mpr (mem_range.mpr (hbound x u hE).2)
  by_contra hle
  rcases Nat.lt_or_eq_of_le (Nat.le_of_not_lt hle) with hlt | heq
  · have hback := pairwise_iff_getElem.mp hpair _ _ (idxOf_lt_length_iff.mpr hu)
      (idxOf_lt_length_iff.mpr hx) hlt
    rw [getElem_idxOf, getElem_idxOf] at hback
    exact hback hE
  · exact hacyclic x (.single ((idxOf_inj hu).mp heq ▸ hE))

/-- Two transfers, each of which writes what the one before it reads. -/
def shiftTransfers : List Transfer := [0, 1].map fun b : Int =>
  .init [] none { data := [b, b + 1] } { data := [b + 1, b + 2] } .diff

theorem findVertexSequence_order_shift :
    ∃ seq, findVertexSequence 2 (generateDigraph shiftTransfers) = some seq ∧
      seq.Perm (List.range 2) := by
  obtain ⟨seq, hseq, hperm, -⟩ := findVertexSequence_order
    (generateDigraph_mirrored shiftTransfers) fun x u h => ⟨h.1, h.2.1⟩
  exact ⟨seq, hseq, hperm⟩

end ShieldTv.Releasetools.BlockImageDiff
