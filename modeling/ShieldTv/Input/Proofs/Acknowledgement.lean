import ShieldTv.Input.Proofs.Delivery

/-!
# Each message acknowledged once

For each event that the application has yet to finish there is a list of the sequence numbers that
are still owed, the last of which is the number of the event; the chain list has the links of
these lists and no others.
-/

namespace ShieldTv.Input

open Lib List

variable {v u : List Nat} {c : InputConsumer} {st : System} {e : SeqChain}

namespace InputConsumer

/-! ## Links -/

/-- `links`, for a list that starts with the last number. -/
def linksBack (v : List Nat) : List SeqChain := (links v.reverse).reverse

theorem rebuildChain_eq (seq : Nat) {unsent : List Nat} (hne : unsent ≠ []) :
    rebuildChain seq unsent = links (unsent ++ [seq]) := by
  induction unsent with
  | nil => exact absurd rfl hne
  | cons a rest ih =>
    cases rest with
    | nil => rfl
    | cons b rest =>
      rw [rebuildChain, ih (cons_ne_nil _ _)]
      rfl

theorem seq_mem_of_links (h : e ∈ links u) : e.seq ∈ u := by
  induction u with
  | nil => cases h
  | cons a rest ih =>
    cases rest with
    | nil => cases h
    | cons b rest =>
      rcases mem_cons.mp h with rfl | h
      · simp
      · exact mem_cons_of_mem _ (ih h)

theorem filter_links_self (u : List Nat) : (links u).filter (·.seq ∈ u) = links u := by
  rw [filter_eq_self]
  intro e he
  simpa using seq_mem_of_links he

theorem filter_links_disjoint (h : ∀ n ∈ v, n ∉ u) : (links u).filter (·.seq ∈ v) = [] := by
  rw [filter_eq_nil_iff]
  intro e he
  simpa using fun hmem => h e.seq hmem (seq_mem_of_links he)

theorem links_concat (u : List Nat) (a b : Nat) :
    links (u ++ [a, b]) = links (u ++ [a]) ++ [⟨b, a⟩] := by
  induction u with
  | nil => rfl
  | cons c u ih =>
    cases u with
    | nil => rfl
    | cons d u => simpa [links] using ih

theorem linksBack_cons (a b : Nat) (rest : List Nat) :
    linksBack (a :: b :: rest) = ⟨a, b⟩ :: linksBack (b :: rest) := by
  simp [linksBack, links_concat]

theorem seq_mem_of_linksBack (h : e ∈ linksBack v) : e.seq ∈ v :=
  mem_reverse.mp (seq_mem_of_links (mem_reverse.mp h))

/-! ## The walk -/

/-- The walk finds the numbers of a list whose links are in the chain list, in order and each
once, and leaves the other links. -/
theorem walkChain_eq {chains : List SeqChain} {current : Nat} {rest : List Nat}
    (hnodup : (current :: rest).Nodup)
    (hlinks : chains.filter (·.seq ∈ current :: rest) = linksBack (current :: rest)) :
    walkChain chains current = (chains.filter (·.seq ∉ current :: rest), rest) := by
  induction chains generalizing current rest with
  | nil =>
    cases rest with
    | nil => rfl
    | cons b rest =>
      rw [linksBack_cons] at hlinks
      cases hlinks
  | cons link chains ih =>
    unfold walkChain
    split_ifs with hseq
    · rw [filter_cons_of_pos (by simp [hseq])] at hlinks
      cases rest with
      | nil => cases hlinks
      | cons b rest =>
        rw [linksBack_cons] at hlinks
        obtain ⟨rfl, hrest⟩ := cons.inj hlinks
        -- the other links are not those of `current`
        have hother : ∀ e ∈ chains, e.seq ≠ current := by
          intro e he heq
          have hmem : e ∈ chains.filter (·.seq ∈ current :: b :: rest) :=
            mem_filter.mpr ⟨he, by simp [heq]⟩
          rw [hrest] at hmem
          exact (nodup_cons.mp hnodup).1 (heq ▸ seq_mem_of_linksBack hmem)
        have hsame : ∀ e ∈ chains, (e.seq ∈ current :: b :: rest ↔ e.seq ∈ b :: rest) := by
          intro e he
          simp [hother e he]
        have hfilter : chains.filter (·.seq ∈ b :: rest) = linksBack (b :: rest) := by
          rw [← hrest]
          apply filter_congr
          intro e he
          simp only [hsame e he]
        rw [ih (nodup_cons.mp hnodup).2 hfilter, filter_cons_of_neg (by simp)]
        dsimp only
        congr 1
        apply filter_congr
        intro e he
        simp only [hsame e he]
    · have hnot : link.seq ∉ current :: rest := by
        intro hmem
        rw [filter_cons_of_pos (by simpa using hmem)] at hlinks
        cases rest with
        | nil => cases hlinks
        | cons b rest =>
          rw [linksBack_cons] at hlinks
          obtain ⟨rfl, -⟩ := cons.inj hlinks
          exact hseq rfl
      rw [filter_cons_of_neg (by simpa using hnot)] at hlinks
      rw [ih hnodup hlinks, filter_cons_of_pos (by simpa using hnot)]

/-- A finished signal sends the numbers that are owed from the first one on; the links of those
that are left are put back. -/
theorem sendFinishedSignal_spec {seq : Nat} (hseq : seq ≠ 0) (hnodup : (v ++ [seq]).Nodup)
    (hlinks : c.seqChains.filter (·.seq ∈ v ++ [seq]) = links (v ++ [seq])) (good : Option Nat) :
    ∃ j, (c.sendFinishedSignal seq good).2.1 = (v ++ [seq]).take j ∧
      ((c.sendFinishedSignal seq good).1 = true ↔ (v ++ [seq]).drop j = []) ∧
      (c.sendFinishedSignal seq good).2.2.seqChains =
        c.seqChains.filter (·.seq ∉ v ++ [seq]) ++ links ((v ++ [seq]).drop j) := by
  have hmem : ∀ n, n ∈ seq :: v.reverse ↔ n ∈ v ++ [seq] := by
    intro n
    simp [or_comm]
  have hwalk : walkChain c.seqChains.reverse seq
      = ((c.seqChains.filter (·.seq ∉ v ++ [seq])).reverse, v.reverse) := by
    have hreverse : seq :: v.reverse = (v ++ [seq]).reverse := by simp
    have hback : c.seqChains.reverse.filter (·.seq ∈ seq :: v.reverse)
        = linksBack (seq :: v.reverse) := by
      rw [hreverse, linksBack, reverse_reverse, ← hlinks, filter_reverse]
      simp only [mem_reverse]
    rw [walkChain_eq (by rw [hreverse, nodup_reverse]; exact hnodup) hback,
      filter_reverse]
    simp only [hmem]
  unfold sendFinishedSignal
  rw [if_neg hseq, hwalk]
  simp only [reverse_reverse]
  cases good with
  | none =>
    refine ⟨v.length + 1, ?_⟩
    simp [links]
  | some n =>
    simp only [Option.map_some, Option.getD_some, Option.some.injEq]
    by_cases hn : n < v.length
    · have hsent : (v.take n).length = n := by simp [hn.le]
      have hunsent : v.drop n ≠ [] := by simpa using hn
      refine ⟨n, ?_⟩
      rw [hsent, if_pos hunsent, take_append_of_le_length hn.le,
        drop_append_of_le_length hn.le, rebuildChain_eq seq hunsent]
      simp
    · have hall : v.take n = v := take_of_length_le (not_lt.mp hn)
      rw [hall, drop_length, if_neg (by simp)]
      split_ifs with heq
      · refine ⟨v.length, ?_⟩
        simp [links]
      · refine ⟨v.length + 1, ?_⟩
        simp [links]

end InputConsumer

namespace System

open InputConsumer

/-! ## What is owed -/

/-- The numbers that are owed for the outstanding events, event by event. -/
structure Owes (st : System) (owed : List (List Nat)) : Prop where
  perm : (st.acknowledged ++ owed.flatten).Perm
    ((eventMessages st.returned).map InputMessage.seq)
  last : owed.map getLast? = st.outstanding.map some
  linked : ∀ u ∈ owed, st.consumer.seqChains.filter (·.seq ∈ u) = links u
  cover : ∀ e ∈ st.consumer.seqChains, e.seq ∈ owed.flatten

/-- Published sequence numbers are new and not 0, and the application finishes events that it has
got and has not finished. -/
def Fits (st : System) : Action → Prop
  | .publish msg => msg.seq ≠ 0 ∧ msg.seq ∉ st.published.map InputMessage.seq
  | .consume _ _ _ => True
  | .finish seq _ => seq ∈ st.outstanding

instance (st : System) : DecidablePred (Fits st)
  | .publish msg =>
    inferInstanceAs (Decidable (msg.seq ≠ 0 ∧ msg.seq ∉ st.published.map InputMessage.seq))
  | .consume _ _ _ => inferInstanceAs (Decidable True)
  | .finish seq _ => inferInstanceAs (Decidable (seq ∈ st.outstanding))

/-- Sequence numbers are different and not 0. -/
def Numbered (st : System) : Prop :=
  (st.published.map InputMessage.seq).Nodup ∧ 0 ∉ st.published.map InputMessage.seq

theorem numbered_step (h : Numbered st) {action : Action} (hfits : Fits st action) :
    Numbered (st.step action) := by
  cases action with
  | publish msg =>
    simp only [Numbered, step, map_append, map_cons, map_nil]
    constructor
    · refine nodup_append.mpr ⟨h.1, nodup_singleton _, ?_⟩
      rintro a ha b hb rfl
      rw [mem_singleton.mp hb] at ha
      exact hfits.2 ha
    · rw [mem_append, mem_singleton]
      exact not_or.mpr ⟨h.2, hfits.1.symm⟩
  | consume consumeBatches wouldBlock frameTime | finish seq good => exact h

theorem returned_numbered (hc : Conserved st) (hn : Numbered st) :
    ((eventMessages st.returned).map InputMessage.seq).Nodup ∧
      0 ∉ (eventMessages st.returned).map InputMessage.seq := by
  have hperm := (hc.flow.perm).map InputMessage.seq
  rw [flow, map_append] at hperm
  constructor
  · exact (nodup_append.mp (hperm.nodup_iff.mpr hn.1)).1
  · intro hzero
    exact hn.2 (hperm.subset (mem_append_left _ hzero))

theorem apart_of_nodup {acknowledged : List Nat} {a b : List (List Nat)} {n : Nat}
    (h : (acknowledged ++ (a ++ u :: b).flatten).Nodup) (hn : n ∈ u) :
    n ∉ a.flatten ∧ n ∉ b.flatten := by
  rw [flatten_append, flatten_cons] at h
  obtain ⟨-, hu, ha⟩ := nodup_append.mp (nodup_append.mp h).2.1
  obtain ⟨-, -, hb⟩ := nodup_append.mp hu
  exact ⟨fun hmem => ha n hmem n (mem_append_left _ hn) rfl, fun hmem => hb n hn n hmem rfl⟩

theorem Owes.consumed {owed : List (List Nat)} (h : Owes st owed) {event : Nat × InputEvent}
    {inbox : List InputMessage}
    (hnumber : (event.2.messages.map InputMessage.seq).getLast? = some event.1)
    (hchains : c.seqChains
      = st.consumer.seqChains ++ links (event.2.messages.map InputMessage.seq))
    (hnodup : ((eventMessages (st.returned ++ [event])).map InputMessage.seq).Nodup) :
    Owes { st with
      consumer := c
      inbox := inbox
      returned := st.returned ++ [event]
      outstanding := st.outstanding ++ [event.1] }
      (owed ++ [event.2.messages.map InputMessage.seq]) := by
  set u := event.2.messages.map InputMessage.seq with hu
  have hreturned : (eventMessages (st.returned ++ [event])).map InputMessage.seq
      = (eventMessages st.returned).map InputMessage.seq ++ u := by
    simp [eventMessages, hu]
  rw [hreturned] at hnodup
  -- what is owed so far has no number in common with the new event
  have hfresh : ∀ n ∈ owed.flatten, n ∉ u := fun n hn hmem =>
    (nodup_append.mp hnodup).2.2 n (h.perm.subset (mem_append_right _ hn)) n hmem rfl
  constructor
  · rw [hreturned, flatten_append, flatten_singleton, ← append_assoc]
    exact h.perm.append_right u
  · simp [h.last, hnumber]
  · intro w hw
    rw [hchains, filter_append]
    rcases mem_append.mp hw with hw | hw
    · rw [h.linked w hw, filter_links_disjoint fun n hn => hfresh n (mem_flatten_of_mem hw hn),
        append_nil]
    · have hnone : st.consumer.seqChains.filter (·.seq ∈ u) = [] := by
        rw [filter_eq_nil_iff]
        intro e he
        simpa using hfresh e.seq (h.cover e he)
      rw [mem_singleton.mp hw, hnone, filter_links_self, nil_append]
  · intro e he
    rw [hchains, mem_append] at he
    rw [flatten_append, flatten_singleton, mem_append]
    exact he.imp (h.cover e) seq_mem_of_links

/-- The first numbers that are owed for an event are acknowledged; the others are `left`. -/
theorem Owes.finished {a b left : List (List Nat)} (h : Owes st (a ++ u :: b))
    (hnodup : (st.acknowledged ++ (a ++ u :: b).flatten).Nodup) {j : Nat}
    (hleft : left = [] ∧ u.drop j = [] ∨ left = [u.drop j])
    (hchains : c.seqChains = st.consumer.seqChains.filter (·.seq ∉ u) ++ links (u.drop j))
    {outstanding : List Nat} (hlast : (a ++ left ++ b).map getLast? = outstanding.map some) :
    Owes { st with
      consumer := c
      acknowledged := st.acknowledged ++ u.take j
      outstanding := outstanding } (a ++ left ++ b) := by
  have hflat : left.flatten = u.drop j := by
    rcases hleft with ⟨rfl, hnil⟩ | rfl
    · exact hnil.symm
    · exact flatten_singleton
  refine ⟨?_, hlast, ?_, ?_⟩
  · refine Perm.trans ?_ h.perm
    rw [flatten_append, flatten_append, flatten_append, flatten_cons, hflat, append_assoc,
      append_assoc]
    apply Perm.append_left
    conv_rhs => rw [← take_append_drop j u, append_assoc]
    exact perm_append_comm_assoc _ _ _
  · intro w hw
    rw [hchains, filter_append, filter_filter]
    by_cases heq : w ∈ left
    · obtain rfl : w = u.drop j := by
        rcases hleft with ⟨rfl, -⟩ | rfl
        · cases heq
        · exact mem_singleton.mp heq
      have hnone : st.consumer.seqChains.filter (fun e =>
          decide (e.seq ∈ u.drop j) && decide (e.seq ∉ u)) = [] := by
        rw [filter_eq_nil_iff]
        intro e _
        simpa using fun hmem => mem_of_mem_drop hmem
      rw [hnone, filter_links_self, nil_append]
    · have hw' : w ∈ a ∨ w ∈ b := by
        simpa [heq] using hw
      have hother : ∀ n ∈ w, n ∉ u := by
        intro n hn hmem
        obtain ⟨ha, hb⟩ := apart_of_nodup hnodup hmem
        exact hw'.elim (fun hw => ha (mem_flatten_of_mem hw hn))
          fun hw => hb (mem_flatten_of_mem hw hn)
      rw [filter_links_disjoint fun n hn hdrop => hother n hn (mem_of_mem_drop hdrop),
        append_nil, ← h.linked w (by simpa using hw'.imp_right Or.inr)]
      apply filter_congr
      intro e _
      by_cases hmem : e.seq ∈ w
      · simp [hmem, hother e.seq hmem]
      · simp [hmem]
  · intro e he
    rw [hchains, mem_append, mem_filter] at he
    rw [flatten_append, flatten_append, hflat, mem_append, mem_append]
    rcases he with ⟨he, hnot⟩ | he
    · have hcover := h.cover e he
      rw [flatten_append, flatten_cons, mem_append, mem_append] at hcover
      exact hcover.elim (fun ha => .inl (.inl ha))
        fun hb => .inr (hb.resolve_left (by simpa using hnot))
    · exact .inl (.inr (seq_mem_of_links he))

theorem owes_step (hc : Conserved st) (hn : Numbered st) (h : ∃ owed, Owes st owed)
    {action : Action} (hfits : Fits st action) : ∃ owed, Owes (st.step action) owed := by
  obtain ⟨owed, h⟩ := h
  cases action with
  | publish msg => exact ⟨owed, h.perm, h.last, h.linked, h.cover⟩
  | consume consumeBatches wouldBlock frameTime =>
    obtain ⟨hlast, hchains⟩ :=
      (consume_spec hc.batches st.inbox consumeBatches wouldBlock frameTime).chained
    have hnodup := (returned_numbered
      (conserved_step hc (.consume consumeBatches wouldBlock frameTime))
      (numbered_step hn hfits)).1
    simp only [step] at hnodup ⊢
    cases hresult : (st.consumer.consume st.inbox consumeBatches wouldBlock frameTime).1 with
    | none =>
      rw [hresult] at hchains
      have hsame := hchains.trans (append_nil _)
      refine ⟨owed, ?_, ?_, ?_, ?_⟩
      · simpa using h.perm
      · simpa using h.last
      · simpa [hsame] using h.linked
      · simpa [hsame] using h.cover
    | some event =>
      rw [hresult] at hchains hnodup
      exact ⟨_, h.consumed (hlast event hresult) hchains hnodup⟩
  | finish seq good =>
    obtain ⟨before, after, houtstanding⟩ := append_of_mem hfits
    have hlast := h.last
    rw [houtstanding, map_append, map_cons, map_eq_append_iff] at hlast
    obtain ⟨a, owed', rfl, ha, hlast⟩ := hlast
    obtain ⟨u, b, rfl, hu, hb⟩ := map_eq_cons_iff.mp hlast
    have hnodup : (st.acknowledged ++ (a ++ u :: b).flatten).Nodup :=
      h.perm.nodup_iff.mpr (returned_numbered hc hn).1
    have hmem : seq ∈ u := mem_of_getLast? hu
    have hzero : seq ≠ 0 := by
      rintro rfl
      exact (returned_numbered hc hn).2 (h.perm.subset (by simp [hmem]))
    have hbefore : seq ∉ before := by
      intro hin
      have hin' : some seq ∈ a.map getLast? := ha ▸ mem_map_of_mem hin
      obtain ⟨w, hw, hseq⟩ := mem_map.mp hin'
      exact (apart_of_nodup hnodup hmem).1 (mem_flatten_of_mem hw (mem_of_getLast? hseq))
    have hlinked := h.linked u (by simp)
    have hnodup' : u.Nodup := (nodup_flatten.mp (nodup_append.mp hnodup).2.1).1 u (by simp)
    obtain ⟨v, rfl⟩ := List.getLast?_eq_some_iff.mp hu
    obtain ⟨j, hsent, hok, hchains⟩ := sendFinishedSignal_spec hzero hnodup' hlinked good
    simp only [step, hsent]
    by_cases hnil : (v ++ [seq]).drop j = []
    · refine ⟨_, h.finished hnodup (.inl ⟨rfl, hnil⟩) hchains ?_⟩
      rw [if_pos (hok.mpr hnil), houtstanding, erase_append_right _ hbefore, erase_cons_head]
      simp [ha, hb]
    · refine ⟨_, h.finished hnodup (.inr rfl) hchains ?_⟩
      have hleft : ((v ++ [seq]).drop j).getLast? = some seq := by
        rw [List.getLast?_drop, if_neg (by simpa using hnil), hu]
      rw [if_neg (hok.not.mpr hnil), houtstanding]
      simp [ha, hb, hleft]

/-! ## Runs -/

def RunFits (st : System) : List Action → Prop
  | [] => True
  | action :: actions => Fits st action ∧ RunFits (st.step action) actions

theorem owes_run (hc : Conserved st) (hn : Numbered st) (h : ∃ owed, Owes st owed)
    {actions : List Action} (hfits : RunFits st actions) :
    Numbered (st.run actions) ∧ ∃ owed, Owes (st.run actions) owed := by
  induction actions generalizing st with
  | nil => exact ⟨hn, h⟩
  | cons action actions ih =>
    exact ih (conserved_step hc action) (numbered_step hn hfits.1) (owes_step hc hn h hfits.1)
      hfits.2

theorem owes_initial (resampleTouch : Bool) : Owes (initial resampleTouch) [] where
  perm := Perm.refl _
  last := rfl
  linked _ h := by cases h
  cover _ h := by cases h

theorem countP_eq_one {events : List (Nat × InputEvent)} {msg : InputMessage}
    (h : (eventMessages events).count msg = 1) :
    events.countP (fun event => msg ∈ event.2.messages) = 1 := by
  induction events with
  | nil => cases h
  | cons event events ih =>
    have hcount : (eventMessages (event :: events)).count msg
        = event.2.messages.count msg + (eventMessages events).count msg := by
      simp [eventMessages]
    rw [hcount] at h
    by_cases hmem : msg ∈ event.2.messages
    · have hpos := count_pos_iff.mpr hmem
      have hnone : msg ∉ eventMessages events := by
        rw [← count_eq_zero]
        omega
      rw [countP_cons_of_pos (by simpa using hmem), Nat.add_eq_right, countP_eq_zero]
      intro other hother
      simpa using fun hin => hnone (mem_flatMap.mpr ⟨other, hother, hin⟩)
    · rw [count_eq_zero.mpr hmem, zero_add] at h
      rw [countP_cons_of_neg (by simpa using hmem)]
      exact ih h

theorem published_drain (st : System) (n : Nat) :
    (st.run (List.replicate n (.consume true true (-1)))).published = st.published := by
  induction n generalizing st with
  | zero => rfl
  | succ n ih => exact ih (st.step (.consume true true (-1)))

/-- A message that has been returned has not overtaken a key. -/
theorem key_before (hc : Conserved st) (hn : Numbered st) {key msg : InputMessage}
    (hkey : key.IsKey) (hpair : [key, msg] <+ st.published)
    (hmsg : msg ∈ eventMessages st.returned) : [key, msg] <+ eventMessages st.returned := by
  have hnodup : st.flow.Nodup := hc.flow.perm.nodup_iff.mpr (Nodup.of_map _ hn.1)
  have hapart : msg ∉ st.consumer.held ++ st.inbox := disjoint_of_nodup_append hnodup hmsg
  rcases pair_sublist_append.mp (hc.keys.pair key msg hkey hpair) with hsub | ⟨-, hmem⟩ | hsub
  · exact hsub
  · exact absurd hmem hapart
  · exact absurd (hsub.subset (mem_cons_of_mem _ mem_cons_self)) hapart

/-- At any time each stream has been returned in order and as far as it has come, and no message
before a key that was published before it; when the application asks until nothing is left each
message has been returned in one event; and when it has finished the events, each message that was
returned has been acknowledged once. -/
theorem delivered_and_acknowledged_once (resampleTouch : Bool) {actions : List Action}
    (hfits : RunFits (initial resampleTouch) actions) :
    let st := (initial resampleTouch).run actions
    (∀ k, (eventMessages st.returned).filter (·.stream = k) <+:
      st.published.filter (·.stream = k)) ∧
    (∀ key msg, key.IsKey → [key, msg] <+ st.published → msg ∈ eventMessages st.returned →
      [key, msg] <+ eventMessages st.returned) ∧
    (∀ n, st.published.length ≤ n →
      let drained := st.run (List.replicate n (.consume true true (-1)))
      (∀ msg ∈ st.published,
        drained.returned.countP (fun event => msg ∈ event.2.messages) = 1) ∧
      ∀ k, (eventMessages drained.returned).filter (·.stream = k)
        = st.published.filter (·.stream = k)) ∧
    (st.outstanding = [] →
      st.acknowledged.Perm ((eventMessages st.returned).map InputMessage.seq)) ∧
    (st.outstanding = [] → (∀ msg ∈ st.published, msg ∈ eventMessages st.returned) →
      ∀ msg ∈ st.published, st.acknowledged.count msg.seq = 1) := by
  intro st
  have hc : Conserved st := conserved_run (conserved_initial resampleTouch) actions
  obtain ⟨hn, owed, howed⟩ := owes_run (conserved_initial resampleTouch)
    ⟨nodup_nil, not_mem_nil⟩ ⟨_, owes_initial resampleTouch⟩ hfits
  have hacknowledged : st.outstanding = [] →
      st.acknowledged.Perm ((eventMessages st.returned).map InputMessage.seq) := by
    intro hnone
    have hlast : owed.map getLast? = st.outstanding.map some := howed.last
    rw [hnone, map_nil, map_eq_nil_iff] at hlast
    simpa [hlast] using howed.perm
  refine ⟨fun k => ?_, fun _ _ => key_before hc hn, fun n hlen => ?_, hacknowledged,
    fun hnone hall msg hmsg => ?_⟩
  · rw [← hc.flow k, flow, filter_append]
    exact prefix_append _ _
  · have hdrained := conserved_run hc (List.replicate n (.consume true true (-1)))
    have hempty : (st.run (List.replicate n (.consume true true (-1)))).backlog = 0 := by
      have := backlog_drain hc n
      have := backlog_le hc
      omega
    have hreturned := returned_of_backlog hdrained hempty
    rw [published_drain] at hreturned
    refine ⟨fun msg hmsg => countP_eq_one ?_, hreturned⟩
    rw [hreturned.perm.count_eq]
    exact count_eq_one_of_mem (Nodup.of_map _ hn.1) hmsg
  · rw [(hacknowledged hnone).count_eq]
    exact count_eq_one_of_mem (returned_numbered hc hn).1 (mem_map_of_mem (hall msg hmsg))

def sampleMove (seq : Nat) (eventTime : Int) : MotionMessage where
  seq := seq
  deviceId := 1
  source := 2
  action := actionMove
  eventTime := eventTime
  pointers := [⟨0, 1⟩]

/-- Three moves become one event, whose finished signals are sent in two attempts. -/
def sampleActions : List Action :=
  [.publish (.motion (sampleMove 1 10)), .publish (.motion (sampleMove 2 20)),
    .publish (.motion (sampleMove 3 30)), .consume true true 100, .finish 3 (some 1),
    .finish 3 none]

theorem delivered_and_acknowledged_once_batch :
    ((initial false).run sampleActions).acknowledged = [1, 2, 3] ∧
      ∀ msg ∈ ((initial false).run sampleActions).published,
        ((initial false).run sampleActions).acknowledged.count msg.seq = 1 := by
  have hfits : RunFits (initial false) sampleActions := by
    refine ⟨?_, ?_, ?_, ?_, ?_, ?_, trivial⟩ <;> decide
  refine ⟨by decide, (delivered_and_acknowledged_once false hfits).2.2.2.2 ?_ ?_⟩ <;> decide

def origin : InputMessage → Int × Int
  | .key _ deviceId source => (deviceId, source)
  | .motion msg => msg.stream

/-- A key overtakes a move of its device and source that waits in a batch. -/
theorem key_overtakes_move :
    ∃ actions : List Action, RunFits (initial false) actions ∧
      (eventMessages ((initial false).run actions).returned).filter
        (origin · = (1, 2)) = [.key 2 1 2, .motion (sampleMove 1 10)] ∧
      ((initial false).run actions).published.filter (origin · = (1, 2))
        = [.motion (sampleMove 1 10), .key 2 1 2] := by
  refine ⟨[.publish (.motion (sampleMove 1 10)), .publish (.key 2 1 2), .consume true true 100,
    .consume true true 100], ⟨?_, ?_, trivial, trivial, trivial⟩, ?_, ?_⟩ <;> decide

end System

end ShieldTv.Input
