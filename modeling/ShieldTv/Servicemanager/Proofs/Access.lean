import ShieldTv.Servicemanager.Proofs.Directory

/-!
# Which name a permission is checked for

The policy speaks of 8-bit strings.  A name of units between 1 and 255 is rendered without loss,
so a decision about the rendering is a decision about the name; other names share the decision of
the string they are cut to.  A record keeps the flag for isolated callers of the call that made
it, so the flag belongs to the handle as long as no later call withdraws it.
-/

namespace ShieldTv.Servicemanager

/-! ## Names that are 8-bit strings -/

/-- The policy grants a permission for this name: it has a context for an 8-bit string of the
same units, and the access is allowed. -/
def Selinux.grants (sel : Selinux) (perm : Perm) (spid : Nat) (name : Name) : Prop :=
  ∃ s : Bytes, 0 ∉ s ∧ s.map UInt8.toUInt16 = name ∧
    ∃ tctx, sel.label s = some tctx ∧ sel.checkMacPerms spid tctx perm = true

def Narrow (name : Name) : Prop := ∀ unit ∈ name, 0 < unit ∧ unit < 256

section

variable {name : Name} (h : Narrow name) (hlen : name.length ≤ 127)
include h hlen

theorem str8_of_narrow : str8 name = name.map UInt16.toUInt8 := by
  have hall : name.takeWhile (· ≠ 0) = name := by
    apply List.takeWhile_eq_self_iff.mpr
    intro unit hunit
    simpa using UInt16.pos_iff_ne_zero.mp (h unit hunit).1
  rw [str8, List.take_of_length_le hlen, hall]

theorem widen_str8 : (str8 name).map UInt8.toUInt16 = name := by
  rw [str8_of_narrow h hlen, List.map_map]
  refine (List.map_congr_left fun unit hunit => ?_).trans name.map_id
  have hlt := UInt16.lt_iff_toNat_lt.mp (h unit hunit).2
  apply UInt16.toNat_inj.mp
  exact Nat.mod_eq_of_lt hlt

theorem zero_notMem_str8 : 0 ∉ str8 name := by
  intro hzero
  have hmem : (0 : UInt16) ∈ (str8 name).map UInt8.toUInt16 := List.mem_map_of_mem hzero
  rw [widen_str8 h hlen] at hmem
  exact absurd (h 0 hmem).1 (by decide)

end

variable {sel : Selinux} {name : Name}

theorem Selinux.grants_of_lookup (henabled : sel.enabled = true) {perm : Perm} {spid : Nat}
    (h : Narrow name) (hlen : name.length ≤ 127)
    (hperm : sel.checkMacPermsFromLookup spid perm (str8 name) = true) :
    sel.grants perm spid name := by
  refine ⟨str8 name, zero_notMem_str8 h hlen, widen_str8 h hlen, ?_⟩
  rw [checkMacPermsFromLookup, henabled] at hperm
  cases hlabel : sel.label (str8 name) with
  | none => simp [hlabel] at hperm
  | some tctx => exact ⟨tctx, rfl, by simpa [hlabel] using hperm⟩

namespace State

/-! ## The call that supplied a handle -/

/-- The handle and the flag of the last call that added a service under each name. -/
abbrev Supply := Name → Option (Nat × Bool)

def Supply.step (supply : Supply) : Event → Reply → Supply
  | .addService _ req, .status true =>
    Function.update supply req.name (some (req.handle, req.allowIsolated))
  | _, _ => supply

def Supply.run (supply : Supply) (st : State) : List Event → Supply
  | [] => supply
  | event :: events => (supply.step event (st.step event).1).run (st.step event).2 events

/-- Names have at most 127 units, a handle comes from the last call, and the flag of a record is
not more than that call allowed. -/
def Supplied (st : State) (supply : Supply) : Prop :=
  ∀ name si, st.findSvc name = some si → name.length ≤ 127 ∧
    (si.handle ≠ 0 → ∃ flag, supply name = some (si.handle, flag) ∧
      (si.allowIsolated = true → flag = true))

/-- The call names a service by 8-bit units, and it does not take back the flag for isolated
callers from a name that has it. -/
def Fits (st : State) : Event → Prop
  | .addService _ req => Narrow req.name ∧
      ∀ si, st.findSvc req.name = some si → si.allowIsolated = true → req.allowIsolated = true
  | .getService _ name _ _ => Narrow name
  | _ => True

def RunFits (st : State) : List Event → Prop
  | [] => True
  | event :: events => Fits st event ∧ RunFits (st.step event).2 events

variable {st : State} {req : AddRequest} {event : Event} {supply : Supply}

section

variable (h : Supplied st supply)
include h

theorem Supplied.addService (hfits : Fits st (.addService sel req)) :
    Supplied (st.step (.addService sel req)).2
      (supply.step (.addService sel req) (st.step (.addService sel req)).1) := by
  cases hadd : (st.binderAcquire req.handle).doAddService sel req with
  | mk ok st' =>
    simp only [step, hadd]
    cases ok with
    | false =>
      rw [doAddService_fails hadd]
      exact h
    | true =>
      obtain ⟨⟨-, hlen, -⟩, hrecords, -⟩ := doAddService_spec hadd
      intro name si hfind
      change st'.findSvc name = some si at hfind
      rw [hrecords] at hfind
      by_cases heq : name = req.name
      · subst heq
        rw [Function.update_self] at hfind
        cases hfind
        refine ⟨hlen, fun _ => ⟨_, Function.update_self _ _ _, fun hflag => ?_⟩⟩
        change ((st.findSvc req.name).map (·.allowIsolated)).getD req.allowIsolated = true at hflag
        cases hold : st.findSvc req.name with
        | none => simpa [hold] using hflag
        | some old => exact hfits.2 old hold (by simpa [hold] using hflag)
      · rw [Function.update_of_ne heq] at hfind
        simp only [Supply.step, Function.update_of_ne heq]
        exact h name si hfind

theorem Supplied.death (handle : Nat) : Supplied (st.step (.death handle)).2
      (supply.step (.death handle) (st.step (.death handle)).1) := by
  unfold step
  dsimp only
  split
  · exact h
  · rename_i cookie hlink
    let unlinked : State := { st with links := Function.update st.links handle none }
    intro name si hfind
    rw [(svcinfoDeath_eq unlinked cookie).1] at hfind
    by_cases heq : name = cookie
    · subst heq
      rw [Function.update_self] at hfind
      obtain ⟨old, hold, rfl⟩ := Option.map_eq_some_iff.mp hfind
      exact ⟨(h name old hold).1, fun hne => absurd rfl hne⟩
    · rw [Function.update_of_ne heq] at hfind
      exact h name si hfind

theorem Supplied.step (hfits : Fits st event) :
    Supplied (st.step event).2 (supply.step event (st.step event).1) := by
  cases event with
  | addService sel req => exact h.addService hfits
  | getService sel name uid spid | listServices sel n spid => exact h
  | death handle => exact h.death handle

theorem Supplied.run {events later : List Event} (hfits : RunFits st (events ++ later)) :
    Supplied (st.run events) (supply.run st events) ∧ RunFits (st.run events) later := by
  induction events generalizing st supply with
  | nil => exact ⟨h, hfits⟩
  | cons event events ih => exact ih (h.step hfits.1) hfits.2

end

/-! ## Access -/

theorem addService_changes (henabled : sel.enabled = true) (hnarrow : Narrow req.name)
    (hchange : (st.step (.addService sel req)).2.findSvc name ≠ st.findSvc name) :
    sel.grants .add req.spid name := by
  cases hadd : (st.binderAcquire req.handle).doAddService sel req with
  | mk ok st' =>
    simp only [State.step, hadd] at hchange
    cases ok with
    | false => exact absurd (by rw [doAddService_fails hadd]; rfl) hchange
    | true =>
      obtain ⟨⟨-, hlen, hperm⟩, hrecords, -⟩ := doAddService_spec hadd
      have heq : name = req.name := by
        by_contra hne
        exact hchange ((congrFun hrecords name).trans (Function.update_of_ne hne _ _))
      rw [heq]
      exact Selinux.grants_of_lookup henabled hnarrow hlen hperm

theorem doFindService_handle {uid spid : Nat} (hne : st.doFindService sel name uid spid ≠ 0) :
    ∃ si, st.findSvc name = some si ∧ si.handle ≠ 0 ∧
      st.doFindService sel name uid spid = si.handle ∧
      (isIsolated uid = true → si.allowIsolated = true) ∧ sel.svcCanFind name spid = true := by
  unfold doFindService at hne ⊢
  cases hfind : st.findSvc name with
  | none => simp [hfind] at hne
  | some si =>
    simp only [hfind] at hne ⊢
    refine ⟨si, rfl, ?_⟩
    split_ifs at hne ⊢ with hzero hiso hperm
    · exact absurd rfl hne
    · exact absurd rfl hne
    · exact absurd rfl hne
    · refine ⟨hzero, rfl, fun hisolated => ?_, by simpa using hperm⟩
      simpa [hisolated] using hiso

/-- What a call may do, by the policy for the very name and by the calls before it. -/
def Checked (st : State) (supply : Supply) : Event → Prop
  | .addService sel req => sel.enabled = true → ∀ name,
      (st.step (.addService sel req)).2.findSvc name ≠ st.findSvc name →
        sel.grants .add req.spid name
  | .getService sel name uid spid => ∀ handle,
      (st.step (.getService sel name uid spid)).1 = .handle handle → handle ≠ 0 →
        (sel.enabled = true → sel.grants .find spid name) ∧
        (isIsolated uid = true → supply name = some (handle, true))
  | _ => True

theorem checked_of_supplied (h : Supplied st supply) (hfits : Fits st event) :
    Checked st supply event := by
  cases event with
  | addService sel req => exact fun henabled name => addService_changes henabled hfits.1
  | getService sel name uid spid =>
    rintro handle hreply hne
    cases hreply
    obtain ⟨si, hfind, hzero, hhandle, hiso, hperm⟩ := doFindService_handle hne
    obtain ⟨hlen, hsupply⟩ := h name si hfind
    obtain ⟨flag, hsupplied, hflag⟩ := hsupply hzero
    refine ⟨fun henabled => Selinux.grants_of_lookup henabled hfits hlen hperm, ?_⟩
    intro hisolated
    rw [hhandle, hsupplied, hflag (hiso hisolated)]
  | listServices sel n spid | death handle => trivial

def Asks (st : State) : Event → Name → Prop
  | .addService _ req, name => name = req.name ∧ name.length ≤ 127
  | .getService _ asked _ _, name => name = asked ∧ (st.findSvc name).isSome
  | _, _ => False

theorem asks_narrow (h : Supplied st supply) (hfits : Fits st event) (hasks : Asks st event name) :
    Narrow name ∧ name.length ≤ 127 := by
  cases event with
  | addService sel req =>
    obtain ⟨rfl, hlen⟩ := hasks
    exact ⟨hfits.1, hlen⟩
  | getService sel asked uid spid =>
    obtain ⟨rfl, hfound⟩ := hasks
    obtain ⟨si, hfind⟩ := Option.isSome_iff_exists.mp hfound
    exact ⟨hfits, (h name si hfind).1⟩
  | listServices sel n spid | death handle => exact hasks.elim

theorem supplied_initial : Supplied {} fun _ => none := by
  rintro name si ⟨⟩

/-- Along a run of calls that name services by 8-bit units and do not take back a flag, every
call is checked for its very name, and two names that the policy is asked about have different
renderings. -/
theorem access_for_exact_name {events : List Event} (hfits : RunFits {} events) :
    (∀ before event after, events = before ++ event :: after →
      Checked (State.run {} before) (Supply.run (fun _ => none) {} before) event) ∧
    ∀ before event after name before' event' after' name',
      events = before ++ event :: after → events = before' ++ event' :: after' →
      Asks (State.run {} before) event name → Asks (State.run {} before') event' name' →
      str8 name = str8 name' → name = name' := by
  have hat : ∀ before event after, events = before ++ event :: after →
      Supplied (State.run {} before) (Supply.run (fun _ => none) {} before) ∧
        Fits (State.run {} before) event := by
    rintro before event after rfl
    obtain ⟨hsupplied, hlater⟩ := supplied_initial.run hfits
    exact ⟨hsupplied, hlater.1⟩
  constructor
  · intro before event after heq
    obtain ⟨hsupplied, hevent⟩ := hat before event after heq
    exact checked_of_supplied hsupplied hevent
  · intro before event after name before' event' after' name' heq heq' hasks hasks' hstr
    obtain ⟨hsupplied, hevent⟩ := hat before event after heq
    obtain ⟨hsupplied', hevent'⟩ := hat before' event' after' heq'
    obtain ⟨hnarrow, hlen⟩ := asks_narrow hsupplied hevent hasks
    obtain ⟨hnarrow', hlen'⟩ := asks_narrow hsupplied' hevent' hasks'
    rw [← widen_str8 hnarrow hlen, ← widen_str8 hnarrow' hlen', hstr]

/-- A policy with a context for the service `a` alone, open to everyone. -/
def onlyA : Selinux where
  enabled := true
  label s := if s = [97] then some 1 else none
  pidcon _ := some 0
  access _ tctx _ := tctx = 1
  serviceManagerContext := 2

/-- The service `a` is added for isolated callers and found by one. -/
theorem access_for_exact_name_isolated :
    onlyA.grants .find 7 [97] ∧
      Supply.run (fun _ => none) {}
        [.addService onlyA { name := [97], handle := 5, allowIsolated := true, spid := 7 }] [97]
        = some (5, true) := by
  have hfits : RunFits {}
      [.addService onlyA { name := [97], handle := 5, allowIsolated := true, spid := 7 },
        .getService onlyA [97] 99001 7] := by
    have hnarrow : Narrow [97] := by simp [Narrow]
    refine ⟨⟨hnarrow, ?_⟩, hnarrow, trivial⟩
    rintro si ⟨⟩
  obtain ⟨hgrants, hsupply⟩ :=
    (access_for_exact_name hfits).1 [_] (.getService onlyA [97] 99001 7) [] rfl 5 rfl (by decide)
  exact ⟨hgrants rfl, hsupply (by decide)⟩

/-- The name `š` (U+0161) is added and found on the permissions for `a`, which the policy does
not grant for it; and a handle that was added without the flag for isolated callers is given to
one, because the record has the flag of an earlier call. -/
theorem access_for_other_name :
    (∃ sel : Selinux, ∃ req : AddRequest, sel.enabled = true ∧
      ((State.run {} []).step (.addService sel req)).2.findSvc req.name
        ≠ (State.run {} []).findSvc req.name ∧
      ¬ sel.grants .add req.spid req.name ∧
      ((State.run {} [.addService sel req]).step (.getService sel req.name 1000 7)).1
        = .handle 5 ∧
      ¬ sel.grants .find 7 req.name) ∧
    ∃ events : List Event, ∃ sel : Selinux, sel.enabled = true ∧ isIsolated 99001 = true ∧
      ((State.run {} events).step (.getService sel [97] 99001 7)).1 = .handle 6 ∧
      Supply.run (fun _ => none) {} events [97] = some (6, false) := by
  have hwide : ∀ perm, ¬ onlyA.grants perm 7 [0x161] := by
    rintro perm ⟨s, -, hs, -⟩
    obtain ⟨byte, -, hbyte⟩ := List.mem_map.mp (hs ▸ List.mem_singleton_self (0x161 : UInt16))
    have hlt := byte.toNat_lt
    have heq : byte.toNat = 0x161 := by rw [← UInt8.toNat_toUInt16, hbyte]; rfl
    omega
  constructor
  · refine ⟨onlyA, { name := [0x161], handle := 5, allowIsolated := false, spid := 7 }, rfl, ?_,
      hwide _, rfl, hwide _⟩
    exact Option.some_ne_none _
  · exact ⟨[.addService onlyA { name := [97], handle := 5, allowIsolated := true, spid := 7 },
      .addService onlyA { name := [97], handle := 6, allowIsolated := false, spid := 7 }],
      onlyA, rfl, by decide, rfl, rfl⟩

end State

end ShieldTv.Servicemanager
