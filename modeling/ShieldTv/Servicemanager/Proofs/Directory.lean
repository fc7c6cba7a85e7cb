import ShieldTv.Servicemanager.ServiceManager

/-!
# The table as a directory of living services

What the service manager is for: under each name the handle that was added last, until its binder
is reported dead.  The table is such a directory as long as no handle is added under a second
name while it is registered under another: then each handle has one reference, and its link
carries the name it is registered under.
-/

namespace ShieldTv.Servicemanager

open Option

/-! ## The directory -/

/-- The handle under each name, or 0. -/
abbrev Directory := Name → Nat

def Directory.step (dir : Directory) : State.Event → State.Reply → Directory
  | .addService _ req, .status true => Function.update dir req.name req.handle
  | .death handle, _ => fun name => if dir name = handle then 0 else dir name
  | _, _ => dir

/-- The directory that the events lead to, with the answers that the service manager gives. -/
def Directory.run (dir : Directory) (st : State) : List State.Event → Directory
  | [] => dir
  | event :: events => (dir.step event (st.step event).1).run (st.step event).2 events

namespace State

open Function (update update_self update_of_ne)

variable {name : Name} {st st' : State} {sel : Selinux} {req : AddRequest}

/-! ## Handles by name -/

def handleOf (st : State) (name : Name) : Nat := ((st.findSvc name).map (·.handle)).getD 0

section

variable {si : Svcinfo} (h : st.findSvc name = some si)
include h

theorem findSvc_name : si.name = name := by
  simpa using List.find?_some h

theorem handleOf_of_findSvc : st.handleOf name = si.handle := by
  rw [handleOf, h]
  rfl

end

theorem handleOf_binderAcquire (st : State) (handle : Nat) :
    (st.binderAcquire handle).handleOf = st.handleOf := rfl

/-- The record of the name gets the handle, and other records stay. -/
theorem findSvc_setHandle (st : State) (name : Name) (handle : Nat) :
    (st.setHandle name handle).findSvc = update st.findSvc name
      ((st.findSvc name).map fun si => { si with handle := handle }) := by
  funext other
  have hmap : (st.setHandle name handle).findSvc other = (st.findSvc other).map fun si =>
      if si.name = name then { si with handle := handle } else si := by
    unfold findSvc setHandle
    rw [List.find?_map]
    congr 2
    funext si
    simp only [Function.comp_apply]
    split_ifs <;> rfl
  rw [hmap]
  by_cases heq : other = name
  · subst heq
    rw [update_self]
    exact map_congr fun si hsi => if_pos (findSvc_name hsi)
  · rw [update_of_ne heq]
    cases hsi : st.findSvc other with
    | none => rfl
    | some si => simp [findSvc_name hsi, heq]

theorem findSvc_cons (st : State) (si : Svcinfo) :
    ({ st with svclist := si :: st.svclist } : State).findSvc
      = update st.findSvc si.name (some si) := by
  funext other
  by_cases heq : other = si.name
  · subst heq
    simp [findSvc]
  · rw [update_of_ne heq]
    exact List.find?_cons_of_neg (by simpa using Ne.symm heq)

theorem handleOf_update {record : Option Svcinfo}
    (h : st'.findSvc = update st.findSvc name record) :
    st'.handleOf = update st.handleOf name ((record.map (·.handle)).getD 0) := by
  funext other
  rw [handleOf, h]
  by_cases heq : other = name
  · subst heq
    rw [update_self, update_self]
  · rw [update_of_ne heq, update_of_ne heq, handleOf]

/-! ## References and links -/

theorem release_congr (hrefs : st.refs = st'.refs) (hlinks : st.links = st'.links) (handle : Nat) :
    (st.binderRelease handle).refs = (st'.binderRelease handle).refs ∧
      (st.binderRelease handle).links = (st'.binderRelease handle).links := by
  unfold binderRelease
  rw [hrefs, hlinks]
  exact ⟨rfl, rfl⟩

/-- The links lead from the registered handles to their names, and a handle has one reference if
it has a link. -/
structure Inv (st : State) : Prop where
  links : ∀ {handle name}, st.links handle = some name ↔ handle ≠ 0 ∧ st.handleOf name = handle
  refs : ∀ handle, handle ≠ 0 → st.refs handle = (st.links handle).toList.length

theorem inv_initial : Inv {} where
  links := ⟨nofun, fun h => absurd h.2.symm h.1⟩
  refs _ _ := rfl

section

variable (h : Inv st)
include h

theorem Inv.unique {a b : Name} (ha : st.handleOf a ≠ 0) (hab : st.handleOf a = st.handleOf b) :
    a = b := by
  have hlink := h.links.mpr ⟨ha, rfl⟩
  rw [h.links.mpr ⟨ha, hab.symm⟩] at hlink
  exact (some.inj hlink).symm

theorem Inv.held (hne : st.handleOf name ≠ 0) :
    st.refs (st.handleOf name) = 1 ∧ st.links (st.handleOf name) = some name := by
  have hlink := h.links.mpr ⟨hne, rfl⟩
  exact ⟨by rw [h.refs _ hne, hlink]; rfl, hlink⟩

end

/-! ## One step -/

/-- The state in which a name has lost the handle it had. -/
def dropHandle (st : State) (name : Name) : State :=
  if st.handleOf name ≠ 0 then st.binderRelease (st.handleOf name) else st

theorem svcinfoDeath_eq (st : State) (name : Name) :
    (st.svcinfoDeath name).findSvc = update st.findSvc name
        ((st.findSvc name).map fun si => { si with handle := 0 }) ∧
      (st.svcinfoDeath name).refs = (st.dropHandle name).refs ∧
      (st.svcinfoDeath name).links = (st.dropHandle name).links := by
  unfold svcinfoDeath dropHandle
  cases hsi : st.findSvc name with
  | none =>
    have hsame : update st.findSvc name none = st.findSvc := by rw [← hsi, Function.update_eq_self]
    simp [handleOf, hsi, hsame]
  | some si =>
    rw [handleOf_of_findSvc hsi]
    dsimp only
    split_ifs with hzero
    · refine ⟨?_, rfl, rfl⟩
      rw [findSvc_setHandle, show (st.binderRelease si.handle).findSvc = st.findSvc from rfl, hsi]
    · rw [not_not] at hzero
      refine ⟨?_, rfl, rfl⟩
      rw [map_some, ← hzero, ← hsi, Function.update_eq_self]

/-- A service that is added may be.  Its name has a record with the handle then, whose flag is
the one of the record that was there or the one of the call; the handle that was there is
released, and the new one gets a reference and, if it has none, a link. -/
theorem doAddService_spec (h : st.doAddService sel req = (true, st')) :
    (req.handle ≠ 0 ∧ req.name.length ≤ 127 ∧ sel.svcCanRegister req.name req.spid = true) ∧
      st'.findSvc = update st.findSvc req.name (some
        { handle := req.handle
          allowIsolated := ((st.findSvc req.name).map (·.allowIsolated)).getD req.allowIsolated
          name := req.name }) ∧
      st'.refs = ((st.dropHandle req.name).binderAcquire req.handle).refs ∧
      st'.links = (((st.dropHandle req.name).binderAcquire req.handle).binderLinkToDeath req.handle
        req.name).links := by
  unfold doAddService at h
  split at h
  · cases h
  · rename_i hargs
    push Not at hargs
    split at h
    · cases h
    · rename_i hperm
      refine ⟨⟨hargs.1, hargs.2.2, by simpa using hperm⟩, ?_⟩
      split at h
      · rename_i si hsi
        obtain ⟨hrecords, hrefs, hlinks⟩ := svcinfoDeath_eq st req.name
        have hdeath : (if si.handle ≠ 0 then st.svcinfoDeath req.name else st)
            = st.svcinfoDeath req.name := by
          split_ifs with hzero
          · rfl
          · rw [svcinfoDeath, hsi]
            exact (if_neg hzero).symm
        rw [hdeath] at h
        cases h
        refine ⟨?_, ?_, ?_⟩
        · refine (findSvc_setHandle _ _ _).trans ?_
          rw [hrecords, update_self, Function.update_idem, hsi, ← findSvc_name hsi]
          rfl
        · simp only [binderLinkToDeath, binderAcquire, setHandle, hrefs]
        · simp only [binderLinkToDeath, binderAcquire, setHandle, hlinks]
      · rename_i hnone
        split at h
        · cases h
        · cases h
          have hdrop : st.dropHandle req.name = st := by simp [dropHandle, handleOf, hnone]
          rw [hdrop, hnone]
          exact ⟨findSvc_cons st ⟨req.handle, req.allowIsolated, req.name⟩, rfl, rfl⟩

theorem doAddService_fails (h : st.doAddService sel req = (false, st')) : st' = st := by
  unfold doAddService at h
  split at h
  · cases h
    rfl
  · split at h
    · cases h
      rfl
    · split at h
      · cases h
      · split at h
        · cases h
          rfl
        · cases h

/-- A service that is added brings a handle that no other name has. -/
def Unshared (st : State) : Event → Prop
  | .addService _ req => ∀ other, other ≠ req.name → st.handleOf other ≠ req.handle ∨ req.handle = 0
  | _ => True

theorem unshared_of_records (h : ∀ si ∈ st.svclist, si.name ≠ req.name → si.handle ≠ req.handle) :
    Unshared st (.addService sel req) := by
  intro other hother
  cases hfind : st.findSvc other with
  | none =>
    have hnone : st.handleOf other = 0 := by rw [handleOf, hfind]; rfl
    by_cases hzero : req.handle = 0
    · exact Or.inr hzero
    · exact Or.inl (hnone ▸ Ne.symm hzero)
  | some si =>
    rw [handleOf_of_findSvc hfind]
    exact Or.inl (h si (List.mem_of_find?_eq_some hfind) (findSvc_name hfind ▸ hother))

section

variable (h : Inv st) {handle : Nat}
include h

/-- A handle that nobody has, or none, replaces the one under a name. -/
theorem Inv.replace (hunshared : handle ≠ 0 → ∀ other, other ≠ name → st.handleOf other ≠ handle)
    (hhandles : st'.handleOf = update st.handleOf name handle)
    (hlinks : ∀ k, st'.links k = if k = handle ∧ k ≠ 0 then some name
      else if k = st.handleOf name then none else st.links k)
    (hrefs : ∀ k, k ≠ 0 → st'.refs k = if k = handle then 1
      else if k = st.handleOf name then 0 else st.refs k) : Inv st' := by
  constructor
  · intro k other
    rw [hlinks, hhandles]
    by_cases hk : k = handle ∧ k ≠ 0
    · obtain ⟨rfl, hne⟩ := hk
      rw [if_pos ⟨rfl, hne⟩]
      by_cases heq : other = name
      · simp [heq, hne]
      · simp [heq, Ne.symm heq, hunshared hne other heq]
    · rw [if_neg hk]
      by_cases heq : other = name
      · subst heq
        rw [update_self]
        constructor
        · split_ifs with hold
          · nofun
          · exact fun hlink => absurd (h.links.mp hlink).2.symm hold
        · rintro ⟨hne, rfl⟩
          exact absurd ⟨rfl, hne⟩ hk
      · rw [update_of_ne heq, ← h.links]
        split_ifs with hold
        · refine ⟨nofun, fun hlink => ?_⟩
          obtain ⟨hne, hsame⟩ := h.links.mp hlink
          exact absurd (h.unique (hsame ▸ hne) (hsame.trans hold)) heq
        · rfl
  · intro k hk
    rw [hrefs k hk, hlinks, h.refs k hk]
    simp only [hk, ne_eq, not_false_eq_true, and_true]
    split_ifs <;> rfl

theorem Inv.acquire_release (handle : Nat) :
    Inv ((st.binderAcquire handle).binderRelease handle) := by
  have hrefs : ((st.binderAcquire handle).binderRelease handle).refs = st.refs := by
    simp [binderAcquire, binderRelease]
  have hlinks : ((st.binderAcquire handle).binderRelease handle).links = st.links := by
    simp only [binderAcquire, binderRelease, update_self]
    split_ifs with hlast
    · have hnone : st.links handle = none := by
        rw [eq_none_iff_forall_ne_some]
        intro name hlink
        obtain ⟨hne, rfl⟩ := h.links.mp hlink
        have := (h.held hne).1
        omega
      rw [← hnone, Function.update_eq_self]
    · rfl
  refine ⟨?_, ?_⟩ <;> rw [hlinks]
  · exact h.links
  · rw [hrefs]
    exact h.refs

attribute [local simp] binderRelease binderAcquire binderLinkToDeath

def added (st : State) (name : Name) (handle : Nat) : State :=
  ((((st.binderAcquire handle).dropHandle name).binderAcquire handle).binderLinkToDeath handle
    name).binderRelease handle

theorem Inv.added_eq (hne : handle ≠ 0)
    (hunshared : ∀ other, other ≠ name → st.handleOf other ≠ handle) (k : Nat) :
    ((st.added name handle).links k = if k = handle ∧ k ≠ 0 then some name
      else if k = st.handleOf name then none else st.links k) ∧
    (k ≠ 0 → (st.added name handle).refs k = if k = handle then 1
      else if k = st.handleOf name then 0 else st.refs k) := by
  unfold added dropHandle
  rw [handleOf_binderAcquire]
  rcases eq_or_ne (st.handleOf name) handle with rfl | hdiffers
  · obtain ⟨hrefs, hlinks⟩ := h.held hne
    by_cases hk : k = st.handleOf name <;> simp [hne, hk, hrefs, hlinks]
  · have hlinks : st.links handle = none := by
      rw [eq_none_iff_forall_ne_some]
      intro other hlink
      obtain ⟨-, hsame⟩ := h.links.mp hlink
      exact hunshared other (fun heq => hdiffers (heq ▸ hsame)) hsame
    have hrefs : st.refs handle = 0 := by rw [h.refs _ hne, hlinks]; rfl
    by_cases hold : st.handleOf name = 0
    · have hzero : st.links 0 = none := by
        rw [eq_none_iff_forall_ne_some]
        exact fun other hlink => (h.links.mp hlink).1 rfl
      by_cases hk : k = handle
      · simp [hold, hne, hk, hrefs, hlinks]
      · by_cases hk' : k = 0 <;> simp [hold, hne.symm, hk, hk', hrefs, hzero]
    · obtain ⟨hrefs', hlinks'⟩ := h.held hold
      by_cases hk : k = handle
      · simp [hold, hne, hk, hrefs, hlinks, hdiffers, hdiffers.symm, hrefs']
      · by_cases hk' : k = st.handleOf name <;>
          simp [hold, hk, hk', hdiffers, hdiffers.symm, hrefs, hrefs']

theorem addService_inv (hunshared : Unshared st (.addService sel req)) :
    Inv (st.step (.addService sel req)).2 ∧ (st.step (.addService sel req)).2.handleOf =
        Directory.step st.handleOf (.addService sel req) (st.step (.addService sel req)).1 := by
  cases hadd : (st.binderAcquire req.handle).doAddService sel req with
  | mk ok st' =>
    simp only [step, hadd]
    cases ok with
    | false =>
      rw [doAddService_fails hadd]
      exact ⟨h.acquire_release req.handle, rfl⟩
    | true =>
      obtain ⟨⟨hne, -, -⟩, hrecords, hrefs, hlinks⟩ := doAddService_spec hadd
      have hunshared : ∀ other, other ≠ req.name → st.handleOf other ≠ req.handle :=
        fun other hother => (hunshared other hother).resolve_right hne
      have hhandles : (st'.binderRelease req.handle).handleOf
          = update st.handleOf req.name req.handle := handleOf_update hrecords
      obtain ⟨hrefs', hlinks'⟩ : (st'.binderRelease req.handle).refs
          = (st.added req.name req.handle).refs ∧ (st'.binderRelease req.handle).links
          = (st.added req.name req.handle).links := by
        apply release_congr _ hlinks
        exact hrefs
      refine ⟨h.replace (fun _ => hunshared) hhandles (fun k => ?_) fun k hk => ?_, hhandles⟩
      · rw [hlinks']
        exact (h.added_eq hne hunshared k).1
      · rw [hrefs']
        exact (h.added_eq hne hunshared k).2 hk

theorem death_inv (handle : Nat) :
    Inv (st.step (.death handle)).2 ∧
      (st.step (.death handle)).2.handleOf =
        Directory.step st.handleOf (.death handle) (st.step (.death handle)).1 := by
  unfold step Directory.step
  dsimp only
  split
  · rename_i hnone
    refine ⟨h, ?_⟩
    funext name
    split_ifs with hsame
    · by_contra hne
      rw [← hsame, (h.held hne).2] at hnone
      cases hnone
    · rfl
  · rename_i cookie hlink
    obtain ⟨hne, rfl⟩ := h.links.mp hlink
    obtain ⟨hrefs, -⟩ := h.held hne
    let unlinked : State := { st with links := update st.links (st.handleOf cookie) none }
    obtain ⟨hrecords, hrefs', hlinks'⟩ := svcinfoDeath_eq unlinked cookie
    have hhandles : (unlinked.svcinfoDeath cookie).handleOf = update st.handleOf cookie 0 := by
      rw [handleOf_update hrecords, map_map]
      cases unlinked.findSvc cookie <;> rfl
    have hdrop : unlinked.dropHandle cookie = unlinked.binderRelease (st.handleOf cookie) :=
      if_pos hne
    rw [hdrop] at hrefs' hlinks'
    constructor
    · refine h.replace (absurd rfl) hhandles (fun k => ?_) fun k hzero => ?_
      · by_cases hk : k = st.handleOf cookie <;>
          simp +contextual [hlinks', unlinked, hrefs, hk, hne]
      · by_cases hk : k = st.handleOf cookie <;>
          simp [hrefs', unlinked, hrefs, hk, hne, hzero]
    · rw [hhandles]
      funext other
      by_cases heq : other = cookie
      · rw [heq, update_self, if_pos rfl]
      · rw [update_of_ne heq, if_neg]
        exact fun hsame => heq (h.unique (hsame ▸ hne) hsame)

/-! ## Runs -/

theorem step_inv {event : Event} (hunshared : Unshared st event) :
    Inv (st.step event).2 ∧
      (st.step event).2.handleOf = Directory.step st.handleOf event (st.step event).1 := by
  cases event with
  | addService sel req => exact addService_inv h hunshared
  | getService sel name uid spid | listServices sel n spid => exact ⟨h, rfl⟩
  | death handle => exact death_inv h handle

/-- No service that is added brings a handle that another name has then. -/
def RunUnshared (st : State) : List Event → Prop
  | [] => True
  | event :: events => Unshared st event ∧ RunUnshared (st.step event).2 events

theorem run_handleOf {events : List Event} (hunshared : RunUnshared st events) :
    (st.run events).handleOf = Directory.run st.handleOf st events := by
  induction events generalizing st with
  | nil => rfl
  | cons event events ih =>
    obtain ⟨hinv, hhandles⟩ := step_inv h hunshared.1
    unfold Directory.run
    rw [← hhandles]
    exact ih hinv hunshared.2

end

theorem doFindService_of_permitted (st : State) {uid spid : Nat} (hiso : isIsolated uid = false)
    (hperm : sel.svcCanFind name spid = true) :
    st.doFindService sel name uid spid = st.handleOf name := by
  unfold doFindService handleOf
  cases st.findSvc name with
  | none => rfl
  | some si => simp +contextual [hiso, hperm, eq_comm]

/-- A caller that may find a service gets the handle that was added last under its name, unless
that has died since; it gets nothing if there is no such handle. -/
theorem getService_directory {events : List Event} (hunshared : RunUnshared {} events)
    {sel : Selinux} {name : Name} {uid spid : Nat} (hiso : isIsolated uid = false)
    (hperm : sel.svcCanFind name spid = true) :
    ((State.run {} events).step (.getService sel name uid spid)).1 =
      .handle (Directory.run (fun _ => 0) {} events name) := by
  have hfind := doFindService_of_permitted (State.run {} events) hiso hperm
  rw [run_handleOf inv_initial hunshared] at hfind
  exact congrArg Reply.handle hfind

def permissive : Selinux where
  enabled := false
  label _ := none
  pidcon _ := none
  access _ _ _ := false
  serviceManagerContext := 0

def sampleAdd (unit : UInt16) (handle : Nat) : Event :=
  .addService permissive
    { name := [unit], handle := handle, allowIsolated := false, spid := 1 }

/-- A second service replaces the first under its name, another is added and dies. -/
theorem getService_directory_replaced :
    ((State.run {} [sampleAdd 65 1, sampleAdd 66 3, sampleAdd 65 2, .death 3]).step
        (.getService permissive [65] 1000 1)).1 = .handle 2 ∧
      ((State.run {} [sampleAdd 65 1, sampleAdd 66 3, sampleAdd 65 2, .death 3]).step
        (.getService permissive [66] 1000 1)).1 = .handle 0 := by
  have hunshared : RunUnshared {} [sampleAdd 65 1, sampleAdd 66 3, sampleAdd 65 2, .death 3] := by
    refine ⟨unshared_of_records ?_, unshared_of_records ?_, unshared_of_records ?_, trivial,
      trivial⟩
    all_goals decide
  constructor
  · exact getService_directory hunshared (by decide) (by decide)
  · exact getService_directory hunshared (by decide) (by decide)

/-- The services `A` and `B` have one handle and the link of it is for `A`.  `A` gets another
handle, and the death of the first one, which only `B` has now, takes away the handle of `A` and
leaves that of `B`. -/
theorem death_removes_other_service :
    ∃ events : List Event, ∃ sel : Selinux,
      isIsolated 1000 = false ∧ sel.svcCanFind [65] 1 = true ∧ sel.svcCanFind [66] 1 = true ∧
      ((State.run {} events).step (.getService sel [65] 1000 1)).1 = .handle 0 ∧
      Directory.run (fun _ => 0) {} events [65] = 2 ∧
      ((State.run {} events).step (.getService sel [66] 1000 1)).1 = .handle 1 ∧
      Directory.run (fun _ => 0) {} events [66] = 0 :=
  ⟨[sampleAdd 65 1, sampleAdd 66 1, sampleAdd 65 2, .death 1], permissive, by decide, by decide,
    by decide, rfl, rfl, rfl, rfl⟩

end State

end ShieldTv.Servicemanager
