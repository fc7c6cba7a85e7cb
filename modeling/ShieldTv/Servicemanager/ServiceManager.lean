import ShieldTv.Lib.Bytes

/-!
# `servicemanager`

The table of services, with the part of the binder driver it relies on: for each handle the
number of references that this process holds and the link that tells it of a death.  A record is
never freed and there is one for each name, so a record, and with it the cookie of a link, is
given by its name.  Messages are taken after they have been parsed.
-/

namespace ShieldTv.Servicemanager

/-- A name of 16-bit units; it may contain any unit. -/
abbrev Name := List UInt16

/-! ## SELinux -/

inductive Perm
  | add
  | find
  | list
deriving DecidableEq

/-- What SELinux answers at the time of a transaction. -/
structure Selinux where
  enabled : Bool
  /-- `service_contexts`: the context of a service, if there is one for its name. -/
  label : Bytes → Option Nat
  /-- The context of a process. -/
  pidcon : Nat → Option Nat
  access : Nat → Nat → Perm → Bool
  /-- The context of the service manager. -/
  serviceManagerContext : Nat

/-- The 8-bit rendering of a name: at most 127 units, up to the first zero, each cut to 8 bits. -/
def str8 (name : Name) : Bytes :=
  ((name.take 127).takeWhile (· ≠ 0)).map UInt16.toUInt8

def Selinux.checkMacPerms (sel : Selinux) (spid tctx : Nat) (perm : Perm) : Bool :=
  match sel.pidcon spid with
  | none => false
  | some sctx => sel.access sctx tctx perm

def Selinux.checkMacPermsFromGetcon (sel : Selinux) (spid : Nat) (perm : Perm) : Bool :=
  !sel.enabled || sel.checkMacPerms spid sel.serviceManagerContext perm

def Selinux.checkMacPermsFromLookup (sel : Selinux) (spid : Nat) (perm : Perm)
    (name : Bytes) : Bool :=
  !sel.enabled ||
    match sel.label name with
    | none => false
    | some tctx => sel.checkMacPerms spid tctx perm

def Selinux.svcCanRegister (sel : Selinux) (name : Name) (spid : Nat) : Bool :=
  sel.checkMacPermsFromLookup spid .add (str8 name)

def Selinux.svcCanList (sel : Selinux) (spid : Nat) : Bool :=
  sel.checkMacPermsFromGetcon spid .list

def Selinux.svcCanFind (sel : Selinux) (name : Name) (spid : Nat) : Bool :=
  sel.checkMacPermsFromLookup spid .find (str8 name)

/-! ## The table -/

structure Svcinfo where
  handle : Nat
  allowIsolated : Bool
  name : Name

structure State where
  svclist : List Svcinfo := []
  /-- The references that this process holds. -/
  refs : Nat → Nat := fun _ => 0
  /-- The cookie of the death link of a handle. -/
  links : Nat → Option Name := fun _ => none

namespace State

def findSvc (st : State) (name : Name) : Option Svcinfo := st.svclist.find? (·.name = name)

def setHandle (st : State) (name : Name) (handle : Nat) : State :=
  { st with
    svclist := st.svclist.map fun si =>
      if si.name = name then { si with handle := handle } else si }

/-! ## The driver -/

def binderAcquire (st : State) (handle : Nat) : State :=
  { st with refs := Function.update st.refs handle (st.refs handle + 1) }

/-- The link goes with the last reference. -/
def binderRelease (st : State) (handle : Nat) : State :=
  { st with
    refs := Function.update st.refs handle (st.refs handle - 1)
    links := if st.refs handle ≤ 1 then Function.update st.links handle none else st.links }

/-- A handle that has a link keeps it. -/
def binderLinkToDeath (st : State) (handle : Nat) (cookie : Name) : State :=
  { st with
    links := Function.update st.links handle ((st.links handle).or (some cookie)) }

/-! ## Calls -/

def svcinfoDeath (st : State) (name : Name) : State :=
  match st.findSvc name with
  | none => st
  | some si =>
    if si.handle ≠ 0 then (st.binderRelease si.handle).setHandle name 0 else st

def aidUser : Nat := 100000

def isIsolated (uid : Nat) : Bool := 99000 ≤ uid % aidUser && uid % aidUser ≤ 99999

def doFindService (st : State) (sel : Selinux) (name : Name) (uid spid : Nat) : Nat :=
  match st.findSvc name with
  | none => 0
  | some si =>
    if si.handle = 0 then 0
    else if !si.allowIsolated && isIsolated uid then 0
    else if !sel.svcCanFind name spid then 0
    else si.handle

structure AddRequest where
  name : Name
  handle : Nat
  allowIsolated : Bool
  spid : Nat
  /-- `malloc` does not fail. -/
  memory : Bool := true

/-- Whether the service is added; a name that is there gets a new handle and keeps the rest of
its record. -/
def doAddService (st : State) (sel : Selinux) (req : AddRequest) : Bool × State :=
  if req.handle = 0 ∨ req.name.length = 0 ∨ 127 < req.name.length then (false, st)
  else if !sel.svcCanRegister req.name req.spid then (false, st)
  else
    match st.findSvc req.name with
    | some si =>
      let st := if si.handle ≠ 0 then st.svcinfoDeath req.name else st
      (true, ((st.setHandle req.name req.handle).binderAcquire req.handle).binderLinkToDeath
        req.handle req.name)
    | none =>
      if !req.memory then (false, st)
      else
        let si : Svcinfo := ⟨req.handle, req.allowIsolated, req.name⟩
        (true, ({ st with svclist := si :: st.svclist }.binderAcquire req.handle).binderLinkToDeath
          req.handle req.name)

/-- The name of the service at an index, up to its first zero. -/
def listService (st : State) (sel : Selinux) (n spid : Nat) : Option Name :=
  if !sel.svcCanList spid then none
  else (st.svclist[n]?).map fun si => si.name.takeWhile (· ≠ 0)

/-! ## Events -/

inductive Event
  | addService (sel : Selinux) (req : AddRequest)
  | getService (sel : Selinux) (name : Name) (uid spid : Nat)
  | listServices (sel : Selinux) (n spid : Nat)
  /-- The binder behind a handle dies. -/
  | death (handle : Nat)

inductive Reply
  | status (ok : Bool)
  | handle (handle : Nat)
  | name (name : Option Name)

/-- A message holds a reference to the handle it brings until it has been answered.  On a death
the driver delivers the cookie of the link, once. -/
def step (st : State) : Event → Reply × State
  | .addService sel req =>
    let result := (st.binderAcquire req.handle).doAddService sel req
    (.status result.1, result.2.binderRelease req.handle)
  | .getService sel name uid spid => (.handle (st.doFindService sel name uid spid), st)
  | .listServices sel n spid => (.name (st.listService sel n spid), st)
  | .death handle =>
    match st.links handle with
    | none => (.status true, st)
    | some cookie =>
      (.status true, { st with links := Function.update st.links handle none }.svcinfoDeath cookie)

def run (st : State) (events : List Event) : State :=
  events.foldl (fun st event => (st.step event).2) st

end State

end ShieldTv.Servicemanager
