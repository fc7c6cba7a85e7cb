import ShieldTv.Adb.HandlePacket

/-!
# Transports do not meet

The sockets that are connected, or wait to be connected, through other transports are out of
reach for the packets of a transport as long as those do not carry the identifiers of such a
socket.  Closing a socket closes a local socket it is connected to as well, and that is always
one which is connected locally itself.
-/

namespace ShieldTv.Adb

open List hiding lookup

variable {st : Sockets} {a s old b : LocalSocket} {key t : Nat}

namespace Sockets

/-! ## Well-formed tables -/

def LocalPeer (s : LocalSocket) (key : Nat) : Prop := s.peer = some (.localSocket key)

def Joined (s : LocalSocket) : Prop := ∃ key, LocalPeer s key

/-- Keys are different, and what a socket is connected to locally is itself connected to a local
socket. -/
structure Wf (st : Sockets) : Prop where
  nodup : (st.localSocketList.map (·.key)).Nodup
  fresh : ∀ key ∈ st.localSocketList.map (·.key), key < st.nextKey
  joined : ∀ s ∈ st.localSocketList, ∀ key, LocalPeer s key → key < st.nextKey ∧
    ∀ other ∈ st.localSocketList, other.key = key → Joined other

theorem wf_initial : Wf {} where
  nodup := nodup_nil
  fresh _ h := by cases h
  joined _ h := by cases h

theorem Wf.sublist {st' : Sockets} (h : Wf st) (hlist : st'.localSocketList <+ st.localSocketList)
    (hkey : st'.nextKey = st.nextKey) : Wf st' where
  nodup := h.nodup.sublist (hlist.map _)
  fresh key hmem := hkey ▸ h.fresh key ((hlist.map _).subset hmem)
  joined s hs key hlocal := by
    obtain ⟨hlt, hjoined⟩ := h.joined s (hlist.subset hs) key hlocal
    exact ⟨hkey ▸ hlt, fun other hother => hjoined other (hlist.subset hother)⟩

theorem mem_of_lookup (h : st.lookup key = some s) : s ∈ st.localSocketList ∧ s.key = key :=
  ⟨mem_of_find?_eq_some h, by simpa using find?_some h⟩

theorem findLocalSocket_eq {localId peerId : Nat} (h : st.findLocalSocket localId peerId = some s) :
    st.localSocketList.find? (·.id = localId) = some s ∧
      (peerId = 0 ∨ s.peer.map st.peerId = some peerId) := by
  unfold findLocalSocket at h
  split at h
  · cases h
  · rename_i s' hfind
    split_ifs at h with hpeer
    cases h
    exact ⟨hfind, hpeer⟩

theorem mem_of_findLocalSocket {localId peerId : Nat}
    (h : st.findLocalSocket localId peerId = some s) : s ∈ st.localSocketList :=
  mem_of_find?_eq_some (findLocalSocket_eq h).1

theorem mem_put :
    a ∈ (st.put s).localSocketList ↔
      (a ∈ st.localSocketList ∧ a.key ≠ s.key) ∨
        (a = s ∧ ∃ old ∈ st.localSocketList, old.key = s.key) := by
  simp only [put, mem_map]
  constructor
  · rintro ⟨old, hold, heq⟩
    split_ifs at heq with hkey
    · exact .inr ⟨heq.symm, old, hold, hkey⟩
    · subst heq
      exact .inl ⟨hold, hkey⟩
  · rintro (⟨hmem, hkey⟩ | ⟨rfl, old, hold, hkey⟩)
    · exact ⟨a, hmem, if_neg hkey⟩
    · exact ⟨old, hold, if_pos hkey⟩

theorem keys_put (st : Sockets) (s : LocalSocket) :
    (st.put s).localSocketList.map (·.key) = st.localSocketList.map (·.key) := by
  simp only [put, map_map]
  apply map_congr_left
  intro old _
  simp only [Function.comp_apply]
  split_ifs with hkey
  · exact hkey.symm
  · rfl

theorem Wf.put (h : Wf st) (hold : old ∈ st.localSocketList) (hkey : old.key = s.key := by rfl)
    (hpeer : ∀ key, LocalPeer s key ↔ LocalPeer old key := by exact fun _ => Iff.rfl) :
    Wf (st.put s) where
  nodup := by
    rw [keys_put]
    exact h.nodup
  fresh := by
    rw [keys_put]
    exact h.fresh
  joined a ha key hlocal := by
    -- each socket stands for one of the table before, connected to the same local socket
    have hbefore : ∀ c ∈ (st.put s).localSocketList, ∃ c₀ ∈ st.localSocketList, c₀.key = c.key ∧
        ∀ key, LocalPeer c key ↔ LocalPeer c₀ key := by
      intro c hc
      rcases mem_put.mp hc with ⟨hc, -⟩ | ⟨rfl, -⟩
      · exact ⟨c, hc, rfl, fun _ => Iff.rfl⟩
      · exact ⟨old, hold, hkey, hpeer⟩
    obtain ⟨a₀, ha₀, -, hpeera⟩ := hbefore a ha
    obtain ⟨hlt, hjoined⟩ := h.joined a₀ ha₀ key ((hpeera key).mp hlocal)
    refine ⟨hlt, fun other hother heq => ?_⟩
    obtain ⟨other₀, hother₀, hkey₀, hpeer₀⟩ := hbefore other hother
    obtain ⟨key', hlocal'⟩ := hjoined other₀ hother₀ (hkey₀.trans heq)
    exact ⟨key', (hpeer₀ key').mpr hlocal'⟩

/-! ## Closing -/

theorem list_retire (st : Sockets) (s : LocalSocket) :
    (st.retire s).localSocketList = st.localSocketList.filter (·.key ≠ s.key) := by
  unfold retire
  split_ifs <;> rfl

theorem nextKey_retire (st : Sockets) (s : LocalSocket) : (st.retire s).nextKey = st.nextKey := by
  unfold retire
  split_ifs <;> rfl

section

variable (h : Wf st)
include h

theorem Wf.sendPacket (t : Nat) (p : Packet) : Wf (st.sendPacket t p) :=
  h.sublist (Sublist.refl _) rfl

theorem Wf.retire (s : LocalSocket) : Wf (st.retire s) :=
  h.sublist (list_retire st s ▸ filter_sublist) (nextKey_retire st s)

theorem Wf.localSocketCloseLocked (s : LocalSocket) : Wf (st.localSocketCloseLocked s) := by
  unfold Sockets.localSocketCloseLocked
  apply Wf.retire
  split
  · exact h
  · exact h.sendPacket _ _
  · split
    · exact h
    · exact h.retire _
  · exact h

theorem Wf.close (s : LocalSocket) : Wf (st.close s) := by
  unfold Sockets.close
  split_ifs <;> exact h.localSocketCloseLocked _

/-! ## The other operations -/

theorem Wf.installLocalSocket (hs : ∀ key, ¬ LocalPeer s key) : Wf (st.installLocalSocket s) where
  nodup := by
    simp only [Sockets.installLocalSocket, map_append, map_cons, map_nil]
    rw [nodup_append]
    refine ⟨h.nodup, nodup_singleton _, ?_⟩
    rintro key hkey _ hnew rfl
    exact absurd (mem_singleton.mp hnew) (h.fresh key hkey).ne
  fresh key hkey := by
    simp only [Sockets.installLocalSocket, map_append, mem_append] at hkey
    rcases hkey with hkey | hkey
    · exact (h.fresh key hkey).trans (Nat.lt_succ_self _)
    · rw [mem_singleton.mp hkey]
      exact Nat.lt_succ_self _
  joined a ha key hlocal := by
    rcases mem_append.mp ha with ha | ha
    · obtain ⟨hlt, hjoined⟩ := h.joined a ha key hlocal
      refine ⟨hlt.trans (Nat.lt_succ_self _), fun other hother heq => ?_⟩
      rcases mem_append.mp hother with hother | hother
      · exact hjoined other hother heq
      · rw [mem_singleton.mp hother] at heq
        exact absurd heq.symm hlt.ne
    · rw [mem_singleton.mp ha] at hlocal
      exact absurd hlocal (hs key)

theorem Wf.ready (hold : old ∈ st.localSocketList) (hkey : old.key = s.key := by rfl)
    (hpeer : ∀ key, LocalPeer s key ↔ LocalPeer old key := by exact fun _ => Iff.rfl) :
    Wf (st.ready s) := by
  unfold Sockets.ready
  split_ifs <;> exact h.put hold hkey hpeer

theorem Wf.localSocketEnqueue (hs : s ∈ st.localSocketList) (data : Bytes) (w : Write) :
    Wf (st.localSocketEnqueue s data w).2 := by
  unfold Sockets.localSocketEnqueue
  split_ifs
  · exact h.put hs
  · exact h.put hs
  · exact h.close _
  · exact h.put hs

theorem Wf.closeAllSockets (t : Nat) : Wf (st.closeAllSockets t) := by
  unfold Sockets.closeAllSockets
  generalize st.localSocketList.length = fuel
  induction fuel generalizing st with
  | zero => exact h
  | succ fuel ih =>
    unfold Sockets.closeAllSockets.go
    split
    · exact h
    · exact ih (h.localSocketCloseLocked _)

theorem Wf.disconnectRemotes (t : Nat) : Wf (st.disconnectRemotes t) := by
  unfold Sockets.disconnectRemotes
  generalize st.localSocketList.filter (ofRemote t) = sockets
  induction sockets generalizing st with
  | nil => exact h
  | cons s sockets ih => exact ih (h.close _)

theorem lookup_installLocalSocket (s : LocalSocket) : (st.installLocalSocket s).lookup st.nextKey =
      some { s with key := st.nextKey, id := st.localSocketNextId } := by
  have habsent : st.localSocketList.find? (·.key = st.nextKey) = none := by
    simpa using fun a ha => (h.fresh a ha).ne
  simp [lookup, Sockets.installLocalSocket, find?_append, habsent]

end

theorem lookup_put_of_ne (st : Sockets) (hne : key ≠ s.key) :
    (st.put s).lookup key = st.lookup key := by
  unfold lookup Sockets.put
  rw [find?_map]
  have hkeys : ((fun a : LocalSocket => decide (a.key = key)) ∘
      fun old => if old.key = s.key then s else old) = fun a => decide (a.key = key) := by
    funext old
    simp only [Function.comp_apply]
    split_ifs with hkey
    · rw [hkey]
    · rfl
  rw [hkeys]
  cases hfind : st.localSocketList.find? (fun a => decide (a.key = key)) with
  | none => rfl
  | some a =>
    have hkey : a.key = key := by simpa using find?_some hfind
    rw [Option.map_some, if_neg (hkey ▸ hne)]

section

variable (h : Wf st)
include h

/-- Two sockets become connected to each other. -/
theorem Wf.connect {a' b' : LocalSocket} (ha : a ∈ st.localSocketList) (hb : b ∈ st.localSocketList)
    (hkeya : a'.key = a.key) (hkeyb : b'.key = b.key) (hpeera : LocalPeer a' b.key)
    (hpeerb : LocalPeer b' a.key) : Wf ((st.put a').put b') where
  nodup := by
    rw [keys_put, keys_put]
    exact h.nodup
  fresh := by
    rw [keys_put, keys_put]
    exact h.fresh
  joined c hc key hlocal := by
    have hpeer : ∀ {d : LocalSocket} {k : Nat}, LocalPeer d k → LocalPeer d key → key = k := by
      intro d k hk hkey
      simpa [hk] using hkey.symm.trans hk
    have hbefore : c ∈ st.localSocketList ∨ key = a.key ∨ key = b.key := by
      rcases mem_put.mp hc with ⟨hc, -⟩ | ⟨rfl, -⟩
      · rcases mem_put.mp hc with ⟨hc, -⟩ | ⟨rfl, -⟩
        · exact .inl hc
        · exact .inr (.inr (hpeer hpeera hlocal))
      · exact .inr (.inl (hpeer hpeerb hlocal))
    constructor
    · rcases hbefore with hc | rfl | rfl
      · exact (h.joined c hc key hlocal).1
      · exact h.fresh _ (mem_map_of_mem ha)
      · exact h.fresh _ (mem_map_of_mem hb)
    · intro d hd heq
      rcases mem_put.mp hd with ⟨hd, hneb⟩ | ⟨rfl, -⟩
      · rcases mem_put.mp hd with ⟨hd, hnea⟩ | ⟨rfl, -⟩
        · rcases hbefore with hc | rfl | rfl
          · exact (h.joined c hc key hlocal).2 d hd heq
          · exact absurd (heq.trans hkeya.symm) hnea
          · exact absurd (heq.trans hkeyb.symm) hneb
        · exact ⟨_, hpeera⟩
      · exact ⟨_, hpeerb⟩

theorem Wf.smartSocketEnqueue (offline : Nat → Bool) (hs : s ∈ st.localSocketList)
    {chosen : Option Nat} (hpeer : s.peer = some (.smart chosen)) (request : Request) :
    Wf (st.smartSocketEnqueue offline s chosen request) := by
  have hfree : ∀ key, ¬ LocalPeer s key := by
    intro key hlocal
    rw [LocalPeer, hpeer] at hlocal
    cases hlocal
  have hput : ∀ {s'}, s'.key = s.key → (∀ key, ¬ LocalPeer s' key) → Wf (st.put s') :=
    fun hkey hs' => h.put hs hkey.symm fun key => iff_of_false (hs' key) (hfree key)
  cases request with
  | handled => exact h.close _
  | transport t => exact hput rfl nofun
  | service =>
    have hwf := h.installLocalSocket (s := { key := 0, id := 0 }) nofun
    have hmem : s ∈ (st.installLocalSocket { key := 0, id := 0 }).localSocketList :=
      mem_append_left _ hs
    have hlookup := lookup_installLocalSocket h { key := 0, id := 0 }
    have hne : s.key ≠ st.nextKey := (h.fresh _ (mem_map_of_mem hs)).ne
    simp only [Sockets.smartSocketEnqueue, createLocalSocket]
    rw [lookup_put_of_ne _ (by exact hne.symm), hlookup]
    exact hwf.connect hmem (mem_of_lookup hlookup).1 rfl rfl rfl rfl
  | remote acquired destination =>
    simp only [Sockets.smartSocketEnqueue]
    split
    · exact h.close _
    · split_ifs
      · exact h.close _
      · apply Wf.sendPacket
        exact hput rfl nofun

theorem Wf.create (s : LocalSocket) (hkey : s.key = st.nextKey) (hs : ∀ key, ¬ LocalPeer s key) :
    Wf ((st.installLocalSocket { key := 0, id := 0 }).put s) ∧
      s ∈ ((st.installLocalSocket { key := 0, id := 0 }).put s).localSocketList := by
  have hfree : ∀ key, ¬ LocalPeer { key := 0, id := 0 } key := nofun
  have hwf := h.installLocalSocket hfree
  have hnew := (mem_of_lookup (lookup_installLocalSocket h { key := 0, id := 0 })).1
  constructor
  · exact hwf.put hnew hkey.symm fun key => iff_of_false (hs key) nofun
  · exact mem_put.mpr (Or.inr ⟨rfl, _, hnew, hkey.symm⟩)

theorem Wf.writable (hs : s ∈ st.localSocketList) (w : Write) : Wf (st.writable s w) := by
  unfold Sockets.writable
  dsimp only
  have hput : ∀ queue written, Wf (st.put { s with queue := queue, written := written }) :=
    fun _ _ => h.put hs
  split_ifs
  · exact h.close _
  · exact hput _ _
  · split
    · exact (hput _ _).sendPacket _ _
    · split
      · exact hput _ _
      · rename_i peer hlookup
        exact (hput _ _).ready (mem_of_lookup hlookup).1
    · exact hput _ _

theorem Wf.writableClosing (s : LocalSocket) (w : Write) : Wf (st.writableClosing s w) := by
  unfold Sockets.writableClosing
  dsimp only
  split_ifs
  · exact h.sublist (Sublist.refl _) rfl
  · exact h.sublist filter_sublist rfl

/-- The end of the file closes whatever is left of the socket. -/
theorem Wf.endOfFile (key : Nat) (eof : Bool) : Wf (if eof then
    match st.lookup key with
    | none => st
    | some s => st.close s
  else st) := by
  split_ifs
  · split
    · exact h
    · exact h.close _
  · exact h

theorem Wf.readable (offline : Nat → Bool) (hs : s ∈ st.localSocketList) (data : Bytes)
    (eof : Bool) (w : Write) (request : Option Request) :
    Wf (st.readable offline s data eof w request) := by
  apply Wf.endOfFile
  split_ifs
  · exact h
  · split
    · exact h
    · apply Wf.sendPacket
      exact h.put hs
    · split
      · exact h
      · rename_i peer hlookup
        have henqueue := h.localSocketEnqueue (mem_of_lookup hlookup).1 data w
        dsimp only
        split_ifs
        · exact henqueue
        · split
          · exact henqueue
          · rename_i s' hlookup'
            exact henqueue.put (mem_of_lookup hlookup').1
    · rename_i chosen hpeer
      split
      · exact h
      · exact h.smartSocketEnqueue offline hs hpeer _

end

end Sockets

/-! ## Reachable tables -/

namespace State

open Sockets

section

variable {st : State} (h : Wf st.sockets) (env : Env) (t : Nat) (p : Packet)
include h

theorem wf_disconnect : Wf (st.runTransportDisconnects t).sockets := by
  unfold runTransportDisconnects
  dsimp only
  split_ifs <;> exact h.disconnectRemotes t

theorem wf_sendAuthRequest (read : TokenRead) : Wf (st.sendAuthRequest read t).sockets := by
  unfold sendAuthRequest
  dsimp only
  split_ifs
  · exact h.sendPacket _ _
  · exact h

theorem wf_handleOpen : Wf (st.handleOpen env t p).sockets := by
  unfold handleOpen
  split_ifs
  · split
    · exact h.sendPacket _ _
    · rename_i exitOnClose _
      simp only [createLocalSocket]
      rw [lookup_installLocalSocket h]
      obtain ⟨hwf, hmem⟩ := h.create
        { key := st.sockets.nextKey
          id := st.sockets.localSocketNextId
          exitOnClose := exitOnClose
          peer := some (.remote p.arg0 t) } rfl nofun
      have hsent := hwf.sendPacket t
        { command := .okay, arg0 := st.sockets.localSocketNextId, arg1 := p.arg0 }
      exact hsent.ready hmem
  · exact h

theorem wf_handleAuth : Wf (st.handleAuth env t p).sockets := by
  unfold handleAuth
  split_ifs
  · exact h
  · exact h.sendPacket _ _
  · exact wf_sendAuthRequest (by exact h) _ _
  · unfold adbAuthConfirmKey
    dsimp only
    split_ifs <;> exact h
  · exact h

theorem wf_handleOkay : Wf (st.handleOkay t p).sockets := by
  unfold handleOkay
  split_ifs
  · split
    · exact h
    · rename_i s hfind
      have hs := mem_of_findLocalSocket hfind
      split
      · rename_i hpeer
        exact h.ready hs rfl fun key => by simp [LocalPeer, hpeer]
      · split_ifs
        · exact h.ready hs
        · exact h
  · exact h

theorem wf_handleClose : Wf (st.handleClose t p).sockets := by
  unfold handleClose
  split_ifs
  · split
    · exact h
    · split_ifs
      · exact h
      · exact h.close _
  · exact h

theorem wf_handleWrite : Wf (st.handleWrite env t p).sockets := by
  unfold handleWrite
  split_ifs
  · split
    · exact h
    · rename_i s hfind
      have henqueue := h.localSocketEnqueue (mem_of_findLocalSocket hfind) p.data env.write
      dsimp only
      split_ifs
      · exact henqueue.sendPacket _ _
      · exact henqueue
  · exact h

theorem wf_handlePacket : Wf (st.handlePacket env t p).sockets := by
  have hoffline : ∀ f, Wf ((st.setTransport t f).handleOffline t).sockets :=
    fun f => wf_disconnect (by exact h) t
  unfold handlePacket
  split
  · dsimp only
    split_ifs
    · exact (h.sendPacket _ _).sendPacket _ _
    · exact h.sendPacket _ _
    · exact (hoffline _).sendPacket _ _
  · have hcnxn : Wf (if (st.transports t).connectionState ≠ .offline then
        (st.setTransport t ({ · with connectionState := .offline })).handleOffline t
      else st).sockets := by
      split_ifs
      · exact hoffline _
      · exact h
    generalize (if (st.transports t).connectionState ≠ .offline then
        (st.setTransport t ({ · with connectionState := .offline })).handleOffline t
      else st) = st₁ at hcnxn
    dsimp only
    split_ifs
    · exact hcnxn.sendPacket _ _
    · exact hcnxn
    · exact wf_sendAuthRequest (by exact hcnxn) _ _
  · exact wf_handleAuth h env t p
  · exact wf_handleOpen h env t p
  · exact wf_handleOkay h t p
  · exact wf_handleClose h t p
  · exact wf_handleWrite h env t p
  · exact h

theorem wf_step (ev : Event) : Wf (st.step ev).sockets := by
  cases ev with
  | registerTransport t | frameworkDisconnect => exact h
  | removeTransport t => exact wf_disconnect h t
  | closeAllSockets t => exact h.closeAllSockets t
  | packet t p env => exact wf_handlePacket h env t p
  | frameworkConnect read =>
    simp only [step, adbAuthListener]
    split_ifs
    · split
      · exact h
      · exact wf_sendAuthRequest (by exact h) _ _
    · exact h
  | frameworkReply response approved =>
    simp only [step, adbAuthEvent]
    split_ifs
    · split
      · exact h
      · exact h.sendPacket _ _
    · exact h
  | smartAccept =>
    simp only [step, createLocalSocket]
    rw [lookup_installLocalSocket h]
    obtain ⟨hwf, hmem⟩ := h.create
      { key := st.sockets.nextKey
        id := st.sockets.localSocketNextId
        peer := some (.smart none) } rfl nofun
    exact hwf.ready hmem
  | forwardAccept t destination =>
    simp only [step, createLocalSocket]
    rw [lookup_installLocalSocket h]
    obtain ⟨hwf, -⟩ := h.create
      { key := st.sockets.nextKey
        id := st.sockets.localSocketNextId
        transport := some t } rfl nofun
    exact hwf.sendPacket _ _
  | readable key data eof w request =>
    simp only [step]
    split
    · exact h
    · rename_i s hlookup
      exact h.readable _ (mem_of_lookup hlookup).1 _ _ _ _
  | writable key w =>
    simp only [step]
    split
    · rename_i s hlookup
      exact h.writable (mem_of_lookup hlookup).1 w
    · split
      · exact h
      · exact h.writableClosing _ w

theorem wf_run (events : List Event) : Wf (st.run events).sockets := by
  induction events generalizing st with
  | nil => exact h
  | cons ev events ih => exact ih (wf_step h ev)

end

end State

/-! ## The sockets of other transports -/

namespace Sockets

/-- The transport that a socket is connected through or waits for. -/
def owner (s : LocalSocket) : Option Nat :=
  match s.peer with
  | none => s.transport
  | some (.remote _ t) => some t
  | some (.localSocket _) => none
  | some (.smart t) => t

def Foreign (t : Nat) (s : LocalSocket) : Prop := owner s ≠ none ∧ owner s ≠ some t

instance (t : Nat) : DecidablePred (Foreign t) := fun s =>
  inferInstanceAs (Decidable (owner s ≠ none ∧ owner s ≠ some t))

/-- What other transports can notice: their sockets with all they hold, the packets sent on them,
and whether the process lives. -/
structure Unaffected (t : Nat) (st st' : Sockets) : Prop where
  sockets : st'.localSocketList.filter (Foreign t) = st.localSocketList.filter (Foreign t)
  sent : st'.sent.filter (·.1 ≠ t) = st.sent.filter (·.1 ≠ t)
  exited : st'.exited = st.exited

theorem Unaffected.refl (t : Nat) (st : Sockets) : Unaffected t st st := ⟨rfl, rfl, rfl⟩

theorem Unaffected.trans {a b c : Sockets} (hab : Unaffected t a b) (hbc : Unaffected t b c) :
    Unaffected t a c :=
  ⟨hbc.sockets.trans hab.sockets, hbc.sent.trans hab.sent, hbc.exited.trans hab.exited⟩

theorem unaffected_sendPacket (t : Nat) (st : Sockets) (p : Packet) :
    Unaffected t st (st.sendPacket t p) where
  sockets := rfl
  sent := by simp [sendPacket]
  exited := rfl

theorem not_foreign_of_local (h : LocalPeer s key) : ¬ Foreign t s := by
  have hpeer : s.peer = some (.localSocket key) := h
  simp [Foreign, owner, hpeer]

/-- The sockets with this key are not of other transports. -/
def Clear (st : Sockets) (t key : Nat) : Prop :=
  ∀ a ∈ st.localSocketList, a.key = key → ¬ Foreign t a

theorem Wf.clear (h : Wf st) (hs : s ∈ st.localSocketList) (hnot : ¬ Foreign t s) :
    Clear st t s.key :=
  fun _ ha heq hforeign => hnot (inj_on_of_nodup_map h.nodup ha hs heq ▸ hforeign)

section

variable (hclear : Clear st t s.key)
include hclear

theorem unaffected_put (hs : ¬ Foreign t s) : Unaffected t st (st.put s) where
  sockets := by
    simp only [put, filter_map]
    have hsame : st.localSocketList.filter ((fun a => decide (Foreign t a)) ∘
        fun a => if a.key = s.key then s else a) = st.localSocketList.filter (Foreign t) := by
      apply filter_congr
      intro a ha
      simp only [Function.comp_apply]
      split_ifs with heq
      · simp [hs, hclear a ha heq]
      · rfl
    rw [hsame]
    refine (map_congr_left fun a ha => ?_).trans (map_id _)
    obtain ⟨ha, hforeign⟩ := mem_filter.mp ha
    exact if_neg fun heq => hclear a ha heq (by simpa using hforeign)
  sent := rfl
  exited := rfl

theorem unaffected_ready (hs : ¬ Foreign t s) : Unaffected t st (st.ready s) := by
  unfold ready
  split_ifs <;> exact unaffected_put hclear hs

end

theorem exited_retire (h : s.exitOnClose = false) : (st.retire s).exited = st.exited := by
  unfold retire
  split_ifs
  · simp [localSocketDestroy, h]
  · rfl

theorem unaffected_retire (hclear : Clear st t s.key) (hexit : s.exitOnClose = false) :
    Unaffected t st (st.retire s) where
  sockets := by
    rw [list_retire, filter_filter]
    apply filter_congr
    intro a ha
    by_cases hforeign : Foreign t a
    · have hne : a.key ≠ s.key := fun heq => hclear a ha heq hforeign
      simp [hne]
    · simp [hforeign]
  sent := by rw [sent_retire]
  exited := exited_retire hexit

/-- The packet is for this socket: it carries the identifier of what the socket is connected to,
or the socket waits and the packet connects it or refuses to. -/
def Reaches (st : Sockets) (p : Packet) (s : LocalSocket) : Prop :=
  match p.command with
  | .okay => p.arg0 ≠ 0 ∧ (s.peer = none ∨ s.peer.map st.peerId = some p.arg0)
  | .wrte => p.arg0 ≠ 0 ∧ s.peer.map st.peerId = some p.arg0
  | .clse => if p.arg0 = 0 then s.peer = none else s.peer.map st.peerId = some p.arg0
  | _ => False

def Lasting (st : Sockets) (s : LocalSocket) : Prop :=
  s.exitOnClose = false ∧
    ∀ a ∈ st.localSocketList, s.peer = some (.localSocket a.key) → a.exitOnClose = false

/-- If the socket that the packet names belongs to another transport the packet is not for it;
otherwise the process does not end when it is closed. -/
def PacketFits (st : Sockets) (t : Nat) (p : Packet) : Prop :=
  ∀ s, st.localSocketList.find? (·.id = p.arg1) = some s →
    (Foreign t s → ¬ Reaches st p s) ∧ (¬ Foreign t s → p.command ≠ .okay → Lasting st s)

theorem remote_of_not_foreign (h : ¬ Foreign t s) {id t' : Nat}
    (hpeer : s.peer = some (.remote id t')) : t' = t := by
  by_contra hne
  exact h (by simp [Foreign, owner, hpeer, hne])

/-- Closing the socket concerns no other transport and does not end the process. -/
structure Closable (t : Nat) (st : Sockets) (s : LocalSocket) : Prop where
  clear : Clear st t s.key
  own : ¬ Foreign t s
  joined : ∀ key, LocalPeer s key → Clear st t key
  lasting : Lasting st s

section

theorem unaffected_localSocketCloseLocked (h : Closable t st s) :
    Unaffected t st (st.localSocketCloseLocked s) := by
  have hretire := unaffected_retire h.clear h.lasting.1
  unfold localSocketCloseLocked
  split
  · exact hretire
  · rename_i id t' hremote
    obtain rfl : t' = t := remote_of_not_foreign h.own hremote
    exact (unaffected_sendPacket _ st _).trans (unaffected_retire h.clear h.lasting.1)
  · rename_i key hlocal
    split
    · exact hretire
    · rename_i peer hlookup
      obtain ⟨hmem, rfl⟩ := mem_of_lookup hlookup
      refine (unaffected_retire (h.joined _ hlocal) (h.lasting.2 peer hmem hlocal)).trans ?_
      refine unaffected_retire (fun a ha => h.clear a ?_) h.lasting.1
      rw [list_retire] at ha
      exact mem_of_mem_filter ha
  · exact hretire

theorem unaffected_close (h : Closable t st s) : Unaffected t st (st.close s) := by
  unfold close
  split_ifs
  · exact unaffected_localSocketCloseLocked ⟨h.clear, h.own, h.joined, h.lasting⟩
  · exact unaffected_localSocketCloseLocked h

theorem unaffected_localSocketEnqueue (h : Closable t st s) (data : Bytes) (w : Write) :
    Unaffected t st (st.localSocketEnqueue s data w).2 := by
  unfold localSocketEnqueue
  split_ifs
  · exact unaffected_put h.clear h.own
  · exact unaffected_put h.clear h.own
  · exact unaffected_close ⟨h.clear, h.own, h.joined, h.lasting⟩
  · exact unaffected_put h.clear h.own

variable {p : Packet} {id : Nat} (h : Wf st) (hfits : PacketFits st t p)
  (hfound : st.findLocalSocket p.arg1 id = some s) (hreach : Foreign t s → Reaches st p s)
include h hfits hfound hreach

theorem PacketFits.own : ¬ Foreign t s ∧ Clear st t s.key := by
  have hnot := fun hf => (hfits s (findLocalSocket_eq hfound).1).1 hf (hreach hf)
  exact ⟨hnot, h.clear (mem_of_findLocalSocket hfound) hnot⟩

theorem PacketFits.closable (hcommand : p.command ≠ .okay) : Closable t st s := by
  obtain ⟨hnot, hclear⟩ := hfits.own h hfound hreach
  refine ⟨hclear, hnot, fun key hlocal a ha heq => ?_,
    (hfits s (findLocalSocket_eq hfound).1).2 hnot hcommand⟩
  obtain ⟨-, hjoined⟩ := h.joined s (mem_of_findLocalSocket hfound) key hlocal
  obtain ⟨key', hlocal'⟩ := hjoined a ha heq
  exact not_foreign_of_local hlocal'

end

end Sockets

/-! ## Packets -/

namespace State

open Sockets

variable {st : State} (h : Wf st.sockets) {p : Packet} (hfits : PacketFits st.sockets t p)

include h hfits

theorem unaffected_handleOkay (hcommand : p.command = .okay) :
    Unaffected t st.sockets (st.handleOkay t p).sockets := by
  unfold handleOkay
  split_ifs with hargs
  · split
    · exact Unaffected.refl _ _
    · rename_i s hfound
      split
      · rename_i hpeer
        obtain ⟨-, hclear⟩ := hfits.own h hfound fun _ => by
          simp [Reaches, hcommand, hargs, hpeer]
        exact unaffected_ready hclear (by simp [Foreign, owner])
      · rename_i peer hpeer
        split_ifs with hid
        · obtain ⟨hnot, hclear⟩ := hfits.own h hfound fun _ => by
            simp [Reaches, hcommand, hargs, hpeer, hid]
          exact unaffected_ready hclear hnot
        · exact Unaffected.refl _ _
  · exact Unaffected.refl _ _

theorem unaffected_handleClose (hcommand : p.command = .clse) :
    Unaffected t st.sockets (st.handleClose t p).sockets := by
  unfold handleClose
  split_ifs with hargs
  · split
    · exact Unaffected.refl _ _
    · rename_i s hfound
      split_ifs with hguard
      · exact Unaffected.refl _ _
      · refine unaffected_close (hfits.closable h hfound (fun hf => ?_) (by rw [hcommand]; decide))
        simp only [Reaches, hcommand]
        split_ifs with hzero
        · by_contra hpeer
          obtain ⟨peer, hpeer⟩ := Option.ne_none_iff_exists'.mp hpeer
          apply hguard
          refine ⟨hzero, by rw [hpeer]; rfl, fun htransport => ?_⟩
          rw [hpeer, Option.bind_some] at htransport
          cases peer with
          | remote id t' =>
            have : t' = t := Option.some.inj htransport
            simp [Foreign, owner, hpeer, this] at hf
          | localSocket key => exact not_foreign_of_local hpeer hf
          | smart t' =>
            have : t' = some t := htransport
            simp [Foreign, owner, hpeer, this] at hf
        · exact (findLocalSocket_eq hfound).2.resolve_left hzero
  · exact Unaffected.refl _ _

theorem unaffected_handleWrite (env : Env) (hcommand : p.command = .wrte) :
    Unaffected t st.sockets (st.handleWrite env t p).sockets := by
  unfold handleWrite
  split_ifs with hargs
  · split
    · exact Unaffected.refl _ _
    · rename_i s hfound
      have hid := (findLocalSocket_eq hfound).2.resolve_left hargs.2.1
      have henqueue := unaffected_localSocketEnqueue (hfits.closable h hfound
        (fun _ => by simp [Reaches, hcommand, hargs, hid]) (by rw [hcommand]; decide))
          p.data env.write
      dsimp only
      split_ifs
      · exact henqueue.trans (unaffected_sendPacket _ _ _)
      · exact henqueue
  · exact Unaffected.refl _ _

omit h hfits

def handlePackets (st : State) (t : Nat) (packets : List (Packet × Env)) : State :=
  packets.foldl (fun st p => st.handlePacket p.2 t p.1) st

def PacketsFit (st : State) (t : Nat) : List (Packet × Env) → Prop
  | [] => True
  | p :: packets => PacketFits st.sockets t p.1 ∧ PacketsFit (st.handlePacket p.2 t p.1) t packets

def SocketCommand (p : Packet) : Prop := p.command = .okay ∨ p.command = .wrte ∨ p.command = .clse

include h hfits in
theorem unaffected_handlePacket (env : Env) (hcommand : SocketCommand p) :
    Unaffected t st.sockets (st.handlePacket env t p).sockets := by
  rcases hcommand with hcommand | hcommand | hcommand
  · simpa only [handlePacket, hcommand] using unaffected_handleOkay h hfits hcommand
  · simpa only [handlePacket, hcommand] using unaffected_handleWrite h hfits env hcommand
  · simpa only [handlePacket, hcommand] using unaffected_handleClose h hfits hcommand

include h in
theorem unaffected_handlePackets {packets : List (Packet × Env)}
    (hcommands : ∀ p ∈ packets, SocketCommand p.1) (hfits : PacketsFit st t packets) :
    Unaffected t st.sockets (st.handlePackets t packets).sockets := by
  induction packets generalizing st with
  | nil => exact Unaffected.refl _ _
  | cons p packets ih =>
    have hstep := unaffected_handlePacket h hfits.1 p.2 (hcommands p mem_cons_self)
    refine hstep.trans (ih (wf_handlePacket h p.2 t p.1) ?_ hfits.2)
    exact fun p hp => hcommands p (mem_cons_of_mem _ hp)

/-- From any state that is reached, the packets of a transport that fit leave the sockets of the
other transports as they are. -/
theorem other_transports_unaffected (host authRequired : Bool) (connectData : Bytes)
    (events : List Event) (t : Nat) {packets : List (Packet × Env)}
    (hcommands : ∀ p ∈ packets, SocketCommand p.1)
    (hfits : PacketsFit (State.run { host, authRequired, connectData } events) t packets) :
    Unaffected t (State.run { host, authRequired, connectData } events).sockets
      ((State.run { host, authRequired, connectData } events).handlePackets t packets).sockets :=
  unaffected_handlePackets (wf_run wf_initial events) hcommands hfits

def noHashes : Libmincrypt.Hashes := ⟨fun _ => [], fun _ => []⟩

/-- A server with the transports 1 and 2 and a client that waits for each. -/
def waitingClients : List Event :=
  [.packet 1 { command := .cnxn } { hashes := noHashes },
    .packet 2 { command := .cnxn } { hashes := noHashes },
    .forwardAccept 2 (bytes "tcp:1"), .forwardAccept 1 (bytes "tcp:2")]

/-- The transport 1 connects its own client. -/
theorem other_transports_unaffected_own_client :
    Unaffected 1 (State.run { host := true, authRequired := false } waitingClients).sockets
      ((State.run { host := true, authRequired := false } waitingClients).handlePackets 1
        [({ command := .okay, arg0 := 9, arg1 := 2 }, { hashes := noHashes })]).sockets := by
  apply other_transports_unaffected
  · intro p hp
    rw [mem_singleton.mp hp]
    exact .inl rfl
  · refine ⟨fun s hs => ?_, trivial⟩
    have hown : ∀ s ∈ (State.run { host := true, authRequired := false }
        waitingClients).sockets.localSocketList, s.id = 2 → ¬ Foreign 1 s := by decide
    have hnot : ¬ Foreign 1 s :=
      hown s (mem_of_find?_eq_some hs) (by simpa using find?_some hs)
    exact ⟨fun hf => absurd hf hnot, fun _ hne => absurd rfl hne⟩

/-- The transport 1 connects the client that waits for transport 2; and when that is connected to
the socket 5 through transport 2, a packet on transport 1 from a socket 5 is delivered to it. -/
theorem other_transport_reached :
    ¬ Unaffected 1 (State.run { host := true, authRequired := false } waitingClients).sockets
        ((State.run { host := true, authRequired := false } waitingClients).handlePackets 1
          [({ command := .okay, arg0 := 9, arg1 := 1 }, { hashes := noHashes })]).sockets ∧
      ¬ Unaffected 1 (State.run { host := true, authRequired := false } (waitingClients ++
          [.packet 2 { command := .okay, arg0 := 5, arg1 := 1 } { hashes := noHashes }])).sockets
        ((State.run { host := true, authRequired := false } (waitingClients ++
          [.packet 2 { command := .okay, arg0 := 5, arg1 := 1 }
            { hashes := noHashes }])).handlePackets
          1 [({ command := .wrte, arg0 := 5, arg1 := 1, data := [66] },
            { hashes := noHashes, write := ⟨1, false⟩ })]).sockets := by
  constructor
  · intro h
    exact absurd h.sockets (by decide)
  · intro h
    exact absurd h.sockets (by decide)

end State

end ShieldTv.Adb
