import ShieldTv.Adb.HandlePacket

/-!
# Who comes online

A history kept beside the state says what each transport has earned since its last CNXN: the
tokens that were sent on it, the keys it has sent, and whether it has signed one of the tokens or
had one of the keys approved.
-/

namespace ShieldTv.Adb

open Libmincrypt (rsaVerify)
open List Function

variable {other t : Nat} {st : State}

namespace State

/-! ## Frames -/

section

variable (st : State) (t : Nat)

section

variable (f : Transport → Transport)

@[simp] theorem transports_setTransport_self :
    (st.setTransport t f).transports t = f (st.transports t) := update_self _ _ _

@[simp] theorem transports_setTransport_of_ne (h : other ≠ t) :
    (st.setTransport t f).transports other = st.transports other :=
  update_of_ne h _ _

end

theorem setTransport_id : st.setTransport t id = st := by
  simp only [setTransport, id, update_eq_self]

@[simp] theorem transports_sendPacket (p : Packet) :
    (st.sendPacket t p).transports = st.transports := rfl

end

end State

/-! ## History -/

structure History where
  /-- CNXN has come since the transport was registered. -/
  connected : Nat → Bool := fun _ => false
  /-- The tokens that were sent on a transport since its last CNXN. -/
  tokens : Nat → List Bytes := fun _ => []
  /-- The keys that a transport has sent since its last CNXN. -/
  keys : Nat → List Bytes := fun _ => []
  /-- Since its last CNXN the transport has signed one of the tokens with a known key, or the user
  has approved one of its keys. -/
  authorised : Nat → Bool := fun _ => false
  /-- The last key that went to the user, and its transport, unless that has connected again or
  gone since. -/
  pending : Option (Nat × Bytes) := none

def tokensSent (before after : State) (t : Nat) : List Bytes :=
  (after.sockets.sent.drop before.sockets.sent.length).filterMap fun (t', p) =>
    if t' = t ∧ p.command = .auth ∧ p.arg0 = State.adbAuthToken then some p.data else none

namespace History

open State

def forget (h : History) (connected : Bool) (t : Nat) : History where
  connected := Function.update h.connected t connected
  tokens := Function.update h.tokens t []
  keys := Function.update h.keys t []
  authorised := Function.update h.authorised t false
  pending := if h.pending.map (·.1) = some t then none else h.pending

def signature (h : History) (env : Env) (t : Nat) (sig : Bytes) : History :=
  { h with
    authorised := Function.update h.authorised t (h.authorised t ||
      env.keys.any fun key => (h.tokens t).any fun token => rsaVerify env.hashes key sig token) }

def publicKey (h : History) (st : State) (env : Env) (t : Nat) (key : Bytes) : History :=
  { h with
    keys := Function.update h.keys t (key.takeWhile (· ≠ 0) :: h.keys t)
    pending :=
      if st.frameworkFd ∧ env.frameworkWrite then
        (confirmedKey key).elim h.pending fun key => some (t, key)
      else h.pending }

def packet (h : History) (st : State) (env : Env) (t : Nat) (p : Packet) : History :=
  match p.command with
  | .cnxn => h.forget true t
  | .sync =>
    if p.arg0 = 0 then
      { h with pending := if h.pending.map (·.1) = some t then none else h.pending }
    else h
  | .auth =>
    if p.arg0 = adbAuthSignature then h.signature env t p.data
    else if p.arg0 = adbAuthRsaPublicKey then h.publicKey st env t p.data
    else h
  | _ => h

def event (h : History) (st : State) : Event → History
  | .registerTransport t => h.forget false t
  | .removeTransport t => h.forget false t
  | .packet t p env => h.packet st env t p
  | .frameworkReply response approved =>
    if response = bytes "OK" then
      { h with authorised := fun t => h.authorised t || (h.keys t).contains approved }
    else h
  | _ => h

def send (h : History) (tokens : Nat → List Bytes) : History :=
  { h with tokens := fun t => h.tokens t ++ tokens t }

def step (h : History) (st : State) (ev : Event) : History :=
  (h.event st ev).send (tokensSent st (st.step ev))

end History

/-! ## One step -/

namespace State

theorem sent_remoteSocketDisconnect (st : Sockets) (s : LocalSocket) :
    (st.remoteSocketDisconnect s).sent = st.sent := by
  unfold Sockets.remoteSocketDisconnect Sockets.close Sockets.localSocketCloseLocked
  split_ifs <;> exact Sockets.sent_retire _ _

theorem sent_disconnectRemotes (st : Sockets) (t : Nat) :
    (st.disconnectRemotes t).sent = st.sent := by
  unfold Sockets.disconnectRemotes
  generalize st.localSocketList.filter (Sockets.ofRemote t) = sockets
  induction sockets generalizing st with
  | nil => rfl
  | cons s sockets ih =>
    exact (ih (st.remoteSocketDisconnect s)).trans (sent_remoteSocketDisconnect st s)

theorem runTransportDisconnects_eq (st : State) (t : Nat) : st.runTransportDisconnects t =
      { st with
        sockets := st.sockets.disconnectRemotes t
        usbTransport := if st.usbTransport = some t then none else st.usbTransport
        needsRetry := if st.usbTransport = some t then false else st.needsRetry } := by
  unfold runTransportDisconnects
  by_cases husb : st.usbTransport = some t
  · rw [if_pos husb, if_pos husb, if_pos husb]
    rfl
  · rw [if_neg husb, if_neg husb, if_neg husb]

theorem usbTransport_kept (hne : other ≠ t) (husb : st.usbTransport = some other) :
    (if st.usbTransport = some t then none else st.usbTransport) = some other := by
  rw [husb]
  exact if_neg fun heq => hne (Option.some.inj heq)

theorem sendAuthRequest_full (hhost : st.host = false) (token : Bytes) (t : Nat) :
    st.sendAuthRequest (.full token) t =
      (st.setTransport t ({ · with token := token })).sendPacket t
        { command := .auth, arg0 := adbAuthToken, data := token } := by
  simp [sendAuthRequest, adbAuthGenerateToken, hhost]

end State

open State

/-- The daemon of a device that asks for authentication. -/
def Guarded (st : State) : Prop := st.host = false ∧ st.authRequired = true

/-- The tokens that are in place were sent, and a key with the user is that of `usb_transport`. -/
structure Inv (st : State) (h : History) : Prop where
  device : Guarded st
  token : ∀ t, h.connected t = true → (st.transports t).token ∈ h.tokens t
  pending : ∀ t key, h.pending = some (t, key) → st.usbTransport = some t ∧ key ∈ h.keys t

/-- Tokens can be read; a transport signs and sends keys after CNXN, and its key while no other
transport waits for the user; the framework answers the last key it got, while the transport
of that key is still connected. -/
def Fits (st : State) (h : History) : Event → Prop
  | .packet t p env =>
    (∃ token, env.token = .full token) ∧
    (p.command = .auth → p.arg0 = adbAuthSignature → h.connected t = true) ∧
    (p.command = .auth → p.arg0 = adbAuthRsaPublicKey →
      h.connected t = true ∧ (st.usbTransport = none ∨ st.usbTransport = some t))
  | .frameworkConnect read => ∃ token, read = .full token
  | .frameworkReply response approved =>
    response = bytes "OK" → ∃ t, h.pending = some (t, approved)
  | _ => True

def Authorised (st st' : State) (h : History) : Prop :=
  ∀ t, (st.transports t).online = false → (st'.transports t).online = true → h.authorised t = true

/-- What holds after an event, `h` being the history in which its tokens are not noted yet. -/
def Safe (st st' : State) (h : History) : Prop :=
  Inv st' (h.send (tokensSent st st')) ∧ Authorised st st' (h.send (tokensSent st st'))

variable {st' : State} {h : History} {key : Bytes}

/-- Only the transport `t` changes, and it is authorised if it comes online. -/
theorem safe_at (t : Nat) (hdevice : Guarded st')
    (hothers : ∀ other, other ≠ t → st'.transports other = st.transports other ∧
      (h.connected other = true → (st.transports other).token ∈ h.tokens other))
    (htoken : h.connected t = true →
      (st'.transports t).token ∈ h.tokens t ∨ (st'.transports t).token ∈ tokensSent st st' t)
    (honline : (st'.transports t).online = true →
      (st.transports t).online = true ∨ h.authorised t = true)
    (hpending : ∀ t key, h.pending = some (t, key) → st'.usbTransport = some t ∧ key ∈ h.keys t) :
    Safe st st' h := by
  refine ⟨⟨hdevice, fun other hother => mem_append.mpr ?_, hpending⟩, fun other hoff hon => ?_⟩
  · by_cases heq : other = t
    · subst heq
      exact htoken hother
    · rw [(hothers other heq).1]
      exact .inl ((hothers other heq).2 hother)
  · by_cases heq : other = t
    · subst heq
      exact (honline hon).resolve_left (by simp [hoff])
    · rw [(hothers other heq).1, hoff] at hon
      cases hon

theorem Inv.safe (hinv : Inv st h) (hdevice : Guarded st')
    (husb : st'.usbTransport = st.usbTransport)
    (hothers : ∀ other, other ≠ t → st'.transports other = st.transports other)
    (htoken : (st'.transports t).token = (st.transports t).token)
    (honline : (st'.transports t).online = true →
      (st.transports t).online = true ∨ h.authorised t = true) : Safe st st' h := by
  refine safe_at t hdevice (fun other hne => ⟨hothers other hne, hinv.token other⟩)
    (fun ht => .inl (htoken ▸ hinv.token t ht)) honline ?_
  rw [husb]
  exact hinv.pending

theorem Inv.safe_same (hinv : Inv st h) (hdevice : Guarded st')
    (htransports : st'.transports = st.transports) (husb : st'.usbTransport = st.usbTransport) :
    Safe st st' h :=
  hinv.safe (t := 0) hdevice husb (by simp [htransports]) (by rw [htransports])
    fun hon => .inl (htransports ▸ hon)

theorem Inv.safe_verified (hinv : Inv st h) (hauthorised : h.authorised t = true)
    {f : Transport → Transport} (hf : ∀ tr, (f tr).token = tr.token) :
    Safe st ((st.adbAuthVerified t).setTransport t f) h := by
  refine hinv.safe (t := t) hinv.device rfl (fun other hne => ?_) ?_ fun _ => .inr hauthorised
  · simp [adbAuthVerified, handleOnline, sendConnect, hne]
  · simp [adbAuthVerified, handleOnline, sendConnect, hf]

/-- What is pending belongs to another transport once one is forgotten. -/
theorem pending_of_dropped {pending : Option (Nat × Bytes)} {t' : Nat}
    (h : (if pending.map (·.1) = some t then none else pending) = some (t', key)) :
    t' ≠ t ∧ pending = some (t', key) := by
  split_ifs at h with hdropped
  refine ⟨?_, h⟩
  rintro rfl
  rw [h] at hdropped
  exact hdropped rfl

theorem safe_sendAuthRequest {st₁ : State} {h₁ : History} (hdevice : Guarded st₁)
    (token : Bytes) (hothers : ∀ other, other ≠ t → st₁.transports other = st.transports other)
    (hoffline : (st₁.transports t).online = true → (st.transports t).online = true)
    (htoken : ∀ other, other ≠ t → h₁.connected other = true →
      (st.transports other).token ∈ h₁.tokens other)
    (hpending : ∀ t key, h₁.pending = some (t, key) → st₁.usbTransport = some t ∧ key ∈ h₁.keys t)
    (hsent : st₁.sockets.sent = st.sockets.sent) :
    Safe st (st₁.sendAuthRequest (.full token) t) h₁ := by
  rw [sendAuthRequest_full hdevice.1]
  refine safe_at t hdevice (fun other hne => ⟨?_, htoken other hne⟩) (fun _ => .inr ?_)
    (fun hon => .inl (hoffline ?_)) hpending
  · rw [transports_sendPacket, transports_setTransport_of_ne _ _ _ hne]
    exact hothers other hne
  · rw [transports_sendPacket, transports_setTransport_self]
    simp [tokensSent, State.sendPacket, Sockets.sendPacket, setTransport, hsent]
  · simpa using hon

section

variable (hinv : Inv st h) {c : Bool} {ev : Event}

include hinv

theorem Inv.forget_token (hne : other ≠ t) (hconnected : (h.forget c t).connected other = true) :
    (st.transports other).token ∈ (h.forget c t).tokens other := by
  simp only [History.forget, update_of_ne hne] at hconnected ⊢
  exact hinv.token other hconnected

theorem Inv.forget_pending (hkey : (h.forget c t).pending = some (other, key)) :
    other ≠ t ∧ st.usbTransport = some other ∧ key ∈ (h.forget c t).keys other := by
  obtain ⟨hne, hkey⟩ := pending_of_dropped hkey
  obtain ⟨husb, hmem⟩ := hinv.pending other key hkey
  refine ⟨hne, husb, ?_⟩
  simpa only [History.forget, update_of_ne hne] using hmem

theorem Inv.safe_forget (hdevice : Guarded st')
    (hothers : ∀ other, other ≠ t → st'.transports other = st.transports other)
    (husb : ∀ other, other ≠ t → st.usbTransport = some other → st'.usbTransport = some other)
    (hoffline : (st'.transports t).online = false) : Safe st st' (h.forget false t) := by
  refine safe_at t hdevice (fun other hne => ⟨hothers other hne, hinv.forget_token hne⟩)
    (fun ht => ?_) (fun hon => ?_) fun other key hkey => ?_
  · simp [History.forget] at ht
  · rw [hoffline] at hon
    cases hon
  · obtain ⟨hne, husb', hmem⟩ := hinv.forget_pending hkey
    exact ⟨husb other hne husb', hmem⟩

theorem step_sockets (hevent : h.event st ev = h)
    (hstep : st.step ev = st.withSockets (st.step ev).sockets) :
    Safe st (st.step ev) (h.event st ev) := by
  rw [hevent, hstep]
  exact hinv.safe_same hinv.device rfl rfl

theorem step_registerTransport (t : Nat) :
    Safe st (st.step (.registerTransport t)) (h.forget false t) := by
  rw [step]
  refine hinv.safe_forget hinv.device (fun other hne => ?_) (fun _ _ husb => husb) ?_
  · exact transports_setTransport_of_ne _ _ _ hne
  · rw [transports_setTransport_self]

theorem step_removeTransport (t : Nat) :
    Safe st (st.step (.removeTransport t)) (h.forget false t) := by
  rw [step, runTransportDisconnects_eq]
  refine hinv.safe_forget hinv.device (fun other hne => ?_) (fun _ => usbTransport_kept) ?_
  · exact transports_setTransport_of_ne _ _ _ hne
  · rw [transports_setTransport_self]

def cnxnState (st : State) (t : Nat) (banner : Bytes) : State :=
  (if (st.transports t).connectionState ≠ .offline then
    (st.setTransport t ({ · with connectionState := .offline })).handleOffline t
  else st).parseBanner banner t

omit hinv in
theorem cnxnState_spec (st : State) (t : Nat) (banner : Bytes) :
    (∀ other, other ≠ t → (cnxnState st t banner).transports other = st.transports other) ∧
      (((cnxnState st t banner).transports t).online = true → (st.transports t).online = true) ∧
      (∀ other, other ≠ t → st.usbTransport = some other →
        (cnxnState st t banner).usbTransport = some other) ∧
      (cnxnState st t banner).sockets.sent = st.sockets.sent ∧
      (cnxnState st t banner).host = st.host ∧
      (cnxnState st t banner).authRequired = st.authRequired := by
  unfold cnxnState parseBanner
  split_ifs with hoff
  · rw [handleOffline, runTransportDisconnects_eq]
    refine ⟨fun other hne => ?_, fun hon => ?_, fun _ => usbTransport_kept, ?_, rfl, rfl⟩
    · simp only [transports_setTransport_of_ne _ _ _ hne]
    · simp at hon
    · exact sent_disconnectRemotes _ _
  · refine ⟨fun other hne => ?_, fun hon => ?_, fun other hne husb => husb, rfl, rfl, rfl⟩
    · simp only [transports_setTransport_of_ne _ _ _ hne]
    · simpa using hon

omit hinv in
theorem handlePacket_cnxn (hdevice : Guarded st) (env : Env) {p : Packet}
    (hcommand : p.command = .cnxn) :
    st.handlePacket env t p = (cnxnState st t p.data).sendAuthRequest env.token t := by
  obtain ⟨-, -, -, -, hhost, hauth⟩ := cnxnState_spec st t p.data
  simp only [handlePacket, hcommand]
  change (if ((cnxnState st t p.data).host || !(cnxnState st t p.data).authRequired) = true then _
    else _) = _
  rw [hhost, hauth, hdevice.1, hdevice.2]
  rfl

section

variable {env : Env} {p : Packet}

theorem step_cnxn (hcommand : p.command = .cnxn) (hread : ∃ token, env.token = .full token) :
    Safe st (st.step (.packet t p env)) (h.event st (.packet t p env)) := by
  obtain ⟨token, hread⟩ := hread
  obtain ⟨hothers, hoffline, husb, hsent, hhost, hauth⟩ := cnxnState_spec st t p.data
  have hdevice : Guarded (cnxnState st t p.data) := by
    rw [Guarded, hhost, hauth]
    exact hinv.device
  have hstep : st.step (.packet t p env) =
      (cnxnState st t p.data).sendAuthRequest (.full token) t := by
    rw [step, handlePacket_cnxn hinv.device env hcommand, hread]
  have hevent : h.event st (.packet t p env) = h.forget true t := by
    simp only [History.event, History.packet, hcommand]
  rw [hevent, hstep]
  apply safe_sendAuthRequest hdevice token hothers hoffline _ _ hsent
  · exact fun other hne hconnected => hinv.forget_token hne hconnected
  · intro other key hkey
    obtain ⟨hne, husb', hmem⟩ := hinv.forget_pending hkey
    exact ⟨husb other hne husb', hmem⟩

theorem step_sync (hcommand : p.command = .sync) :
    Safe st (st.step (.packet t p env)) (h.event st (.packet t p env)) := by
  by_cases harg : p.arg0 = 0
  · have hevent : h.event st (.packet t p env)
        = { h with pending := if h.pending.map (·.1) = some t then none else h.pending } := by
      simp only [History.event, History.packet, hcommand, harg, ↓reduceIte]
    have hstep : st.step (.packet t p env)
        = ((st.setTransport t ({ · with connectionState := .offline })).handleOffline t).sendPacket
          t p := by
      simp only [step, handlePacket, hcommand, harg, ne_eq, not_true_eq_false, ↓reduceIte]
    rw [hevent, hstep, handleOffline, runTransportDisconnects_eq]
    refine safe_at t hinv.device (fun other hne => ⟨?_, hinv.token other⟩) (fun ht => .inl ?_)
      (fun hon => ?_) fun other key hkey => ?_
    · simp only [transports_sendPacket, transports_setTransport_of_ne _ _ _ hne]
    · simpa using hinv.token t ht
    · simp at hon
    · obtain ⟨hne, hkey⟩ := pending_of_dropped hkey
      obtain ⟨husb, hmem⟩ := hinv.pending other key hkey
      exact ⟨usbTransport_kept hne husb, hmem⟩
  · have hevent : h.event st (.packet t p env) = h := by
      simp only [History.event, History.packet, hcommand, harg, ↓reduceIte]
    apply step_sockets hinv hevent
    have hhost : (st.sendPacket t p).host = false := hinv.device.1
    simp [step, handlePacket, hcommand, harg, hhost]
    rfl

/-- A signature is accepted for the token in place, which was sent. -/
theorem step_signature (hcommand : p.command = .auth)
    (harg : p.arg0 = adbAuthSignature) (hread : ∃ token, env.token = .full token)
    (hconnected : h.connected t = true) :
    Safe st (st.step (.packet t p env)) (h.event st (.packet t p env)) := by
  obtain ⟨token, hread⟩ := hread
  have hevent : h.event st (.packet t p env) = h.signature env t p.data := by
    simp only [History.event, History.packet, hcommand, harg, ↓reduceIte]
  have hstep : st.step (.packet t p env) =
      if st.adbAuthVerify env (st.transports t).token p.data then
        (st.adbAuthVerified t).setTransport t ({ · with failedAuthAttempts := 0 })
      else
        (st.setTransport t fun tr =>
          { tr with failedAuthAttempts := tr.failedAuthAttempts + 1 }).sendAuthRequest
            env.token t := by
    simp [step, handlePacket, hcommand, handleAuth, harg, adbAuthSignature, adbAuthToken]
  have hsigned : Inv st (h.signature env t p.data) := ⟨hinv.device, hinv.token, hinv.pending⟩
  rw [hevent, hstep]
  split_ifs with hverify
  · refine hsigned.safe_verified ?_ fun _ => rfl
    have hmem := hinv.token t hconnected
    simp only [adbAuthVerify, Bool.and_eq_true, any_eq_true] at hverify
    obtain ⟨-, key, hkey, hsig⟩ := hverify
    simp only [History.signature, update_self, Bool.or_eq_true, any_eq_true]
    exact .inr ⟨key, hkey, _, hmem, hsig⟩
  · rw [hread]
    refine safe_sendAuthRequest ?_ token (fun other hne => ?_) (fun hon => ?_)
      (fun other _ => hsigned.token other) hsigned.pending rfl
    · exact hinv.device
    · exact transports_setTransport_of_ne _ _ _ hne
    · simpa using hon

/-- A key goes to the user for the transport that sent it. -/
theorem step_publicKey (hcommand : p.command = .auth)
    (harg : p.arg0 = adbAuthRsaPublicKey)
    (husb : st.usbTransport = none ∨ st.usbTransport = some t) :
    Safe st (st.step (.packet t p env)) (h.event st (.packet t p env)) := by
  have hevent : h.event st (.packet t p env) = h.publicKey st env t p.data := by
    simp [History.event, History.packet, hcommand, harg, adbAuthSignature, adbAuthRsaPublicKey]
  have hstep : st.step (.packet t p env) = st.adbAuthConfirmKey env p.data t := by
    simp [step, handlePacket, hcommand, handleAuth, harg, adbAuthSignature, adbAuthToken,
      adbAuthRsaPublicKey]
  have hconfirm : (st.adbAuthConfirmKey env p.data t).transports = st.transports ∧
      (st.adbAuthConfirmKey env p.data t).usbTransport = some t ∧
      (st.adbAuthConfirmKey env p.data t).host = st.host ∧
      (st.adbAuthConfirmKey env p.data t).authRequired = st.authRequired := by
    have hhost : ¬ st.host = true := by rw [hinv.device.1]; decide
    unfold adbAuthConfirmKey
    rw [if_neg hhost]
    rcases husb with husb | husb
    · rw [if_pos husb]
      dsimp only
      split_ifs <;> exact ⟨rfl, rfl, rfl, rfl⟩
    · have hnone : ¬ st.usbTransport = none := by rw [husb]; exact Option.some_ne_none t
      rw [if_neg hnone]
      dsimp only
      split_ifs <;> exact ⟨rfl, husb, rfl, rfl⟩
  obtain ⟨htransports, husb', hhost, hauth⟩ := hconfirm
  rw [hevent, hstep]
  refine safe_at t ?_ (fun other _ => ⟨congrFun htransports other, hinv.token other⟩)
    (fun ht => .inl ?_) (fun hon => .inl ?_) fun other key hkey => ?_
  · rw [Guarded, hhost, hauth]
    exact hinv.device
  · rw [htransports]
    exact hinv.token t ht
  · rwa [htransports] at hon
  · have hold : h.pending = some (other, key) →
        (st.adbAuthConfirmKey env p.data t).usbTransport = some other ∧
          key ∈ (h.publicKey st env t p.data).keys other := by
      intro hkey
      obtain ⟨hother, hmem⟩ := hinv.pending other key hkey
      rw [hother] at husb
      rcases husb with husb | husb
      · cases husb
      · cases husb
        refine ⟨husb', ?_⟩
        simp only [History.publicKey, update_self]
        exact mem_cons_of_mem _ hmem
    unfold History.publicKey at hkey
    split_ifs at hkey
    · cases hconfirmed : confirmedKey p.data with
      | none =>
        rw [hconfirmed] at hkey
        exact hold hkey
      | some shown =>
        rw [hconfirmed] at hkey
        cases hkey
        refine ⟨husb', ?_⟩
        unfold confirmedKey at hconfirmed
        split_ifs at hconfirmed
        cases hconfirmed
        simp only [History.publicKey, update_self]
        exact mem_cons_self
    · exact hold hkey

theorem step_packet (hfits : Fits st h (.packet t p env)) :
    Safe st (st.step (.packet t p env)) (h.event st (.packet t p env)) := by
  obtain ⟨hread, hsignature, hpublicKey⟩ := hfits
  cases hcommand : p.command with
  | sync => exact step_sync hinv hcommand
  | cnxn => exact step_cnxn hinv hcommand hread
  | auth =>
    by_cases hsig : p.arg0 = adbAuthSignature
    · exact step_signature hinv hcommand hsig hread (hsignature hcommand hsig)
    · by_cases hkey : p.arg0 = adbAuthRsaPublicKey
      · exact step_publicKey hinv hcommand hkey (hpublicKey hcommand hkey).2
      · have hevent : h.event st (.packet t p env) = h := by
          simp only [History.event, History.packet, hcommand, hsig, hkey, ↓reduceIte]
        by_cases htoken : p.arg0 = adbAuthToken
        · have hstep : st.step (.packet t p env)
              = st.setTransport t ({ · with connectionState := .unauthorized }) := by
            simp only [step, handlePacket, hcommand, handleAuth, htoken, ↓reduceIte]
          rw [hevent, hstep]
          refine hinv.safe (t := t) hinv.device rfl (fun other hne => ?_) ?_ fun hon => .inl ?_
          · exact transports_setTransport_of_ne _ _ _ hne
          · rw [transports_setTransport_self]
          · simpa using hon
        · apply step_sockets hinv hevent
          simp only [step, handlePacket, hcommand, handleAuth, hsig, hkey, htoken, ↓reduceIte]
          rfl
  | opn | okay | clse | wrte | unknown =>
    apply step_sockets hinv
    · simp only [History.event, History.packet, hcommand]
    · simp only [step, handlePacket, hcommand, handleOpen, handleOkay, handleClose, handleWrite]
      repeat' split
      all_goals rfl

end

theorem step_frameworkConnect {read : TokenRead} (hread : ∃ token, read = .full token) :
    Safe st (st.step (.frameworkConnect read)) h := by
  obtain ⟨token, rfl⟩ := hread
  simp only [step, adbAuthListener]
  split_ifs with hretry
  · split
    · exact hinv.safe_same hinv.device rfl rfl
    · exact safe_sendAuthRequest (by exact hinv.device) token (fun _ _ => rfl) id
        (fun other _ => hinv.token other) hinv.pending rfl
  · exact hinv.safe_same hinv.device rfl rfl

/-- The transport that comes online on the user's approval is the one that sent the key. -/
theorem step_frameworkReply {response approved : Bytes}
    (hfits : response = bytes "OK" → ∃ t, h.pending = some (t, approved)) :
    Safe st (st.step (.frameworkReply response approved))
      (h.event st (.frameworkReply response approved)) := by
  unfold History.event step
  dsimp only
  by_cases hok : response = bytes "OK"
  · obtain ⟨t, hpending⟩ := hfits hok
    obtain ⟨husb, hmem⟩ := hinv.pending t approved hpending
    rw [if_pos hok]
    have happroved : Inv st
        { h with authorised := fun t => h.authorised t || (h.keys t).contains approved } :=
      ⟨hinv.device, hinv.token, hinv.pending⟩
    unfold adbAuthEvent
    split_ifs with hwatched
    · simp only [husb]
      rw [← setTransport_id (st.adbAuthVerified t) t]
      apply happroved.safe_verified _ fun _ => rfl
      simp [hmem]
    · exact happroved.safe_same hinv.device rfl rfl
  · have hnot : ¬ (st.authFde = true ∧ response = bytes "OK") := fun hand => hok hand.2
    rw [if_neg hok, adbAuthEvent, if_neg hnot]
    exact hinv.safe_same hinv.device rfl rfl

/-! ## Runs -/

theorem step_safe (hfits : Fits st h ev) : Safe st (st.step ev) (h.event st ev) := by
  cases ev with
  | registerTransport t => exact step_registerTransport hinv t
  | removeTransport t => exact step_removeTransport hinv t
  | closeAllSockets t => exact step_sockets hinv rfl rfl
  | packet t p env => exact step_packet hinv hfits
  | frameworkConnect read => exact step_frameworkConnect hinv hfits
  | frameworkDisconnect => exact hinv.safe_same hinv.device rfl rfl
  | frameworkReply response approved => exact step_frameworkReply hinv hfits
  | smartAccept | forwardAccept | readable | writable =>
    apply step_sockets hinv rfl
    simp only [step]
    repeat' split
    all_goals rfl

end

def History.run (h : History) (st : State) : List Event → History
  | [] => h
  | ev :: events => (h.step st ev).run (st.step ev) events

def RunFits (st : State) (h : History) : List Event → Prop
  | [] => True
  | ev :: events => Fits st h ev ∧ RunFits (st.step ev) (h.step st ev) events

theorem run_inv (hinv : Inv st h) {events later : List Event}
    (hfits : RunFits st h (events ++ later)) :
    Inv (st.run events) (h.run st events) ∧ RunFits (st.run events) (h.run st events) later := by
  induction events generalizing st h with
  | nil => exact ⟨hinv, hfits⟩
  | cons ev events ih => exact ih (step_safe hinv hfits.1).1 hfits.2

def adbd (connectData : Bytes) : State :=
  { host := false, authRequired := true, connectData := connectData }

theorem inv_adbd (connectData : Bytes) : Inv (adbd connectData) {} where
  device := ⟨rfl, rfl⟩
  token _ h := by cases h
  pending _ _ h := by cases h

/-- A transport comes online only if it has been authorised since its last CNXN. -/
theorem online_only_authorised {connectData : Bytes} {events : List Event} {ev : Event}
    (hfits : RunFits (adbd connectData) {} (events ++ [ev])) {t : Nat}
    (hoff : (((adbd connectData).run events).transports t).online = false)
    (hon : ((((adbd connectData).run events).step ev).transports t).online = true) :
    ((History.run {} (adbd connectData) events).step ((adbd connectData).run events) ev).authorised
      t = true := by
  obtain ⟨hinv, hlast⟩ := run_inv (inv_adbd connectData) hfits
  exact (step_safe hinv hlast.1).2 t hoff hon

/-! ## A run, and one that goes wrong -/

def sampleToken : Bytes := List.replicate tokenSize 7

def sampleEnv : Env := { token := .full sampleToken, hashes := ⟨fun _ => [], fun _ => []⟩ }

def samplePacket (t : Nat) (command : Command) (arg0 : Nat) (text : String) : Event :=
  .packet t { command := command, arg0 := arg0, data := bytes text ++ [0] } sampleEnv

/-- The transport 1 connects and sends its key, which the user approves. -/
theorem online_only_authorised_approved :
    ((History.run {} (adbd []) [.registerTransport 1, .frameworkConnect (.full sampleToken),
        samplePacket 1 .cnxn 0 "host::", samplePacket 1 .auth 3 "key"]).step
      ((adbd []).run [.registerTransport 1, .frameworkConnect (.full sampleToken),
        samplePacket 1 .cnxn 0 "host::", samplePacket 1 .auth 3 "key"])
      (.frameworkReply (bytes "OK") (bytes "key"))).authorised 1 = true := by
  refine online_only_authorised ?_ (by rfl) (by rfl)
  refine ⟨trivial, ⟨_, rfl⟩, ⟨⟨_, rfl⟩, by decide, by decide⟩,
    ⟨⟨_, rfl⟩, by decide, ?_⟩, ?_, trivial⟩
  · exact fun _ _ => ⟨by rfl, .inl (by rfl)⟩
  · exact fun _ => ⟨1, by rfl⟩

/-- Two transports connect and send their keys, and the user approves the second one: the first
transport comes online. -/
theorem other_transport_comes_online :
    ∃ events : List Event,
      (((adbd []).run events).transports 1).online = false ∧
      ((((adbd []).run events).step (.frameworkReply (bytes "OK") (bytes "two"))).transports
        1).online = true ∧
      ((History.run {} (adbd []) events).step ((adbd []).run events)
        (.frameworkReply (bytes "OK") (bytes "two"))).authorised 1 = false :=
  ⟨[.registerTransport 1, .registerTransport 2, .frameworkConnect (.full sampleToken),
    samplePacket 1 .cnxn 0 "host::", samplePacket 2 .cnxn 0 "host::",
    samplePacket 1 .auth 3 "one", samplePacket 2 .auth 3 "two"], by rfl, by rfl, by rfl⟩

end ShieldTv.Adb
