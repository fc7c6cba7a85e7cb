import ShieldTv.Adb.Sockets
import ShieldTv.Libmincrypt.Rsa

/-!
# `handle_packet` and authentication

The packets of all transports, the replies of the framework that asks the user about keys, and
the events of the sockets, one after the other as `fdevent_loop` takes them.
-/

namespace ShieldTv.Adb

open Libmincrypt (RSAPublicKey Hashes rsaVerify rsaNumBytes)

inductive ConnectionState
  | offline
  | bootloader
  | device
  | host
  | recovery
  | sideload
  | unauthorized
deriving DecidableEq

def maxPayload : Nat := 4096
def aVersion : Nat := 0x01000000
def tokenSize : Nat := 20

structure Transport where
  connectionState : ConnectionState := .offline
  online : Bool := false
  token : Bytes := List.replicate tokenSize 0
  failedAuthAttempts : Nat := 0

structure State where
  /-- The host's build; otherwise the device's. -/
  host : Bool
  authRequired : Bool
  /-- `fill_connect_data`. -/
  connectData : Bytes := []
  transports : Nat → Transport := fun _ => {}
  sockets : Sockets := {}
  /-- The transport whose key is with the user. -/
  usbTransport : Option Nat := none
  needsRetry : Bool := false
  /-- The framework is connected. -/
  frameworkFd : Bool := false
  /-- Replies of the framework are attended to. -/
  authFde : Bool := false

namespace State

variable (st : State)

def setTransport (t : Nat) (f : Transport → Transport) : State :=
  { st with transports := Function.update st.transports t (f (st.transports t)) }

def sendPacket (t : Nat) (p : Packet) : State :=
  { st with sockets := st.sockets.sendPacket t p }

def offline (t : Nat) : Bool := (st.transports t).connectionState = .offline

/-! ## Connections -/

def handleOnline (t : Nat) : State := st.setTransport t ({ · with online := true })

def usbDisconnected : State := { st with usbTransport := none, needsRetry := false }

/-- The callbacks of a transport: those of its remote sockets, and `usb_disconnected` on the
transport that was last made `usb_transport`. -/
def runTransportDisconnects (t : Nat) : State :=
  let st := { st with sockets := st.sockets.disconnectRemotes t }
  if st.usbTransport = some t then st.usbDisconnected else st

def handleOffline (t : Nat) : State :=
  (st.setTransport t ({ · with online := false })).runTransportDisconnects t

def sendReady (localId remoteId t : Nat) : State :=
  st.sendPacket t { command := .okay, arg0 := localId, arg1 := remoteId }

def sendClose (localId remoteId t : Nat) : State :=
  st.sendPacket t { command := .clse, arg0 := localId, arg1 := remoteId }

def sendConnect (t : Nat) : State :=
  st.sendPacket t
    { command := .cnxn, arg0 := aVersion, arg1 := maxPayload, data := st.connectData }

/-- The type in a banner is what stands before the first colon. -/
def bannerState (banner : Bytes) : ConnectionState :=
  let type := (banner.takeWhile (· ≠ 0)).takeWhile (· ≠ 58)
  if type = bytes "bootloader" then .bootloader
  else if type = bytes "device" then .device
  else if type = bytes "recovery" then .recovery
  else if type = bytes "sideload" then .sideload
  else .host

def parseBanner (banner : Bytes) (t : Nat) : State :=
  st.setTransport t ({ · with connectionState := bannerState banner })

/-! ## Authentication -/

/-- What reading a token from `/dev/urandom` gives: it cannot be opened, it ends early and has
left these bytes in the token, or it has filled the token. -/
inductive TokenRead
  | unopened
  | short (token : Bytes)
  | full (token : Bytes)

/-- The token afterwards, and whether it is a new one.  The host has no tokens. -/
def adbAuthGenerateToken (host : Bool) (token : Bytes) : TokenRead → Bytes × Bool
  | .unopened => (token, false)
  | .short token' => if host then (token, false) else (token', false)
  | .full token' => if host then (token, false) else (token', true)

def adbAuthToken : Nat := 1
def adbAuthSignature : Nat := 2
def adbAuthRsaPublicKey : Nat := 3

def sendAuthRequest (read : TokenRead) (t : Nat) : State :=
  let result := adbAuthGenerateToken st.host (st.transports t).token read
  let st := st.setTransport t ({ · with token := result.1 })
  if result.2 then
    st.sendPacket t { command := .auth, arg0 := adbAuthToken, data := result.1 }
  else st

def adbAuthVerified (t : Nat) : State := (st.handleOnline t).sendConnect t

/-- What the rest of the system answers while a packet is handled. -/
structure Env where
  token : TokenRead := .unopened
  hashes : Hashes
  /-- The keys in the key files. -/
  keys : List RSAPublicKey := []
  /-- The key can be written to the framework. -/
  frameworkWrite : Bool := true
  /-- The service that is opened exists; whether the process ends with it. -/
  service : Option Bool := none
  write : Sockets.Write := ⟨0, false⟩

def adbAuthVerify (env : Env) (token sig : Bytes) : Bool :=
  !st.host && sig.length = rsaNumBytes && env.keys.any fun key => rsaVerify env.hashes key sig token

/-- The key that is shown to the user: a terminated string that fits a message. -/
def confirmedKey (key : Bytes) : Option Bytes :=
  if key.getLast? ≠ some 0 then none
  else if maxPayload ≤ 2 + (key.takeWhile (· ≠ 0)).length then none
  else some (key.takeWhile (· ≠ 0))

def adbAuthConfirmKey (env : Env) (key : Bytes) (t : Nat) : State :=
  if st.host then st
  else
    let st := if st.usbTransport = none then { st with usbTransport := some t } else st
    if !st.frameworkFd then { st with needsRetry := true }
    else if (confirmedKey key).isNone then st
    else if !env.frameworkWrite then st
    else { st with authFde := true }

def adbAuthEvent (response : Bytes) : State :=
  if st.authFde ∧ response = bytes "OK" then
    match st.usbTransport with
    | none => st
    | some t => st.adbAuthVerified t
  else st

def adbAuthListener (read : TokenRead) : State :=
  let st := { st with frameworkFd := true }
  if st.needsRetry then
    let st := { st with needsRetry := false }
    match st.usbTransport with
    | none => st
    | some t => st.sendAuthRequest read t
  else st

/-! ## Packets -/

def withSockets (sockets : Sockets) : State := { st with sockets := sockets }

def handleAuth (env : Env) (t : Nat) (p : Packet) : State :=
  if p.arg0 = adbAuthToken then
    st.setTransport t ({ · with connectionState := .unauthorized })
  else if p.arg0 = adbAuthSignature then
    if st.adbAuthVerify env (st.transports t).token p.data then
      (st.adbAuthVerified t).setTransport t ({ · with failedAuthAttempts := 0 })
    else
      (st.setTransport t fun tr => { tr with failedAuthAttempts := tr.failedAuthAttempts + 1 })
        |>.sendAuthRequest env.token t
  else if p.arg0 = adbAuthRsaPublicKey then st.adbAuthConfirmKey env p.data t
  else st

def handleOpen (env : Env) (t : Nat) (p : Packet) : State :=
  if (st.transports t).online ∧ p.arg0 ≠ 0 ∧ p.arg1 = 0 then
    match env.service with
    | none => st.sendClose 0 p.arg0 t
    | some exitOnClose =>
      let (key, sockets) := st.sockets.createLocalSocket
      match sockets.lookup key with
      | none => st
      | some s =>
        let s := { s with exitOnClose := exitOnClose, peer := some (.remote p.arg0 t) }
        let st := (st.withSockets (sockets.put s)).sendReady s.id p.arg0 t
        st.withSockets (st.sockets.ready s)
  else st

def handleOkay (t : Nat) (p : Packet) : State :=
  if (st.transports t).online ∧ p.arg0 ≠ 0 ∧ p.arg1 ≠ 0 then
    match st.sockets.findLocalSocket p.arg1 0 with
    | none => st
    | some s =>
      match s.peer with
      | none => st.withSockets (st.sockets.ready { s with peer := some (.remote p.arg0 t) })
      | some peer =>
        if st.sockets.peerId peer = p.arg0 then st.withSockets (st.sockets.ready s) else st
  else st

def handleClose (t : Nat) (p : Packet) : State :=
  if (st.transports t).online ∧ p.arg1 ≠ 0 then
    match st.sockets.findLocalSocket p.arg1 p.arg0 with
    | none => st
    | some s =>
      if p.arg0 = 0 ∧ s.peer.isSome ∧ s.peer.bind st.sockets.peerTransport ≠ some t then st
      else st.withSockets (st.sockets.close s)
  else st

def handleWrite (env : Env) (t : Nat) (p : Packet) : State :=
  if (st.transports t).online ∧ p.arg0 ≠ 0 ∧ p.arg1 ≠ 0 then
    match st.sockets.findLocalSocket p.arg1 p.arg0 with
    | none => st
    | some s =>
      let result := st.sockets.localSocketEnqueue s p.data env.write
      let st := st.withSockets result.2
      if result.1 then st.sendReady s.id p.arg0 t else st
  else st

def handlePacket (env : Env) (t : Nat) (p : Packet) : State :=
  match p.command with
  | .sync =>
    if p.arg0 ≠ 0 then
      let st := st.sendPacket t p
      if st.host then st.sendConnect t else st
    else
      ((st.setTransport t ({ · with connectionState := .offline })).handleOffline t).sendPacket t p
  | .cnxn =>
    let st :=
      if (st.transports t).connectionState ≠ .offline then
        (st.setTransport t ({ · with connectionState := .offline })).handleOffline t
      else st
    let st := st.parseBanner p.data t
    if st.host || !st.authRequired then
      let st := st.handleOnline t
      if !st.host then st.sendConnect t else st
    else st.sendAuthRequest env.token t
  | .auth => st.handleAuth env t p
  | .opn => st.handleOpen env t p
  | .okay => st.handleOkay t p
  | .clse => st.handleClose t p
  | .wrte => st.handleWrite env t p
  | .unknown => st

/-! ## Events -/

inductive Event
  /-- A new transport. -/
  | registerTransport (t : Nat)
  /-- The last reference to a transport is gone. -/
  | removeTransport (t : Nat)
  /-- The thread that writes to a transport ends. -/
  | closeAllSockets (t : Nat)
  | packet (t : Nat) (p : Packet) (env : Env)
  | frameworkConnect (read : TokenRead)
  | frameworkDisconnect
  /-- A reply of the framework, and the key that the user has approved with it. -/
  | frameworkReply (response approved : Bytes)
  /-- A client connects to the server. -/
  | smartAccept
  /-- A client connects to a port that is forwarded through a transport. -/
  | forwardAccept (t : Nat) (destination : Bytes)
  | readable (key : Nat) (data : Bytes) (eof : Bool) (w : Sockets.Write)
      (request : Option Sockets.Request)
  | writable (key : Nat) (w : Sockets.Write)

def step : Event → State
  | .registerTransport t => st.setTransport t fun _ => {}
  | .removeTransport t => (st.runTransportDisconnects t).setTransport t fun _ => {}
  | .closeAllSockets t => st.withSockets (st.sockets.closeAllSockets t)
  | .packet t p env => st.handlePacket env t p
  | .frameworkConnect read => st.adbAuthListener read
  | .frameworkDisconnect => { st with frameworkFd := false, authFde := false }
  | .frameworkReply response _ => st.adbAuthEvent response
  | .smartAccept =>
    let (key, sockets) := st.sockets.createLocalSocket
    match sockets.lookup key with
    | none => st
    | some s =>
      let s := { s with peer := some (.smart none) }
      st.withSockets ((sockets.put s).ready s)
  | .forwardAccept t destination =>
    let (key, sockets) := st.sockets.createLocalSocket
    match sockets.lookup key with
    | none => st
    | some s =>
      let s := { s with transport := some t }
      st.withSockets ((sockets.put s).connectToRemote s t destination)
  | .readable key data eof w request =>
    match st.sockets.lookup key with
    | none => st
    | some s => st.withSockets (st.sockets.readable st.offline s data eof w request)
  | .writable key w =>
    match st.sockets.lookup key with
    | some s => st.withSockets (st.sockets.writable s w)
    | none =>
      match st.sockets.localSocketClosingList.find? (·.key = key) with
      | none => st
      | some s => st.withSockets (st.sockets.writableClosing s w)

def run (events : List Event) : State := events.foldl step st

end State

end ShieldTv.Adb
