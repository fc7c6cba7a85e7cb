import ShieldTv.Lib.Bytes

/-!
# The sockets of `adb`

A local socket is bound to a file descriptor; what it is connected to is a remote socket, which
stands for one that the other side of a transport has, another local socket, or a smart socket
that waits for the request of a client.  Remote and smart sockets have no other peer than the
local socket they belong to and are kept with it.  Sockets are told apart by `key`, which stands
for their address; identifiers are handed out and may repeat after 2^32 sockets.
-/

namespace ShieldTv.Adb

/-! ## Packets -/

inductive Command
  | sync
  | cnxn
  | auth
  | opn
  | okay
  | clse
  | wrte
  | unknown
deriving DecidableEq

structure Packet where
  command : Command
  arg0 : Nat := 0
  arg1 : Nat := 0
  data : Bytes := []
deriving DecidableEq

def bytes (text : String) : Bytes := text.toList.map fun c => c.toNat.toUInt8

/-! ## The tables -/

inductive Peer
  | remote (id transport : Nat)
  | localSocket (key : Nat)
  | smart (transport : Option Nat)
deriving DecidableEq

structure LocalSocket where
  key : Nat
  id : Nat
  transport : Option Nat := none
  peer : Option Peer := none
  closing : Bool := false
  exitOnClose : Bool := false
  /-- `ready` and `close` tell the client first. -/
  notify : Bool := false
  /-- Readable events are attended to. -/
  reading : Bool := false
  /-- What is left of the packets that wait for the descriptor. -/
  queue : List Bytes := []
  /-- What has been written to the descriptor. -/
  written : Bytes := []
deriving DecidableEq

structure Sockets where
  localSocketList : List LocalSocket := []
  localSocketClosingList : List LocalSocket := []
  localSocketNextId : Nat := 1
  nextKey : Nat := 0
  /-- The packets sent so far, each with its transport. -/
  sent : List (Nat × Packet) := []
  /-- The process has ended. -/
  exited : Bool := false

namespace Sockets

variable (st : Sockets)

def sendPacket (t : Nat) (p : Packet) : Sockets :=
  { st with sent := st.sent ++ [(t, p)] }

def lookup (key : Nat) : Option LocalSocket :=
  st.localSocketList.find? (·.key = key)

def put (s : LocalSocket) : Sockets :=
  { st with
    localSocketList := st.localSocketList.map fun old => if old.key = s.key then s else old }

def peerId : Peer → Nat
  | .remote id _ => id
  | .localSocket key => ((st.lookup key).map (·.id)).getD 0
  | .smart _ => 0

def peerTransport : Peer → Option Nat
  | .remote _ t => some t
  | .localSocket key => (st.lookup key).bind (·.transport)
  | .smart t => t

def findLocalSocket (localId peerId : Nat) : Option LocalSocket :=
  match st.localSocketList.find? (·.id = localId) with
  | none => none
  | some s => if peerId = 0 ∨ s.peer.map st.peerId = some peerId then some s else none

/-- Identifiers are never 0. -/
def installLocalSocket (s : LocalSocket) : Sockets :=
  let next := (st.localSocketNextId + 1) % 2 ^ 32
  { st with
    localSocketList := st.localSocketList ++
      [{ s with key := st.nextKey, id := st.localSocketNextId }]
    localSocketNextId := if next = 0 then 1 else next
    nextKey := st.nextKey + 1 }

def createLocalSocket : Nat × Sockets :=
  (st.nextKey, st.installLocalSocket { key := 0, id := 0 })

/-! ## Closing -/

def removeSocket (key : Nat) : Sockets :=
  { st with
    localSocketList := st.localSocketList.filter (·.key ≠ key)
    localSocketClosingList := st.localSocketClosingList.filter (·.key ≠ key) }

def localSocketDestroy (s : LocalSocket) : Sockets :=
  { st.removeSocket s.key with exited := st.exited || s.exitOnClose }

/-- The part of closing that comes after the peer is gone: a socket with packets left goes to the
closing list. -/
def retire (s : LocalSocket) : Sockets :=
  if s.closing || s.queue.isEmpty then st.localSocketDestroy s
  else
    let st := st.removeSocket s.key
    { st with
      localSocketClosingList := st.localSocketClosingList ++
        [{ s with peer := none, id := 0, closing := true, reading := false }] }

theorem sent_retire (s : LocalSocket) : (st.retire s).sent = st.sent := by
  unfold retire
  split_ifs <;> rfl

def localSocketCloseLocked (s : LocalSocket) : Sockets :=
  let st :=
    match s.peer with
    | none => st
    | some (.remote id t) => st.sendPacket t { command := .clse, arg0 := s.id, arg1 := id }
    | some (.localSocket key) =>
      match st.lookup key with
      | none => st
      | some peer => st.retire peer
    | some (.smart _) => st
  st.retire s

def sendOkay : Bytes := bytes "OKAY"

def sendFailClosed : Bytes := bytes "FAIL0006closed"

def close (s : LocalSocket) : Sockets :=
  if s.notify then
    st.localSocketCloseLocked
      { s with notify := false, written := s.written ++ sendFailClosed }
  else st.localSocketCloseLocked s

def remoteSocketDisconnect (s : LocalSocket) : Sockets :=
  st.close { s with peer := none }

def ofRemote (t : Nat) (s : LocalSocket) : Bool :=
  match s.peer with
  | some (.remote _ t') => t' = t
  | _ => false

def disconnectRemotes (t : Nat) : Sockets :=
  (st.localSocketList.filter (ofRemote t)).foldl remoteSocketDisconnect st

def concerns (t : Nat) (s : LocalSocket) : Bool :=
  s.transport = some t || s.peer.bind st.peerTransport = some t

/-- The search starts again after each socket that has been closed. -/
def closeAllSockets (t : Nat) : Sockets :=
  go st.localSocketList.length st
where
  go : Nat → Sockets → Sockets
    | 0, st => st
    | fuel + 1, st =>
      match st.localSocketList.find? (st.concerns t) with
      | none => st
      | some s => go fuel (st.localSocketCloseLocked s)

/-! ## Data -/

/-- What the descriptor takes: so many bytes, and then an error or the end of the file rather
than `EAGAIN`. -/
structure Write where
  accepted : Nat
  failed : Bool

/-- Whether more data can be taken at once, and the table. -/
def localSocketEnqueue (s : LocalSocket) (data : Bytes) (w : Write) : Bool × Sockets :=
  if s.queue ≠ [] then (false, st.put { s with queue := s.queue ++ [data] })
  else
    let s := { s with written := s.written ++ data.take w.accepted }
    if data.length ≤ w.accepted then (true, st.put s)
    else if w.failed then (false, st.close s)
    else (false, st.put { s with queue := [data.drop w.accepted] })

def ready (s : LocalSocket) : Sockets :=
  if s.notify then
    st.put { s with notify := false, written := s.written ++ sendOkay, reading := true }
  else st.put { s with reading := true }

/-- What a client asks a smart socket for, once enough of it has arrived. -/
inductive Request
  /-- Refused, or answered at once. -/
  | handled
  /-- The transport is chosen (on the host). -/
  | transport (t : Nat)
  /-- A service of the host. -/
  | service
  /-- A service on the other side; on the device the transport is chosen here. -/
  | remote (acquired : Option Nat) (destination : Bytes)

def connectToRemote (s : LocalSocket) (t : Nat) (destination : Bytes) : Sockets :=
  st.sendPacket t { command := .opn, arg0 := s.id, data := destination ++ [0] }

/-- The smart socket of `s`, which has the transport `chosen`, gets its request. -/
def smartSocketEnqueue (offline : Nat → Bool) (s : LocalSocket)
    (chosen : Option Nat) : Request → Sockets
  | .handled => st.close { s with peer := none }
  | .transport t => st.put { s with peer := some (.smart (some t)) }
  | .service =>
    let (key, st) := st.createLocalSocket
    let st := st.put { s with
      notify := false, written := s.written ++ sendOkay, peer := some (.localSocket key) }
    match st.lookup key with
    | none => st
    | some service => st.put { service with peer := some (.localSocket s.key), reading := true }
  | .remote acquired destination =>
    match chosen.or acquired with
    | none => st.close { s with peer := none }
    | some t =>
      if offline t then st.close { s with peer := none }
      else
        let s := { s with
          notify := true, peer := none, transport := some t, reading := false }
        (st.put s).connectToRemote s t destination

/-- What `smart_socket_enqueue` returns for a request. -/
def smartSocketValue (offline : Nat → Bool) (chosen : Option Nat) : Request → Int
  | .handled => -1
  | .transport _ | .service => 0
  | .remote acquired _ =>
    match chosen.or acquired with
    | none => -1
    | some t => if offline t then -1 else 1

/-- `s->peer->enqueue`: what it returns, and the table. -/
def peerEnqueue (offline : Nat → Bool) (s : LocalSocket) (data : Bytes)
    (w : Write) (request : Option Request) : Int × Sockets :=
  match s.peer with
  | none => (0, st)
  | some (.remote id t) =>
    (1, st.sendPacket t { command := .wrte, arg0 := s.id, arg1 := id, data := data })
  | some (.localSocket key) =>
    match st.lookup key with
    | none => (0, st)
    | some peer =>
      let result := st.localSocketEnqueue peer data w
      (if result.1 then 0 else 1, result.2)
  | some (.smart chosen) =>
    match request with
    | none => (0, st)
    | some request =>
      (smartSocketValue offline chosen request, st.smartSocketEnqueue offline s chosen request)

/-! ## Events of a descriptor -/

def drain : Nat → List Bytes → List Bytes
  | _, [] => []
  | n, p :: rest => if p.length ≤ n then drain (n - p.length) rest else p.drop n :: rest

def writable (s : LocalSocket) (w : Write) : Sockets :=
  let s := { s with
    written := s.written ++ s.queue.flatten.take w.accepted, queue := drain w.accepted s.queue }
  if s.queue ≠ [] then
    if w.failed then st.close s else st.put s
  else
    let st := st.put s
    match s.peer with
    | some (.remote id t) => st.sendPacket t { command := .okay, arg0 := s.id, arg1 := id }
    | some (.localSocket key) =>
      match st.lookup key with
      | none => st
      | some peer => st.ready peer
    | _ => st

def writableClosing (s : LocalSocket) (w : Write) : Sockets :=
  let s := { s with
    written := s.written ++ s.queue.flatten.take w.accepted, queue := drain w.accepted s.queue }
  if s.queue ≠ [] ∧ !w.failed then
    { st with
      localSocketClosingList :=
        st.localSocketClosingList.map fun old => if old.key = s.key then s else old }
  else st.localSocketDestroy s

def readable (offline : Nat → Bool) (s : LocalSocket) (data : Bytes)
    (eof : Bool) (w : Write) (request : Option Request) : Sockets :=
  let st :=
    if data = [] then st
    else
      match s.peer with
      | none => st
      | some (.remote id t) =>
        (st.put { s with reading := false }).sendPacket t
          { command := .wrte, arg0 := s.id, arg1 := id, data := data }
      | some (.localSocket key) =>
        match st.lookup key with
        | none => st
        | some peer =>
          let result := st.localSocketEnqueue peer data w
          if result.1 then result.2
          else
            match result.2.lookup s.key with
            | none => result.2
            | some s => result.2.put { s with reading := false }
      | some (.smart chosen) =>
        match request with
        | none => st
        | some request => st.smartSocketEnqueue offline s chosen request
  if eof then
    match st.lookup s.key with
    | none => st
    | some s => st.close s
  else st

end Sockets

end ShieldTv.Adb
