import ShieldTv.Adb.Proofs.Isolation

/-!
# Sockets that are closed under a handler

A handler that passes data on to the peer of its socket goes on with that socket unless the call
returns a negative value.  A smart socket that closes the socket returns one; a local peer whose
descriptor fails is closed, and the socket with it, but returns 1.
-/

namespace ShieldTv.Adb.Sockets

open List hiding lookup

variable {st : Sockets} {a s p : LocalSocket} {key : Nat}

def Alive (st : Sockets) (key : Nat) : Prop :=
  key ∈ st.localSocketList.map (·.key) ∨ key ∈ st.localSocketClosingList.map (·.key)

/-- If the call returns and the socket is gone the value is negative. -/
def Tells (s : LocalSocket) (result : Int × Sockets) : Prop :=
  result.2.exited = false → ¬ result.2.Alive s.key → result.1 < 0

/-- No packets wait in the socket when it is closed. -/
def Spent (s : LocalSocket) : Prop := s.closing = true ∨ s.queue = []

/-- To close `p` destroys `s` too, and the process goes on. -/
def Drags (st : Sockets) (p s : LocalSocket) : Prop :=
  LocalPeer p s.key ∧ Spent s ∧ st.exited = false ∧ s.exitOnClose = false ∧ p.exitOnClose = false

/-- The descriptor of the local peer, in which no packets wait, fails. -/
def LostUnder (st : Sockets) (s : LocalSocket) (data : Bytes) (w : Write) : Prop :=
  match s.peer with
  | some (.localSocket key) => ∃ p ∈ st.lookup key,
    (p.queue = [] ∧ w.accepted < data.length ∧ w.failed = true) ∧ Drags st p s
  | _ => False

theorem tells_of_alive {value : Int} (h : st.Alive s.key) : Tells s (value, st) :=
  fun _ hgone => absurd h hgone

theorem alive_put : (st.put a).Alive key ↔ st.Alive key := by
  unfold Alive
  rw [keys_put]
  rfl

theorem alive_retire :
    (st.retire a).Alive key ↔ if key = a.key then ¬ Spent a else st.Alive key := by
  unfold Alive retire Spent
  grind [localSocketDestroy, removeSocket]

theorem exited_retire_iff :
    (st.retire a).exited = false ↔ st.exited = false ∧ (Spent a → a.exitOnClose = false) := by
  unfold retire Spent
  grind [localSocketDestroy, removeSocket]

section

variable (hs : st.lookup s.key = some s)
include hs

theorem alive_of_lookup : st.Alive s.key := .inl (mem_map_of_mem (mem_of_lookup hs).1)

/-- A local peer is closed, and with it the socket that it is connected to. -/
theorem tells_close_iff (hempty : a.queue = [])
    (hself : s.key = a.key → LocalPeer a s.key ∧ s.queue = []) :
    Tells s (1, st.localSocketCloseLocked a) ↔ ¬ Drags st a s := by
  have halive := alive_of_lookup hs
  have hspent : Spent a := .inr hempty
  by_cases hback : LocalPeer a s.key
  · have hclose : st.localSocketCloseLocked a = (st.retire s).retire a := by
      have hpeer : a.peer = some (.localSocket s.key) := hback
      simp only [localSocketCloseLocked, hpeer, hs]
    have hgone : ((st.retire s).retire a).Alive s.key ↔ ¬ Spent s := by
      rw [alive_retire, alive_retire, if_pos rfl]
      split_ifs with hkey
      · exact iff_of_false (not_not.mpr hspent) (not_not.mpr (.inr (hself hkey).2))
      · rfl
    rw [hclose, Tells, Drags]
    simp only [exited_retire_iff, hgone]
    tauto
  · have hne : s.key ≠ a.key := fun heq => hback (hself heq).1
    refine iff_of_true (tells_of_alive ?_) fun h => hback h.1
    unfold localSocketCloseLocked
    rw [alive_retire, if_neg hne]
    split
    · exact halive
    · exact halive
    · rename_i key hpeer
      split
      · exact halive
      · rename_i peer hlookup
        obtain ⟨-, rfl⟩ := mem_of_lookup hlookup
        rwa [alive_retire, if_neg fun heq => hback (by rw [LocalPeer, hpeer, heq])]
    · exact halive

theorem tells_local_iff (hp : st.lookup p.key = some p) (hpeer : LocalPeer s p.key)
    (data : Bytes) (w : Write) :
    Tells s (if (st.localSocketEnqueue p data w).1 then 0 else 1,
        (st.localSocketEnqueue p data w).2) ↔
      ¬((p.queue = [] ∧ w.accepted < data.length ∧ w.failed = true) ∧ Drags st p s) := by
  by_cases hfails : p.queue = [] ∧ w.accepted < data.length ∧ w.failed = true
  · obtain ⟨hqueue, hshort, hfailed⟩ := hfails
    have hself : s.key = p.key → LocalPeer p s.key ∧ s.queue = [] := by
      intro heq
      cases hs.symm.trans (heq ▸ hp)
      exact ⟨hpeer, hqueue⟩
    simp only [localSocketEnqueue, close, hqueue, hshort, hfailed, ne_eq, not_true_eq_false,
      and_self, true_and, if_false, if_true, if_neg (not_le.mpr hshort), Bool.false_eq_true]
    split_ifs <;> exact tells_close_iff hs rfl hself
  · have hput : ∃ q, (st.localSocketEnqueue p data w).2 = st.put q := by
      unfold localSocketEnqueue
      split_ifs with hqueue hlen hfailed
      · exact ⟨_, rfl⟩
      · exact ⟨_, rfl⟩
      · exact absurd ⟨not_not.mp hqueue, not_le.mp hlen, hfailed⟩ hfails
      · exact ⟨_, rfl⟩
    obtain ⟨q, hput⟩ := hput
    refine iff_of_true (tells_of_alive ?_) fun h => hfails h.1
    rw [hput, alive_put]
    exact alive_of_lookup hs

theorem tells_smart (offline : Nat → Bool) (chosen : Option Nat) (request : Request) :
    Tells s (smartSocketValue offline chosen request,
      st.smartSocketEnqueue offline s chosen request) := by
  have halive := alive_of_lookup hs
  cases request with
  | handled => exact fun _ _ => neg_one_lt_zero
  | transport t => exact tells_of_alive (alive_put.mpr halive)
  | service =>
    have hnew : (st.installLocalSocket { key := 0, id := 0 }).Alive s.key :=
      halive.imp_left fun h => by
        rw [installLocalSocket, map_append]
        exact mem_append_left _ h
    simp only [smartSocketEnqueue, createLocalSocket]
    split
    · exact tells_of_alive (alive_put.mpr hnew)
    · exact tells_of_alive (alive_put.mpr (alive_put.mpr hnew))
  | remote acquired destination =>
    simp only [smartSocketEnqueue, smartSocketValue]
    split
    · exact fun _ _ => neg_one_lt_zero
    · split_ifs
      · exact fun _ _ => neg_one_lt_zero
      · exact tells_of_alive (alive_put.mpr halive)

end

theorem tells_closed_iff (hs : st.lookup s.key = some s) (offline : Nat → Bool) (data : Bytes)
    (w : Write) (request : Option Request) :
    Tells s (st.peerEnqueue offline s data w request) ↔ ¬ LostUnder st s data w := by
  have hstays : ∀ {value : Int}, Tells s (value, st) := tells_of_alive (alive_of_lookup hs)
  unfold peerEnqueue LostUnder
  rcases hpeer : s.peer with _ | ⟨id, t⟩ | key | chosen
  · exact iff_of_true hstays not_false
  · exact iff_of_true (tells_of_alive (alive_of_lookup hs)) not_false
  · dsimp only
    cases hlookup : st.lookup key with
    | none => exact iff_of_true hstays (by simp)
    | some p =>
      obtain ⟨-, rfl⟩ := mem_of_lookup hlookup
      simpa using tells_local_iff hs hlookup hpeer data w
  · refine iff_of_true ?_ not_false
    cases request with
    | none => exact hstays
    | some request => exact tells_smart hs offline chosen request

def client : LocalSocket := { key := 0, id := 1, peer := some (.localSocket 1) }

/-- A client and the service it is connected to. -/
def served : Sockets where
  localSocketList := [client, { key := 1, id := 2, peer := some (.localSocket 0) }]

/-- A client in which data waits. -/
def busyClient : LocalSocket := { client with queue := [[5]] }

def busy : Sockets where
  localSocketList := [busyClient, { key := 1, id := 2, peer := some (.localSocket 0) }]

/-- The descriptor of the service fails, and the client outlives it. -/
theorem tells_closed_busy :
    (busy.peerEnqueue (fun _ => false) busyClient [7] ⟨0, true⟩ none).2.lookup 1 = none ∧
      Tells busyClient (busy.peerEnqueue (fun _ => false) busyClient [7] ⟨0, true⟩ none) := by
  refine ⟨by decide, (tells_closed_iff (by rfl) _ _ _ _).mpr ?_⟩
  rintro ⟨p, -, -, -, hspent, -⟩
  exact absurd hspent (by unfold Spent; decide)

theorem served_lost :
    ¬ Tells client (served.peerEnqueue (fun _ => false) client [7] ⟨0, true⟩ none) :=
  fun h => absurd (h rfl (by unfold Alive; decide)) (by decide)

end ShieldTv.Adb.Sockets
