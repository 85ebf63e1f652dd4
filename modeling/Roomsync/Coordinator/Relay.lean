import Roomsync.Lib.Python
/-!
# The relay client

`coordinator/relay.py`: encrypted frames that go through a relay server when the
peers are not on one network.  A frame travels in a binary WebSocket message behind
a header of sequence number and peer id; the WebSocket is `aiohttp`'s.
-/

namespace Roomsync.Coordinator.Relay

open Roomsync.Lib

def hdrSize : ℕ := 20

/-- `struct.pack("!I16s", ...)`; `none` is `struct.error`. -/
def packHeader (seq : ℤ) (peerId : Bytes) : Option Bytes := do
  let seq ← packUnsigned 4 seq
  return seq ++ packBytes 16 peerId

/-- The second field of `struct.unpack_from("!I16s", data)`. -/
def peerIdOf (data : Bytes) : Bytes := (data.drop 4).take 16

/-- The first field, which the receiver does not use. -/
def seqOf (data : Bytes) : ℕ := ofBigEndian (data.take 4)

inductive WSMsg
  | binary (data : Bytes)
  | closed
  | error
  | other

structure WebSocket where
  closed : Bool
  /-- The binary messages that went out, oldest first. -/
  sent : List Bytes

structure RelayClient where
  peerId : Bytes
  ws : Option WebSocket
  seq : ℕ
  running : Bool
  /-- The arguments that `on_frame` was called with, oldest first. -/
  received : List (Bytes × Bytes)

namespace RelayClient

def new (peerId : Bytes) : RelayClient where
  peerId := peerId
  ws := none
  seq := 0
  running := false
  received := []

/-- `connect`, as far as the client itself is concerned; it also creates the task. -/
def connect (s : RelayClient) : RelayClient :=
  { s with ws := some ⟨false, []⟩, running := true }

def sendFrame (encryptedFrame : Bytes) : Method RelayClient Unit := do
  let s ← get
  match s.ws with
  | none => return ()
  | some ws =>
      if ws.closed then return ()
      else
        let header ← Method.ofOption .structError (packHeader s.seq s.peerId)
        set { s with
          seq := s.seq + 1
          ws := some { ws with sent := ws.sent ++ [header ++ encryptedFrame] } }

def listens (s : RelayClient) : Bool := s.running && s.ws.any fun ws => !ws.closed

/-- The body of the receive loop for a message: whether the loop goes on, and the
client. -/
def receive (s : RelayClient) : WSMsg → Bool × RelayClient
  | .binary data =>
      if data.length < hdrSize then (true, s)
      else
        let payload := data.drop hdrSize
        (true, { s with received := s.received ++ [(peerIdOf data, payload)] })
  | .closed => (false, s)
  | .error => (false, s)
  | .other => (true, s)

def recvLoop (s : RelayClient) : List WSMsg → RelayClient
  | [] => s
  | msg :: msgs =>
      if s.listens then
        match s.receive msg with
        | (true, s) => s.recvLoop msgs
        | (false, s) => s
      else s

end RelayClient

/-! ## The wire format -/

theorem packHeader_of_lt {seq : ℕ} (h : seq < 2 ^ 32) (peerId : Bytes) :
    packHeader seq peerId = some (bigEndian 4 seq ++ packBytes 16 peerId) := by
  unfold packHeader
  rw [packUnsigned_natCast 4 h]
  rfl

theorem packHeader_of_le {seq : ℕ} (h : 2 ^ 32 ≤ seq) (peerId : Bytes) :
    packHeader seq peerId = none := by
  unfold packHeader
  rw [packUnsigned_natCast_of_le 4 h]
  rfl

section PackHeader

variable {seq : ℕ} {peerId header : Bytes} (h : packHeader seq peerId = some header)

include h

theorem packHeader_eq_some : ∃ field : Bytes, header = field ++ packBytes 16 peerId ∧
    field.length = 4 ∧ (ofBigEndian field : ℤ) = seq := by
  unfold packHeader at h
  obtain ⟨field, hseq, hheader⟩ := Option.bind_eq_some_iff.mp h
  exact ⟨field, (Option.some.inj hheader).symm, packUnsigned_eq_some hseq⟩

theorem length_packHeader : header.length = hdrSize := by
  obtain ⟨field, rfl, hlength, -⟩ := packHeader_eq_some h
  rw [List.length_append, hlength, length_packBytes]
  rfl

theorem seqOf_packHeader (payload : Bytes) : seqOf (header ++ payload) = seq := by
  obtain ⟨field, rfl, hlength, hvalue⟩ := packHeader_eq_some h
  unfold seqOf
  rw [List.append_assoc, List.take_left' hlength]
  exact_mod_cast hvalue

theorem peerIdOf_packHeader (hpeerId : peerId.length = 16) (payload : Bytes) :
    peerIdOf (header ++ payload) = peerId := by
  obtain ⟨field, rfl, hlength, -⟩ := packHeader_eq_some h
  unfold peerIdOf
  rw [packBytes_of_length hpeerId, List.append_assoc, List.drop_left' hlength,
    List.take_left' hpeerId]

end PackHeader

namespace RelayClient

variable {s : RelayClient} {ws : WebSocket}

/-! ## Sending -/

theorem call_sendFrame_of_some {header : Bytes} (hws : s.ws = some ws) (hopen : ws.closed = false)
    (hpack : packHeader s.seq s.peerId = some header) (encryptedFrame : Bytes) :
    (sendFrame encryptedFrame).call s = (.ok (), { s with
      seq := s.seq + 1
      ws := some { ws with sent := ws.sent ++ [header ++ encryptedFrame] } }) := by
  unfold sendFrame
  simp only [Method.call_bind, Method.call_get, hws, hopen, Bool.false_eq_true, if_false, hpack,
    Method.ofOption_some, Method.call_pure, Method.call_set]

theorem call_sendFrame_of_none (hws : s.ws = some ws) (hopen : ws.closed = false)
    (hpack : packHeader s.seq s.peerId = none) (encryptedFrame : Bytes) :
    (sendFrame encryptedFrame).call s = (.error .structError, s) := by
  unfold sendFrame
  simp only [Method.call_bind, Method.call_get, hws, hopen, Bool.false_eq_true, if_false, hpack,
    Method.ofOption_none, Method.call_throw]

def Sends (s : RelayClient) (encryptedFrame message : Bytes) : Prop :=
  ((sendFrame encryptedFrame).call s).1 = .ok () ∧
    ∃ ws ws', s.ws = some ws ∧ ((sendFrame encryptedFrame).exec s).ws = some ws' ∧
      ws'.sent = ws.sent ++ [message]

theorem sends_iff (hws : s.ws = some ws) (hopen : ws.closed = false)
    (encryptedFrame message : Bytes) :
    s.Sends encryptedFrame message ↔
      ∃ header, packHeader s.seq s.peerId = some header ∧ message = header ++ encryptedFrame := by
  unfold Sends
  cases hpack : packHeader s.seq s.peerId with
  | none =>
      rw [call_sendFrame_of_none hws hopen hpack]
      simp
  | some header =>
      have hcall := call_sendFrame_of_some hws hopen hpack encryptedFrame
      rw [Method.exec_of_call hcall, hcall]
      simp [hws, eq_comm]

theorem Sends.exists_header {encryptedFrame message : Bytes} (h : s.Sends encryptedFrame message) :
    ∃ header, packHeader s.seq s.peerId = some header ∧ message = header ++ encryptedFrame := by
  have hsends := h
  obtain ⟨-, ws, ws', hws, hws', hsent⟩ := h
  cases hclosed : ws.closed with
  | false => exact (sends_iff hws hclosed encryptedFrame message).mp hsends
  | true =>
      have hcall : (sendFrame encryptedFrame).call s = (.ok (), s) := by
        unfold sendFrame
        simp only [Method.call_bind, Method.call_get, hws, hclosed, if_true, Method.call_pure]
      rw [Method.exec_of_call hcall, hws] at hws'
      rw [Option.some.inj hws'] at hsent
      exact absurd (congrArg List.length hsent) (by simp)

theorem Sends.inj {s' : RelayClient} {frame frame' message : Bytes}
    (hpeerId : s.peerId.length = 16) (hpeerId' : s'.peerId.length = 16)
    (h : s.Sends frame message) (h' : s'.Sends frame' message) :
    s.seq = s'.seq ∧ s.peerId = s'.peerId ∧ frame = frame' := by
  obtain ⟨header, hpack, hmessage⟩ := h.exists_header
  obtain ⟨header', hpack', hmessage'⟩ := h'.exists_header
  have hsame : header ++ frame = header' ++ frame' := hmessage.symm.trans hmessage'
  refine ⟨?_, ?_, ?_⟩
  · rw [← seqOf_packHeader hpack frame, hsame, seqOf_packHeader hpack']
  · rw [← peerIdOf_packHeader hpack hpeerId frame, hsame, peerIdOf_packHeader hpack' hpeerId']
  · have hlength : header.length = header'.length := by
      rw [length_packHeader hpack, length_packHeader hpack']
    exact (List.append_inj hsame hlength).2

/-! ## Receiving -/

theorem receive_message {seq : ℕ} {peerId header : Bytes}
    (hpack : packHeader seq peerId = some header) (hpeerId : peerId.length = 16)
    (payload : Bytes) (r : RelayClient) :
    r.receive (.binary (header ++ payload)) =
      (true, { r with received := r.received ++ [(peerId, payload)] }) := by
  have hlength := length_packHeader hpack
  have hlong : ¬ (header ++ payload).length < hdrSize := by
    rw [List.length_append]
    omega
  simp only [receive, hlong, if_false, peerIdOf_packHeader hpack hpeerId,
    List.drop_left' hlength]

theorem recvLoop_singleton {r r' : RelayClient} {msg : WSMsg} {goesOn : Bool}
    (hlistens : r.listens = true) (hreceive : r.receive msg = (goesOn, r')) :
    r.recvLoop [msg] = r' := by
  simp only [recvLoop, hlistens, if_true, hreceive]
  cases goesOn <;> rfl

theorem round_trip (hws : s.ws = some ws) (hopen : ws.closed = false) (hseq : s.seq < 2 ^ 32)
    (hpeerId : s.peerId.length = 16) (encryptedFrame : Bytes) :
    ∃ message, s.Sends encryptedFrame message ∧ hdrSize ≤ message.length ∧
      ∀ r : RelayClient, r.listens = true →
        (r.recvLoop [.binary message]).received =
          r.received ++ [(s.peerId, encryptedFrame)] := by
  have hpack := packHeader_of_lt hseq s.peerId
  generalize bigEndian 4 s.seq ++ packBytes 16 s.peerId = header at hpack
  refine ⟨header ++ encryptedFrame, ?_, ?_, ?_⟩
  · exact (sends_iff hws hopen _ _).mpr ⟨header, hpack, rfl⟩
  · rw [List.length_append, length_packHeader hpack]
    omega
  · intro r hlistens
    rw [recvLoop_singleton hlistens (receive_message hpack hpeerId encryptedFrame r)]

end RelayClient

end Roomsync.Coordinator.Relay
