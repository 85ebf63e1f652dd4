import Roomsync.Coordinator.Wire
import Roomsync.Encryption.Signal.Call
/-!
# Streams through the relay

The server mixes the messages of its clients, with others between them.  The receive loop
sorts them out again by the peer id of the header, until the socket closes or fails.
-/

namespace Roomsync.Coordinator.Relay

open Roomsync.Lib Roomsync.Encryption Roomsync.Encryption.Signal

namespace WSMsg

def ends : WSMsg → Bool
  | .closed => true
  | .error => true
  | _ => false

def frame? : WSMsg → Option (Bytes × Bytes)
  | .binary data => if data.length < hdrSize then none else some (peerIdOf data, data.drop hdrSize)
  | _ => none

def from? (peerId : Bytes) : WSMsg → Option Bytes
  | .binary data => if hdrSize ≤ data.length ∧ peerIdOf data = peerId then some data else none
  | _ => none

theorem frame?_binary (data : Bytes) :
    (binary data).frame? =
      if data.length < hdrSize then none else some (peerIdOf data, data.drop hdrSize) := rfl

theorem frame?_of_ends {msg : WSMsg} (h : msg.ends = true) : msg.frame? = none := by
  cases msg with
  | binary data => exact absurd h Bool.false_ne_true
  | closed => rfl
  | error => rfl
  | other => rfl

theorem from?_bind_frame? (peerId : Bytes) (msg : WSMsg) :
    ((msg.from? peerId).bind fun data => (WSMsg.binary data).frame?) =
      msg.frame?.filter fun frame => frame.1 = peerId := by
  cases msg with
  | binary data =>
      by_cases hlength : data.length < hdrSize
      · simp [from?, frame?_binary, hlength]
      · by_cases hpeer : peerIdOf data = peerId
        · simp [from?, frame?_binary, Option.filter, hlength, Nat.le_of_not_lt hlength, hpeer]
        · simp [from?, frame?_binary, Option.filter, hlength, hpeer]
  | closed => rfl
  | error => rfl
  | other => rfl

end WSMsg

def heard (msgs : List WSMsg) : List (Bytes × Bytes) :=
  (msgs.takeWhile fun msg => !msg.ends).filterMap WSMsg.frame?

/-- The messages of the peer that arrive before the loop ends. -/
def carried (peerId : Bytes) (msgs : List WSMsg) : List Bytes :=
  (msgs.takeWhile fun msg => !msg.ends).filterMap (WSMsg.from? peerId)

theorem heard_filter (peerId : Bytes) (msgs : List WSMsg) :
    (heard msgs).filter (fun frame => frame.1 = peerId) =
      (carried peerId msgs).filterMap fun data => (WSMsg.binary data).frame? := by
  unfold heard carried
  rw [List.filter_filterMap, List.filterMap_filterMap]
  congr 1
  funext msg
  exact (msg.from?_bind_frame? peerId).symm

namespace RelayClient

variable {r s : RelayClient} {peerId : Bytes}

theorem receive_eq (r : RelayClient) (msg : WSMsg) :
    r.receive msg = (!msg.ends, { r with received := r.received ++ msg.frame?.toList }) := by
  cases msg with
  | binary data =>
      by_cases hlength : data.length < hdrSize
      · simp [receive, WSMsg.frame?_binary, WSMsg.ends, hlength]
      · simp [receive, WSMsg.frame?_binary, WSMsg.ends, hlength]
  | closed => simp [receive, WSMsg.frame?, WSMsg.ends]
  | error => simp [receive, WSMsg.frame?, WSMsg.ends]
  | other => simp [receive, WSMsg.frame?, WSMsg.ends]

theorem recvLoop_eq (hlistens : r.listens = true) (msgs : List WSMsg) :
    r.recvLoop msgs = { r with received := r.received ++ heard msgs } := by
  induction msgs generalizing r with
  | nil => simp [recvLoop, heard]
  | cons msg msgs ih =>
      unfold recvLoop
      rw [if_pos hlistens, receive_eq]
      cases hends : msg.ends with
      | true => simp [heard, hends, WSMsg.frame?_of_ends hends]
      | false =>
          have hnext := ih (r := { r with received := r.received ++ msg.frame?.toList }) hlistens
          simp only [Bool.not_false, hnext]
          cases hframe : msg.frame? <;> simp [heard, hends, hframe]

/-! ## What a client sent -/

def messages (s : RelayClient) : List Bytes := s.ws.elim [] WebSocket.sent

/-- The socket is open, and every message on it carries the id and the next of the frames,
as far as the counter fits its field. -/
structure HasSent (peerId : Bytes) (frames : List Bytes) (s : RelayClient) : Prop where
  peer : s.peerId = peerId
  socket : s.ws = some ⟨false, s.messages⟩
  counts : s.seq = min frames.length (2 ^ 32)
  frames : s.messages.map (fun data => (WSMsg.binary data).frame?) =
    (frames.take (2 ^ 32)).map fun frame => some (peerId, frame)

theorem hasSent_connect (peerId : Bytes) : (new peerId).connect.HasSent peerId [] where
  peer := rfl
  socket := rfl
  counts := rfl
  frames := rfl

theorem frame?_message {seq : ℕ} {header : Bytes} (hpack : packHeader seq peerId = some header)
    (hpeerId : peerId.length = 16) (payload : Bytes) :
    (WSMsg.binary (header ++ payload)).frame? = some (peerId, payload) := by
  have hlength := length_packHeader hpack
  have hlong : ¬ (header ++ payload).length < hdrSize := by
    rw [List.length_append]
    omega
  rw [WSMsg.frame?_binary, if_neg hlong, peerIdOf_packHeader hpack hpeerId, List.drop_left' hlength]

theorem HasSent.sendFrame (hpeerId : peerId.length = 16) {frames : List Bytes}
    (h : s.HasSent peerId frames) (frame : Bytes) :
    ((sendFrame frame).exec s).HasSent peerId (frames ++ [frame]) := by
  have hlength : (frames ++ [frame]).length = frames.length + 1 := List.length_append
  have hframes := h.frames
  by_cases hlt : frames.length < 2 ^ 32
  · have hseq : s.seq = frames.length := h.counts.trans (Nat.min_eq_left hlt.le)
    have hpack := packHeader_of_lt (hseq.trans_lt hlt) s.peerId
    have hframe := frame?_message hpack (by rw [h.peer, hpeerId]) frame
    rw [h.peer] at hpack hframe
    rw [List.take_of_length_le hlt.le] at hframes
    rw [Method.exec_of_call (call_sendFrame_of_some h.socket rfl (by rw [h.peer]; exact hpack)
      frame)]
    refine ⟨h.peer, rfl, ?_, ?_⟩
    · rw [hlength, Nat.min_eq_left hlt]
      exact congrArg (· + 1) hseq
    · rw [List.take_of_length_le (by rw [hlength]; exact hlt), List.map_append, ← hframes]
      change ((s.messages ++ [_]).map fun data => (WSMsg.binary data).frame?) = _
      rw [List.map_append, List.map_singleton, hframe]
      rfl
  · have hle : 2 ^ 32 ≤ frames.length := Nat.le_of_not_lt hlt
    have hseq : s.seq = 2 ^ 32 := h.counts.trans (Nat.min_eq_right hle)
    have hpack := packHeader_of_le hseq.ge s.peerId
    rw [Method.exec_of_call (call_sendFrame_of_none h.socket rfl hpack frame)]
    refine ⟨h.peer, h.socket, ?_, ?_⟩
    · rw [hseq, hlength]
      omega
    · rw [hframes, List.take_append_of_le_length hle]

theorem hasSent_sendAll (hpeerId : peerId.length = 16) (frames : List Bytes) :
    ((new peerId).connect.sendAll frames).HasSent peerId frames := by
  induction frames using List.reverseRecOn with
  | nil => exact hasSent_connect peerId
  | append_singleton frames frame ih =>
      unfold sendAll at ih ⊢
      rw [List.foldl_append]
      exact ih.sendFrame hpeerId frame

/-- What arrives of the messages of one client, and in the order they were sent, is handed on
as its frames, whatever arrives between. -/
theorem peer_stream (hpeerId : peerId.length = 16) (frames : List Bytes) {msgs : List WSMsg}
    {k : ℕ} (hcarried : carried peerId msgs =
      ((new peerId).connect.sendAll frames).messages.take k) :
    ((heard msgs).filter fun frame => frame.1 = peerId).map Prod.snd =
      (frames.take (2 ^ 32)).take k := by
  have hsent := (hasSent_sendAll hpeerId frames).frames
  have hframes : (((new peerId).connect.sendAll frames).messages.take k).map
      (fun data => (WSMsg.binary data).frame?) =
        ((frames.take (2 ^ 32)).take k).map fun frame => some (peerId, frame) := by
    rw [List.map_take, hsent, ← List.map_take]
  have hheard : (carried peerId msgs).filterMap (fun data => (WSMsg.binary data).frame?) =
      ((carried peerId msgs).map fun data => (WSMsg.binary data).frame?).filterMap id := by
    rw [List.filterMap_map]
    rfl
  rw [heard_filter, hheard, hcarried, hframes, List.filterMap_map, List.map_filterMap]
  simp

/-- An encrypted call over a shared relay: what is delivered of one side's messages, in their
order, is decrypted by the other side to what was said. -/
theorem relayed_call {kdf : HKDF} {aesgcm : AESGCM} (haes : aesgcm.Lawful)
    (a b : SignalSession) (hchain : a.localRatchet.chainKey = b.remoteRatchet.chainKey)
    (ps : List (Bytes × Signal.Nonce)) (hpeerId : peerId.length = 16)
    (hlistens : r.listens = true) (msgs : List WSMsg) (k : ℕ)
    (hcarried : carried peerId msgs = ((new peerId).connect.sendAll
      ((encryptAll kdf aesgcm a ps).1.filterMap Except.toOption)).messages.take k) :
    ∃ calls, (r.recvLoop msgs).received = r.received ++ calls ∧
      (decryptAll kdf aesgcm b
        ((calls.filter fun frame => frame.1 = peerId).map Prod.snd)).1 =
          ((ps.take (2 ^ 32)).take k).map fun p => .ok (p.1.take 227) := by
  have ha : a.localRatchet.chainKey = chainKeyAt kdf a.localRatchet.chainKey 0 := rfl
  have hb : b.remoteRatchet.chainKey = chainKeyAt kdf a.localRatchet.chainKey 0 := hchain.symm
  refine ⟨heard msgs, by rw [recvLoop_eq hlistens], ?_⟩
  have hsealed : (encryptAll kdf aesgcm a ps).1.filterMap Except.toOption =
      sealFrom kdf aesgcm a.localRatchet.chainKey 0 ps := by
    rw [(encryptAll_eq haes ha ps).1, List.filterMap_map]
    exact List.filterMap_some
  have hsizes := length_of_mem_sealFrom kdf haes a.localRatchet.chainKey 0
    ((ps.take (2 ^ 32)).take k)
  rw [peer_stream hpeerId _ hcarried, hsealed, take_sealFrom, take_sealFrom,
    (decryptAll_eq aesgcm hb hsizes).1, openFrom_sealFrom haes.correct]

def symbolicPeerId : Bytes := List.replicate 16 7

def symbolicMessages : List Bytes :=
  ((new symbolicPeerId).connect.sendAll ((encryptAll symbolicHkdf symbolicAesgcm
    (Call.symbolicSession .alice) [([5], .zero), ([6], .zero)]).1.filterMap
      Except.toOption)).messages

def symbolicTraffic : List WSMsg :=
  [.other, .binary [1]] ++ (symbolicMessages.take 1).map WSMsg.binary ++ [.closed]

theorem relayed_call_symbolic :
    ∃ calls, ((new []).connect.recvLoop symbolicTraffic).received =
      (new []).connect.received ++ calls ∧
      (decryptAll symbolicHkdf symbolicAesgcm (Call.symbolicSession .bob)
        ((calls.filter fun frame => frame.1 = symbolicPeerId).map Prod.snd)).1 = [.ok [5]] :=
  relayed_call symbolicAesgcm_lawful (Call.symbolicSession .alice) (Call.symbolicSession .bob) rfl
    [([5], .zero), ([6], .zero)] (by decide) rfl symbolicTraffic 1 (by decide +kernel)

end RelayClient

end Roomsync.Coordinator.Relay
