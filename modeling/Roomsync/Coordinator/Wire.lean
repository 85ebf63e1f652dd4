import Roomsync.Coordinator.Receive
import Roomsync.Coordinator.Relay
/-!
# The two wire formats

A relay message is read back as the peer id and the payload that it was built from, a
datagram of the reference bus as its sequence number, its timestamp and its payload.
Both senders count in a header field of 32 bits with a number that knows no bound.
-/

namespace Roomsync.Coordinator

open Roomsync.Lib

variable {ε δ : Type} {opus : Opus ε δ}

/-! ## The datagrams of the reference bus -/

theorem packHeader_of_lt {seq tsMs payloadLen : ℕ} (hseq : seq < 2 ^ 32) (hts : tsMs < 2 ^ 64)
    (hlen : payloadLen < 2 ^ 16) :
    packHeader seq tsMs payloadLen =
      some (bigEndian 4 seq ++ (bigEndian 8 tsMs ++ bigEndian 2 payloadLen)) := by
  unfold packHeader
  rw [packUnsigned_natCast 4 hseq, packUnsigned_natCast 8 hts, packUnsigned_natCast 2 hlen]
  rfl

theorem packHeader_of_le {seq : ℕ} (hseq : 2 ^ 32 ≤ seq) (tsMs payloadLen : ℤ) :
    packHeader seq tsMs payloadLen = none := by
  unfold packHeader
  rw [packUnsigned_natCast_of_le 4 hseq]
  rfl

theorem tsMs_packHeader {seq tsMs payloadLen : ℕ} {header : Bytes}
    (h : packHeader seq tsMs payloadLen = some header) (payload : Bytes) :
    (headerOf (header ++ payload)).tsMs = tsMs := by
  obtain ⟨seqField, tsField, lenField, rfl, ⟨hseqLength, -⟩, ⟨htsLength, htsValue⟩, -⟩ :=
    packHeader_eq_some h
  unfold headerOf
  simp only [List.append_assoc, List.drop_left' hseqLength, List.take_left' htsLength]
  exact_mod_cast htsValue

namespace ReferenceBus

/-- What the receive loop does with the fields of a datagram. -/
def store (opus : Opus ε δ) (seq tsMs : ℕ) (payload : Bytes) :
    Method (ReferenceBus ε δ) Unit := do
  let pcm ← decode opus payload
  let s ← get
  let jitterBuf := s.jitterBuf.append ⟨seq, tsMs, pcm⟩
  set { s with jitterBuf := jitterBuf }
  if jitterBuf.items.length ≥ jitterFrames then release

theorem receive_eq_store {data : Bytes} (h : hdrSize ≤ data.length) :
    receive opus data =
      store opus (headerOf data).seq (headerOf data).tsMs (payloadOf data) := by
  unfold receive
  rw [if_neg (Nat.not_lt.mpr h)]
  unfold unpackHeader
  rw [if_neg (Nat.not_lt.mpr h)]
  rfl

def Sends (opus : Opus ε δ) (s : ReferenceBus ε δ) (pcmBytes : Bytes) (tsMs : ℤ)
    (datagram : Bytes) : Prop :=
  ((sendFrame opus pcmBytes tsMs).call s).1 = .ok () ∧
    ∃ sock sock', s.sendSock = some sock ∧
      ((sendFrame opus pcmBytes tsMs).exec s).sendSock = some sock' ∧
      sock'.sent = sock.sent ++ [datagram]

def Encodes (opus : Opus ε δ) (s : ReferenceBus ε δ) (pcmBytes payload : Bytes) : Prop :=
  ∃ encoder encoder', s.encoder = some encoder ∧
    opus.encode encoder pcmBytes frameSamples = (some payload, encoder')

theorem sends_iff {s : ReferenceBus ε δ} {sock : SendSocket} (hsock : s.sendSock = some sock)
    (hopen : sock.isOpen = true) {pcmBytes payload : Bytes}
    (hencodes : Encodes opus s pcmBytes payload) (tsMs : ℤ) (datagram : Bytes) :
    s.Sends opus pcmBytes tsMs datagram ↔
      ∃ header, packHeader s.seq tsMs payload.length = some header ∧
        datagram = header ++ payload := by
  obtain ⟨encoder, encoder', hencoder, hencode⟩ := hencodes
  unfold Sends
  cases hpack : packHeader s.seq tsMs payload.length with
  | none =>
      rw [call_sendFrame_of_unpacked hsock hencoder hencode hpack]
      simp
  | some header =>
      have hcall := call_sendFrame_of_open hsock hencoder hencode hpack hopen
      rw [Method.exec_of_call hcall, hcall]
      simp [hsock, eq_comm]

theorem Sends.exists_header {s : ReferenceBus ε δ} {pcmBytes datagram : Bytes} {tsMs : ℤ}
    (h : s.Sends opus pcmBytes tsMs datagram) {payload : Bytes}
    (hencodes : Encodes opus s pcmBytes payload) :
    ∃ header, packHeader s.seq tsMs payload.length = some header ∧
      datagram = header ++ payload := by
  have hsends := h
  obtain ⟨hok, sock, sock', hsock, hsock', hsent⟩ := h
  cases hopen : sock.isOpen with
  | true => exact (sends_iff hsock hopen hencodes tsMs datagram).mp hsends
  | false =>
      rcases exec_sendFrame_cases opus s pcmBytes tsMs with
        ⟨encoder, seq, hexec, -⟩ | ⟨sock₁, _, _, _, _, hsock₁, hopen₁, -, -, -⟩
      · rw [hexec] at hsock'
        rw [Option.some.inj (hsock'.symm.trans hsock)] at hsent
        exact absurd (congrArg List.length hsent) (by simp)
      · rw [Option.some.inj (hsock₁.symm.trans hsock), hopen] at hopen₁
        exact absurd hopen₁ (by decide)

theorem Sends.inj {ε' δ' : Type} {opus' : Opus ε' δ'} {s : ReferenceBus ε δ}
    {s' : ReferenceBus ε' δ'} {pcmBytes pcmBytes' payload payload' datagram : Bytes}
    {tsMs tsMs' : ℕ} (hencodes : Encodes opus s pcmBytes payload)
    (hencodes' : Encodes opus' s' pcmBytes' payload')
    (h : s.Sends opus pcmBytes tsMs datagram) (h' : s'.Sends opus' pcmBytes' tsMs' datagram) :
    s.seq = s'.seq ∧ tsMs = tsMs' ∧ payload = payload' := by
  obtain ⟨header, hpack, hdatagram⟩ := h.exists_header hencodes
  obtain ⟨header', hpack', hdatagram'⟩ := h'.exists_header hencodes'
  have hsame : header ++ payload = header' ++ payload' := hdatagram.symm.trans hdatagram'
  refine ⟨?_, ?_, ?_⟩
  · rw [← (headerOf_packHeader hpack payload).2.1, hsame,
      (headerOf_packHeader hpack' payload').2.1]
  · rw [← tsMs_packHeader hpack payload, hsame, tsMs_packHeader hpack']
  · rw [← payloadOf_packHeader hpack, hsame, payloadOf_packHeader hpack']

theorem round_trip {s : ReferenceBus ε δ} {sock : SendSocket} (hsock : s.sendSock = some sock)
    (hopen : sock.isOpen = true) {pcmBytes payload : Bytes}
    (hencodes : Encodes opus s pcmBytes payload) {tsMs : ℕ} (hseq : s.seq < 2 ^ 32)
    (hts : tsMs < 2 ^ 64) (hpayload : payload.length ≤ 4082) :
    ∃ datagram, s.Sends opus pcmBytes tsMs datagram ∧ datagram.take 4096 = datagram ∧
      hdrSize ≤ datagram.length ∧
      unpackHeader datagram = some ⟨s.seq, tsMs, payload.length⟩ ∧
      payloadOf datagram = payload ∧
      receive opus datagram = store opus s.seq tsMs payload := by
  have hshort : payload.length < 2 ^ 16 := by omega
  have hpack := packHeader_of_lt hseq hts hshort
  generalize bigEndian 4 s.seq ++ (bigEndian 8 tsMs ++ bigEndian 2 payload.length) = header
    at hpack
  obtain ⟨hlength, hseqOf, hlenOf⟩ := headerOf_packHeader hpack payload
  have htsOf := tsMs_packHeader hpack payload
  have hlong : hdrSize ≤ (header ++ payload).length := by
    rw [List.length_append, hlength]
    omega
  have hheader : headerOf (header ++ payload) = ⟨s.seq, tsMs, payload.length⟩ := by
    rw [← hseqOf, ← htsOf, ← hlenOf]
  refine ⟨header ++ payload, ?_, ?_, hlong, ?_, payloadOf_packHeader hpack, ?_⟩
  · exact (sends_iff hsock hopen hencodes tsMs _).mpr ⟨header, hpack, rfl⟩
  · apply List.take_of_length_le
    rw [List.length_append, hlength]
    unfold hdrSize
    omega
  · unfold unpackHeader
    rw [if_neg (Nat.not_lt.mpr hlong), hheader]
  · rw [receive_eq_store hlong, hheader, payloadOf_packHeader hpack]

end ReferenceBus

/-- Both formats are read back whole, the receivers' length checks pass what the senders
build, and the bytes tell the fields apart. -/
theorem wire_formats_round_trip (opus : Opus ε δ) :
    (∀ (s : Relay.RelayClient) ws encryptedFrame, s.ws = some ws → ws.closed = false →
      s.seq < 2 ^ 32 → s.peerId.length = 16 →
      ∃ message, s.Sends encryptedFrame message ∧ Relay.hdrSize ≤ message.length ∧
        ∀ r : Relay.RelayClient, r.listens = true →
          (r.recvLoop [.binary message]).received =
            r.received ++ [(s.peerId, encryptedFrame)]) ∧
    (∀ (s s' : Relay.RelayClient) frame frame' message, s.peerId.length = 16 →
      s'.peerId.length = 16 → s.Sends frame message → s'.Sends frame' message →
      s.seq = s'.seq ∧ s.peerId = s'.peerId ∧ frame = frame') ∧
    (∀ (s : ReferenceBus ε δ) sock pcmBytes payload (tsMs : ℕ), s.sendSock = some sock →
      sock.isOpen = true → s.Encodes opus pcmBytes payload → s.seq < 2 ^ 32 →
      tsMs < 2 ^ 64 → payload.length ≤ 4082 →
      ∃ datagram, s.Sends opus pcmBytes tsMs datagram ∧ datagram.take 4096 = datagram ∧
        hdrSize ≤ datagram.length ∧
        unpackHeader datagram = some ⟨s.seq, tsMs, payload.length⟩ ∧
        payloadOf datagram = payload ∧
        ReferenceBus.receive opus datagram = ReferenceBus.store opus s.seq tsMs payload) ∧
    (∀ (s s' : ReferenceBus ε δ) pcmBytes pcmBytes' payload payload' datagram (tsMs tsMs' : ℕ),
      s.Encodes opus pcmBytes payload → s'.Encodes opus pcmBytes' payload' →
      s.Sends opus pcmBytes tsMs datagram → s'.Sends opus pcmBytes' tsMs' datagram →
      s.seq = s'.seq ∧ tsMs = tsMs' ∧ payload = payload') := by
  refine ⟨?_, ?_, ?_, ?_⟩
  · intro s ws encryptedFrame hws hopen hseq hpeerId
    exact Relay.RelayClient.round_trip hws hopen hseq hpeerId encryptedFrame
  · intro s s' frame frame' message hpeerId hpeerId' hsends hsends'
    exact hsends.inj hpeerId hpeerId' hsends'
  · intro s sock pcmBytes payload tsMs hsock hopen hencodes hseq hts hpayload
    exact ReferenceBus.round_trip hsock hopen hencodes hseq hts hpayload
  · intro s s' pcmBytes pcmBytes' payload payload' datagram tsMs tsMs' hencodes hencodes' hsends
      hsends'
    exact hsends.inj hencodes hencodes' hsends'

theorem wire_formats_round_trip_last_seq :
    ∃ message, ({ Relay.RelayClient.new (List.replicate 16 7) with
        ws := some ⟨false, []⟩, seq := 2 ^ 32 - 1 } : Relay.RelayClient).Sends [] message ∧
      Relay.hdrSize ≤ message.length ∧
      ∀ r : Relay.RelayClient, r.listens = true →
        (r.recvLoop [.binary message]).received = r.received ++ [(List.replicate 16 7, [])] :=
  (wire_formats_round_trip Station.copyingOpus).1
    { Relay.RelayClient.new (List.replicate 16 7) with ws := some ⟨false, []⟩, seq := 2 ^ 32 - 1 }
    ⟨false, []⟩ [] rfl rfl (Nat.sub_lt (by decide) (by decide)) (by decide)

/-! ## The sequence counters -/

namespace Relay.RelayClient

def IsOpen (s : RelayClient) : Prop := ∃ ws, s.ws = some ws ∧ ws.closed = false

def sendAll (s : RelayClient) (frames : List Bytes) : RelayClient :=
  frames.foldl (fun s frame => (sendFrame frame).exec s) s

theorem isOpen_exec_sendFrame {s : RelayClient} (h : s.IsOpen ∧ s.seq ≤ 2 ^ 32)
    (frame : Bytes) :
    (((sendFrame frame).exec s).IsOpen ∧ ((sendFrame frame).exec s).seq ≤ 2 ^ 32) ∧
      ((sendFrame frame).exec s).seq = min (s.seq + 1) (2 ^ 32) := by
  obtain ⟨⟨ws, hws, hopen⟩, hle⟩ := h
  by_cases hseq : s.seq < 2 ^ 32
  · have hpack := packHeader_of_lt hseq s.peerId
    rw [Method.exec_of_call (call_sendFrame_of_some hws hopen hpack frame)]
    have hmin : s.seq + 1 = min (s.seq + 1) (2 ^ 32) := by omega
    exact ⟨⟨⟨_, rfl, hopen⟩, hseq⟩, hmin⟩
  · have hpack := packHeader_of_le (Nat.not_lt.mp hseq) s.peerId
    rw [Method.exec_of_call (call_sendFrame_of_none hws hopen hpack frame)]
    exact ⟨⟨⟨ws, hws, hopen⟩, hle⟩, by omega⟩

theorem sendAll_counts (peerId : Bytes) (frames : List Bytes) :
    ((new peerId).connect.sendAll frames).IsOpen ∧
      ((new peerId).connect.sendAll frames).seq = min frames.length (2 ^ 32) := by
  have hopen : (new peerId).connect.IsOpen := ⟨_, rfl, rfl⟩
  have hcounts := foldl_counts (fun s => s.IsOpen ∧ s.seq ≤ 2 ^ 32) seq
    (fun s frame h _ => isOpen_exec_sendFrame h frame) ⟨hopen, Nat.zero_le _⟩ (Nat.zero_le _)
    (along_of_forall (P := fun _ _ => True) (fun _ _ => trivial) (new peerId).connect frames)
  have hzero : (new peerId).connect.seq = 0 := rfl
  rw [hzero, Nat.zero_add] at hcounts
  exact ⟨hcounts.1.1, hcounts.2⟩

theorem exists_sends_iff {s : RelayClient} (hopen : s.IsOpen) (frame : Bytes) :
    (∃ message, s.Sends frame message) ↔ s.seq < 2 ^ 32 := by
  obtain ⟨ws, hws, hopen⟩ := hopen
  simp only [sends_iff hws hopen]
  constructor
  · rintro ⟨message, header, hpack, -⟩
    by_contra hseq
    rw [packHeader_of_le (Nat.not_lt.mp hseq)] at hpack
    exact absurd hpack (by simp)
  · intro hseq
    exact ⟨_, _, packHeader_of_lt hseq s.peerId, rfl⟩

end Relay.RelayClient

namespace ReferenceBus

def IsOpen (s : ReferenceBus ε δ) : Prop := ∃ sock, s.sendSock = some sock ∧ sock.isOpen = true

/-- A frame that the encoder accepts, at a time that fits the header: all that `send_frame`
needs besides its own counter. -/
def Sendable (opus : Opus ε δ) (s : ReferenceBus ε δ) (frame : Bytes × ℕ) : Prop :=
  ∃ payload, s.Encodes opus frame.1 payload ∧ payload.length < 2 ^ 16 ∧ frame.2 < 2 ^ 64

def sendAll (opus : Opus ε δ) (s : ReferenceBus ε δ) (frames : List (Bytes × ℕ)) :
    ReferenceBus ε δ :=
  frames.foldl (fun s frame => (sendFrame opus frame.1 frame.2).exec s) s

theorem isOpen_exec_sendFrame {s : ReferenceBus ε δ} (h : s.IsOpen ∧ s.seq ≤ 2 ^ 32)
    {frame : Bytes × ℕ} (hsendable : s.Sendable opus frame) :
    (((sendFrame opus frame.1 frame.2).exec s).IsOpen ∧
      ((sendFrame opus frame.1 frame.2).exec s).seq ≤ 2 ^ 32) ∧
      ((sendFrame opus frame.1 frame.2).exec s).seq = min (s.seq + 1) (2 ^ 32) := by
  obtain ⟨⟨sock, hsock, hopen⟩, hle⟩ := h
  obtain ⟨payload, ⟨encoder, encoder', hencoder, hencode⟩, hlen, hts⟩ := hsendable
  by_cases hseq : s.seq < 2 ^ 32
  · have hpack := packHeader_of_lt hseq hts hlen
    rw [Method.exec_of_call (call_sendFrame_of_open hsock hencoder hencode hpack hopen)]
    have hmin : s.seq + 1 = min (s.seq + 1) (2 ^ 32) := by omega
    exact ⟨⟨⟨_, rfl, hopen⟩, hseq⟩, hmin⟩
  · have hpack := packHeader_of_le (Nat.not_lt.mp hseq) frame.2 payload.length
    rw [Method.exec_of_call (call_sendFrame_of_unpacked hsock hencoder hencode hpack)]
    exact ⟨⟨⟨sock, hsock, hopen⟩, hle⟩, by dsimp only; omega⟩

theorem sendAll_counts {frames : List (Bytes × ℕ)}
    (hsendable : Along (fun s frame => (sendFrame opus frame.1 frame.2).exec s)
      (Sendable opus) (ReferenceBus.new.start opus) frames) :
    ((ReferenceBus.new.start opus).sendAll opus frames).IsOpen ∧
      ((ReferenceBus.new.start opus).sendAll opus frames).seq = min frames.length (2 ^ 32) := by
  have hopen : (ReferenceBus.new.start opus).IsOpen := ⟨multicastSender, rfl, rfl⟩
  have hcounts := foldl_counts (fun s => s.IsOpen ∧ s.seq ≤ 2 ^ 32) seq
    (fun s frame h hframe => isOpen_exec_sendFrame h hframe) ⟨hopen, Nat.zero_le _⟩
    (Nat.zero_le _) hsendable
  have hzero : (ReferenceBus.new.start opus).seq = 0 := rfl
  rw [hzero, Nat.zero_add] at hcounts
  exact ⟨hcounts.1.1, hcounts.2⟩

theorem exists_sends_iff {s : ReferenceBus ε δ} (hopen : s.IsOpen) {frame : Bytes × ℕ}
    (hsendable : s.Sendable opus frame) :
    (∃ datagram, s.Sends opus frame.1 frame.2 datagram) ↔ s.seq < 2 ^ 32 := by
  obtain ⟨sock, hsock, hopen⟩ := hopen
  obtain ⟨payload, hencodes, hlen, hts⟩ := hsendable
  simp only [sends_iff hsock hopen hencodes]
  constructor
  · rintro ⟨datagram, header, hpack, -⟩
    by_contra hseq
    rw [packHeader_of_le (Nat.not_lt.mp hseq)] at hpack
    exact absurd hpack (by simp)
  · intro hseq
    exact ⟨_, _, packHeader_of_lt hseq hts hlen, rfl⟩

end ReferenceBus

/-- After `n` frames a client and a bus still send exactly as long as `n` fits the field of
the sequence number. -/
theorem still_sends_iff (opus : Opus ε δ) :
    (∀ peerId frames frame,
      (∃ message, ((Relay.RelayClient.new peerId).connect.sendAll frames).Sends frame message) ↔
        frames.length < 2 ^ 32) ∧
    ∀ frames frame,
      Along (fun s (f : Bytes × ℕ) => (ReferenceBus.sendFrame opus f.1 f.2).exec s)
        (ReferenceBus.Sendable opus) (ReferenceBus.new.start opus) frames →
      ((ReferenceBus.new.start opus).sendAll opus frames).Sendable opus frame →
      ((∃ datagram, ((ReferenceBus.new.start opus).sendAll opus frames).Sends opus frame.1
        frame.2 datagram) ↔ frames.length < 2 ^ 32) := by
  constructor
  · intro peerId frames frame
    obtain ⟨hopen, hseq⟩ := Relay.RelayClient.sendAll_counts peerId frames
    rw [Relay.RelayClient.exists_sends_iff hopen, hseq]
    omega
  · intro frames frame hframes hframe
    obtain ⟨hopen, hseq⟩ := ReferenceBus.sendAll_counts hframes
    rw [ReferenceBus.exists_sends_iff hopen hframe, hseq]
    omega

theorem still_sends_iff_after_one :
    (∃ datagram, ((ReferenceBus.new.start Station.copyingOpus).sendAll Station.copyingOpus
      [([8], 0)]).Sends Station.copyingOpus [9] 20 datagram) ↔
        [(([8], 0) : Bytes × ℕ)].length < 2 ^ 32 := by
  apply (still_sends_iff Station.copyingOpus).2 [([8], 0)] ([9], 20)
  · exact ⟨⟨[8], ⟨(), (), rfl, rfl⟩, by decide, by decide⟩, trivial⟩
  · exact ⟨[9], ⟨(), (), rfl, rfl⟩, by decide, by decide⟩

theorem relay_stops_at_limit :
    ¬ ∃ message, ((Relay.RelayClient.new (List.replicate 16 7)).connect.sendAll
      (List.replicate (2 ^ 32) [])).Sends [] message := by
  obtain ⟨hopen, hseq⟩ := Relay.RelayClient.sendAll_counts (List.replicate 16 7)
    (List.replicate (2 ^ 32) [])
  rw [Relay.RelayClient.exists_sends_iff hopen, hseq, List.length_replicate]
  omega

end Roomsync.Coordinator
