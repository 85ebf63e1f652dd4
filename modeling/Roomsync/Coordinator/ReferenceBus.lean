import Roomsync.Lib.Python
/-!
# The reference bus

`coordinator/reference_bus.py`: frames of speaker audio, Opus-coded and sent to the
room by UDP multicast, and the task that receives them through a short jitter
buffer.  The codec is `opuslib`'s; the bus is modelled over any codec.
-/

namespace Roomsync.Coordinator

open Roomsync.Lib

def frameMs : ℕ := 20
def sampleRate : ℕ := 8000
def frameSamples : ℕ := sampleRate * frameMs / 1000
def jitterFrames : ℕ := 2
def hdrSize : ℕ := 14

/-! ## The wire header -/

structure Header where
  seq : ℕ
  tsMs : ℕ
  payloadLen : ℕ

/-- `struct.pack("!IQH", ...)`; `none` is `struct.error`. -/
def packHeader (seq tsMs payloadLen : ℤ) : Option Bytes := do
  let seq ← packUnsigned 4 seq
  let tsMs ← packUnsigned 8 tsMs
  let payloadLen ← packUnsigned 2 payloadLen
  return seq ++ (tsMs ++ payloadLen)

def headerOf (data : Bytes) : Header where
  seq := ofBigEndian (data.take 4)
  tsMs := ofBigEndian ((data.drop 4).take 8)
  payloadLen := ofBigEndian ((data.drop 12).take 2)

/-- `struct.unpack_from("!IQH", data)`; `none` is `struct.error`. -/
def unpackHeader (data : Bytes) : Option Header :=
  if data.length < hdrSize then none else some (headerOf data)

/-! ## Codec and sockets -/

/-- `opuslib`: a new encoder and decoder, and what they do to their state and to a
frame of so many samples.  No result is `OpusError`. -/
structure Opus (ε δ : Type) where
  encoder : ε
  decoder : δ
  encode : ε → Bytes → ℕ → Option Bytes × ε
  decode : δ → Bytes → ℕ → Option Bytes × δ

structure SendSocket where
  isOpen : Bool
  /-- The datagrams that went out, oldest first. -/
  sent : List Bytes

structure RecvSocket where
  isOpen : Bool
  blocking : Bool
  /-- The datagrams that wait to be read, oldest first. -/
  queue : List Bytes

namespace RecvSocket

/-- `recvfrom(bufsize)` at this moment: what it returns or raises, `none` as long as
it blocks. -/
def recvfrom (sock : RecvSocket) (bufsize : ℕ) : Option (Except PyError Bytes) × RecvSocket :=
  if sock.isOpen then
    match sock.queue with
    | [] => (if sock.blocking then none else some (.error .blockingIOError), sock)
    | datagram :: rest => (some (.ok (datagram.take bufsize)), { sock with queue := rest })
  else (some (.error .osError), sock)

def close (sock : RecvSocket) : RecvSocket := { sock with isOpen := false }

end RecvSocket

def SendSocket.close (sock : SendSocket) : SendSocket := { sock with isOpen := false }

def multicastSender : SendSocket where
  isOpen := true
  sent := []

/-- The socket is set non-blocking. -/
def multicastReceiver : RecvSocket where
  isOpen := true
  blocking := false
  queue := []

/-! ## The bus -/

structure Entry where
  seq : ℕ
  tsMs : ℕ
  pcm : Bytes

structure ReferenceBus (ε δ : Type) where
  encoder : Option ε
  decoder : Option δ
  sendSock : Option SendSocket
  recvSock : Option RecvSocket
  seq : ℕ
  jitterBuf : Deque Entry (jitterFrames + 4)
  running : Bool
  /-- The entries whose `pcm` `on_frame` was called with, oldest first. -/
  released : List Entry

namespace ReferenceBus

variable {ε δ : Type}

def new : ReferenceBus ε δ where
  encoder := none
  decoder := none
  sendSock := none
  recvSock := none
  seq := 0
  jitterBuf := .empty
  running := false
  released := []

variable (opus : Opus ε δ)

/-- `start`, as far as the bus itself is concerned; it also creates the task. -/
def start (s : ReferenceBus ε δ) : ReferenceBus ε δ :=
  { s with
    encoder := some opus.encoder
    decoder := some opus.decoder
    sendSock := some multicastSender
    recvSock := some multicastReceiver
    running := true }

def stop (s : ReferenceBus ε δ) : ReferenceBus ε δ :=
  { s with
    running := false
    sendSock := s.sendSock.map SendSocket.close
    recvSock := s.recvSock.map RecvSocket.close }

def sendFrame (pcmBytes : Bytes) (tsMs : ℤ) : Method (ReferenceBus ε δ) Unit := do
  let s ← get
  match s.sendSock, s.encoder with
  | some sock, some encoder =>
      let (encoded, encoder) := opus.encode encoder pcmBytes frameSamples
      set { s with encoder := some encoder }
      let encoded ← Method.ofOption .opusError encoded
      let header ← Method.ofOption .structError (packHeader s.seq tsMs encoded.length)
      if sock.isOpen then
        set { s with
          encoder := some encoder
          seq := s.seq + 1
          sendSock := some { sock with sent := sock.sent ++ [header ++ encoded] } }
      else
        set { s with encoder := some encoder, seq := s.seq + 1 }
        throw .osError
  | _, _ => return ()

/-- `self._decoder.decode(payload, FRAME_SAMPLES)`. -/
def decode (payload : Bytes) : Method (ReferenceBus ε δ) Bytes := do
  let s ← get
  let decoder ← Method.ofOption .attributeError s.decoder
  let (pcm, decoder) := opus.decode decoder payload frameSamples
  set { s with decoder := some decoder }
  Method.ofOption .opusError pcm

def release : Method (ReferenceBus ε δ) Unit := do
  let s ← get
  let (entry, jitterBuf) ← Method.ofOption .indexError s.jitterBuf.popleft
  set { s with jitterBuf := jitterBuf, released := s.released ++ [entry] }

/-- The body of the receive loop from the moment `recvfrom` has returned. -/
def receive (data : Bytes) : Method (ReferenceBus ε δ) Unit := do
  if data.length < hdrSize then return ()
  else
    let header ← Method.ofOption .structError (unpackHeader data)
    let payload := (data.drop hdrSize).take header.payloadLen
    let pcm ← decode opus payload
    let s ← get
    let jitterBuf := s.jitterBuf.append ⟨header.seq, header.tsMs, pcm⟩
    set { s with jitterBuf := jitterBuf }
    if jitterBuf.items.length ≥ jitterFrames then release

end ReferenceBus

/-! ## What the loop body does

A datagram is too short, or the decoder rejects its payload, or its frame goes into
the jitter buffer and what was there comes out.
-/

def payloadOf (data : Bytes) : Bytes := (data.drop hdrSize).take (headerOf data).payloadLen

theorem packHeader_eq_some {seq tsMs payloadLen : ℤ} {header : Bytes}
    (h : packHeader seq tsMs payloadLen = some header) :
    ∃ seqField tsField lenField : Bytes, header = seqField ++ (tsField ++ lenField) ∧
      (seqField.length = 4 ∧ (ofBigEndian seqField : ℤ) = seq) ∧
      (tsField.length = 8 ∧ (ofBigEndian tsField : ℤ) = tsMs) ∧
      (lenField.length = 2 ∧ (ofBigEndian lenField : ℤ) = payloadLen) := by
  unfold packHeader at h
  simp only [Option.bind_eq_bind, Option.bind_eq_some_iff, Option.pure_def,
    Option.some.injEq] at h
  obtain ⟨seqField, hseq, tsField, hts, lenField, hlen, hheader⟩ := h
  exact ⟨seqField, tsField, lenField, hheader.symm, packUnsigned_eq_some hseq,
    packUnsigned_eq_some hts, packUnsigned_eq_some hlen⟩

theorem headerOf_packHeader {seq payloadLen : ℕ} {tsMs : ℤ} {header : Bytes}
    (h : packHeader seq tsMs payloadLen = some header) (payload : Bytes) :
    header.length = hdrSize ∧ (headerOf (header ++ payload)).seq = seq ∧
      (headerOf (header ++ payload)).payloadLen = payloadLen := by
  obtain ⟨seqField, tsField, lenField, rfl, ⟨hseqLength, hseqValue⟩, ⟨htsLength, -⟩,
    ⟨hlenLength, hlenValue⟩⟩ := packHeader_eq_some h
  have hdrop : (seqField ++ (tsField ++ lenField) ++ payload).drop 12 = lenField ++ payload := by
    rw [← List.append_assoc seqField, List.append_assoc (seqField ++ tsField)]
    apply List.drop_left'
    rw [List.length_append, hseqLength, htsLength]
  unfold headerOf
  refine ⟨?_, ?_, ?_⟩
  · simp only [List.length_append, hseqLength, htsLength, hlenLength]
    rfl
  · rw [List.append_assoc, List.take_left' hseqLength]
    exact_mod_cast hseqValue
  · simp only [hdrop, List.take_left' hlenLength]
    exact_mod_cast hlenValue

theorem payloadOf_packHeader {seq : ℕ} {tsMs : ℤ} {header payload : Bytes}
    (h : packHeader seq tsMs payload.length = some header) :
    payloadOf (header ++ payload) = payload := by
  obtain ⟨hlength, -, hpayloadLen⟩ := headerOf_packHeader h payload
  unfold payloadOf
  rw [hpayloadLen, List.drop_left' hlength, List.take_length]

namespace ReferenceBus

variable {ε δ : Type} {opus : Opus ε δ}

theorem call_receive_of_short {data : Bytes} (h : data.length < hdrSize)
    (s : ReferenceBus ε δ) : (receive opus data).call s = (.ok (), s) := by
  unfold receive
  rw [if_pos h]
  exact Method.call_pure () s

theorem call_decode {s : ReferenceBus ε δ} {d : δ} (h : s.decoder = some d) (payload : Bytes) :
    (decode opus payload).call s =
      ((Method.ofOption .opusError (opus.decode d payload frameSamples).1).call
        { s with decoder := some (opus.decode d payload frameSamples).2 }) := by
  unfold decode
  simp only [Method.call_bind, Method.call_get, h, Method.ofOption_some, Method.call_pure,
    Method.call_set]

theorem call_release {s : ReferenceBus ε δ} {entry : Entry}
    {jitterBuf : Deque Entry (jitterFrames + 4)}
    (h : s.jitterBuf.popleft = some (entry, jitterBuf)) :
    release.call s =
      (.ok (), { s with jitterBuf := jitterBuf, released := s.released ++ [entry] }) := by
  unfold release
  simp only [Method.call_bind, Method.call_get, h, Method.ofOption_some, Method.call_pure,
    Method.call_set]

theorem call_receive_of_rejected {s : ReferenceBus ε δ} {data : Bytes} {d d' : δ}
    (hlength : hdrSize ≤ data.length) (hdecoder : s.decoder = some d)
    (hdecode : opus.decode d (payloadOf data) frameSamples = (none, d')) :
    (receive opus data).call s = (.error .opusError, { s with decoder := some d' }) := by
  have hshort : ¬ data.length < hdrSize := by omega
  unfold payloadOf at hdecode
  unfold receive unpackHeader
  simp only [hshort, if_false, Method.call_bind, Method.ofOption_some, Method.call_pure,
    call_decode hdecoder, hdecode, Method.ofOption_none, Method.call_throw]

theorem call_receive_of_accepted {s : ReferenceBus ε δ} {data pcm : Bytes} {d d' : δ}
    (hlength : hdrSize ≤ data.length) (hdecoder : s.decoder = some d)
    (hdecode : opus.decode d (payloadOf data) frameSamples = (some pcm, d'))
    (hbuf : s.jitterBuf.items.length ≤ 1) :
    ∃ jitterBuf : Deque Entry (jitterFrames + 4),
      jitterBuf.items = [⟨(headerOf data).seq, (headerOf data).tsMs, pcm⟩] ∧
      (receive opus data).call s = (.ok (), { s with
        decoder := some d'
        jitterBuf := jitterBuf
        released := s.released ++ s.jitterBuf.items }) := by
  have hshort : ¬ data.length < hdrSize := by omega
  have hroom : s.jitterBuf.items.length < jitterFrames + 4 := by
    unfold jitterFrames
    omega
  generalize hentry : (⟨(headerOf data).seq, (headerOf data).tsMs, pcm⟩ : Entry) = entry
  have happend := Deque.items_append_of_lt hroom entry
  unfold payloadOf at hdecode
  unfold receive unpackHeader
  simp only [hshort, if_false, Method.call_bind, Method.ofOption_some, Method.call_pure,
    call_decode hdecoder, hdecode, Method.call_get, Method.call_set, hentry]
  cases hitems : s.jitterBuf.items with
  | nil =>
      rw [hitems, List.nil_append] at happend
      refine ⟨s.jitterBuf.append entry, happend, ?_⟩
      have hone : ¬ (s.jitterBuf.append entry).items.length ≥ jitterFrames := by
        rw [happend]
        simp [jitterFrames]
      rw [if_neg hone, List.append_nil]
      rfl
  | cons oldest rest =>
      have hrest : rest = [] := by
        rw [hitems, List.length_cons] at hbuf
        exact List.length_eq_zero_iff.mp (by omega)
      rw [hitems, hrest] at happend
      obtain ⟨jitterBuf, hpop, hleft⟩ := Deque.popleft_of_cons happend
      refine ⟨jitterBuf, hleft, ?_⟩
      have htwo : (s.jitterBuf.append entry).items.length ≥ jitterFrames := by
        rw [happend]
        simp [jitterFrames]
      rw [if_pos htwo, call_release hpop, hrest]

theorem call_sendFrame_of_none (opus : Opus ε δ) {s : ReferenceBus ε δ}
    (h : s.sendSock = none ∨ s.encoder = none) (pcmBytes : Bytes) (tsMs : ℤ) :
    (sendFrame opus pcmBytes tsMs).call s = (.ok (), s) := by
  unfold sendFrame
  rw [Method.call_bind, Method.call_get]
  rcases h with h | h
  · simp only [h, Method.call_pure]
  · cases hsock : s.sendSock <;> simp only [h, hsock, Method.call_pure]

section SendFrame

variable {s : ReferenceBus ε δ} {sock : SendSocket} {encoder encoder' : ε} {pcmBytes : Bytes}

theorem call_sendFrame_of_rejected (hsock : s.sendSock = some sock)
    (hencoder : s.encoder = some encoder)
    (hencode : opus.encode encoder pcmBytes frameSamples = (none, encoder')) (tsMs : ℤ) :
    (sendFrame opus pcmBytes tsMs).call s =
      (.error .opusError, { s with encoder := some encoder' }) := by
  unfold sendFrame
  simp only [Method.call_bind, Method.call_get, hsock, hencoder, hencode, Method.call_set,
    Method.ofOption_none, Method.call_throw]

theorem call_sendFrame_of_unpacked (hsock : s.sendSock = some sock)
    (hencoder : s.encoder = some encoder) {payload : Bytes}
    (hencode : opus.encode encoder pcmBytes frameSamples = (some payload, encoder')) {tsMs : ℤ}
    (hpack : packHeader s.seq tsMs payload.length = none) :
    (sendFrame opus pcmBytes tsMs).call s =
      (.error .structError, { s with encoder := some encoder' }) := by
  unfold sendFrame
  simp only [Method.call_bind, Method.call_get, hsock, hencoder, hencode, Method.call_set,
    Method.ofOption_some, Method.call_pure, hpack, Method.ofOption_none, Method.call_throw]

theorem call_sendFrame_of_closed (hsock : s.sendSock = some sock)
    (hencoder : s.encoder = some encoder) {payload header : Bytes}
    (hencode : opus.encode encoder pcmBytes frameSamples = (some payload, encoder')) {tsMs : ℤ}
    (hpack : packHeader s.seq tsMs payload.length = some header) (hclosed : sock.isOpen = false) :
    (sendFrame opus pcmBytes tsMs).call s =
      (.error .osError, { s with encoder := some encoder', seq := s.seq + 1 }) := by
  unfold sendFrame
  simp only [Method.call_bind, Method.call_get, hsock, hencoder, hencode, Method.call_set,
    Method.ofOption_some, Method.call_pure, hpack, hclosed]
  rfl

theorem call_sendFrame_of_open (hsock : s.sendSock = some sock)
    (hencoder : s.encoder = some encoder) {payload header : Bytes}
    (hencode : opus.encode encoder pcmBytes frameSamples = (some payload, encoder')) {tsMs : ℤ}
    (hpack : packHeader s.seq tsMs payload.length = some header) (hopen : sock.isOpen = true) :
    (sendFrame opus pcmBytes tsMs).call s = (.ok (), { s with
      encoder := some encoder'
      seq := s.seq + 1
      sendSock := some { sock with sent := sock.sent ++ [header ++ payload] } }) := by
  unfold sendFrame
  simp only [Method.call_bind, Method.call_get, hsock, hencoder, hencode, Method.call_set,
    Method.ofOption_some, Method.call_pure, hpack, hopen, if_true]

end SendFrame

theorem exec_sendFrame_cases (opus : Opus ε δ) (s : ReferenceBus ε δ) (pcmBytes : Bytes)
    (tsMs : ℤ) :
    (∃ encoder seq, (sendFrame opus pcmBytes tsMs).exec s =
        { s with encoder := encoder, seq := seq } ∧
      ∀ sock, s.sendSock = some sock → sock.isOpen = true → seq = s.seq) ∨
    (∃ sock encoder encoder' payload header, s.sendSock = some sock ∧ sock.isOpen = true ∧
      opus.encode encoder pcmBytes frameSamples = (some payload, encoder') ∧
      packHeader s.seq tsMs payload.length = some header ∧
      (sendFrame opus pcmBytes tsMs).exec s = { s with
        encoder := some encoder'
        seq := s.seq + 1
        sendSock := some { sock with sent := sock.sent ++ [header ++ payload] } }) := by
  rcases Option.eq_none_or_eq_some s.sendSock with hsock | ⟨sock, hsock⟩
  · left
    have hcall := call_sendFrame_of_none opus (.inl hsock) pcmBytes tsMs
    exact ⟨s.encoder, s.seq, Method.exec_of_call hcall, fun _ _ _ => rfl⟩
  rcases Option.eq_none_or_eq_some s.encoder with hencoder | ⟨encoder, hencoder⟩
  · left
    have hcall := call_sendFrame_of_none opus (.inr hencoder) pcmBytes tsMs
    exact ⟨s.encoder, s.seq, Method.exec_of_call hcall, fun _ _ _ => rfl⟩
  rcases hencode : opus.encode encoder pcmBytes frameSamples with ⟨_ | payload, encoder'⟩
  · left
    have hcall := call_sendFrame_of_rejected hsock hencoder hencode tsMs
    exact ⟨some encoder', s.seq, Method.exec_of_call hcall, fun _ _ _ => rfl⟩
  · cases hpack : packHeader s.seq tsMs payload.length with
    | none =>
        left
        have hcall := call_sendFrame_of_unpacked hsock hencoder hencode hpack
        exact ⟨some encoder', s.seq, Method.exec_of_call hcall, fun _ _ _ => rfl⟩
    | some header =>
        cases hopen : sock.isOpen with
        | true =>
            right
            have hcall := call_sendFrame_of_open hsock hencoder hencode hpack hopen
            exact ⟨sock, encoder, encoder', payload, header, hsock, hopen, hencode, hpack,
              Method.exec_of_call hcall⟩
        | false =>
            left
            have hcall := call_sendFrame_of_closed hsock hencoder hencode hpack hopen
            refine ⟨some encoder', s.seq + 1, Method.exec_of_call hcall, ?_⟩
            intro sock' hsock' hopen'
            rw [Option.some.inj (hsock.symm.trans hsock'), hopen'] at hopen
            exact absurd hopen (by decide)

theorem exec_sendFrame (opus : Opus ε δ) (s : ReferenceBus ε δ) (pcmBytes : Bytes)
    (tsMs : ℤ) : ∃ encoder seq sendSock, (sendFrame opus pcmBytes tsMs).exec s =
      { s with encoder := encoder, seq := seq, sendSock := sendSock } := by
  rcases exec_sendFrame_cases opus s pcmBytes tsMs with
    ⟨encoder, seq, hexec, -⟩ | ⟨sock, encoder, encoder', payload, header, -, -, -, -, hexec⟩
  · exact ⟨encoder, seq, s.sendSock, hexec⟩
  · exact ⟨_, _, _, hexec⟩

end ReferenceBus

/-! ## The receive task

The task and the rest of the program take turns at its one `await`.  The executor
polls the socket there, and the loop resumes with the outcome some time later.
-/

inductive RecvLoop
  | polling
  | resuming (outcome : Except PyError Bytes)
  /-- The loop has ended. -/
  | finished
  /-- The task has ended with an exception that the loop does not catch. -/
  | crashed (e : PyError)

structure Station (ε δ : Type) where
  bus : ReferenceBus ε δ
  loop : RecvLoop
  /-- The datagrams that reached the socket, oldest first. -/
  arrived : List Bytes
  /-- What `recvfrom` returned and the loop body has dealt with, oldest first. -/
  handled : List Bytes

inductive Event
  | arrive (datagram : Bytes)
  | poll
  | resume
  | sendFrame (pcmBytes : Bytes) (tsMs : ℤ)
  | stop

namespace Station

variable {ε δ : Type} (opus : Opus ε δ)

def started : Station ε δ where
  bus := ReferenceBus.new.start opus
  loop := .polling
  arrived := []
  handled := []

/-- A datagram waits in the queue of the socket, if there is an open one. -/
def arrive (s : Station ε δ) (datagram : Bytes) : Station ε δ :=
  match s.bus.recvSock with
  | some sock =>
      if sock.isOpen then
        { s with
          bus := { s.bus with
            recvSock := some { sock with queue := sock.queue ++ [datagram] } }
          arrived := s.arrived ++ [datagram] }
      else s
  | none => s

/-- `self._recv_sock.recvfrom(4096)`, in the executor. -/
def poll (s : Station ε δ) : Station ε δ :=
  match s.loop with
  | .polling =>
      match s.bus.recvSock with
      | some sock =>
          match sock.recvfrom 4096 with
          | (some outcome, sock) =>
              { s with bus := { s.bus with recvSock := some sock }, loop := .resuming outcome }
          | (none, _) => s
      | none => { s with loop := .resuming (.error .attributeError) }
  | _ => s

/-- The handler of the loop: `OSError` ends it, anything else ends the task. -/
def caught (e : PyError) : RecvLoop := if e.isOSError then .finished else .crashed e

/-- The loop goes on with the outcome, up to its next `await` or its end. -/
def resume (s : Station ε δ) : Station ε δ :=
  match s.loop with
  | .resuming (.error e) => { s with loop := caught e }
  | .resuming (.ok data) =>
      match (ReferenceBus.receive opus data).call s.bus with
      | (.ok _, bus) =>
          { s with
            bus := bus
            loop := if bus.running then .polling else .finished
            handled := s.handled ++ [data] }
      | (.error e, bus) =>
          { s with bus := bus, loop := caught e, handled := s.handled ++ [data] }
  | _ => s

def step (s : Station ε δ) : Event → Station ε δ
  | .arrive datagram => s.arrive datagram
  | .poll => s.poll
  | .resume => s.resume opus
  | .sendFrame pcmBytes tsMs =>
      { s with bus := (ReferenceBus.sendFrame opus pcmBytes tsMs).exec s.bus }
  | .stop => { s with bus := s.bus.stop }

def after (events : List Event) : Station ε δ := events.foldl (step opus) (started opus)

end Station

end Roomsync.Coordinator
