import Roomsync.Coordinator.ReferenceBus
import Roomsync.Lib.Run
/-!
# Receiving

What the receive loop has done by the time it has dealt with some datagrams: those
that the decoder accepts have gone through the jitter buffer, one behind.  The loop
goes on until a poll finds the queue empty or the decoder rejects a payload.
-/

namespace Roomsync.Coordinator

open Roomsync.Lib

variable {ε δ : Type} {opus : Opus ε δ}

def decodeNext (opus : Opus ε δ) (acc : List Entry × δ) (data : Bytes) : List Entry × δ :=
  if data.length < hdrSize then acc
  else
    match opus.decode acc.2 (payloadOf data) frameSamples with
    | (some pcm, d) => (acc.1 ++ [⟨(headerOf data).seq, (headerOf data).tsMs, pcm⟩], d)
    | (none, d) => (acc.1, d)

def decodeAll (opus : Opus ε δ) (datagrams : List Bytes) : List Entry × δ :=
  datagrams.foldl (decodeNext opus) ([], opus.decoder)

theorem decodeAll_concat (datagrams : List Bytes) (data : Bytes) :
    decodeAll opus (datagrams ++ [data]) = decodeNext opus (decodeAll opus datagrams) data := by
  unfold decodeAll
  rw [List.foldl_append]
  rfl

section DecodeNext

variable {acc : List Entry × δ} {data : Bytes}

theorem decodeNext_of_short (h : data.length < hdrSize) : decodeNext opus acc data = acc := by
  unfold decodeNext
  rw [if_pos h]

theorem decodeNext_of_rejected {d : δ} (hlength : hdrSize ≤ data.length)
    (hdecode : opus.decode acc.2 (payloadOf data) frameSamples = (none, d)) :
    decodeNext opus acc data = (acc.1, d) := by
  unfold decodeNext
  rw [if_neg (Nat.not_lt.mpr hlength), hdecode]

theorem decodeNext_of_accepted {d : δ} {pcm : Bytes} (hlength : hdrSize ≤ data.length)
    (hdecode : opus.decode acc.2 (payloadOf data) frameSamples = (some pcm, d)) :
    decodeNext opus acc data =
      (acc.1 ++ [⟨(headerOf data).seq, (headerOf data).tsMs, pcm⟩], d) := by
  unfold decodeNext
  rw [if_neg (Nat.not_lt.mpr hlength), hdecode]

end DecodeNext

namespace RecvLoop

/-- What the executor has taken off the queue and the loop has not seen. -/
def inFlight : RecvLoop → List Bytes
  | .resuming (.ok data) => [data]
  | _ => []

def IsAlive : RecvLoop → Prop
  | .polling => True
  | .resuming _ => True
  | .finished => False
  | .crashed _ => False

theorem inFlight_eq_nil {loop : RecvLoop} (h : ∀ outcome, loop ≠ .resuming outcome) :
    loop.inFlight = [] := by
  cases loop with
  | polling => rfl
  | resuming outcome => exact absurd rfl (h outcome)
  | finished => rfl
  | crashed e => rfl

end RecvLoop

theorem caught_ne_resuming (e : PyError) (outcome : Except PyError Bytes) :
    Station.caught e ≠ .resuming outcome := by
  unfold Station.caught
  split <;> simp

theorem awaiting_ne_resuming (running : Bool) (outcome : Except PyError Bytes) :
    (if running then RecvLoop.polling else .finished) ≠ .resuming outcome := by
  split <;> simp

namespace Station

structure Sound (opus : Opus ε δ) (s : Station ε δ) : Prop where
  decoder : s.bus.decoder = some (decodeAll opus s.handled).2
  released : s.bus.released = (decodeAll opus s.handled).1.dropLast
  jitterBuf : s.bus.jitterBuf.items = (decodeAll opus s.handled).1.getLast?.toList
  recvSock : ∃ sock, s.bus.recvSock = some sock ∧ sock.blocking = false ∧
    (s.bus.running = true → sock.isOpen = true) ∧
    s.arrived.map (List.take 4096) =
      s.handled ++ (s.loop.inFlight ++ sock.queue.map (List.take 4096))
  outcome : ∀ e, s.loop = .resuming (.error e) → s.bus.running = true → e = .blockingIOError

theorem sound_started (opus : Opus ε δ) : Sound opus (started opus) where
  decoder := rfl
  released := rfl
  jitterBuf := rfl
  recvSock := ⟨multicastReceiver, rfl, rfl, fun _ => rfl, rfl⟩
  outcome := by
    intro e h
    exact absurd h (by simp [started])

namespace Sound

variable {s : Station ε δ}

theorem length_jitterBuf (h : Sound opus s) : s.bus.jitterBuf.items.length ≤ 1 := by
  rw [h.jitterBuf]
  cases (decodeAll opus s.handled).1.getLast? with
  | none => exact Nat.zero_le 1
  | some entry => exact Nat.le_refl 1

theorem released_append (h : Sound opus s) :
    s.bus.released ++ s.bus.jitterBuf.items = (decodeAll opus s.handled).1 := by
  rw [h.released, h.jitterBuf]
  rcases List.eq_nil_or_concat (decodeAll opus s.handled).1 with hnil | ⟨front, last, hconcat⟩
  · rw [hnil]
    rfl
  · rw [hconcat, List.concat_eq_append, List.dropLast_concat, List.getLast?_concat]
    rfl

theorem arrive (h : Sound opus s) (datagram : Bytes) : Sound opus (s.arrive datagram) := by
  obtain ⟨sock, hsock, hblocking, hopen, harrived⟩ := h.recvSock
  unfold Station.arrive
  rw [hsock]
  by_cases hclosed : sock.isOpen = true
  · simp only [hclosed, if_true]
    refine ⟨h.decoder, h.released, h.jitterBuf, ?_, h.outcome⟩
    refine ⟨_, rfl, hblocking, fun _ => rfl, ?_⟩
    simp only [List.map_append, harrived, List.append_assoc]
  · simp only [hclosed]
    exact h

theorem poll (h : Sound opus s) : Sound opus s.poll := by
  obtain ⟨sock, hsock, hblocking, hopen, harrived⟩ := h.recvSock
  unfold Station.poll
  cases hloop : s.loop with
  | polling =>
      rw [hloop] at harrived
      simp only [hsock]
      unfold RecvSocket.recvfrom
      by_cases hisOpen : sock.isOpen = true
      · rw [if_pos hisOpen]
        cases hqueue : sock.queue with
        | nil =>
            rw [hqueue] at harrived
            simp only [hblocking]
            refine ⟨h.decoder, h.released, h.jitterBuf, ?_, ?_⟩
            · refine ⟨sock, rfl, hblocking, hopen, ?_⟩
              rw [hqueue]
              exact harrived
            · intro e he _
              cases he
              rfl
        | cons datagram rest =>
            rw [hqueue] at harrived
            refine ⟨h.decoder, h.released, h.jitterBuf, ?_, ?_⟩
            · exact ⟨_, rfl, hblocking, hopen, harrived⟩
            · intro e he
              exact absurd he (by simp)
      · rw [if_neg hisOpen]
        refine ⟨h.decoder, h.released, h.jitterBuf, ?_, ?_⟩
        · exact ⟨sock, rfl, hblocking, hopen, harrived⟩
        · intro e _ hrunning
          exact absurd (hopen hrunning) hisOpen
  | resuming outcome => exact h
  | finished => exact h
  | crashed e => exact h

end Sound

section Resume

variable {s : Station ε δ} {data : Bytes}

theorem resume_of_not_resuming (h : ∀ outcome, s.loop ≠ .resuming outcome) :
    s.resume opus = s := by
  unfold Station.resume
  cases hloop : s.loop with
  | polling => rfl
  | resuming outcome => exact absurd hloop (h outcome)
  | finished => rfl
  | crashed e => rfl

theorem resume_of_error {e : PyError} (hloop : s.loop = .resuming (.error e)) :
    s.resume opus = { s with loop := caught e } := by
  unfold Station.resume
  rw [hloop]

theorem resume_of_short (hloop : s.loop = .resuming (.ok data)) (hshort : data.length < hdrSize) :
    s.resume opus = { s with
      loop := if s.bus.running then .polling else .finished
      handled := s.handled ++ [data] } := by
  unfold Station.resume
  rw [hloop]
  simp only [ReferenceBus.call_receive_of_short hshort]

theorem resume_of_rejected (h : Sound opus s) (hloop : s.loop = .resuming (.ok data))
    (hlength : hdrSize ≤ data.length) {d : δ}
    (hdecode : opus.decode (decodeAll opus s.handled).2 (payloadOf data) frameSamples =
      (none, d)) :
    s.resume opus = { s with
      bus := { s.bus with decoder := some d }
      loop := .crashed .opusError
      handled := s.handled ++ [data] } := by
  unfold Station.resume
  rw [hloop]
  simp only [ReferenceBus.call_receive_of_rejected hlength h.decoder hdecode]
  rfl

theorem resume_of_accepted (h : Sound opus s) (hloop : s.loop = .resuming (.ok data))
    (hlength : hdrSize ≤ data.length) {d : δ} {pcm : Bytes}
    (hdecode : opus.decode (decodeAll opus s.handled).2 (payloadOf data) frameSamples =
      (some pcm, d)) :
    ∃ jitterBuf : Deque Entry (jitterFrames + 4),
      jitterBuf.items = [⟨(headerOf data).seq, (headerOf data).tsMs, pcm⟩] ∧
      s.resume opus = { s with
        bus := { s.bus with
          decoder := some d
          jitterBuf := jitterBuf
          released := (decodeAll opus s.handled).1 }
        loop := if s.bus.running then .polling else .finished
        handled := s.handled ++ [data] } := by
  obtain ⟨jitterBuf, hitems, hcall⟩ :=
    ReferenceBus.call_receive_of_accepted hlength h.decoder hdecode h.length_jitterBuf
  rw [h.released_append] at hcall
  refine ⟨jitterBuf, hitems, ?_⟩
  unfold Station.resume
  rw [hloop]
  simp only [hcall]

theorem bus_arrive (s : Station ε δ) (datagram : Bytes) :
    ∃ recvSock, (s.arrive datagram).bus = { s.bus with recvSock := recvSock } := by
  unfold Station.arrive
  split
  · split
    · exact ⟨_, rfl⟩
    · exact ⟨s.bus.recvSock, rfl⟩
  · exact ⟨s.bus.recvSock, rfl⟩

theorem bus_poll (s : Station ε δ) :
    ∃ recvSock, s.poll.bus = { s.bus with recvSock := recvSock } := by
  unfold Station.poll
  split
  · split
    · split
      · exact ⟨_, rfl⟩
      · exact ⟨s.bus.recvSock, rfl⟩
    · exact ⟨s.bus.recvSock, rfl⟩
  · exact ⟨s.bus.recvSock, rfl⟩

theorem Sound.resume_cases (h : Sound opus s) :
    (∀ outcome, s.loop ≠ .resuming outcome) ∧ s.resume opus = s ∨
    (∃ e, s.loop = .resuming (.error e) ∧ s.resume opus = { s with loop := caught e }) ∨
    (∃ data, s.loop = .resuming (.ok data) ∧ data.length < hdrSize ∧
      s.resume opus = { s with
        loop := if s.bus.running then .polling else .finished
        handled := s.handled ++ [data] }) ∨
    (∃ data d, s.loop = .resuming (.ok data) ∧ hdrSize ≤ data.length ∧
      opus.decode (decodeAll opus s.handled).2 (payloadOf data) frameSamples = (none, d) ∧
      s.resume opus = { s with
        bus := { s.bus with decoder := some d }
        loop := .crashed .opusError
        handled := s.handled ++ [data] }) ∨
    (∃ data d pcm, ∃ jitterBuf : Deque Entry (jitterFrames + 4),
      s.loop = .resuming (.ok data) ∧ hdrSize ≤ data.length ∧
      opus.decode (decodeAll opus s.handled).2 (payloadOf data) frameSamples = (some pcm, d) ∧
      jitterBuf.items = [⟨(headerOf data).seq, (headerOf data).tsMs, pcm⟩] ∧
      s.resume opus = { s with
        bus := { s.bus with
          decoder := some d
          jitterBuf := jitterBuf
          released := (decodeAll opus s.handled).1 }
        loop := if s.bus.running then .polling else .finished
        handled := s.handled ++ [data] }) := by
  by_cases hresuming : ∀ outcome, s.loop ≠ .resuming outcome
  · exact .inl ⟨hresuming, resume_of_not_resuming hresuming⟩
  right
  simp only [not_forall, not_not] at hresuming
  obtain ⟨outcome, hloop⟩ := hresuming
  cases outcome with
  | error e => exact .inl ⟨e, hloop, resume_of_error hloop⟩
  | ok data =>
      right
      by_cases hshort : data.length < hdrSize
      · exact .inl ⟨data, hloop, hshort, resume_of_short hloop hshort⟩
      right
      have hlength : hdrSize ≤ data.length := Nat.le_of_not_lt hshort
      rcases hdecode : opus.decode (decodeAll opus s.handled).2 (payloadOf data)
        frameSamples with ⟨_ | pcm, d⟩
      · exact .inl ⟨data, d, hloop, hlength, hdecode,
          resume_of_rejected h hloop hlength hdecode⟩
      · right
        obtain ⟨jitterBuf, hitems, hresume⟩ := resume_of_accepted h hloop hlength hdecode
        exact ⟨data, d, pcm, jitterBuf, hloop, hlength, hdecode, hitems, hresume⟩

theorem Sound.bus_resume (h : Sound opus s) :
    ∃ decoder jitterBuf released, (s.resume opus).bus =
      { s.bus with decoder := decoder, jitterBuf := jitterBuf, released := released } := by
  rcases h.resume_cases with ⟨-, hresume⟩ | ⟨e, -, hresume⟩ | ⟨data, -, -, hresume⟩ |
    ⟨data, d, -, -, -, hresume⟩ | ⟨data, d, pcm, jitterBuf, -, -, -, -, hresume⟩ <;>
  exact ⟨_, _, _, by rw [hresume]⟩

end Resume

namespace Sound

variable {s t : Station ε δ}

theorem of_handled (h : Sound opus s) {data : Bytes} (hloop : s.loop = .resuming (.ok data))
    (hhandled : t.handled = s.handled ++ [data]) (harrived : t.arrived = s.arrived)
    (hrecvSock : t.bus.recvSock = s.bus.recvSock) (hrunning : t.bus.running = s.bus.running)
    (hresumed : ∀ outcome, t.loop ≠ .resuming outcome)
    (hdecoder : t.bus.decoder = some (decodeAll opus t.handled).2)
    (hreleased : t.bus.released = (decodeAll opus t.handled).1.dropLast)
    (hjitterBuf : t.bus.jitterBuf.items = (decodeAll opus t.handled).1.getLast?.toList) :
    Sound opus t := by
  obtain ⟨sock, hsock, hblocking, hopen, hqueue⟩ := h.recvSock
  rw [hloop] at hqueue
  refine ⟨hdecoder, hreleased, hjitterBuf, ?_, fun e he => absurd he (hresumed _)⟩
  refine ⟨sock, hrecvSock.trans hsock, hblocking, fun hr => hopen (hrunning.symm.trans hr), ?_⟩
  rw [harrived, hqueue, hhandled, RecvLoop.inFlight_eq_nil hresumed, List.append_assoc]
  rfl

theorem resume (h : Sound opus s) : Sound opus (s.resume opus) := by
  rcases h.resume_cases with ⟨-, hresume⟩ | ⟨e, hloop, hresume⟩ |
    ⟨data, hloop, hshort, hresume⟩ | ⟨data, d, hloop, hlength, hdecode, hresume⟩ |
    ⟨data, d, pcm, jitterBuf, hloop, hlength, hdecode, hitems, hresume⟩
  · rw [hresume]
    exact h
  · obtain ⟨sock, hsock, hblocking, hopen, harrived⟩ := h.recvSock
    rw [hloop] at harrived
    rw [hresume]
    refine ⟨h.decoder, h.released, h.jitterBuf, ⟨sock, hsock, hblocking, hopen, ?_⟩, ?_⟩
    · simp only [RecvLoop.inFlight_eq_nil (caught_ne_resuming e)]
      exact harrived
    · intro e' he'
      exact absurd he' (caught_ne_resuming e _)
  · have hall : decodeAll opus (s.handled ++ [data]) = decodeAll opus s.handled := by
      rw [decodeAll_concat, decodeNext_of_short hshort]
    rw [hresume]
    refine h.of_handled hloop rfl rfl rfl rfl (awaiting_ne_resuming _) ?_ ?_ ?_
    · rw [hall]
      exact h.decoder
    · rw [hall]
      exact h.released
    · rw [hall]
      exact h.jitterBuf
  · have hall : decodeAll opus (s.handled ++ [data]) = ((decodeAll opus s.handled).1, d) := by
      rw [decodeAll_concat, decodeNext_of_rejected hlength hdecode]
    rw [hresume]
    refine h.of_handled hloop rfl rfl rfl rfl (by simp) ?_ ?_ ?_
    · rw [hall]
    · rw [hall]
      exact h.released
    · rw [hall]
      exact h.jitterBuf
  · have hall : decodeAll opus (s.handled ++ [data]) = ((decodeAll opus s.handled).1 ++
        [⟨(headerOf data).seq, (headerOf data).tsMs, pcm⟩], d) := by
      rw [decodeAll_concat, decodeNext_of_accepted hlength hdecode]
    rw [hresume]
    refine h.of_handled hloop rfl rfl rfl rfl (awaiting_ne_resuming _) ?_ ?_ ?_
    · rw [hall]
    · rw [hall, List.dropLast_concat]
    · rw [hall, List.getLast?_concat]
      exact hitems

theorem stop (h : Sound opus s) : Sound opus { s with bus := s.bus.stop } := by
  obtain ⟨sock, hsock, hblocking, -, harrived⟩ := h.recvSock
  have hstopped : s.bus.stop.running ≠ true := by
    simp [ReferenceBus.stop]
  refine ⟨h.decoder, h.released, h.jitterBuf, ?_, fun _ _ hr => absurd hr hstopped⟩
  refine ⟨sock.close, ?_, hblocking, fun hr => absurd hr hstopped, harrived⟩
  simp only [ReferenceBus.stop, hsock, Option.map_some]

theorem sendFrame (h : Sound opus s) (pcmBytes : Bytes) (tsMs : ℤ) :
    Sound opus { s with bus := (ReferenceBus.sendFrame opus pcmBytes tsMs).exec s.bus } := by
  obtain ⟨encoder, seq, sendSock, hexec⟩ :=
    ReferenceBus.exec_sendFrame opus s.bus pcmBytes tsMs
  rw [hexec]
  exact ⟨h.decoder, h.released, h.jitterBuf, h.recvSock, h.outcome⟩

theorem step (h : Sound opus s) (e : Event) : Sound opus (s.step opus e) := by
  cases e with
  | arrive datagram => exact h.arrive datagram
  | poll => exact h.poll
  | resume => exact h.resume
  | sendFrame pcmBytes tsMs => exact h.sendFrame pcmBytes tsMs
  | stop => exact h.stop

theorem after (opus : Opus ε δ) (events : List Event) : Sound opus (after opus events) :=
  List.foldlRecOn events (Station.step opus) (sound_started opus) fun _ hs e _ => hs.step e

end Sound

/-! ## The loop goes on -/

def Accepts (opus : Opus ε δ) (bus : ReferenceBus ε δ) (data : Bytes) : Prop :=
  ∃ d, bus.decoder = some d ∧ (opus.decode d (payloadOf data) frameSamples).1 ≠ none

/-- While the bus runs with an open socket its task goes on: what reached the socket
is dealt with or still waits, and whatever of it the decoder accepts has gone into
the jitter buffer. -/
def KeepsReceiving (opus : Opus ε δ) (s : Station ε δ) : Prop :=
  s.bus.running = true → ∀ sock, s.bus.recvSock = some sock → sock.isOpen = true →
    s.loop.IsAlive ∧
    s.arrived.map (List.take 4096) =
      s.handled ++ (s.loop.inFlight ++ sock.queue.map (List.take 4096)) ∧
    s.bus.released ++ s.bus.jitterBuf.items = (decodeAll opus s.handled).1

/-- The loop does not resume from a poll that found the queue empty, nor with a
payload that the decoder rejects. -/
def Undisturbed (opus : Opus ε δ) (s : Station ε δ) (e : Event) : Prop :=
  e = .resume → s.bus.running = true → s.loop ≠ .resuming (.error .blockingIOError) ∧
    ∀ data, s.loop = .resuming (.ok data) → data.length < hdrSize ∨ Accepts opus s.bus data

section Alive

variable {s : Station ε δ}

theorem Sound.keepsReceiving_iff (h : Sound opus s) :
    KeepsReceiving opus s ↔ (s.bus.running = true → s.loop.IsAlive) := by
  obtain ⟨sock, hsock, -, hopen, harrived⟩ := h.recvSock
  constructor
  · intro hkeeps hrunning
    exact (hkeeps hrunning sock hsock (hopen hrunning)).1
  · intro halive hrunning sock' hsock' _
    have heq : sock = sock' := Option.some.inj (hsock.symm.trans hsock')
    subst heq
    exact ⟨halive hrunning, harrived, h.released_append⟩

theorem Sound.accepts_iff (h : Sound opus s) (data : Bytes) :
    Accepts opus s.bus data ↔
      (opus.decode (decodeAll opus s.handled).2 (payloadOf data) frameSamples).1 ≠ none := by
  constructor
  · intro haccepts
    obtain ⟨d, hd, hdecode⟩ := haccepts
    rw [Option.some.inj (h.decoder.symm.trans hd)]
    exact hdecode
  · intro hdecode
    exact ⟨_, h.decoder, hdecode⟩

theorem isAlive_poll (h : s.loop.IsAlive) : s.poll.loop.IsAlive := by
  unfold Station.poll
  cases hloop : s.loop with
  | polling =>
      cases hsock : s.bus.recvSock with
      | none => trivial
      | some sock =>
          dsimp only
          split
          · trivial
          · rw [hloop]
            trivial
  | resuming outcome =>
      dsimp only
      rw [hloop]
      trivial
  | finished => exact absurd h (by rw [hloop]; exact id)
  | crashed e => exact absurd h (by rw [hloop]; exact id)

theorem loop_arrive (datagram : Bytes) : (s.arrive datagram).loop = s.loop := by
  unfold Station.arrive
  split
  · split <;> rfl
  · rfl

theorem isAlive_awaiting {running : Bool} (h : running = true) :
    (if running then RecvLoop.polling else .finished).IsAlive := by
  rw [if_pos h]
  trivial

theorem Sound.resume_alive_iff (h : Sound opus s) (hrunning : s.bus.running = true)
    (halive : s.loop.IsAlive) :
    (s.resume opus).loop.IsAlive ↔ Undisturbed opus s .resume := by
  unfold Undisturbed
  simp only [hrunning, true_imp_iff]
  rcases h.resume_cases with ⟨hresuming, hresume⟩ | ⟨e, hloop, hresume⟩ |
    ⟨data, hloop, hshort, hresume⟩ | ⟨data, d, hloop, hlength, hdecode, hresume⟩ |
    ⟨data, d, pcm, jitterBuf, hloop, hlength, hdecode, -, hresume⟩
  · rw [hresume]
    simp [halive, hresuming]
  · rw [hresume, hloop, h.outcome e hloop hrunning]
    simp [caught, PyError.isOSError, RecvLoop.IsAlive]
  · rw [hresume, hloop]
    simp [isAlive_awaiting hrunning, hshort]
  · have hshort : ¬ data.length < hdrSize := by omega
    rw [hresume, hloop]
    simp [h.accepts_iff, hdecode, hshort, RecvLoop.IsAlive]
  · rw [hresume, hloop]
    simp [h.accepts_iff, hdecode, isAlive_awaiting hrunning]

theorem isAlive_step_of_ne_resume {e : Event} (he : e ≠ .resume)
    (halive : s.bus.running = true → s.loop.IsAlive)
    (hrunning : (s.step opus e).bus.running = true) : (s.step opus e).loop.IsAlive := by
  cases e with
  | arrive datagram =>
      obtain ⟨recvSock, hbus⟩ := s.bus_arrive datagram
      simp only [step, hbus] at hrunning
      simp only [step, loop_arrive]
      exact halive hrunning
  | poll =>
      obtain ⟨recvSock, hbus⟩ := s.bus_poll
      simp only [step, hbus] at hrunning
      exact isAlive_poll (halive hrunning)
  | resume => exact absurd rfl he
  | sendFrame pcmBytes tsMs =>
      obtain ⟨encoder, seq, sendSock, hexec⟩ :=
        ReferenceBus.exec_sendFrame opus s.bus pcmBytes tsMs
      simp only [step, hexec] at hrunning
      exact halive hrunning
  | stop => exact absurd hrunning (by simp [step, ReferenceBus.stop])

theorem Sound.keepsReceiving_step (h : Sound opus s) (hkeeps : KeepsReceiving opus s)
    (e : Event) : KeepsReceiving opus (s.step opus e) ↔ Undisturbed opus s e := by
  rw [(h.step e).keepsReceiving_iff]
  have halive := h.keepsReceiving_iff.mp hkeeps
  by_cases he : e = .resume
  · subst he
    obtain ⟨decoder, jitterBuf, released, hbus⟩ := h.bus_resume
    simp only [Station.step, hbus]
    by_cases hrunning : s.bus.running = true
    · simp only [hrunning, true_imp_iff]
      exact h.resume_alive_iff hrunning (halive hrunning)
    · simp [Undisturbed, hrunning]
  · constructor
    · intro _ hresume
      exact absurd hresume he
    · intro _ hrunning
      exact isAlive_step_of_ne_resume he halive hrunning

end Alive

/-- The bus keeps receiving, whatever the schedule, exactly when no poll that the
loop resumes from found the queue empty and the decoder rejects nothing. -/
theorem keepsReceiving_iff_undisturbed (opus : Opus ε δ) (events : List Event) :
    (∀ n, KeepsReceiving opus (after opus (events.take n))) ↔
      Along (step opus) (Undisturbed opus) (started opus) events := by
  apply forall_take_iff_along (K := Sound opus)
  · intro s e hs
    exact hs.step e
  · intro s e hs hkeeps
    exact hs.keepsReceiving_step hkeeps e
  · exact sound_started opus
  · rw [(sound_started opus).keepsReceiving_iff]
    exact fun _ => trivial

/-- A codec that copies, and takes any payload. -/
def copyingOpus : Opus Unit Unit where
  encoder := ()
  decoder := ()
  encode _ pcmBytes _ := (some (pcmBytes.take 1276), ())
  decode _ payload _ := (some payload, ())

theorem keepsReceiving_false_after_empty_poll :
    ¬ ∀ n, KeepsReceiving copyingOpus (after copyingOpus ([.poll, .resume].take n)) := by
  intro hkeeps
  exact (hkeeps 2 rfl multicastReceiver rfl rfl).1

/-! ## Malformed datagrams -/

/-- A header, a payload of at least the length that it declares, and a decoder that
accepts it. -/
def WellFormed (opus : Opus ε δ) (bus : ReferenceBus ε δ) (data : Bytes) : Prop :=
  hdrSize ≤ data.length ∧ (headerOf data).payloadLen ≤ data.length - hdrSize ∧
    Accepts opus bus data

/-- The loop goes on to the next datagram, unless it was stopped meanwhile, and drops
this one if it is not a well-formed frame. -/
def Withstands (opus : Opus ε δ) (s : Station ε δ) (data : Bytes) : Prop :=
  (s.resume opus).loop = (if s.bus.running then .polling else .finished) ∧
  (¬ WellFormed opus s.bus data →
    (s.resume opus).bus.jitterBuf = s.bus.jitterBuf ∧
    (s.resume opus).bus.released = s.bus.released)

theorem Sound.jitterBuf_or_released_ne {s t : Station ε δ} (h : Sound opus s) {entry : Entry}
    (hitems : t.bus.jitterBuf.items = [entry])
    (hreleased : t.bus.released = (decodeAll opus s.handled).1) :
    ¬ (t.bus.jitterBuf = s.bus.jitterBuf ∧ t.bus.released = s.bus.released) := by
  intro hsame
  have hkept := h.released_append
  rw [← hsame.1, ← hsame.2, hreleased, hitems] at hkept
  have hlength := congrArg List.length hkept
  rw [List.length_append, List.length_singleton] at hlength
  omega

/-- A received byte string does no harm exactly when it is shorter than the header or
a well-formed frame: the length field is not checked, and a payload that the decoder
rejects ends the task. -/
theorem withstands_iff (opus : Opus ε δ) (events : List Event) (data : Bytes)
    (hloop : (after opus events).loop = .resuming (.ok data)) :
    Withstands opus (after opus events) data ↔
      data.length < hdrSize ∨ WellFormed opus (after opus events).bus data := by
  have h := Sound.after opus events
  generalize after opus events = s at h hloop
  unfold Withstands
  by_cases hshort : data.length < hdrSize
  · simp [resume_of_short hloop hshort, hshort]
  have hlength : hdrSize ≤ data.length := Nat.le_of_not_lt hshort
  simp only [hshort, false_or]
  rcases hdecode : opus.decode (decodeAll opus s.handled).2 (payloadOf data)
    frameSamples with ⟨_ | pcm, d⟩
  · have hrejects : ¬ WellFormed opus s.bus data := by
      intro hwell
      exact (h.accepts_iff data).mp hwell.2.2 (by rw [hdecode])
    rw [resume_of_rejected h hloop hlength hdecode]
    simp only [hrejects, iff_false, not_and]
    intro hgoesOn
    exact absurd hgoesOn.symm (by split <;> simp)
  · obtain ⟨jitterBuf, hitems, hresume⟩ := resume_of_accepted h hloop hlength hdecode
    constructor
    · intro hwithstands
      by_contra hnot
      apply h.jitterBuf_or_released_ne _ _ (hwithstands.2 hnot)
      · exact ⟨(headerOf data).seq, (headerOf data).tsMs, pcm⟩
      · rw [hresume]
        exact hitems
      · rw [hresume]
    · intro hwell
      refine ⟨?_, fun hnot => absurd hwell hnot⟩
      rw [hresume]

theorem withstands_false_of_long_length_field :
    ¬ Withstands copyingOpus
      (after copyingOpus [.arrive (List.replicate 14 1), .poll]) (List.replicate 14 1) := by
  intro hwithstands
  have hreleased := hwithstands.2 (by
    intro hwell
    exact absurd hwell.2.1 (by decide +kernel))
  exact absurd (congrArg (fun d => d.items.length) hreleased.1) (by decide +kernel)

theorem withstands_iff_copying :
    Withstands copyingOpus (after copyingOpus [.arrive (List.replicate 14 0), .poll])
        (List.replicate 14 0) ↔
      (List.replicate 14 (0 : UInt8)).length < hdrSize ∨
        WellFormed copyingOpus
          (after copyingOpus [.arrive (List.replicate 14 0), .poll]).bus
          (List.replicate 14 0) :=
  withstands_iff copyingOpus [.arrive (List.replicate 14 0), .poll] _ rfl

end Station

end Roomsync.Coordinator
