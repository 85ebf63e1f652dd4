import Roomsync.Coordinator.Receive
import Mathlib.Data.List.Forall2
import Mathlib.Data.List.TakeDrop
/-!
# Through the jitter buffer

The datagrams of one sender carry consecutive sequence numbers.  The receiver
releases their frames one behind, in the order in which they arrived: the sequence
number that it stores with a frame plays no part.
-/

namespace Roomsync.Coordinator

open Roomsync.Lib

variable {ε δ : Type} {opus : Opus ε δ}

/-- What Opus is known for: a decoder takes whatever an encoder has produced, and a
packet of one frame has at most 1275 bytes after its first. -/
structure Opus.Lawful (opus : Opus ε δ) : Prop where
  decode_encode : ∀ encoder encoder' pcmBytes payload,
    opus.encode encoder pcmBytes frameSamples = (some payload, encoder') →
    ∀ decoder, (opus.decode decoder payload frameSamples).1 ≠ none
  length_encode : ∀ encoder encoder' pcmBytes payload,
    opus.encode encoder pcmBytes frameSamples = (some payload, encoder') →
    payload.length ≤ 1276

/-! ## The datagrams that one bus sends -/

def IsFrame (opus : Opus ε δ) (k : ℕ) (datagram : Bytes) : Prop :=
  ∃ encoder encoder' pcmBytes payload tsMs header,
    opus.encode encoder pcmBytes frameSamples = (some payload, encoder') ∧
    packHeader k tsMs payload.length = some header ∧ datagram = header ++ payload

namespace Station

def sent (s : Station ε δ) : List Bytes :=
  match s.bus.sendSock with
  | some sock => sock.sent
  | none => []

structure Numbered (opus : Opus ε δ) (s : Station ε δ) : Prop where
  seq : ∀ sock, s.bus.sendSock = some sock → sock.isOpen = true → s.bus.seq = sock.sent.length
  frames : ∀ k datagram, s.sent[k]? = some datagram → IsFrame opus k datagram

namespace Numbered

variable {s : Station ε δ}

theorem started (opus : Opus ε δ) : Numbered opus (started opus) where
  seq := by
    intro sock hsock _
    rw [← Option.some.inj hsock]
    rfl
  frames := by
    intro k datagram h
    exact absurd h (by simp [sent, Station.started, ReferenceBus.start, multicastSender])

theorem of_eq (h : Numbered opus s) {t : Station ε δ} (hsock : t.bus.sendSock = s.bus.sendSock)
    (hseq : t.bus.seq = s.bus.seq) : Numbered opus t := by
  have hsent : t.sent = s.sent := by
    unfold sent
    rw [hsock]
  refine ⟨?_, ?_⟩
  · rw [hsock, hseq]
    exact h.seq
  · rw [hsent]
    exact h.frames

theorem stop (h : Numbered opus s) : Numbered opus { s with bus := s.bus.stop } := by
  have hsent : sent { s with bus := s.bus.stop } = s.sent := by
    unfold sent ReferenceBus.stop
    cases s.bus.sendSock <;> rfl
  refine ⟨?_, ?_⟩
  · intro sock hsock hopen
    simp only [ReferenceBus.stop, Option.map_eq_some_iff] at hsock
    obtain ⟨old, -, hclosed⟩ := hsock
    rw [← hclosed] at hopen
    exact absurd hopen (by simp [SendSocket.close])
  · rw [hsent]
    exact h.frames

theorem sendFrame (h : Numbered opus s) (pcmBytes : Bytes) (tsMs : ℤ) :
    Numbered opus { s with bus := (ReferenceBus.sendFrame opus pcmBytes tsMs).exec s.bus } := by
  rcases ReferenceBus.exec_sendFrame_cases opus s.bus pcmBytes tsMs with
    ⟨encoder, seq, hexec, hseq⟩ |
    ⟨sock, encoder, encoder', payload, header, hsock, hopen, hencode, hpack, hexec⟩
  · rw [hexec]
    refine ⟨?_, h.frames⟩
    intro sock hsock hopen
    exact (hseq sock hsock hopen).trans (h.seq sock hsock hopen)
  · have hnumber := h.seq sock hsock hopen
    have hsent : s.sent = sock.sent := by
      unfold sent
      rw [hsock]
    rw [hexec]
    refine ⟨?_, ?_⟩
    · intro sock' hsock' _
      rw [← Option.some.inj hsock', List.length_append, List.length_singleton, ← hnumber]
    · intro k datagram hk
      rcases getElem?_concat_eq_some_iff.mp hk with hold | ⟨hlast, hdatagram⟩
      · exact h.frames k datagram (hsent ▸ hold)
      · rw [hnumber, ← hlast] at hpack
        exact ⟨encoder, encoder', pcmBytes, payload, tsMs, header, hencode, hpack,
          hdatagram.symm⟩

theorem step (h : Numbered opus s) (hsound : Sound opus s) (e : Event) :
    Numbered opus (s.step opus e) := by
  cases e with
  | arrive datagram =>
      obtain ⟨recvSock, hbus⟩ := s.bus_arrive datagram
      apply h.of_eq <;> simp only [Station.step, hbus]
  | poll =>
      obtain ⟨recvSock, hbus⟩ := s.bus_poll
      apply h.of_eq <;> simp only [Station.step, hbus]
  | resume =>
      obtain ⟨decoder, jitterBuf, released, hbus⟩ := hsound.bus_resume
      apply h.of_eq <;> simp only [Station.step, hbus]
  | sendFrame pcmBytes tsMs => exact h.sendFrame pcmBytes tsMs
  | stop => exact h.stop

theorem after (opus : Opus ε δ) (events : List Event) : Numbered opus (after opus events) := by
  have hboth := List.foldlRecOn (motive := fun s => Sound opus s ∧ Numbered opus s) events
    (Station.step opus) ⟨sound_started opus, Numbered.started opus⟩
    fun s hs e _ => ⟨hs.1.step e, hs.2.step hs.1 e⟩
  exact hboth.2

end Numbered

end Station

/-! ## What the receiver makes of them -/

namespace IsFrame

variable {k : ℕ} {datagram : Bytes}

theorem hdrSize_le (h : IsFrame opus k datagram) : hdrSize ≤ datagram.length := by
  obtain ⟨encoder, encoder', pcmBytes, payload, tsMs, header, -, hpack, rfl⟩ := h
  rw [List.length_append, (headerOf_packHeader hpack payload).1]
  omega

theorem seq (h : IsFrame opus k datagram) : (headerOf datagram).seq = k := by
  obtain ⟨encoder, encoder', pcmBytes, payload, tsMs, header, -, hpack, rfl⟩ := h
  exact (headerOf_packHeader hpack payload).2.1

theorem take (h : IsFrame opus k datagram) (hopus : opus.Lawful) :
    datagram.take 4096 = datagram := by
  obtain ⟨encoder, encoder', pcmBytes, payload, tsMs, header, hencode, hpack, rfl⟩ := h
  have hheader := (headerOf_packHeader hpack payload).1
  have hpayload := hopus.length_encode encoder encoder' pcmBytes payload hencode
  apply List.take_of_length_le
  rw [List.length_append, hheader]
  unfold hdrSize
  omega

theorem decode (h : IsFrame opus k datagram) (hopus : opus.Lawful) (decoder : δ) :
    ∃ pcm decoder',
      opus.decode decoder (payloadOf datagram) frameSamples = (some pcm, decoder') := by
  obtain ⟨encoder, encoder', pcmBytes, payload, tsMs, header, hencode, hpack, rfl⟩ := h
  have haccepts := hopus.decode_encode encoder encoder' pcmBytes payload hencode decoder
  rw [payloadOf_packHeader hpack]
  rcases hdecode : opus.decode decoder payload frameSamples with ⟨_ | pcm, decoder'⟩
  · rw [hdecode] at haccepts
    exact absurd rfl haccepts
  · exact ⟨pcm, decoder', rfl⟩

end IsFrame

theorem map_take_frames (hopus : opus.Lawful) {order : List ℕ} {datagrams : List Bytes}
    (hframes : List.Forall₂ (IsFrame opus) order datagrams) :
    datagrams.map (List.take 4096) = datagrams := by
  induction hframes with
  | nil => rfl
  | cons hframe _ ih => rw [List.map_cons, hframe.take hopus, ih]

theorem seqs_decodeAll (hopus : opus.Lawful) {order : List ℕ} {datagrams : List Bytes}
    (hframes : List.Forall₂ (IsFrame opus) order datagrams) :
    (decodeAll opus datagrams).1.map Entry.seq = order := by
  have hfold : ∀ acc : List Entry × δ, (datagrams.foldl (decodeNext opus) acc).1.map Entry.seq =
      acc.1.map Entry.seq ++ order := by
    induction hframes with
    | nil => simp
    | cons hframe _ ih =>
        intro acc
        obtain ⟨pcm, decoder', hdecode⟩ := hframe.decode hopus acc.2
        rw [List.foldl_cons, ih, decodeNext_of_accepted hframe.hdrSize_le hdecode, hframe.seq,
          List.map_append, List.append_assoc]
        rfl
  exact hfold ([], opus.decoder)

namespace Station

/-- Whatever the schedule, what has been released are the first frames to arrive. -/
theorem seqs_released (hopus : opus.Lawful) {order : List ℕ} {receiving : List Event}
    (hframes : List.Forall₂ (IsFrame opus) order (after opus receiving).arrived) :
    (after opus receiving).bus.released.map Entry.seq =
      (order.take (after opus receiving).handled.length).dropLast := by
  have h := Sound.after opus receiving
  generalize after opus receiving = s at h hframes
  obtain ⟨sock, -, -, -, harrived⟩ := h.recvSock
  rw [map_take_frames hopus hframes] at harrived
  have hhandled : s.arrived.take s.handled.length = s.handled := by
    rw [harrived, List.take_left]
  have hdealt := List.forall₂_take s.handled.length hframes
  rw [hhandled] at hdealt
  rw [h.released, List.map_dropLast, seqs_decodeAll hopus hdealt]

def delivery (datagram : Bytes) : List Event := [.arrive datagram, .poll, .resume]

def Ready (s : Station ε δ) : Prop :=
  s.bus.running = true ∧ s.loop = .polling ∧
    ∃ sock, s.bus.recvSock = some sock ∧ sock.isOpen = true ∧ sock.queue = []

theorem deliver (hopus : opus.Lawful) {s : Station ε δ} (h : Sound opus s) (hready : s.Ready)
    {k : ℕ} {datagram : Bytes} (hframe : IsFrame opus k datagram) :
    ((delivery datagram).foldl (step opus) s).Ready ∧
    ((delivery datagram).foldl (step opus) s).handled = s.handled ++ [datagram] ∧
    ((delivery datagram).foldl (step opus) s).arrived = s.arrived ++ [datagram] := by
  obtain ⟨hrunning, hpolling, sock, hsock, hopen, hqueue⟩ := hready
  have hpolled : (s.arrive datagram).poll = { s with
      bus := { s.bus with recvSock := some { sock with queue := [] } }
      loop := .resuming (.ok datagram)
      arrived := s.arrived ++ [datagram] } := by
    simp only [Station.arrive, hsock, hopen, if_true, hqueue, List.nil_append, Station.poll,
      hpolling, RecvSocket.recvfrom, hframe.take hopus]
  have hsound := (h.arrive datagram).poll
  rw [hpolled] at hsound
  obtain ⟨pcm, decoder, hdecode⟩ := hframe.decode hopus (decodeAll opus s.handled).2
  obtain ⟨jitterBuf, -, hresume⟩ := resume_of_accepted hsound rfl hframe.hdrSize_le hdecode
  have hdelivered : (delivery datagram).foldl (step opus) s =
      ((s.arrive datagram).poll).resume opus := rfl
  rw [hdelivered, hpolled, hresume]
  exact ⟨⟨hrunning, if_pos hrunning, _, rfl, hopen, rfl⟩, rfl, rfl⟩

theorem deliver_all (hopus : opus.Lawful) {order : List ℕ} {datagrams : List Bytes}
    (hframes : List.Forall₂ (IsFrame opus) order datagrams) {s : Station ε δ}
    (h : Sound opus s) (hready : s.Ready) :
    ((datagrams.flatMap delivery).foldl (step opus) s).handled = s.handled ++ datagrams ∧
    ((datagrams.flatMap delivery).foldl (step opus) s).arrived = s.arrived ++ datagrams := by
  induction hframes generalizing s with
  | nil => simp
  | @cons k datagram order datagrams hframe _ ih =>
      obtain ⟨hnext, hhandled, harrived⟩ := deliver hopus h hready hframe
      have hsound : Sound opus ((delivery datagram).foldl (step opus) s) :=
        List.foldlRecOn _ (step opus) h fun _ hs e _ => hs.step e
      have htail := ih hsound hnext
      rw [hhandled, harrived, List.append_assoc, List.append_assoc] at htail
      rw [List.flatMap_cons, List.foldl_append]
      exact htail

theorem ready_started (opus : Opus ε δ) : (started opus).Ready :=
  ⟨rfl, rfl, multicastReceiver, rfl, rfl, rfl⟩

theorem isFrame_of_arrived (sending : List Event) {order : List ℕ} {arrived : List Bytes}
    (h : arrived.map some = order.map ((after opus sending).sent[·]?)) :
    List.Forall₂ (IsFrame opus) order arrived := by
  have heq : List.Forall₂ Eq (order.map ((after opus sending).sent[·]?)) (arrived.map some) := by
    rw [h]
    exact List.forall₂_refl _
  rw [List.forall₂_map_left_iff, List.forall₂_map_right_iff] at heq
  apply heq.imp
  intro k datagram hk
  exact (Numbered.after opus sending).frames k datagram hk

/-- All frames of a sender arrive, in some order.  Whenever they are dealt with, they
are released in the order of their numbers exactly when they arrived so, the last one
apart. -/
theorem released_in_order_iff (hopus : opus.Lawful) (sending : List Event) (order : List ℕ)
    (horder : order.Perm (List.range (after opus sending).sent.length)) :
    (∀ receiving : List Event,
      (after opus receiving).arrived.map some = order.map ((after opus sending).sent[·]?) →
      ((after opus receiving).bus.released.map Entry.seq).Pairwise (· < ·)) ↔
    order.dropLast.Pairwise (· < ·) := by
  constructor
  · intro hreleased
    let datagrams := order.map fun k => ((after opus sending).sent[k]?).getD []
    have harrive : datagrams.map some = order.map ((after opus sending).sent[·]?) := by
      rw [List.map_map]
      apply List.map_congr_left
      intro k hk
      have hlt : k < (after opus sending).sent.length :=
        List.mem_range.mp (horder.mem_iff.mp hk)
      simp [List.getElem?_eq_getElem hlt]
    have hframes := isFrame_of_arrived sending harrive
    obtain ⟨hhandled, harrived⟩ :=
      deliver_all hopus hframes (sound_started opus) (ready_started opus)
    change (after opus (datagrams.flatMap delivery)).handled = datagrams at hhandled
    change (after opus (datagrams.flatMap delivery)).arrived = datagrams at harrived
    have hpairwise := hreleased (datagrams.flatMap delivery) (by rw [harrived, harrive])
    have hall : order.take datagrams.length = order := by
      rw [← hframes.length_eq, List.take_length]
    rwa [seqs_released hopus (by rwa [harrived]), hhandled, hall] at hpairwise
  · intro hinOrder receiving harrived
    have hframes := isFrame_of_arrived sending harrived
    rw [seqs_released hopus hframes, List.dropLast_take_eq_take_dropLast]
    exact hinOrder.sublist (List.take_sublist _ _)

theorem copyingOpus_lawful : copyingOpus.Lawful where
  decode_encode := by
    intro encoder encoder' pcmBytes payload _ decoder
    simp [copyingOpus]
  length_encode := by
    intro encoder encoder' pcmBytes payload hencode
    have hpayload : pcmBytes.take 1276 = payload :=
      Option.some.inj (congrArg Prod.fst hencode)
    rw [← hpayload]
    exact List.length_take_le _ _

/-- The first two of three frames change places on the way. -/
theorem released_out_of_order :
    ¬ ∀ receiving : List Event,
      (after copyingOpus receiving).arrived.map some =
        [1, 0, 2].map ((after copyingOpus
          [.sendFrame [7] 0, .sendFrame [8] 20, .sendFrame [9] 40]).sent[·]?) →
      ((after copyingOpus receiving).bus.released.map Entry.seq).Pairwise (· < ·) := by
  intro hreleased
  have hpairwise := hreleased
    ([[0, 0, 0, 1, 0, 0, 0, 0, 0, 0, 0, 20, 0, 1, 8],
      [0, 0, 0, 0, 0, 0, 0, 0, 0, 0, 0, 0, 0, 1, 7],
      [0, 0, 0, 2, 0, 0, 0, 0, 0, 0, 0, 40, 0, 1, 9]].flatMap delivery)
    (by decide +kernel)
  exact absurd hpairwise (by decide +kernel)

theorem released_in_order_iff_copying :
    (∀ receiving : List Event,
      (after copyingOpus receiving).arrived.map some =
        [0, 2, 1].map ((after copyingOpus
          [.sendFrame [7] 0, .sendFrame [8] 20, .sendFrame [9] 40]).sent[·]?) →
      ((after copyingOpus receiving).bus.released.map Entry.seq).Pairwise (· < ·)) ↔
    [0, 2, 1].dropLast.Pairwise (· < ·) :=
  released_in_order_iff copyingOpus_lawful
    [.sendFrame [7] 0, .sendFrame [8] 20, .sendFrame [9] 40] [0, 2, 1] (by decide +kernel)

/-! ## Nothing is lost -/

/-- Well-formed datagrams, from whatever senders, and the entries that the decoder makes
of them one after the other. -/
inductive Decodes (opus : Opus ε δ) : δ → List Bytes → List Entry → Prop
  | nil (decoder : δ) : Decodes opus decoder [] []
  | cons {decoder decoder' : δ} {data pcm : Bytes} {datagrams : List Bytes}
      {entries : List Entry} (hlength : hdrSize ≤ data.length)
      (hdecode : opus.decode decoder (payloadOf data) frameSamples = (some pcm, decoder'))
      (hrest : Decodes opus decoder' datagrams entries) :
      Decodes opus decoder (data :: datagrams)
        (⟨(headerOf data).seq, (headerOf data).tsMs, pcm⟩ :: entries)

namespace Decodes

variable {decoder : δ} {datagrams : List Bytes} {entries : List Entry}

theorem length_eq (h : Decodes opus decoder datagrams entries) :
    entries.length = datagrams.length := by
  induction h with
  | nil decoder => rfl
  | cons _ _ _ ih => rw [List.length_cons, List.length_cons, ih]

theorem foldl_decodeNext (h : Decodes opus decoder datagrams entries) (before : List Entry) :
    (datagrams.foldl (decodeNext opus) (before, decoder)).1 = before ++ entries := by
  induction h generalizing before with
  | nil decoder => rw [List.foldl_nil, List.append_nil]
  | cons hlength hdecode _ ih =>
      rw [List.foldl_cons, decodeNext_of_accepted hlength hdecode, ih, List.append_assoc]
      rfl

theorem decodeAll_eq (h : Decodes opus opus.decoder datagrams entries) :
    (decodeAll opus datagrams).1 = entries := h.foldl_decodeNext []

end Decodes

theorem getLast?_toList_eq_drop {α : Type} (xs : List α) :
    xs.getLast?.toList = xs.drop (xs.length - 1) := by
  rcases List.eq_nil_or_concat xs with rfl | ⟨front, last, rfl⟩
  · rfl
  · rw [List.concat_eq_append, List.getLast?_concat, List.length_append, List.length_singleton,
      Nat.add_sub_cancel, List.drop_left]
    rfl

/-- Of the well-formed datagrams that the loop has dealt with, in the order of their
arrival, all entries but the newest ones have been released, each once, and those wait
in the buffer, which is never full. -/
theorem released_eq_take (events : List Event) {entries : List Entry}
    (h : Decodes opus opus.decoder (after opus events).handled entries) :
    (after opus events).handled <+: (after opus events).arrived.map (List.take 4096) ∧
    (after opus events).bus.released =
      entries.take ((after opus events).handled.length - (jitterFrames - 1)) ∧
    (after opus events).bus.jitterBuf.items =
      entries.drop ((after opus events).handled.length - (jitterFrames - 1)) ∧
    ∀ entry, ((after opus events).bus.jitterBuf.append entry).items =
      (after opus events).bus.jitterBuf.items ++ [entry] := by
  have hsound := Sound.after opus events
  have hlength := h.length_eq
  obtain ⟨sock, -, -, -, harrived⟩ := hsound.recvSock
  have hone : jitterFrames - 1 = 1 := rfl
  rw [hone, ← hlength]
  refine ⟨?_, ?_, ?_, ?_⟩
  · rw [harrived]
    exact List.prefix_append _ _
  · rw [hsound.released, h.decodeAll_eq, List.dropLast_eq_take]
  · rw [hsound.jitterBuf, h.decodeAll_eq, getLast?_toList_eq_drop]
  · intro entry
    apply Deque.items_append_of_lt
    have hheld := hsound.length_jitterBuf
    unfold jitterFrames
    omega

/-- A frame of each of two senders, and one more of the first. -/
theorem released_eq_take_three :
    (after copyingOpus ([List.replicate 14 0, [0, 0, 0, 9, 0, 0, 0, 0, 0, 0, 0, 0, 0, 1, 8],
        [0, 0, 0, 1, 0, 0, 0, 0, 0, 0, 0, 0, 0, 1, 7]].flatMap delivery)).bus.released =
      [⟨0, 0, []⟩, ⟨9, 0, [8]⟩] := by
  have hdecodes : Decodes copyingOpus copyingOpus.decoder
      (after copyingOpus ([List.replicate 14 0, [0, 0, 0, 9, 0, 0, 0, 0, 0, 0, 0, 0, 0, 1, 8],
        [0, 0, 0, 1, 0, 0, 0, 0, 0, 0, 0, 0, 0, 1, 7]].flatMap delivery)).handled
      [⟨0, 0, []⟩, ⟨9, 0, [8]⟩, ⟨1, 0, [7]⟩] := by
    apply Decodes.cons (by decide) rfl
    apply Decodes.cons (by decide) rfl
    apply Decodes.cons (by decide) rfl
    exact .nil ()
  exact (released_eq_take _ hdecodes).2.1

end Station

end Roomsync.Coordinator
