import Roomsync.Coordinator.Jitter
import Mathlib.Logic.Function.Basic
/-!
# The multicast group

All buses of a room on one network.  What one of them sends is delivered to any of them, itself
included, any number of times or not at all, and in any order.
-/

namespace Roomsync.Coordinator

open Roomsync.Lib

variable {ε δ : Type} {opus : Opus ε δ}

/-! ## One station -/

def Carries (opus : Opus ε δ) (k : ℕ) (pcmBytes : Bytes) (tsMs : ℤ) (datagram : Bytes) : Prop :=
  ∃ encoder encoder' payload header,
    opus.encode encoder pcmBytes frameSamples = (some payload, encoder') ∧
    packHeader k tsMs payload.length = some header ∧ datagram = header ++ payload

theorem tsMs_headerOf_packHeader {seq tsMs payloadLen : ℤ} {header : Bytes}
    (h : packHeader seq tsMs payloadLen = some header) (payload : Bytes) :
    ((headerOf (header ++ payload)).tsMs : ℤ) = tsMs := by
  obtain ⟨seqField, tsField, lenField, rfl, ⟨hseqLength, -⟩, ⟨htsLength, htsValue⟩, -⟩ :=
    packHeader_eq_some h
  unfold headerOf
  dsimp only
  rw [List.append_assoc, List.append_assoc, List.drop_left' hseqLength,
    List.take_left' htsLength]
  exact htsValue

namespace Carries

variable {k : ℕ} {pcmBytes datagram : Bytes} {tsMs : ℤ}

theorem isFrame (h : Carries opus k pcmBytes tsMs datagram) : IsFrame opus k datagram := by
  obtain ⟨encoder, encoder', payload, header, hencode, hpack, hdatagram⟩ := h
  exact ⟨encoder, encoder', pcmBytes, payload, tsMs, header, hencode, hpack, hdatagram⟩

theorem tsMs_eq (h : Carries opus k pcmBytes tsMs datagram) :
    ((headerOf datagram).tsMs : ℤ) = tsMs := by
  obtain ⟨encoder, encoder', payload, header, -, hpack, rfl⟩ := h
  exact tsMs_headerOf_packHeader hpack payload

theorem encode (h : Carries opus k pcmBytes tsMs datagram) :
    ∃ encoder encoder', opus.encode encoder pcmBytes frameSamples =
      (some (payloadOf datagram), encoder') := by
  obtain ⟨encoder, encoder', payload, header, hencode, hpack, rfl⟩ := h
  rw [payloadOf_packHeader hpack]
  exact ⟨encoder, encoder', hencode⟩

end Carries

namespace Station

variable {s : Station ε δ}

theorem Sound.sent_step (h : Sound opus s) (e : Event) :
    (s.step opus e).sent = s.sent ∨ ∃ k pcmBytes tsMs datagram, e = .sendFrame pcmBytes tsMs ∧
      Carries opus k pcmBytes tsMs datagram ∧ (s.step opus e).sent = s.sent ++ [datagram] := by
  cases e with
  | arrive datagram =>
      obtain ⟨recvSock, hbus⟩ := s.bus_arrive datagram
      left
      simp only [Station.step, sent, hbus]
  | poll =>
      obtain ⟨recvSock, hbus⟩ := s.bus_poll
      left
      simp only [Station.step, sent, hbus]
  | resume =>
      obtain ⟨decoder, jitterBuf, released, hbus⟩ := h.bus_resume
      left
      simp only [Station.step, sent, hbus]
  | stop =>
      left
      simp only [Station.step, sent, ReferenceBus.stop]
      cases s.bus.sendSock <;> rfl
  | sendFrame pcmBytes tsMs =>
      simp only [Station.step, sent]
      rcases ReferenceBus.exec_sendFrame_cases opus s.bus pcmBytes tsMs with
        ⟨encoder, seq, hexec, -⟩ |
        ⟨sock, encoder, encoder', payload, header, hsock, -, hencode, hpack, hexec⟩
      · left
        rw [hexec]
      · right
        refine ⟨s.bus.seq, pcmBytes, tsMs, header ++ payload, rfl,
          ⟨encoder, encoder', payload, header, hencode, hpack, rfl⟩, ?_⟩
        rw [hexec, hsock]

theorem Sound.arrived_step (h : Sound opus s) (e : Event) :
    (s.step opus e).arrived = s.arrived ∨
      ∃ datagram, e = .arrive datagram ∧ (s.step opus e).arrived = s.arrived ++ [datagram] := by
  cases e with
  | arrive datagram =>
      simp only [Station.step, Station.arrive]
      split
      · split
        · exact .inr ⟨datagram, rfl, rfl⟩
        · exact .inl rfl
      · exact .inl rfl
  | poll =>
      left
      simp only [Station.step, Station.poll]
      split
      · split
        · split <;> rfl
        · rfl
      · rfl
  | resume =>
      left
      rcases h.resume_cases with ⟨-, hresume⟩ | ⟨e, -, hresume⟩ | ⟨data, -, -, hresume⟩ |
        ⟨data, d, -, -, -, hresume⟩ | ⟨data, d, pcm, jitterBuf, -, -, -, -, hresume⟩ <;>
      simp only [Station.step, hresume]
  | stop => exact .inl rfl
  | sendFrame pcmBytes tsMs => exact .inl rfl

/-- The task has not ended with an exception, and is not about to. -/
structure Unharmed (s : Station ε δ) : Prop where
  loop : ∀ e, s.loop ≠ .crashed e
  outcome : ∀ e, s.loop = .resuming (.error e) → e.isOSError = true

theorem Unharmed.of_loop (h : s.Unharmed) {t : Station ε δ} (hloop : t.loop = s.loop) :
    t.Unharmed := by
  refine ⟨fun e => ?_, fun e => ?_⟩
  · rw [hloop]
    exact h.loop e
  · rw [hloop]
    exact h.outcome e

theorem unharmed_of_awaiting {t : Station ε δ} {running : Bool}
    (hloop : t.loop = if running then .polling else .finished) : t.Unharmed := by
  refine ⟨fun e => ?_, fun e => ?_⟩ <;> rw [hloop] <;> cases running <;> nofun

theorem isOSError_of_recvfrom {sock : RecvSocket} {bufsize : ℕ} {e : PyError}
    (h : (sock.recvfrom bufsize).1 = some (.error e)) : e.isOSError = true := by
  obtain ⟨isOpen, blocking, queue⟩ := sock
  cases isOpen with
  | false =>
      change some (Except.error PyError.osError) = some (Except.error e) at h
      cases h
      rfl
  | true =>
      cases queue with
      | nil =>
          cases blocking with
          | false =>
              change some (Except.error PyError.blockingIOError) = some (Except.error e) at h
              cases h
              rfl
          | true => exact absurd h nofun
      | cons datagram rest => exact absurd h nofun

theorem Unharmed.poll (h : s.Unharmed) (hsound : Sound opus s) : s.poll.Unharmed := by
  obtain ⟨sock, hsock, -⟩ := hsound.recvSock
  unfold Station.poll
  cases hloop : s.loop with
  | polling =>
      dsimp only
      rw [hsock]
      dsimp only
      rcases hrecv : sock.recvfrom 4096 with ⟨_ | outcome, sock'⟩
      · exact h
      · refine ⟨nofun, fun e he => ?_⟩
        obtain rfl : outcome = .error e := RecvLoop.resuming.inj he
        exact isOSError_of_recvfrom (congrArg Prod.fst hrecv)
  | resuming outcome => exact h
  | finished => exact h
  | crashed e => exact h

/-- Only a datagram that the decoder rejects can do harm. -/
theorem Unharmed.step (h : s.Unharmed) (hsound : Sound opus s)
    (haccepts : ∀ data, s.loop = .resuming (.ok data) → hdrSize ≤ data.length →
      (opus.decode (decodeAll opus s.handled).2 (payloadOf data) frameSamples).1 ≠ none)
    (e : Event) : (s.step opus e).Unharmed := by
  cases e with
  | arrive datagram => exact h.of_loop (loop_arrive datagram)
  | poll => exact h.poll hsound
  | stop => exact h.of_loop rfl
  | sendFrame pcmBytes tsMs => exact h.of_loop rfl
  | resume =>
      rcases hsound.resume_cases with ⟨-, hresume⟩ | ⟨e, hloop, hresume⟩ |
        ⟨data, -, -, hresume⟩ | ⟨data, d, hloop, hlength, hdecode, -⟩ |
        ⟨data, d, pcm, jitterBuf, -, -, -, -, hresume⟩
      · exact h.of_loop (congrArg Station.loop hresume)
      · have hcaught : caught e = if false then .polling else .finished := by
          unfold caught
          rw [if_pos (h.outcome e hloop)]
          rfl
        exact unharmed_of_awaiting ((congrArg Station.loop hresume).trans hcaught)
      · exact unharmed_of_awaiting (congrArg Station.loop hresume)
      · exact absurd (congrArg Prod.fst hdecode) (haccepts data hloop hlength)
      · exact unharmed_of_awaiting (congrArg Station.loop hresume)

end Station

structure DecodedFrom (opus : Opus ε δ) (entry : Entry) (data : Bytes) : Prop where
  seq : entry.seq = (headerOf data).seq
  tsMs : entry.tsMs = (headerOf data).tsMs
  pcm : ∃ decoder decoder', opus.decode decoder (payloadOf data) frameSamples =
    (some entry.pcm, decoder')

theorem forall₂_decodeAll (hopus : opus.Lawful) {datagrams : List Bytes}
    (hframes : ∀ data ∈ datagrams, ∃ k, IsFrame opus k data) :
    List.Forall₂ (DecodedFrom opus) (decodeAll opus datagrams).1 datagrams := by
  induction datagrams using List.reverseRecOn with
  | nil => exact .nil
  | append_singleton datagrams data ih =>
      have hbefore := ih fun d hd => hframes d (List.mem_append_left _ hd)
      obtain ⟨k, hframe⟩ := hframes data (List.mem_append_right _ (List.mem_singleton_self data))
      obtain ⟨pcm, decoder, hdecode⟩ := hframe.decode hopus (decodeAll opus datagrams).2
      rw [decodeAll_concat, decodeNext_of_accepted hframe.hdrSize_le hdecode]
      exact List.rel_append hbefore (.cons ⟨rfl, rfl, _, _, hdecode⟩ .nil)

/-! ## The group -/

variable {ι : Type*}

/-- A member of the group does something, or the network delivers the `k`-th datagram of one to
another. -/
inductive GroupEvent (ι : Type*) where
  | sendFrame (i : ι) (pcmBytes : Bytes) (tsMs : ℤ)
  | deliver (sender : ι) (k : ℕ) (receiver : ι)
  | poll (i : ι)
  | resume (i : ι)
  | stop (i : ι)

def GroupEvent.at (group : ι → Station ε δ) : GroupEvent ι → Option (ι × Event)
  | .sendFrame i pcmBytes tsMs => some (i, .sendFrame pcmBytes tsMs)
  | .deliver j k i => (group j).sent[k]?.map fun datagram => (i, .arrive datagram)
  | .poll i => some (i, .poll)
  | .resume i => some (i, .resume)
  | .stop i => some (i, .stop)

def groupStep [DecidableEq ι] (opus : Opus ε δ) (group : ι → Station ε δ) (e : GroupEvent ι) :
    ι → Station ε δ :=
  match e.at group with
  | none => group
  | some (i, e) => Function.update group i ((group i).step opus e)

def groupAfter [DecidableEq ι] (opus : Opus ε δ) (events : List (GroupEvent ι)) :
    ι → Station ε δ :=
  events.foldl (groupStep opus) fun _ => Station.started opus

/-- The frame that the datagram carries was given to a member of the group, and the entry has
its number, its time stamp and what the codec makes of its samples. -/
def Heard (opus : Opus ε δ) (events : List (GroupEvent ι)) (group : ι → Station ε δ)
    (entry : Entry) (datagram : Bytes) : Prop :=
  ∃ j pcmBytes tsMs, GroupEvent.sendFrame j pcmBytes tsMs ∈ events ∧
    (group j).sent[entry.seq]? = some datagram ∧ (entry.tsMs : ℤ) = tsMs ∧
    ∃ encoder encoder' payload decoder decoder',
      opus.encode encoder pcmBytes frameSamples = (some payload, encoder') ∧
      opus.decode decoder payload frameSamples = (some entry.pcm, decoder')

def onNetwork (group : ι → Station ε δ) : Set Bytes := {datagram | ∃ j, datagram ∈ (group j).sent}

structure MemberSound (opus : Opus ε δ) (events : List (GroupEvent ι)) (network : Set Bytes)
    (i : ι) (s : Station ε δ) : Prop where
  station : s.Sound opus
  numbered : s.Numbered opus
  said : ∀ datagram ∈ s.sent, ∃ k pcmBytes tsMs,
    GroupEvent.sendFrame i pcmBytes tsMs ∈ events ∧ Carries opus k pcmBytes tsMs datagram
  arrived : ∀ datagram ∈ s.arrived, datagram ∈ network
  unharmed : s.Unharmed

namespace MemberSound

variable {events : List (GroupEvent ι)} {network : Set Bytes} {i : ι} {s : Station ε δ}

theorem started (opus : Opus ε δ) (i : ι) :
    MemberSound opus [] network i (Station.started opus) where
  station := Station.sound_started opus
  numbered := Station.Numbered.started opus
  said _ h := absurd h List.not_mem_nil
  arrived _ h := absurd h List.not_mem_nil
  unharmed := ⟨nofun, nofun⟩

theorem concat (h : MemberSound opus events network i s) (e : GroupEvent ι) :
    MemberSound opus (events ++ [e]) network i s := by
  refine ⟨h.station, h.numbered, fun datagram hsent => ?_, h.arrived, h.unharmed⟩
  obtain ⟨k, pcmBytes, tsMs, hcall, hcarries⟩ := h.said datagram hsent
  exact ⟨k, pcmBytes, tsMs, List.mem_append_left _ hcall, hcarries⟩

theorem mono (h : MemberSound opus events network i s) {network' : Set Bytes}
    (hnetwork : network ⊆ network') : MemberSound opus events network' i s :=
  ⟨h.station, h.numbered, h.said, fun datagram hmem => hnetwork (h.arrived datagram hmem),
    h.unharmed⟩

theorem arrived_eq (h : MemberSound opus events network i s) (hopus : opus.Lawful)
    (hframes : ∀ datagram ∈ network, ∃ k, IsFrame opus k datagram) :
    ∃ rest, s.arrived = s.handled ++ (s.loop.inFlight ++ rest) := by
  obtain ⟨sock, -, -, -, harrived⟩ := h.station.recvSock
  have htake : ∀ datagram ∈ s.arrived, datagram.take 4096 = id datagram := by
    intro datagram hmem
    obtain ⟨k, hframe⟩ := hframes datagram (h.arrived datagram hmem)
    exact hframe.take hopus
  rw [List.map_congr_left htake, List.map_id] at harrived
  exact ⟨_, harrived⟩

theorem accepts (h : MemberSound opus events network i s) (hopus : opus.Lawful)
    (hframes : ∀ datagram ∈ network, ∃ k, IsFrame opus k datagram) {data : Bytes}
    (hloop : s.loop = .resuming (.ok data)) (decoder : δ) :
    (opus.decode decoder (payloadOf data) frameSamples).1 ≠ none := by
  obtain ⟨rest, harrived⟩ := h.arrived_eq hopus hframes
  have hmem : data ∈ s.arrived := by
    rw [harrived, hloop]
    simp [RecvLoop.inFlight]
  obtain ⟨k, hframe⟩ := hframes data (h.arrived data hmem)
  obtain ⟨pcm, decoder', hdecode⟩ := hframe.decode hopus decoder
  rw [hdecode]
  nofun

theorem step (h : MemberSound opus events network i s) (hopus : opus.Lawful)
    (hframes : ∀ datagram ∈ network, ∃ k, IsFrame opus k datagram) (e : Event)
    (hgiven : ∀ pcmBytes tsMs, e = .sendFrame pcmBytes tsMs →
      GroupEvent.sendFrame i pcmBytes tsMs ∈ events)
    (hheard : ∀ datagram, e = .arrive datagram → datagram ∈ network) :
    MemberSound opus events network i (s.step opus e) := by
  refine ⟨h.station.step e, h.numbered.step h.station e, fun datagram hsent => ?_,
    fun datagram harrived => ?_, h.unharmed.step h.station (fun data hloop _ =>
      h.accepts hopus hframes hloop _) e⟩
  · rcases h.station.sent_step e with hsame | ⟨k, pcmBytes, tsMs, new, he, hcarries, hmore⟩
    · rw [hsame] at hsent
      exact h.said datagram hsent
    · rw [hmore, List.mem_append, List.mem_singleton] at hsent
      rcases hsent with hold | rfl
      · exact h.said datagram hold
      · exact ⟨k, pcmBytes, tsMs, hgiven pcmBytes tsMs he, hcarries⟩
  · rcases h.station.arrived_step e with hsame | ⟨new, he, hmore⟩
    · rw [hsame] at harrived
      exact h.arrived datagram harrived
    · rw [hmore, List.mem_append, List.mem_singleton] at harrived
      rcases harrived with hold | rfl
      · exact h.arrived datagram hold
      · exact hheard datagram he

end MemberSound

def GroupSound (opus : Opus ε δ) (events : List (GroupEvent ι)) (group : ι → Station ε δ) :
    Prop :=
  ∀ i, MemberSound opus events (onNetwork group) i (group i)

namespace GroupSound

variable {events : List (GroupEvent ι)} {group : ι → Station ε δ}

theorem isFrame (h : GroupSound opus events group) :
    ∀ datagram ∈ onNetwork group, ∃ k, IsFrame opus k datagram := by
  rintro datagram ⟨j, hsent⟩
  obtain ⟨k, pcmBytes, tsMs, -, hcarries⟩ := (h j).said datagram hsent
  exact ⟨k, hcarries.isFrame⟩

theorem heard (h : GroupSound opus events group) {entry : Entry} {datagram : Bytes}
    (hnetwork : datagram ∈ onNetwork group) (hdecoded : DecodedFrom opus entry datagram) :
    Heard opus events group entry datagram := by
  obtain ⟨j, hsent⟩ := hnetwork
  obtain ⟨k, pcmBytes, tsMs, hcall, hcarries⟩ := (h j).said datagram hsent
  obtain ⟨n, hn⟩ := List.mem_iff_getElem?.mp hsent
  have hnumber : entry.seq = n :=
    hdecoded.seq.trans ((h j).numbered.frames n datagram hn).seq
  obtain ⟨encoder, encoder', hencode⟩ := hcarries.encode
  obtain ⟨decoder, decoder', hdecode⟩ := hdecoded.pcm
  refine ⟨j, pcmBytes, tsMs, hcall, ?_, ?_, encoder, encoder', _, decoder, decoder', hencode,
    hdecode⟩
  · rw [hnumber]
    exact hn
  · rw [hdecoded.tsMs]
    exact hcarries.tsMs_eq

theorem onNetwork_subset [DecidableEq ι] (h : GroupSound opus events group) (i : ι) (e : Event) :
    onNetwork group ⊆ onNetwork (Function.update group i ((group i).step opus e)) := by
  rintro datagram ⟨j, hmem⟩
  refine ⟨j, ?_⟩
  by_cases hj : j = i
  · subst hj
    rw [Function.update_self]
    rcases (h j).station.sent_step e with hsame | ⟨k, pcmBytes, tsMs, new, -, -, hmore⟩
    · rw [hsame]
      exact hmem
    · rw [hmore]
      exact List.mem_append_left _ hmem
  · rw [Function.update_of_ne hj]
    exact hmem

theorem update [DecidableEq ι] (h : GroupSound opus events group) (hopus : opus.Lawful) (i : ι)
    (e : Event)
    (hgiven : ∀ pcmBytes tsMs, e = .sendFrame pcmBytes tsMs →
      GroupEvent.sendFrame i pcmBytes tsMs ∈ events)
    (hheard : ∀ datagram, e = .arrive datagram → datagram ∈ onNetwork group) :
    GroupSound opus events (Function.update group i ((group i).step opus e)) := by
  have hkept := h.onNetwork_subset i e
  unfold GroupSound
  rw [Function.forall_update_iff group fun j s => MemberSound opus events
    (onNetwork (Function.update group i ((group i).step opus e))) j s]
  exact ⟨((h i).step hopus h.isFrame e hgiven hheard).mono hkept, fun j _ => (h j).mono hkept⟩

theorem step [DecidableEq ι] (h : GroupSound opus events group) (hopus : opus.Lawful)
    (e : GroupEvent ι) : GroupSound opus (events ++ [e]) (groupStep opus group e) := by
  have hall : GroupSound opus (events ++ [e]) group := fun i => (h i).concat e
  unfold groupStep
  cases e with
  | sendFrame i pcmBytes tsMs =>
      apply hall.update hopus i (.sendFrame pcmBytes tsMs)
      · rintro _ _ ⟨⟩
        exact List.mem_append_right _ (List.mem_singleton_self _)
      · nofun
  | deliver j k i =>
      have hat : (GroupEvent.deliver j k i).at group =
          (group j).sent[k]?.map fun datagram => (i, .arrive datagram) := rfl
      rw [hat]
      cases hsent : (group j).sent[k]? with
      | none => exact hall
      | some datagram =>
          apply hall.update hopus i (.arrive datagram)
          · nofun
          · rintro _ ⟨⟩
            exact ⟨j, List.mem_of_getElem? hsent⟩
  | poll i => exact hall.update hopus i .poll nofun nofun
  | resume i => exact hall.update hopus i .resume nofun nofun
  | stop i => exact hall.update hopus i .stop nofun nofun

theorem run [DecidableEq ι] (hopus : opus.Lawful) (events : List (GroupEvent ι)) :
    GroupSound opus events (groupAfter opus events) := by
  unfold groupAfter
  induction events using List.reverseRecOn with
  | nil => exact fun i => MemberSound.started opus i
  | append_singleton events e ih =>
      rw [List.foldl_append]
      exact ih.step hopus e

end GroupSound

/-- However the members send and the network loses, repeats and reorders: what a station has
released are the datagrams that it has dealt with but for the last, in the order in which they
arrived, each heard from a member; and no datagram ends a task. -/
theorem group_hears [DecidableEq ι] (hopus : opus.Lawful) (events : List (GroupEvent ι)) (i : ι) :
    List.Forall₂ (Heard opus events (groupAfter opus events))
      (groupAfter opus events i).bus.released (groupAfter opus events i).handled.dropLast ∧
    (groupAfter opus events i).handled <+: (groupAfter opus events i).arrived ∧
    ∀ e, (groupAfter opus events i).loop ≠ .crashed e := by
  have h := GroupSound.run hopus events
  generalize groupAfter opus events = group at h
  obtain ⟨rest, harrived⟩ := (h i).arrived_eq hopus h.isFrame
  have hnetwork : ∀ datagram ∈ (group i).handled, datagram ∈ onNetwork group := by
    intro datagram hmem
    apply (h i).arrived
    rw [harrived]
    exact List.mem_append_left _ hmem
  refine ⟨?_, ?_, (h i).unharmed.loop⟩
  · have hdecoded : List.Forall₂ (DecodedFrom opus) (decodeAll opus (group i).handled).1
        (group i).handled := by
      apply forall₂_decodeAll hopus
      intro data hmem
      exact h.isFrame data (hnetwork data hmem)
    obtain ⟨hlength, hpairs⟩ := List.forall₂_iff_zip.mp hdecoded
    have hheard : List.Forall₂ (Heard opus events group) (decodeAll opus (group i).handled).1
        (group i).handled := by
      rw [List.forall₂_iff_zip]
      refine ⟨hlength, fun hpair => ?_⟩
      exact h.heard (hnetwork _ (List.of_mem_zip hpair).2) (hpairs hpair)
    rw [(h i).station.released, List.dropLast_eq_take, List.dropLast_eq_take, hlength]
    exact List.forall₂_take _ hheard
  · rw [harrived]
    exact List.prefix_append _ _

def twoStations : List (GroupEvent Bool) :=
  [.sendFrame true [7] 0, .sendFrame false [8] 3, .deliver false 0 true, .poll true,
    .resume true, .deliver true 0 true, .poll true, .resume true]

/-- One of two stations hears the other, and then itself. -/
theorem group_hears_two :
    List.Forall₂
      (Heard Station.copyingOpus twoStations (groupAfter Station.copyingOpus twoStations))
      (groupAfter Station.copyingOpus twoStations true).bus.released
      (groupAfter Station.copyingOpus twoStations true).handled.dropLast ∧
    (groupAfter Station.copyingOpus twoStations true).handled <+:
      (groupAfter Station.copyingOpus twoStations true).arrived ∧
    ∀ e, (groupAfter Station.copyingOpus twoStations true).loop ≠ .crashed e :=
  group_hears Station.copyingOpus_lawful twoStations true

end Roomsync.Coordinator
