import Roomsync.Encryption.Signal.X3dh
/-!
# Two sessions that mirror each other

Where each party receives on the chain that the other one sends on, a conversation over a
perfect network is intact, whoever talks and however the frames of the two directions pass
each other.
-/

namespace Roomsync.Encryption.Signal

open Roomsync.Lib SignalSession

namespace Call

/-- The answers to the frames from `a` that were delivered so far are what a frame holds of the
plaintexts that it sent. -/
def HeardFrom (c : Call) (a : Party) : Prop :=
  (c.received a.peer).map Prod.snd =
    ((c.sent a).take (c.received a.peer).length).map fun s : Bytes × Except PyError Bytes =>
      (Except.ok (s.1.take 227) : Except PyError Bytes)

/-- The chain of `a`: both ends are where their counts are, and its frames were sealed along
it. -/
structure Delivers (kdf : HKDF) (aesgcm : AESGCM) (root : Bytes) (a : Party) (c : Call) :
    Prop where
  sender : (c.session a).localRatchet.chainKey = chainKeyAt kdf root (c.sent a).length
  receiver : (c.session a.peer).remoteRatchet.chainKey =
    chainKeyAt kdf root (c.received a.peer).length
  sealed : ∀ (i : ℕ) (s : Bytes × Except PyError Bytes), (c.sent a)[i]? = some s →
    ∃ nonce, s.2 = .ok (sealFrame aesgcm (messageKeyAt kdf root i) s.1 nonce)
  heard : c.HeardFrom a
  ahead : (c.received a.peer).length ≤ (c.sent a).length

variable {kdf : HKDF} {aesgcm : AESGCM} {root : Bytes} {a : Party}

theorem getElem?_filterMap_toOption {α : Type*} {l : List (α × Except PyError Bytes)}
    (hok : ∀ s ∈ l, ∃ frame, s.2 = .ok frame) (i : ℕ) :
    (l.filterMap fun s => s.2.toOption)[i]? = l[i]?.bind fun s => s.2.toOption := by
  induction l generalizing i with
  | nil => rfl
  | cons s l ih =>
      obtain ⟨frame, hframe⟩ := hok s List.mem_cons_self
      have hsome : s.2.toOption = some frame := by rw [hframe]; rfl
      rw [List.filterMap_cons, hsome]
      cases i with
      | zero => exact hsome.symm
      | succ i => exact ih (fun s' hs' => hok s' (List.mem_cons_of_mem _ hs')) i

namespace Delivers

variable {c : Call}

theorem start {session : Party → SignalSession}
    (hmirror : (session a.peer).remoteRatchet.chainKey = (session a).localRatchet.chainKey) :
    Delivers kdf aesgcm (session a).localRatchet.chainKey a (Call.start session) where
  sender := rfl
  receiver := hmirror
  sealed := by simp [Call.start]
  heard := rfl
  ahead := le_rfl

theorem nextFrame_eq_some (h : Delivers kdf aesgcm root a c) {frame : Bytes}
    (hnext : c.nextFrame a.peer = some frame) :
    ∃ s nonce, (c.sent a)[(c.received a.peer).length]? = some s ∧
      frame = sealFrame aesgcm (messageKeyAt kdf root (c.received a.peer).length) s.1 nonce := by
  have hok : ∀ s ∈ c.sent a, ∃ frame, s.2 = .ok frame := by
    intro s hs
    obtain ⟨i, hi⟩ := List.mem_iff_getElem?.mp hs
    obtain ⟨nonce, hnonce⟩ := h.sealed i s hi
    exact ⟨_, hnonce⟩
  unfold nextFrame frames at hnext
  rw [Party.peer_peer, getElem?_filterMap_toOption hok] at hnext
  obtain ⟨s, hs, hframe⟩ := Option.bind_eq_some_iff.mp hnext
  obtain ⟨nonce, hnonce⟩ := h.sealed _ s hs
  rw [hnonce] at hframe
  exact ⟨s, nonce, hs, (Option.some.inj hframe).symm⟩

theorem encrypt_sender (haes : aesgcm.Lawful) (h : Delivers kdf aesgcm root a c)
    (plaintext : Bytes) (nonce : Nonce) :
    Delivers kdf aesgcm root a (c.step kdf aesgcm (.encrypt a plaintext nonce)) := by
  have hkey := DoubleRatchetSession.messageKeyAt_of_chainKey kdf h.sender
  have hnext := DoubleRatchetSession.chainKey_advance_of_chainKey kdf h.sender
  rw [step_encrypt, sendKey_eq, hkey, sealAnswer_of_lawful haes]
  refine ⟨by simpa using hnext, by simpa using h.receiver, ?_, ?_, ?_⟩
  · intro i s hs
    dsimp only at hs
    rw [Function.update_self] at hs
    rcases getElem?_concat_eq_some_iff.mp hs with hold | ⟨rfl, rfl⟩
    · exact h.sealed i s hold
    · exact ⟨nonce, rfl⟩
  · have hheard := h.heard
    unfold HeardFrom at hheard ⊢
    dsimp only
    rw [Function.update_self, List.take_append_of_le_length h.ahead]
    exact hheard
  · have hahead := h.ahead
    dsimp only
    rw [Function.update_self, List.length_append]
    omega

theorem encrypt_receiver (h : Delivers kdf aesgcm root a c) (plaintext : Bytes)
    (nonce : Nonce) :
    Delivers kdf aesgcm root a (c.step kdf aesgcm (.encrypt a.peer plaintext nonce)) := by
  rw [step_encrypt]
  have hsent : Function.update c.sent a.peer (c.sent a.peer ++ [(plaintext,
      sealAnswer aesgcm (c.sendKey kdf a.peer) plaintext nonce)]) a = c.sent a :=
    Function.update_of_ne (Party.ne_peer a) ..
  refine ⟨?_, ?_, ?_, ?_, ?_⟩
  · dsimp only
    rw [hsent, Function.update_of_ne (Party.ne_peer a)]
    exact h.sender
  · dsimp only
    rw [Function.update_self]
    exact h.receiver
  · dsimp only
    rw [hsent]
    exact h.sealed
  · unfold HeardFrom
    dsimp only
    rw [hsent]
    exact h.heard
  · dsimp only
    rw [hsent]
    exact h.ahead

theorem decrypt_receiver (haes : aesgcm.Lawful) (h : Delivers kdf aesgcm root a c)
    {frame : Bytes} (hnext : c.nextFrame a.peer = some frame) :
    Delivers kdf aesgcm root a (c.step kdf aesgcm (.decrypt a.peer frame)) := by
  obtain ⟨s, nonce, hs, rfl⟩ := h.nextFrame_eq_some hnext
  have hkey := DoubleRatchetSession.messageKeyAt_of_chainKey kdf h.receiver
  have hadvance := DoubleRatchetSession.chainKey_advance_of_chainKey kdf h.receiver
  have hlt : (c.received a.peer).length < (c.sent a).length :=
    (List.getElem?_eq_some_iff.mp hs).1
  rw [step_decrypt_of_length c _ (length_sealFrame haes _ _ _), receiveKey_eq, hkey,
    openFrame_sealFrame haes.correct]
  have htake : (c.sent a).take ((c.received a.peer).length + 1) =
      (c.sent a).take (c.received a.peer).length ++ [s] := by
    rw [List.take_add_one, hs]
    rfl
  refine ⟨by simpa using h.sender, by simpa using hadvance, h.sealed, ?_, ?_⟩
  · have hheard := h.heard
    unfold HeardFrom at hheard ⊢
    dsimp only
    rw [Function.update_self, List.map_append, hheard, List.length_append, List.length_singleton,
      htake, List.map_append]
    rfl
  · dsimp only
    rw [Function.update_self, List.length_append]
    exact hlt

theorem decrypt_sender (h : Delivers kdf aesgcm root a c) (frame : Bytes) :
    Delivers kdf aesgcm root a (c.step kdf aesgcm (.decrypt a frame)) := by
  by_cases hlength : frame.length = frameWireSize
  · have hreceived : Function.update c.received a (c.received a ++
        [(frame, openFrame aesgcm (c.receiveKey kdf a) frame)]) a.peer = c.received a.peer :=
      Function.update_of_ne (Party.peer_ne a) ..
    rw [step_decrypt_of_length c _ hlength]
    refine ⟨?_, ?_, h.sealed, ?_, ?_⟩
    · dsimp only
      rw [Function.update_self]
      exact h.sender
    · dsimp only
      rw [hreceived, Function.update_of_ne (Party.peer_ne a)]
      exact h.receiver
    · unfold HeardFrom
      dsimp only
      rw [hreceived]
      exact h.heard
    · dsimp only
      rw [hreceived]
      exact h.ahead
  · rw [step_decrypt_of_length_ne c a hlength]
    exact h

theorem turn (haes : aesgcm.Lawful) (h : Delivers kdf aesgcm root a c) (t : Turn) :
    Delivers kdf aesgcm root a (c.turn kdf aesgcm t) := by
  cases t with
  | encrypt who plaintext nonce =>
      rcases Party.eq_or_eq_peer a who with rfl | rfl
      · exact h.encrypt_sender haes plaintext nonce
      · exact h.encrypt_receiver plaintext nonce
  | deliver who =>
      cases hnext : c.nextFrame who with
      | none =>
          rw [turn_deliver_of_none hnext]
          exact h
      | some frame =>
          rw [turn_deliver_of_some hnext]
          rcases Party.eq_or_eq_peer a who with rfl | rfl
          · exact h.decrypt_sender frame
          · exact h.decrypt_receiver haes hnext

end Delivers

/-- Both directions at once: nothing is lost, doubled or rejected, however they interleave. -/
theorem mirrored_converse (haes : aesgcm.Lawful) (session : Party → SignalSession)
    (hmirror : ∀ who, (session who.peer).remoteRatchet.chainKey =
      (session who).localRatchet.chainKey) (turns : List Turn) (a : Party) :
    ((start session).converse kdf aesgcm turns).HeardFrom a := by
  have hstart : Delivers kdf aesgcm (session a).localRatchet.chainKey a (start session) :=
    .start (hmirror a)
  have hend := List.foldlRecOn turns (Call.turn kdf aesgcm) hstart fun c hc t _ => hc.turn haes t
  exact hend.heard

theorem mirrored_converse_symbolic :
    ((start symbolicSession).converse symbolicHkdf symbolicAesgcm
      [.encrypt .alice [1] .zero, .encrypt .bob [2] .zero, .deliver .bob,
        .deliver .alice]).HeardFrom .alice := by
  apply mirrored_converse symbolicAesgcm_lawful
  intro who
  cases who <;> rfl

end Call

end Roomsync.Encryption.Signal
