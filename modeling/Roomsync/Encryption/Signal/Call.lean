import Roomsync.Encryption.Signal.Frame
import Mathlib.Logic.Function.Basic
import Mathlib.Tactic.FinCases
import Mathlib.Tactic.Push
/-!
# A call between two sessions

Two parties call `encrypt` and `decrypt` on their own session in any order.  The
network is whoever chooses the events: it hands to `decrypt` what it likes, as
often as it likes.  A call keeps the history that its properties speak about:
what each party gave to `encrypt` and got back, the 256-byte frames it gave to
`decrypt` and what it got back, and every AES-GCM encryption that took place.
-/

namespace Roomsync.Encryption.Signal

open Roomsync.Lib SignalSession

inductive Party
  | alice
  | bob
  deriving DecidableEq

namespace Party

def peer : Party → Party
  | alice => bob
  | bob => alice

@[simp] theorem peer_peer (p : Party) : p.peer.peer = p := by cases p <;> rfl

@[simp] theorem peer_ne (p : Party) : p.peer ≠ p := by cases p <;> simp [peer]

@[simp] theorem ne_peer (p : Party) : p ≠ p.peer := p.peer_ne.symm

theorem eq_or_eq_peer (p q : Party) : q = p ∨ q = p.peer := by
  cases p <;> cases q <;> simp [peer]

end Party

structure Call where
  session : Party → SignalSession
  sent : Party → List (Bytes × Except PyError Bytes)
  received : Party → List (Bytes × Except PyError Bytes)
  sealings : List (Sealing Bytes Bytes Bytes Bytes)

inductive Event
  | encrypt (who : Party) (plaintext : Bytes) (nonce : Nonce)
  | decrypt (who : Party) (wireFrame : Bytes)
  /-- Anybody else encrypts something. -/
  | outside (key nonce data : Bytes)

def Event.OffChain (kdf : HKDF) (root : Bytes) : Event → Prop
  | .outside key _ _ => ∀ i, key ≠ messageKeyAt kdf root i
  | _ => True

namespace Call

def start (session : Party → SignalSession) : Call where
  session := session
  sent _ := []
  received _ := []
  sealings := []

section Step

variable (kdf : HKDF) (aesgcm : AESGCM)

def sendKey (c : Call) (who : Party) : Bytes :=
  ((c.session who).localRatchet.nextMessageKey kdf).1

def receiveKey (c : Call) (who : Party) : Bytes :=
  ((c.session who).remoteRatchet.nextMessageKey kdf).1

def step (c : Call) : Event → Call
  | .encrypt who plaintext nonce =>
      let r := (SignalSession.encrypt kdf aesgcm plaintext nonce).call (c.session who)
      { c with
        session := Function.update c.session who r.2
        sent := Function.update c.sent who (c.sent who ++ [(plaintext, r.1)])
        sealings := c.sealings ++
          [aesgcm.sealing (c.sendKey kdf who) nonce.bytes (pad (truncate plaintext))] }
  | .decrypt who wireFrame =>
      let r := (SignalSession.decrypt kdf aesgcm wireFrame).call (c.session who)
      { c with
        session := Function.update c.session who r.2
        received :=
          if wireFrame.length = frameWireSize then
            Function.update c.received who (c.received who ++ [(wireFrame, r.1)])
          else c.received }
  | .outside key nonce data =>
      { c with sealings := c.sealings ++ [aesgcm.sealing key nonce data] }

def play (c : Call) (events : List Event) : Call := events.foldl (step kdf aesgcm) c

/-- When the event is a `decrypt` that reaches AES-GCM, the cipher accepts only
what was encrypted before. -/
def Authentic (c : Call) : Event → Prop
  | .decrypt who wireFrame => wireFrame.length = frameWireSize →
      aesgcm.Authentic c.sealings (c.receiveKey kdf who) (wireFrame.take nonceSize)
        (wireFrame.drop nonceSize)
  | _ => True

def AuthenticPlay (c : Call) (events : List Event) : Prop :=
  Along (step kdf aesgcm) (Authentic kdf aesgcm) c events

end Step

variable {kdf : HKDF} {aesgcm : AESGCM}

theorem sendKey_eq (c : Call) (who : Party) :
    c.sendKey kdf who = messageKeyAt kdf (c.session who).localRatchet.chainKey 0 := rfl

theorem receiveKey_eq (c : Call) (who : Party) :
    c.receiveKey kdf who = messageKeyAt kdf (c.session who).remoteRatchet.chainKey 0 := rfl

theorem step_encrypt (c : Call) (who : Party) (plaintext : Bytes) (nonce : Nonce) :
    c.step kdf aesgcm (.encrypt who plaintext nonce) =
      { c with
        session := Function.update c.session who
          { c.session who with localRatchet := (c.session who).localRatchet.advance kdf }
        sent := Function.update c.sent who
          (c.sent who ++ [(plaintext, sealAnswer aesgcm (c.sendKey kdf who) plaintext nonce)])
        sealings := c.sealings ++
          [aesgcm.sealing (c.sendKey kdf who) nonce.bytes (pad (truncate plaintext))] } := by
  simp only [step, call_encrypt, sendKey_eq]

theorem step_decrypt_of_length_ne (c : Call) (who : Party) {wireFrame : Bytes}
    (h : wireFrame.length ≠ frameWireSize) :
    c.step kdf aesgcm (.decrypt who wireFrame) = c := by
  simp only [step, call_decrypt_of_length_ne kdf aesgcm h, Function.update_eq_self, h, if_false]

theorem step_decrypt_of_length (c : Call) (who : Party) {wireFrame : Bytes}
    (h : wireFrame.length = frameWireSize) :
    c.step kdf aesgcm (.decrypt who wireFrame) =
      { c with
        session := Function.update c.session who
          { c.session who with remoteRatchet := (c.session who).remoteRatchet.advance kdf }
        received := Function.update c.received who
          (c.received who ++
            [(wireFrame, openFrame aesgcm (c.receiveKey kdf who) wireFrame)]) } := by
  simp only [step, call_decrypt_of_length kdf aesgcm h, h, if_true, receiveKey_eq]

theorem length_update_concat_le {α : Type} (log : Party → List α) (who who' : Party) (entry : α) :
    (Function.update log who' (log who' ++ [entry]) who).length ≤ (log who).length + 1 := by
  rcases eq_or_ne who who' with rfl | hwho
  · rw [Function.update_self, List.length_append, List.length_singleton]
  · rw [Function.update_of_ne hwho]
    exact Nat.le_succ _

theorem length_sent_step_le (kdf : HKDF) (aesgcm : AESGCM) (c : Call) (e : Event)
    (who : Party) : ((c.step kdf aesgcm e).sent who).length ≤ (c.sent who).length + 1 := by
  cases e with
  | encrypt who' plaintext nonce =>
      rw [step_encrypt]
      exact length_update_concat_le c.sent who who' _
  | decrypt who' wireFrame => exact Nat.le_succ _
  | outside key nonce data => exact Nat.le_succ _

theorem length_received_step_le (kdf : HKDF) (aesgcm : AESGCM) (c : Call) (e : Event)
    (who : Party) :
    ((c.step kdf aesgcm e).received who).length ≤ (c.received who).length + 1 := by
  cases e with
  | encrypt who' plaintext nonce => exact Nat.le_succ _
  | decrypt who' wireFrame =>
      by_cases hlength : wireFrame.length = frameWireSize
      · rw [step_decrypt_of_length c who' hlength]
        exact length_update_concat_le c.received who who' _
      · rw [step_decrypt_of_length_ne c who' hlength]
        exact Nat.le_succ _
  | outside key nonce data => exact Nat.le_succ _

/-! ## Agreement over an adversarial network -/

def SealedAs (c : Call) (a : Party) (i : ℕ) (s : Sealing Bytes Bytes Bytes Bytes) : Prop :=
  ∃ plaintext answer, (c.sent a)[i]? = some (plaintext, answer) ∧
    s.data = pad (truncate plaintext) ∧
    ((s.nonce ++ s.ciphertext).length = frameWireSize → answer = .ok (s.nonce ++ s.ciphertext))

/-- The receiver's position on the chain `root` is the number of frames it was
given, a sender's on its own the number of frames it sealed, and the sealings under the
first `total` keys of the chain are those of `a`, each at its place. -/
structure InStep (kdf : HKDF) (root replyRoot : Bytes) (total : ℕ) (a : Party) (c : Call) :
    Prop where
  sender : (c.session a).localRatchet.chainKey = chainKeyAt kdf root (c.sent a).length
  receiver : (c.session a.peer).remoteRatchet.chainKey =
    chainKeyAt kdf root (c.received a.peer).length
  reply : (c.session a.peer).localRatchet.chainKey =
    chainKeyAt kdf replyRoot (c.sent a.peer).length
  sealed : ∀ s ∈ c.sealings, ∀ i < total, s.key = messageKeyAt kdf root i → c.SealedAs a i s
  agreed : ∀ (i : ℕ) (frame v : Bytes), (c.received a.peer)[i]? = some (frame, .ok v) →
    ∃ plaintext, (c.sent a)[i]? = some (plaintext, .ok frame) ∧ v = plaintext.take 227

theorem SealedAs.of_append {c c' : Call} {a : Party} {i : ℕ}
    {s : Sealing Bytes Bytes Bytes Bytes} (h : c.SealedAs a i s)
    (new : List (Bytes × Except PyError Bytes)) (hsent : c'.sent a = c.sent a ++ new) :
    c'.SealedAs a i s := by
  obtain ⟨plaintext, answer, hget, hdata, hanswer⟩ := h
  refine ⟨plaintext, answer, ?_, hdata, hanswer⟩
  rw [hsent]
  exact getElem?_append_some hget new

theorem SealedAs.of_sent_eq {c c' : Call} {a : Party} {i : ℕ}
    {s : Sealing Bytes Bytes Bytes Bytes} (h : c.SealedAs a i s)
    (hsent : c'.sent a = c.sent a) : c'.SealedAs a i s :=
  h.of_append [] (by rw [hsent, List.append_nil])

section Agreement

variable {root replyRoot : Bytes} {total : ℕ} {a : Party} {c : Call}

theorem InStep.encrypt_sender (hdistinct : Set.InjOn (messageKeyAt kdf root) (Set.Iio total))
    (h : InStep kdf root replyRoot total a c) (hroom : (c.sent a).length < total)
    (plaintext : Bytes) (nonce : Nonce) :
    InStep kdf root replyRoot total a (c.step kdf aesgcm (.encrypt a plaintext nonce)) := by
  have hkey := DoubleRatchetSession.messageKeyAt_of_chainKey kdf h.sender
  have hnext := DoubleRatchetSession.chainKey_advance_of_chainKey kdf h.sender
  rw [step_encrypt, sendKey_eq, hkey]
  constructor
  · simpa using hnext
  · simpa using h.receiver
  · simpa using h.reply
  · intro s hs i hi hsi
    rcases List.mem_append.mp hs with hs | hs
    · exact (h.sealed s hs i hi hsi).of_append _ (Function.update_self ..)
    · obtain rfl := List.mem_singleton.mp hs
      obtain rfl := hdistinct hroom hi hsi
      refine ⟨plaintext, sealAnswer aesgcm (messageKeyAt kdf root (c.sent a).length) plaintext
        nonce, ?_, rfl, fun hlength => ?_⟩
      · dsimp only
        rw [Function.update_self]
        exact List.getElem?_concat_length
      · unfold sealAnswer
        exact if_pos hlength
  · intro i frame v hget
    obtain ⟨p, hp, hv⟩ := h.agreed i frame v hget
    refine ⟨p, ?_, hv⟩
    dsimp only
    rw [Function.update_self]
    exact getElem?_append_some hp _

theorem InStep.encrypt_receiver
    (honly : ∀ i < total, ∀ j < total, messageKeyAt kdf replyRoot i ≠ messageKeyAt kdf root j)
    (h : InStep kdf root replyRoot total a c) (hroom : (c.sent a.peer).length < total)
    (plaintext : Bytes) (nonce : Nonce) :
    InStep kdf root replyRoot total a (c.step kdf aesgcm (.encrypt a.peer plaintext nonce)) := by
  have hkey := DoubleRatchetSession.messageKeyAt_of_chainKey kdf h.reply
  have hnext := DoubleRatchetSession.chainKey_advance_of_chainKey kdf h.reply
  rw [step_encrypt, sendKey_eq, hkey]
  constructor
  · simpa using h.sender
  · simpa using h.receiver
  · simpa using hnext
  · intro s hs i hi hsi
    rcases List.mem_append.mp hs with hs | hs
    · exact (h.sealed s hs i hi hsi).of_sent_eq (Function.update_of_ne (Party.ne_peer a) ..)
    · obtain rfl := List.mem_singleton.mp hs
      exact absurd hsi (honly _ hroom i hi)
  · simpa using h.agreed

theorem InStep.decrypt_receiver (h : InStep kdf root replyRoot total a c)
    (hroom : (c.received a.peer).length < total) {wireFrame : Bytes}
    (hlength : wireFrame.length = frameWireSize)
    (hauth : c.Authentic kdf aesgcm (.decrypt a.peer wireFrame)) :
    InStep kdf root replyRoot total a (c.step kdf aesgcm (.decrypt a.peer wireFrame)) := by
  have hkey := DoubleRatchetSession.messageKeyAt_of_chainKey kdf h.receiver
  have hnext := DoubleRatchetSession.chainKey_advance_of_chainKey kdf h.receiver
  have haccept := hauth hlength
  rw [receiveKey_eq, hkey] at haccept
  rw [step_decrypt_of_length c _ hlength, receiveKey_eq, hkey]
  constructor
  · simpa using h.sender
  · simpa using hnext
  · simpa using h.reply
  · intro s hs i hi hsi
    exact (h.sealed s hs i hi hsi).of_sent_eq rfl
  · intro i frame v hget
    dsimp only at hget ⊢
    rw [Function.update_self] at hget
    rcases getElem?_concat_eq_some_iff.mp hget with hget | ⟨rfl, hnew⟩
    · exact h.agreed i frame v hget
    · -- The answer just given: only an accepted frame has one.
      have hframe : wireFrame = frame := congrArg Prod.fst hnew
      have hv := congrArg Prod.snd hnew
      dsimp only at hv
      subst hframe
      cases hopen : aesgcm.decrypt (messageKeyAt kdf root (c.received a.peer).length)
          (wireFrame.take nonceSize) (wireFrame.drop nonceSize) with
      | none =>
          rw [openFrame_of_rejected hopen] at hv
          exact absurd hv (by simp)
      | some data =>
          obtain ⟨plaintext, answer, hsent, hdata, hanswer⟩ :=
            h.sealed _ (haccept data hopen) _ hroom rfl
          have hpadded : data = pad (truncate plaintext) := hdata
          have hanswer' : answer = .ok wireFrame := by
            rw [List.take_append_drop] at hanswer
            exact hanswer hlength
          refine ⟨plaintext, by rw [hsent, hanswer'], ?_⟩
          rw [openFrame_of_decrypt (by rw [hopen, hpadded])] at hv
          exact (Except.ok.inj hv).symm

theorem InStep.step (hdistinct : Set.InjOn (messageKeyAt kdf root) (Set.Iio total))
    (honly : ∀ i < total, ∀ j < total, messageKeyAt kdf replyRoot i ≠ messageKeyAt kdf root j)
    (h : InStep kdf root replyRoot total a c)
    (hsent : ∀ who, (c.sent who).length < total) (hreceived : (c.received a.peer).length < total)
    {e : Event}
    (hauth : c.Authentic kdf aesgcm e) (hoff : e.OffChain kdf root) :
    InStep kdf root replyRoot total a (c.step kdf aesgcm e) := by
  cases e with
  | encrypt who plaintext nonce =>
      rcases Party.eq_or_eq_peer a who with rfl | rfl
      · exact h.encrypt_sender hdistinct (hsent _) plaintext nonce
      · exact h.encrypt_receiver honly (hsent _) plaintext nonce
  | decrypt who wireFrame =>
      by_cases hlength : wireFrame.length = frameWireSize
      · rcases Party.eq_or_eq_peer a who with rfl | rfl
        · -- The other direction: only `a`'s receiving side moves.
          rw [step_decrypt_of_length c _ hlength]
          exact ⟨by simpa using h.sender, by simpa using h.receiver, by simpa using h.reply,
            fun s hs i hi hsi => (h.sealed s hs i hi hsi).of_sent_eq rfl, by simpa using h.agreed⟩
        · exact h.decrypt_receiver hreceived hlength hauth
      · rw [step_decrypt_of_length_ne c who hlength]
        exact h
  | outside key nonce data =>
      refine ⟨h.sender, h.receiver, h.reply, ?_, h.agreed⟩
      intro s hs i hi hsi
      rcases List.mem_append.mp hs with hs | hs
      · exact (h.sealed s hs i hi hsi).of_sent_eq rfl
      · obtain rfl := List.mem_singleton.mp hs
        exact absurd hsi (hoff i)

theorem InStep.play (hdistinct : Set.InjOn (messageKeyAt kdf root) (Set.Iio total))
    (honly : ∀ i < total, ∀ j < total, messageKeyAt kdf replyRoot i ≠ messageKeyAt kdf root j)
    (h : InStep kdf root replyRoot total a c) {events : List Event}
    (hsent : ∀ who, (c.sent who).length + events.length ≤ total)
    (hreceived : (c.received a.peer).length + events.length ≤ total)
    (hauth : c.AuthenticPlay kdf aesgcm events)
    (hoff : ∀ e ∈ events, e.OffChain kdf root) :
    InStep kdf root replyRoot total a (c.play kdf aesgcm events) := by
  induction events generalizing c with
  | nil => exact h
  | cons e events ih =>
      simp only [List.length_cons] at hsent hreceived
      have hstep : InStep kdf root replyRoot total a (c.step kdf aesgcm e) := by
        apply h.step hdistinct honly _ (by omega) hauth.1 (hoff e List.mem_cons_self)
        intro who
        have hwho := hsent who
        omega
      apply ih hstep
      · intro who
        have hbefore := hsent who
        have hone := c.length_sent_step_le kdf aesgcm e who
        omega
      · have hone := c.length_received_step_le kdf aesgcm e a.peer
        omega
      · exact hauth.2
      · intro e' he'
        exact hoff e' (List.mem_cons_of_mem _ he')

end Agreement

theorem inStep_start (kdf : HKDF) (session : Party → SignalSession) (total : ℕ) (a : Party)
    (hchain : (session a).localRatchet.chainKey = (session a.peer).remoteRatchet.chainKey) :
    InStep kdf (session a).localRatchet.chainKey (session a.peer).localRatchet.chainKey total a
      (start session) where
  sender := rfl
  receiver := hchain.symm
  reply := rfl
  sealed := by simp [start]
  agreed := by simp [start]

/-- Whatever the network does, what the receiver's decrypt call number `i` on a
256-byte frame returns comes from the sender's encrypt call number `i`: the frame
is the one that call returned, and the answer its plaintext. -/
theorem received_agrees (session : Party → SignalSession) (a : Party)
    (hchain : (session a).localRatchet.chainKey = (session a.peer).remoteRatchet.chainKey)
    (events : List Event)
    (honly : ∀ i < events.length, ∀ j < events.length,
      messageKeyAt kdf (session a.peer).localRatchet.chainKey i ≠
        messageKeyAt kdf (session a).localRatchet.chainKey j)
    (hdistinct : Set.InjOn (messageKeyAt kdf (session a).localRatchet.chainKey)
      (Set.Iio events.length))
    (houtside : ∀ e ∈ events, e.OffChain kdf (session a).localRatchet.chainKey)
    (hauth : (start session).AuthenticPlay kdf aesgcm events)
    (i : ℕ) (frame v : Bytes)
    (hreceived : (((start session).play kdf aesgcm events).received a.peer)[i]? =
      some (frame, .ok v)) :
    ∃ plaintext,
      (((start session).play kdf aesgcm events).sent a)[i]? = some (plaintext, .ok frame) ∧
      v = plaintext.take 227 := by
  have hstart := inStep_start kdf session events.length a hchain
  apply (hstart.play hdistinct honly _ _ hauth houtside).agreed i frame v hreceived
  · intro who
    simp [start]
  · simp [start]

def symbolicSession : Party → SignalSession
  | .alice => ⟨{ chainKey := [1] }, { chainKey := [2] }⟩
  | .bob => ⟨{ chainKey := [2] }, { chainKey := [1] }⟩

def symbolicFrame : Bytes :=
  sealFrame symbolicAesgcm (messageKeyAt symbolicHkdf [1] 0) [5] .zero

theorem received_agrees_symbolic :
    ∃ plaintext,
      (((start symbolicSession).play symbolicHkdf symbolicAesgcm
        [.encrypt .alice [5] .zero, .decrypt .bob symbolicFrame,
          .decrypt .bob symbolicFrame]).sent .alice)[0]? =
            some (plaintext, .ok symbolicFrame) ∧
      [5] = plaintext.take 227 := by
  apply received_agrees symbolicSession .alice
  · rfl
  · intro i _ j _
    exact messageKeyAt_ne symbolicHkdf_free.injective (by decide)
      (fun key => symbolicHkdf_ne_singleton key _ _)
      (fun key => symbolicHkdf_ne_singleton key _ _) i j
  · exact (messageKeyAt_injective symbolicHkdf_free _).injOn
  · intro e he
    fin_cases he <;> trivial
  · refine ⟨trivial, fun _ => ?_, fun _ => ?_, trivial⟩
    · exact symbolicAesgcm_lawful.correct.authentic (List.mem_singleton_self _)
    · exact Aead.Authentic.of_eq_none (by decide +kernel)
  · decide +kernel

end Call

end Roomsync.Encryption.Signal
