import Roomsync.Encryption.Mls.Members
import Roomsync.Encryption.Mls.Nonce
/-!
# What the members of a group accept

The network hands any bytes to `decrypt`, with any epoch and sequence number and as often as
it likes, while the members apply the changes of the group at their own pace.
-/

namespace Roomsync.Encryption.Mls

open Roomsync.Lib

variable {hmac : HMAC} {aesgcm : AESGCM} {ι : Type}

structure Sent (ι : Type) where
  sender : ι
  key : Bytes
  epoch : ℕ
  seq : ℕ
  plaintext : Bytes
  wire : Bytes

structure Network (ι : Type) where
  group : Group ι
  sent : List (Sent ι)
  sealings : List (Sealing Bytes Bytes Bytes Bytes)

inductive NetworkEvent (ι : Type)
  | change (i : ι)
  | encrypt (i : ι) (plaintext : Bytes)
  | decrypt (i : ι) (wireFrame : Bytes) (senderEpoch senderSeq : ℤ)
  /-- Anybody else encrypts something. -/
  | outside (key nonce data : Bytes)

def NetworkEvent.OffGroup (hmac : HMAC) (s : MLSGroupSession) (changes : List Change) :
    NetworkEvent ι → Prop
  | .outside key _ _ => ∀ n, key ≠ (s.afterChanges hmac (changes.take n)).epochKey
  | _ => True

namespace Network

def start (s : MLSGroupSession) : Network ι where
  group := .start s
  sent := []
  sealings := []

section Step

variable [DecidableEq ι] (hmac : HMAC) (aesgcm : AESGCM) (changes : List Change)

def step (n : Network ι) : NetworkEvent ι → Network ι
  | .change i => { n with group := n.group.step hmac aesgcm changes (.change i) }
  | .encrypt i plaintext =>
      let s := n.group.session i
      let r := (MLSGroupSession.encrypt aesgcm plaintext).call s
      { group := n.group.step hmac aesgcm changes (.encrypt i plaintext)
        sent :=
          match r.1 with
          | .ok wire => n.sent ++ [⟨i, s.epochKey, s.epoch, s.sendSeq, plaintext, wire⟩]
          | .error _ => n.sent
        sealings :=
          match r.1 with
          | .ok wire => n.sealings ++ [aesgcm.sealing s.epochKey (wire.take nonceSize)
              (MLSGroupSession.pad (MLSGroupSession.truncate plaintext))]
          | .error _ => n.sealings }
  | .decrypt i wireFrame senderEpoch senderSeq =>
      let method := MLSGroupSession.decrypt aesgcm wireFrame senderEpoch senderSeq
      { n with group := { n.group with
          session := Function.update n.group.session i (method.exec (n.group.session i)) } }
  | .outside key nonce data =>
      { n with sealings := n.sealings ++ [aesgcm.sealing key nonce data] }

def play (n : Network ι) (events : List (NetworkEvent ι)) : Network ι :=
  events.foldl (step hmac aesgcm changes) n

end Step

/-- Some member sealed these bytes under `key`, in that epoch and at that counter, for a
plaintext of which `answer` is what the cut and the stripped zeros leave. -/
def Carries (n : Network ι) (key wireFrame : Bytes) (senderEpoch senderSeq : ℤ)
    (answer : Bytes) : Prop :=
  ∃ f ∈ n.sent, f.key = key ∧ (f.epoch : ℤ) = senderEpoch ∧ (f.seq : ℤ) = senderSeq ∧
    f.wire.drop nonceSize = wireFrame.drop nonceSize ∧
    (MLSGroupSession.truncate f.plaintext).rdropWhile (· = 0) = answer

/-- When the call reaches AES-GCM, the cipher accepts only what was encrypted before. -/
def Authentic (aesgcm : AESGCM) (n : Network ι) (i : ι) (wireFrame : Bytes)
    (senderEpoch senderSeq : ℤ) : Prop :=
  ∀ nonce, seqNonce senderEpoch senderSeq = some nonce →
    aesgcm.Authentic n.sealings (n.group.session i).epochKey nonce (wireFrame.drop nonceSize)

end Network

theorem seqNonce_int_inj {epoch epoch' seq seq' : ℤ} {nonce : Bytes}
    (h : seqNonce epoch seq = some nonce) (h' : seqNonce epoch' seq' = some nonce) :
    epoch = epoch' ∧ seq = seq' := by
  have hfields : ∀ {epoch seq : ℤ}, seqNonce epoch seq = some nonce →
      (ofBigEndian (nonce.take 4) : ℤ) = epoch ∧ (ofBigEndian (nonce.drop 4) : ℤ) = seq := by
    intro epoch seq hnonce
    obtain ⟨high, hhigh, hrest⟩ := Option.bind_eq_some_iff.mp hnonce
    obtain ⟨low, hlow, heq⟩ := Option.bind_eq_some_iff.mp hrest
    obtain ⟨hlength, hepoch⟩ := packUnsigned_eq_some hhigh
    obtain ⟨-, hseq⟩ := packUnsigned_eq_some hlow
    rw [← Option.some.inj heq, List.take_left' hlength, List.drop_left' hlength]
    exact ⟨hepoch, hseq⟩
  obtain ⟨hepoch, hseq⟩ := hfields h
  obtain ⟨hepoch', hseq'⟩ := hfields h'
  exact ⟨hepoch.symm.trans hepoch', hseq.symm.trans hseq'⟩

namespace MLSGroupSession

theorem call_decrypt_eq_ok_iff (s : MLSGroupSession) (wireFrame : Bytes)
    (senderEpoch senderSeq : ℤ) (answer : Bytes) :
    ((decrypt aesgcm wireFrame senderEpoch senderSeq).call s).1 = .ok answer ↔
      wireFrame.length = frameWireSize ∧
      ∃ nonce padded, seqNonce senderEpoch senderSeq = some nonce ∧
        aesgcm.decrypt s.epochKey nonce (wireFrame.drop nonceSize) = some padded ∧
        padded.rdropWhile (· = 0) = answer := by
  constructor
  · intro hanswer
    by_cases hlength : wireFrame.length = frameWireSize
    · refine ⟨hlength, ?_⟩
      unfold decrypt at hanswer
      simp only [hlength, ne_eq, not_true_eq_false, if_false, Method.call_bind, Method.call_get,
        Method.call_pure] at hanswer
      cases hnonce : seqNonce senderEpoch senderSeq with
      | none =>
          rw [hnonce] at hanswer
          exact absurd hanswer (by simp)
      | some nonce =>
          rw [hnonce] at hanswer
          dsimp only [Method.ofOption_some, Method.call_pure] at hanswer
          cases hopen : aesgcm.decrypt s.epochKey nonce (wireFrame.drop nonceSize) with
          | none =>
              rw [hopen] at hanswer
              exact absurd hanswer (by simp)
          | some padded =>
              rw [hopen] at hanswer
              exact ⟨nonce, padded, rfl, hopen, Except.ok.inj hanswer⟩
    · unfold decrypt at hanswer
      simp [hlength] at hanswer
  · rintro ⟨hlength, nonce, padded, hnonce, hopen, rfl⟩
    rw [call_decrypt_of_some aesgcm hlength hnonce hopen]

theorem rdropWhile_pad (plaintext : Bytes) :
    (pad plaintext).rdropWhile (· = 0) = plaintext.rdropWhile (· = 0) :=
  rdropWhile_append_replicate _ _ (by decide) _

end MLSGroupSession

namespace Network

open MLSGroupSession (pad truncate)

/-- Every frame is sealed as it is numbered, and the sealings under keys of the group are
those of its frames. -/
structure Recorded (hmac : HMAC) (aesgcm : AESGCM) (s : MLSGroupSession)
    (changes : List Change) (n : Network ι) : Prop where
  numbered : n.group.Numbered hmac s changes
  framed : ∀ f ∈ n.sent, ∃ nonce, seqNonce f.epoch f.seq = some nonce ∧
    f.wire = nonce ++ aesgcm.encrypt f.key nonce (pad (truncate f.plaintext))
  sealed : ∀ x ∈ n.sealings,
    (∃ k, x.key = (s.afterChanges hmac (changes.take k)).epochKey) →
    ∃ f ∈ n.sent, f.key = x.key ∧ seqNonce f.epoch f.seq = some x.nonce ∧
      f.wire = x.nonce ++ x.ciphertext ∧ x.data = pad (truncate f.plaintext)

variable {s : MLSGroupSession} {changes : List Change} {n : Network ι}

theorem recorded_start (hseq : s.sendSeq = 0) :
    Recorded hmac aesgcm s changes (start s : Network ι) where
  numbered := Group.numbered_start s hseq
  framed := by simp [start]
  sealed := by simp [start]

section StepLemmas

variable [DecidableEq ι]

theorem step_encrypt_of_none {i : ι}
    (hnonce : seqNonce (n.group.session i).epoch (n.group.session i).sendSeq = none)
    (plaintext : Bytes) :
    n.step hmac aesgcm changes (.encrypt i plaintext) = n := by
  simp only [step, MLSGroupSession.call_encrypt_of_none aesgcm hnonce,
    Group.step_encrypt_of_none hnonce]

theorem step_encrypt_of_some {i : ι} {nonce : Bytes}
    (hnonce : seqNonce (n.group.session i).epoch (n.group.session i).sendSeq = some nonce)
    (plaintext : Bytes) :
    n.step hmac aesgcm changes (.encrypt i plaintext) =
      { group := n.group.step hmac aesgcm changes (.encrypt i plaintext)
        sent := n.sent ++ [⟨i, (n.group.session i).epochKey, (n.group.session i).epoch,
          (n.group.session i).sendSeq, plaintext, nonce ++ aesgcm.encrypt
            (n.group.session i).epochKey nonce (pad (truncate plaintext))⟩]
        sealings := n.sealings ++ [aesgcm.sealing (n.group.session i).epochKey nonce
          (pad (truncate plaintext))] } := by
  simp only [step, MLSGroupSession.call_encrypt_of_some aesgcm hnonce,
    List.take_left' (length_of_seqNonce hnonce)]

theorem step_decrypt (i : ι) (wireFrame : Bytes) (senderEpoch senderSeq : ℤ) :
    n.step hmac aesgcm changes (.decrypt i wireFrame senderEpoch senderSeq) = n := by
  simp only [step, MLSGroupSession.exec_decrypt, Function.update_eq_self]

end StepLemmas

namespace Recorded

variable [DecidableEq ι] (h : Recorded hmac aesgcm s changes n)
include h

theorem encrypt (i : ι) (plaintext : Bytes) :
    Recorded hmac aesgcm s changes (n.step hmac aesgcm changes (.encrypt i plaintext)) := by
  cases hnonce : seqNonce (n.group.session i).epoch (n.group.session i).sendSeq with
  | none =>
      rw [step_encrypt_of_none hnonce]
      exact h
  | some nonce =>
      have hnumbered : (n.group.step hmac aesgcm changes (.encrypt i plaintext)).Numbered
          hmac s changes := h.numbered.step _
      rw [step_encrypt_of_some hnonce]
      refine ⟨hnumbered, ?_, ?_⟩
      · exact List.forall_mem_append.mpr
          ⟨h.framed, List.forall_mem_singleton.mpr ⟨nonce, hnonce, rfl⟩⟩
      · refine List.forall_mem_append.mpr ⟨fun x hx hkey => ?_, List.forall_mem_singleton.mpr ?_⟩
        · obtain ⟨f, hf, hsealed⟩ := h.sealed x hx hkey
          exact ⟨f, List.mem_append_left _ hf, hsealed⟩
        · intro _
          exact ⟨_, List.mem_append_right _ (List.mem_singleton_self _), rfl, hnonce, rfl, rfl⟩

theorem step {e : NetworkEvent ι} (hoff : e.OffGroup hmac s changes) :
    Recorded hmac aesgcm s changes (n.step hmac aesgcm changes e) := by
  cases e with
  | change i =>
      have hnumbered : (n.group.step hmac aesgcm changes (.change i)).Numbered
          hmac s changes := h.numbered.step _
      exact ⟨hnumbered, h.framed, h.sealed⟩
  | encrypt i plaintext => exact h.encrypt i plaintext
  | decrypt i wireFrame senderEpoch senderSeq =>
      rw [step_decrypt]
      exact h
  | outside key nonce data =>
      refine ⟨h.numbered, h.framed, List.forall_mem_append.mpr ⟨h.sealed, ?_⟩⟩
      rw [List.forall_mem_singleton]
      rintro ⟨k, hkey⟩
      exact absurd hkey (hoff k)

theorem play {events : List (NetworkEvent ι)} (hoff : ∀ e ∈ events, e.OffGroup hmac s changes) :
    Recorded hmac aesgcm s changes (n.play hmac aesgcm changes events) := by
  apply List.foldlRecOn events _ h
  intro n' hn' e he
  exact hn'.step (hoff e he)

omit [DecidableEq ι]

theorem accepts (haes : aesgcm.Lawful) (i : ι) {wireFrame answer : Bytes}
    {senderEpoch senderSeq : ℤ}
    (hcarries : n.Carries (n.group.session i).epochKey wireFrame senderEpoch senderSeq answer) :
    ((MLSGroupSession.decrypt aesgcm wireFrame senderEpoch senderSeq).call
      (n.group.session i)).1 = .ok answer := by
  obtain ⟨f, hf, hkey, rfl, rfl, hbytes, rfl⟩ := hcarries
  obtain ⟨nonce, hnonce, hwire⟩ := h.framed f hf
  have hdrop : wireFrame.drop nonceSize =
      aesgcm.encrypt (n.group.session i).epochKey nonce (pad (truncate f.plaintext)) := by
    rw [← hbytes, hwire, List.drop_left' (length_of_seqNonce hnonce), hkey]
  have hlength := congrArg List.length hdrop
  rw [List.length_drop, haes.length_encrypt,
    MLSGroupSession.length_pad (MLSGroupSession.length_truncate _)] at hlength
  rw [MLSGroupSession.call_decrypt_eq_ok_iff]
  refine ⟨?_, nonce, _, hnonce, ?_, MLSGroupSession.rdropWhile_pad _⟩
  · simp only [nonceSize, frameWireSize] at hlength ⊢
    omega
  · rw [hdrop, haes.correct]

theorem carries {i : ι} {wireFrame answer : Bytes} {senderEpoch senderSeq : ℤ}
    (hauth : n.Authentic aesgcm i wireFrame senderEpoch senderSeq)
    (hanswer : ((MLSGroupSession.decrypt aesgcm wireFrame senderEpoch senderSeq).call
      (n.group.session i)).1 = .ok answer) :
    n.Carries (n.group.session i).epochKey wireFrame senderEpoch senderSeq answer := by
  obtain ⟨-, nonce, padded, hnonce, hopen, rfl⟩ :=
    (MLSGroupSession.call_decrypt_eq_ok_iff _ _ _ _ _).mp hanswer
  have hmem := hauth nonce hnonce padded hopen
  obtain ⟨f, hf, hkey, hfnonce, hwire, hdata⟩ :=
    h.sealed _ hmem ⟨_, (h.numbered.epoch_session i).2⟩
  obtain ⟨hepoch, hseq⟩ := seqNonce_int_inj hfnonce hnonce
  refine ⟨f, hf, hkey, hepoch, hseq, ?_, ?_⟩
  · rw [hwire]
    exact List.drop_left' (length_of_seqNonce hfnonce)
  · rw [← MLSGroupSession.rdropWhile_pad]
    exact congrArg _ hdata.symm

end Recorded

end Network

/-- In every run of a group, a member accepts exactly the bytes that a member sealed under the
key that it has itself, at the epoch and the counter that it is told. -/
theorem accepts_iff_carried [DecidableEq ι] (haes : aesgcm.Lawful) (groupId initSecret : Bytes)
    (members : Dict PyStr Bytes) (changes : List Change) (events : List (NetworkEvent ι))
    (hoff : ∀ e ∈ events, e.OffGroup hmac (.new hmac groupId initSecret members) changes)
    (i : ι) (wireFrame : Bytes) (senderEpoch senderSeq : ℤ)
    (hauth : ((Network.start (.new hmac groupId initSecret members)).play hmac aesgcm changes
      events).Authentic aesgcm i wireFrame senderEpoch senderSeq) (answer : Bytes) :
    ((MLSGroupSession.decrypt aesgcm wireFrame senderEpoch senderSeq).call
        (((Network.start (.new hmac groupId initSecret members)).play hmac aesgcm changes
          events).group.session i)).1 = .ok answer ↔
      ((Network.start (.new hmac groupId initSecret members)).play hmac aesgcm changes
        events).Carries
          (((Network.start (.new hmac groupId initSecret members)).play hmac aesgcm changes
            events).group.session i).epochKey wireFrame senderEpoch senderSeq answer := by
  have hstart : (Network.start (.new hmac groupId initSecret members) : Network ι).Recorded
      hmac aesgcm (.new hmac groupId initSecret members) changes := Network.recorded_start rfl
  have hrecorded := hstart.play hoff
  exact ⟨hrecorded.carries hauth, hrecorded.accepts haes i⟩

def symbolicWire : Bytes :=
  List.replicate 12 0 ++ symbolicAesgcm.encrypt
    (MLSGroupSession.new symbolicHmac [] [1] .empty).epochKey (List.replicate 12 0)
    (MLSGroupSession.pad [10])

theorem accepts_iff_carried_symbolic :
    ((MLSGroupSession.decrypt symbolicAesgcm symbolicWire 0 0).call
        (((Network.start (.new symbolicHmac [] [1] .empty)).play symbolicHmac symbolicAesgcm []
          [.encrypt false [10]]).group.session true)).1 = .ok [10] ↔
      ((Network.start (.new symbolicHmac [] [1] .empty)).play symbolicHmac symbolicAesgcm []
        [.encrypt false [10]]).Carries
          (((Network.start (.new symbolicHmac [] [1] .empty)).play symbolicHmac symbolicAesgcm []
            [.encrypt false [10]]).group.session true).epochKey symbolicWire 0 0 [10] := by
  apply accepts_iff_carried symbolicAesgcm_lawful
  · intro e he
    obtain rfl := List.mem_singleton.mp he
    trivial
  · intro nonce hnonce
    have hzero : seqNonce (0 : ℕ) (0 : ℕ) = some (List.replicate 12 0) := by decide +kernel
    obtain rfl := Option.some.inj (hzero.symm.trans hnonce)
    apply symbolicAesgcm_lawful.correct.authentic
    change _ ∈ ((Network.start (.new symbolicHmac [] [1] .empty)).step symbolicHmac symbolicAesgcm
      [] (.encrypt false [10])).sealings
    rw [Network.step_encrypt_of_some (n := .start (.new symbolicHmac [] [1] .empty))
      (i := false) hzero]
    exact List.mem_singleton_self _

end Roomsync.Encryption.Mls
