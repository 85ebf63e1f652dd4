import Roomsync.Encryption.Signal.Call
/-!
# Who does not know the shared secret

A network that derives what keys it can, seals what it likes under them and hands around what it
likes opens nothing that the parties have sealed, and makes them accept nothing else.
-/

namespace Roomsync.Encryption.Signal

open Roomsync.Lib SignalSession

variable {kdf : HKDF} {aesgcm : AESGCM}

namespace SignalSession

structure Below (kdf : HKDF) (secret : Bytes) (s : SignalSession) : Prop where
  localKey : Kdf.Below kdf secret s.localRatchet.chainKey
  remoteKey : Kdf.Below kdf secret s.remoteRatchet.chainKey

theorem below_fromX3dh (kdf : HKDF) (sharedSecret : Bytes) :
    (fromX3dh kdf sharedSecret).Below kdf sharedSecret :=
  ⟨Kdf.Below.next .refl _, Kdf.Below.next .refl _⟩

end SignalSession

theorem below_messageKeyAt {secret chainKey : Bytes} (h : Kdf.Below kdf secret chainKey) :
    Kdf.Below kdf secret (messageKeyAt kdf chainKey 0) :=
  (h.next _).next _

theorem below_advance {secret : Bytes} {r : DoubleRatchetSession}
    (h : Kdf.Below kdf secret r.chainKey) : Kdf.Below kdf secret (r.advance kdf).chainKey :=
  h.next _

namespace Call

def SealedByParty (kdf : HKDF) (secret : Bytes) (events : List Event)
    (s : Sealing Bytes Bytes Bytes Bytes) : Prop :=
  ∃ who plaintext nonce, Event.encrypt who plaintext nonce ∈ events ∧
    Kdf.Below kdf secret s.key ∧ s.nonce = nonce.bytes ∧ s.data = pad (truncate plaintext)

structure ShutOut (kdf : HKDF) (secret : Bytes) (events : List Event) (c : Call) : Prop where
  session : ∀ who, (c.session who).Below kdf secret
  sealed : ∀ s ∈ c.sealings, SealedByParty kdf secret events s ∨
    Event.outside s.key s.nonce s.data ∈ events
  accepted : ∀ who frame v, (frame, .ok v) ∈ c.received who →
    ∃ sender plaintext nonce, Event.encrypt sender plaintext nonce ∈ events ∧
      frame.take nonceSize = nonce.bytes ∧ v = plaintext.take 227

variable {secret : Bytes} {known : Set Bytes} {events : List Event} {c : Call}

namespace ShutOut

theorem update (h : c.ShutOut kdf secret events) (who : Party) {s : SignalSession}
    (hs : s.Below kdf secret) : ∀ p, (Function.update c.session who s p).Below kdf secret :=
  (Function.forall_update_iff c.session fun _ t => t.Below kdf secret).mpr
    ⟨hs, fun p _ => h.session p⟩

theorem encrypt (h : c.ShutOut kdf secret events) {who : Party} {plaintext : Bytes}
    {nonce : Nonce} (hcall : Event.encrypt who plaintext nonce ∈ events) :
    (c.step kdf aesgcm (.encrypt who plaintext nonce)).ShutOut kdf secret events := by
  have hwho := h.session who
  rw [step_encrypt]
  refine ⟨h.update who ⟨below_advance hwho.localKey, hwho.remoteKey⟩, fun s hs => ?_, h.accepted⟩
  rcases List.mem_append.mp hs with hold | hnew
  · exact h.sealed s hold
  · obtain rfl := List.mem_singleton.mp hnew
    exact .inl ⟨who, plaintext, nonce, hcall, below_messageKeyAt hwho.localKey, rfl, rfl⟩

theorem decrypt (h : c.ShutOut kdf secret events) (hhides : Kdf.Hides kdf known secret)
    (hinj : Kdf.Injective kdf)
    (houtside : ∀ key nonce data, Event.outside key nonce data ∈ events →
      Kdf.Derivable kdf known key)
    {who : Party} {wireFrame : Bytes} (hlength : wireFrame.length = frameWireSize)
    (hauth : c.Authentic kdf aesgcm (.decrypt who wireFrame)) :
    (c.step kdf aesgcm (.decrypt who wireFrame)).ShutOut kdf secret events := by
  have hwho := h.session who
  have hkey : Kdf.Below kdf secret (c.receiveKey kdf who) := below_messageKeyAt hwho.remoteKey
  rw [step_decrypt_of_length c who hlength]
  refine ⟨h.update who ⟨hwho.localKey, below_advance hwho.remoteKey⟩, h.sealed,
    fun p frame v hv => ?_⟩
  dsimp only at hv
  by_cases hp : p = who
  · subst hp
    rw [Function.update_self, List.mem_append, List.mem_singleton] at hv
    rcases hv with hold | hnew
    · exact h.accepted p frame v hold
    · obtain ⟨rfl, hopened⟩ := Prod.mk.inj hnew
      cases hdecrypt : aesgcm.decrypt (c.receiveKey kdf p) (frame.take nonceSize)
          (frame.drop nonceSize) with
      | none =>
          rw [openFrame_of_rejected hdecrypt] at hopened
          exact absurd hopened nofun
      | some data =>
          rcases h.sealed _ (hauth hlength data hdecrypt) with
            ⟨sender, plaintext, nonce, hcall, -, hnonce, hdata⟩ | hforged
          · rw [openFrame_of_decrypt (hdecrypt.trans (congrArg some hdata))] at hopened
            exact ⟨sender, plaintext, nonce, hcall, hnonce, Except.ok.inj hopened⟩
          · exact absurd (houtside _ _ _ hforged) (hhides.not_derivable_of_below hinj hkey)
  · rw [Function.update_of_ne hp] at hv
    exact h.accepted p frame v hv

theorem step (h : c.ShutOut kdf secret events) (hhides : Kdf.Hides kdf known secret)
    (hinj : Kdf.Injective kdf)
    (houtside : ∀ key nonce data, Event.outside key nonce data ∈ events →
      Kdf.Derivable kdf known key)
    {e : Event} (he : e ∈ events) (hauth : c.Authentic kdf aesgcm e) :
    (c.step kdf aesgcm e).ShutOut kdf secret events := by
  cases e with
  | encrypt who plaintext nonce => exact h.encrypt he
  | decrypt who wireFrame =>
      by_cases hlength : wireFrame.length = frameWireSize
      · exact h.decrypt hhides hinj houtside hlength hauth
      · rw [step_decrypt_of_length_ne c who hlength]
        exact h
  | outside key nonce data =>
      refine ⟨h.session, fun s hs => ?_, h.accepted⟩
      rcases List.mem_append.mp hs with hold | hnew
      · exact h.sealed s hold
      · obtain rfl := List.mem_singleton.mp hnew
        exact .inr he

end ShutOut

theorem shutOut_start {session : Party → SignalSession}
    (hsession : ∀ who, (session who).Below kdf secret) (events : List Event) :
    (start session).ShutOut kdf secret events :=
  ⟨hsession, fun _ hs => absurd hs List.not_mem_nil, fun _ _ _ hv => absurd hv List.not_mem_nil⟩

/-- Where the network does not know the shared secret of a call, and seals what it seals under
keys that it can derive: what it opens under such a key was sealed by nobody but itself, and what
the parties accept they have sealed themselves. -/
theorem outsiders_shut_out (hinj : Kdf.Injective kdf) (hhides : Kdf.Hides kdf known secret)
    (session : Party → SignalSession) (hsession : ∀ who, (session who).Below kdf secret)
    (events : List Event)
    (houtside : ∀ key nonce data, Event.outside key nonce data ∈ events →
      Kdf.Derivable kdf known key)
    (hauth : (start session).AuthenticPlay kdf aesgcm events) :
    (∀ key nonce ciphertext data, Kdf.Derivable kdf known key →
      aesgcm.Authentic ((start session).play kdf aesgcm events).sealings key nonce ciphertext →
      aesgcm.decrypt key nonce ciphertext = some data → Event.outside key nonce data ∈ events) ∧
    ∀ who frame v, (frame, .ok v) ∈ ((start session).play kdf aesgcm events).received who →
      ∃ sender plaintext nonce, Event.encrypt sender plaintext nonce ∈ events ∧
        frame.take nonceSize = nonce.bytes ∧ v = plaintext.take 227 := by
  have h : ((start session).play kdf aesgcm events).ShutOut kdf secret events := by
    apply foldl_invariant _ (shutOut_start hsession events) hauth
    intro c e he hc hauth'
    exact hc.step hhides hinj houtside he hauth'
  refine ⟨fun key nonce ciphertext data hkey hauth' hopened => ?_, h.accepted⟩
  rcases h.sealed _ (hauth' data hopened) with ⟨-, -, -, -, hbelow, -⟩ | houtsider
  · exact absurd hkey (hhides.not_derivable_of_below hinj hbelow)
  · exact houtsider

theorem symbolicHkdf_not_below {b b' : UInt8} (h : b ≠ b') :
    ¬ Kdf.Below symbolicHkdf [b] [b'] := by
  intro hbelow
  rcases Relation.ReflTransGen.cases_tail hbelow with heq | ⟨key, -, params, hkey⟩
  · exact h (List.cons.inj heq).1.symm
  · exact symbolicHkdf_ne_singleton key params b' hkey

theorem symbolicHkdf_hides {b b' : UInt8} (h : b ≠ b') :
    Kdf.Hides symbolicHkdf {[b]} [b'] where
  not_below := by
    rintro _ rfl
    exact symbolicHkdf_not_below h.symm
  not_derivable := by
    rw [Kdf.derivable_singleton_iff]
    exact symbolicHkdf_not_below h

/-- The two ends of a call, the second with the directions swapped. -/
def swappedSession : Party → SignalSession
  | .alice => fromX3dh symbolicHkdf [7]
  | .bob => ⟨(fromX3dh symbolicHkdf [7]).remoteRatchet, (fromX3dh symbolicHkdf [7]).localRatchet⟩

def swappedKey : Bytes :=
  messageKeyAt symbolicHkdf (fromX3dh symbolicHkdf [7]).localRatchet.chainKey 0

def watchedCall : List Event :=
  [.outside [9] [1] [2], .encrypt .alice [5] .zero,
    .decrypt .bob (sealFrame symbolicAesgcm swappedKey [5] .zero)]

theorem outsiders_shut_out_symbolic :
    (∀ key nonce ciphertext data, Kdf.Derivable symbolicHkdf {[9]} key →
      symbolicAesgcm.Authentic
        ((start swappedSession).play symbolicHkdf symbolicAesgcm watchedCall).sealings key nonce
        ciphertext →
      symbolicAesgcm.decrypt key nonce ciphertext = some data →
      Event.outside key nonce data ∈ watchedCall) ∧
    ∀ who frame v, (frame, .ok v) ∈
        ((start swappedSession).play symbolicHkdf symbolicAesgcm watchedCall).received who →
      ∃ sender plaintext nonce, Event.encrypt sender plaintext nonce ∈ watchedCall ∧
        frame.take nonceSize = nonce.bytes ∧ v = plaintext.take 227 := by
  have hbelow := below_fromX3dh symbolicHkdf [7]
  have hhides := symbolicHkdf_hides (by decide : (9 : UInt8) ≠ 7)
  apply outsiders_shut_out symbolicHkdf_free.injective hhides swappedSession
  · intro who
    cases who with
    | alice => exact hbelow
    | bob => exact ⟨hbelow.remoteKey, hbelow.localKey⟩
  · intro key nonce data hmem
    have heq : key = [9] ∧ nonce = [1] ∧ data = [2] := by
      simpa [watchedCall] using hmem
    exact heq.1 ▸ .known rfl
  · refine ⟨trivial, trivial, fun _ => ?_, trivial⟩
    exact symbolicAesgcm_lawful.correct.authentic
      (List.mem_append_right _ (List.mem_singleton_self _))

end Call

end Roomsync.Encryption.Signal
