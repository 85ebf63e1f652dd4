import Roomsync.Encryption.Crypto
import Roomsync.Lib.Python
/-!
# The 1-on-1 session

`encryption/signal/session.py`: the symmetric ratchet, the session with its two
ratchets, and the 256-byte frames.  The random nonce that `encrypt` draws from
`os.urandom` is an argument of the model.
-/

namespace Roomsync.Encryption.Signal

open Roomsync.Lib

def frameWireSize : ℕ := 256
def nonceSize : ℕ := 12
def tagSize : ℕ := 16
def maxPlaintext : ℕ := frameWireSize - nonceSize - tagSize

/-- A value of `os.urandom(NONCE_SIZE)`. -/
structure Nonce where
  bytes : Bytes
  length_bytes : bytes.length = nonceSize

attribute [simp] Nonce.length_bytes

def Nonce.zero : Nonce := ⟨List.replicate nonceSize 0, rfl⟩

variable (kdf : HKDF) (aesgcm : AESGCM)

def hkdf (keyMaterial infoSuffix saltStr : Bytes) (length : ℕ) : Bytes :=
  kdf keyMaterial { length := length, salt := saltStr, info := infoSuffix }

structure DoubleRatchetSession where
  chainKey : Bytes
  msgIdx : ℕ := 0
  deriving DecidableEq

/-- The message key is derived from the chain key after the advance. -/
def DoubleRatchetSession.nextMessageKey (s : DoubleRatchetSession) :
    Bytes × DoubleRatchetSession :=
  let chainKey := hkdf kdf s.chainKey [0x01] [0x63, 0x68, 0x61, 0x69, 0x6e] 32  -- b"chain"
  let msgKey := hkdf kdf chainKey [0x02] [0x6d, 0x73, 0x67] 32                  -- b"msg"
  (msgKey, { chainKey := chainKey, msgIdx := s.msgIdx + 1 })

structure SignalSession where
  localRatchet : DoubleRatchetSession
  remoteRatchet : DoubleRatchetSession
  deriving DecidableEq

namespace SignalSession

def fromX3dh (sharedSecret : Bytes) : SignalSession :=
  -- b"send", b"recv" and b"rootkey"
  let sendCk := hkdf kdf sharedSecret [0x73, 0x65, 0x6e, 0x64]
    [0x72, 0x6f, 0x6f, 0x74, 0x6b, 0x65, 0x79] 32
  let recvCk := hkdf kdf sharedSecret [0x72, 0x65, 0x63, 0x76]
    [0x72, 0x6f, 0x6f, 0x74, 0x6b, 0x65, 0x79] 32
  { localRatchet := { chainKey := sendCk }, remoteRatchet := { chainKey := recvCk } }

def truncate (plaintext : Bytes) : Bytes :=
  if plaintext.length > maxPlaintext - 1 then plaintext.take (maxPlaintext - 1) else plaintext

/-- Length byte, plaintext, zero padding. -/
def pad (plaintext : Bytes) : Bytes :=
  [UInt8.ofNat plaintext.length] ++ plaintext ++
    List.replicate (maxPlaintext - 1 - plaintext.length) 0

def localNextMessageKey : Method SignalSession Bytes :=
  modifyGet fun s =>
    ((s.localRatchet.nextMessageKey kdf).1,
      { s with localRatchet := (s.localRatchet.nextMessageKey kdf).2 })

def remoteNextMessageKey : Method SignalSession Bytes :=
  modifyGet fun s =>
    ((s.remoteRatchet.nextMessageKey kdf).1,
      { s with remoteRatchet := (s.remoteRatchet.nextMessageKey kdf).2 })

def encrypt (plaintext : Bytes) (nonce : Nonce) : Method SignalSession Bytes := do
  let padded := pad (truncate plaintext)
  let key ← localNextMessageKey kdf
  let ct := aesgcm.encrypt key nonce.bytes padded
  let wire := nonce.bytes ++ ct
  if wire.length ≠ frameWireSize then
    throw (.runtimeError s!"Invariant violated: wire size {wire.length} != {frameWireSize}")
  return wire

def decrypt (wireFrame : Bytes) : Method SignalSession Bytes := do
  if wireFrame.length ≠ frameWireSize then
    throw (.valueError s!"Invalid frame size: {wireFrame.length}")
  let nonce := wireFrame.take nonceSize
  let ct := wireFrame.drop nonceSize
  let key ← remoteNextMessageKey kdf
  let padded ← Method.ofOption .invalidTag (aesgcm.decrypt key nonce ct)
  let length ← Method.ofOption .indexError padded.head?
  return (padded.drop 1).take length.toNat

end SignalSession

/-! ## What the methods do

The keys of a ratchet are the positions of a chain and the keys branching off
it.  `encrypt` and `decrypt` advance one ratchet and put a frame together or take
it apart; nothing below this section unfolds them again.
-/

def chainParams : HkdfParams := ⟨32, [0x63, 0x68, 0x61, 0x69, 0x6e], [0x01]⟩
def msgParams : HkdfParams := ⟨32, [0x6d, 0x73, 0x67], [0x02]⟩

theorem msgParams_ne_chainParams : msgParams ≠ chainParams := by
  intro h
  exact absurd (congrArg HkdfParams.info h) (by decide)

def chainKeyAt (chainKey : Bytes) (n : ℕ) : Bytes := Kdf.chain kdf chainParams n chainKey

/-- The key that call number `n` (from zero) of `next_message_key` returns. -/
def messageKeyAt (chainKey : Bytes) (n : ℕ) : Bytes :=
  kdf (chainKeyAt kdf chainKey (n + 1)) msgParams

@[simp] theorem chainKeyAt_zero (chainKey : Bytes) : chainKeyAt kdf chainKey 0 = chainKey := rfl

theorem chainKeyAt_succ (chainKey : Bytes) (n : ℕ) :
    chainKeyAt kdf chainKey (n + 1) = kdf (chainKeyAt kdf chainKey n) chainParams :=
  Kdf.chain_succ _ _ _

theorem messageKeyAt_injective {kdf : HKDF} (hfree : Kdf.Free kdf) (chainKey : Bytes) :
    Function.Injective (messageKeyAt kdf chainKey) := by
  intro m n h
  have hchain := (hfree.injective h).1
  have hsucc := Kdf.chain_injective hfree chainParams chainKey hchain
  omega

theorem messageKeyAt_ne {kdf : HKDF} (hinj : Kdf.Injective kdf) {root root' : Bytes}
    (hne : root ≠ root') (hout : ∀ key, kdf key chainParams ≠ root)
    (hout' : ∀ key, kdf key chainParams ≠ root') (m n : ℕ) :
    messageKeyAt kdf root m ≠ messageKeyAt kdf root' n := by
  intro h
  have hchain := (hinj h).1
  exact Kdf.chain_ne_chain hinj hne hout hout' (m + 1) (n + 1) hchain

namespace DoubleRatchetSession

def advance (s : DoubleRatchetSession) : DoubleRatchetSession :=
  ⟨chainKeyAt kdf s.chainKey 1, s.msgIdx + 1⟩

@[simp] theorem msgIdx_advance (s : DoubleRatchetSession) :
    (s.advance kdf).msgIdx = s.msgIdx + 1 := rfl

theorem chainKey_advance (s : DoubleRatchetSession) :
    (s.advance kdf).chainKey = chainKeyAt kdf s.chainKey 1 := rfl

theorem nextMessageKey_eq (s : DoubleRatchetSession) :
    s.nextMessageKey kdf = (messageKeyAt kdf s.chainKey 0, s.advance kdf) := rfl

theorem messageKeyAt_of_chainKey {s : DoubleRatchetSession} {root : Bytes} {n : ℕ}
    (h : s.chainKey = chainKeyAt kdf root n) :
    messageKeyAt kdf s.chainKey 0 = messageKeyAt kdf root n := by
  simp only [messageKeyAt, chainKeyAt_succ, chainKeyAt_zero, h]

theorem chainKey_advance_of_chainKey {s : DoubleRatchetSession} {root : Bytes} {n : ℕ}
    (h : s.chainKey = chainKeyAt kdf root n) :
    (s.advance kdf).chainKey = chainKeyAt kdf root (n + 1) := by
  rw [chainKey_advance, chainKeyAt_succ, chainKeyAt_succ, chainKeyAt_zero, h]

end DoubleRatchetSession

namespace SignalSession

def sealFrame (key plaintext : Bytes) (nonce : Nonce) : Bytes :=
  nonce.bytes ++ aesgcm.encrypt key nonce.bytes (pad (truncate plaintext))

def sealAnswer (key plaintext : Bytes) (nonce : Nonce) : Except PyError Bytes :=
  let wire := sealFrame aesgcm key plaintext nonce
  if wire.length = frameWireSize then .ok wire
  else .error (.runtimeError s!"Invariant violated: wire size {wire.length} != {frameWireSize}")

def openFrame (key wireFrame : Bytes) : Except PyError Bytes :=
  match aesgcm.decrypt key (wireFrame.take nonceSize) (wireFrame.drop nonceSize) with
  | none => .error .invalidTag
  | some [] => .error .indexError
  | some (length :: rest) => .ok (rest.take length.toNat)

theorem call_localNextMessageKey (s : SignalSession) :
    (localNextMessageKey kdf).call s =
      (.ok (messageKeyAt kdf s.localRatchet.chainKey 0),
        { s with localRatchet := s.localRatchet.advance kdf }) := rfl

theorem call_remoteNextMessageKey (s : SignalSession) :
    (remoteNextMessageKey kdf).call s =
      (.ok (messageKeyAt kdf s.remoteRatchet.chainKey 0),
        { s with remoteRatchet := s.remoteRatchet.advance kdf }) := rfl

theorem call_encrypt (plaintext : Bytes) (nonce : Nonce) (s : SignalSession) :
    (encrypt kdf aesgcm plaintext nonce).call s =
      (sealAnswer aesgcm (messageKeyAt kdf s.localRatchet.chainKey 0) plaintext nonce,
        { s with localRatchet := s.localRatchet.advance kdf }) := by
  unfold encrypt sealAnswer sealFrame
  rw [Method.call_bind_ok (call_localNextMessageKey kdf s)]
  dsimp only
  generalize nonce.bytes ++ aesgcm.encrypt (messageKeyAt kdf s.localRatchet.chainKey 0)
    nonce.bytes (pad (truncate plaintext)) = wire
  by_cases h : wire.length = frameWireSize
  · simp [h]
  · simp [h]

theorem call_decrypt_of_length_ne {wireFrame : Bytes} (h : wireFrame.length ≠ frameWireSize)
    (s : SignalSession) :
    (decrypt kdf aesgcm wireFrame).call s =
      (.error (.valueError s!"Invalid frame size: {wireFrame.length}"), s) := by
  unfold decrypt
  simp [h]

theorem call_decrypt_of_length {wireFrame : Bytes} (h : wireFrame.length = frameWireSize)
    (s : SignalSession) :
    (decrypt kdf aesgcm wireFrame).call s =
      (openFrame aesgcm (messageKeyAt kdf s.remoteRatchet.chainKey 0) wireFrame,
        { s with remoteRatchet := s.remoteRatchet.advance kdf }) := by
  unfold decrypt openFrame
  simp only [h, ne_eq, not_true_eq_false, if_false]
  rw [Method.call_bind_ok (call_remoteNextMessageKey kdf s)]
  rcases aesgcm.decrypt _ _ _ with _ | _ | ⟨length, rest⟩ <;> simp

end SignalSession

end Roomsync.Encryption.Signal
