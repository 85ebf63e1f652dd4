import Roomsync.Encryption.Crypto
import Roomsync.Lib.Dict
import Roomsync.Lib.Python
import Mathlib.Data.List.DropRight
/-!
# The group session

`encryption/mls/group.py`: the members, the epoch key that every change of the
membership derives anew, and the 256-byte frames whose nonce is made of the epoch
and the sender's own counter.
-/

namespace Roomsync.Encryption.Mls

open Roomsync.Lib

def nonceSize : ℕ := 12
def tagSize : ℕ := 16
def frameWireSize : ℕ := 256
def maxPlaintext : ℕ := frameWireSize - nonceSize - tagSize
def maxMembers : ℕ := 50

variable (hmac : HMAC) (aesgcm : AESGCM)

def deriveEpochKey (initSecret : Bytes) (memberIds : List Bytes) : Bytes :=
  let joined := (sorted memberIds).flatten
  hmac initSecret joined

/-- `struct.pack(">IQ", epoch, seq)`; `none` is `struct.error`. -/
def seqNonce (epoch seq : ℤ) : Option Bytes := do
  let high ← packUnsigned 4 epoch
  let low ← packUnsigned 8 seq
  return high ++ low

structure MLSGroupSession where
  groupId : Bytes
  initSecret : Bytes
  members : Dict PyStr Bytes
  epoch : ℕ
  epochKey : Bytes
  sendSeq : ℕ

namespace MLSGroupSession

/-- The constructor with `__post_init__`, which ignores the members given. -/
def new (groupId initSecret : Bytes) (members : Dict PyStr Bytes) : MLSGroupSession where
  groupId := groupId
  initSecret := initSecret
  members := members
  epoch := 0
  epochKey := deriveEpochKey hmac initSecret []
  sendSeq := 0

def rotateEpoch : Method MLSGroupSession Unit := do
  let s ← get
  let memberIds ← Method.ofOption .unicodeEncodeError (s.members.keys.mapM PyStr.encode)
  set { s with
    epochKey := deriveEpochKey hmac s.initSecret memberIds
    epoch := s.epoch + 1
    sendSeq := 0 }

def addMember (memberId : PyStr) (publicKey : Bytes) : Method MLSGroupSession Unit := do
  let s ← get
  if s.members.size ≥ maxMembers then
    throw (.overflowError s!"Group size limit is {maxMembers}")
  set { s with members := s.members.set memberId publicKey }
  rotateEpoch hmac

def removeMember (memberId : PyStr) : Method MLSGroupSession Unit := do
  modify fun s => { s with members := s.members.pop memberId }
  rotateEpoch hmac

def truncate (plaintext : Bytes) : Bytes :=
  if plaintext.length > maxPlaintext then plaintext.take maxPlaintext else plaintext

def pad (plaintext : Bytes) : Bytes :=
  plaintext ++ List.replicate (maxPlaintext - plaintext.length) 0

def encrypt (plaintext : Bytes) : Method MLSGroupSession Bytes := do
  let padded := pad (truncate plaintext)
  let s ← get
  let nonce ← Method.ofOption .structError (seqNonce s.epoch s.sendSeq)
  set { s with sendSeq := s.sendSeq + 1 }
  let ct := aesgcm.encrypt s.epochKey nonce padded
  return nonce ++ ct

def decrypt (wireFrame : Bytes) (senderEpoch senderSeq : ℤ) : Method MLSGroupSession Bytes := do
  if wireFrame.length ≠ frameWireSize then
    throw (.valueError s!"Bad frame size {wireFrame.length}")
  let s ← get
  let nonce ← Method.ofOption .structError (seqNonce senderEpoch senderSeq)
  let ct := wireFrame.drop nonceSize
  let padded ← Method.ofOption .invalidTag (aesgcm.decrypt s.epochKey nonce ct)
  return padded.rdropWhile (· = 0)

end MLSGroupSession

/-! ## What the methods do

A change of the membership rotates the epoch or raises, and then the epoch stays.
The frame methods leave everything but the send counter alone.
-/

theorem seqNonce_eq_some_iff (epoch seq : ℕ) (nonce : Bytes) :
    seqNonce epoch seq = some nonce ↔
      epoch < 2 ^ 32 ∧ seq < 2 ^ 64 ∧ bigEndian 4 epoch ++ bigEndian 8 seq = nonce := by
  unfold seqNonce
  by_cases hepoch : epoch < 2 ^ 32
  · rw [packUnsigned_natCast 4 hepoch]
    by_cases hseq : seq < 2 ^ 64
    · rw [packUnsigned_natCast 8 hseq]
      simp only [hepoch, hseq, true_and, Option.bind_eq_bind, Option.bind_some, Option.pure_def,
        Option.some.injEq]
    · rw [packUnsigned_natCast_of_le 8 (Nat.le_of_not_lt hseq)]
      simp only [hseq, false_and, and_false, Option.bind_eq_bind, Option.bind_some,
        Option.bind_none, reduceCtorEq]
  · rw [packUnsigned_natCast_of_le 4 (Nat.le_of_not_lt hepoch)]
    simp only [hepoch, false_and, Option.bind_eq_bind, Option.bind_none, reduceCtorEq]

theorem length_of_seqNonce {epoch seq : ℕ} {nonce : Bytes}
    (h : seqNonce epoch seq = some nonce) : nonce.length = nonceSize := by
  obtain ⟨-, -, rfl⟩ := (seqNonce_eq_some_iff epoch seq nonce).mp h
  rw [List.length_append, length_bigEndian, length_bigEndian]
  rfl

theorem seqNonce_inj {epoch epoch' seq seq' : ℕ} {nonce : Bytes}
    (h : seqNonce epoch seq = some nonce) (h' : seqNonce epoch' seq' = some nonce) :
    epoch = epoch' ∧ seq = seq' := by
  obtain ⟨hepoch, hseq, hnonce⟩ := (seqNonce_eq_some_iff epoch seq nonce).mp h
  obtain ⟨hepoch', hseq', hnonce'⟩ := (seqNonce_eq_some_iff epoch' seq' nonce).mp h'
  have hparts := List.append_inj (hnonce.trans hnonce'.symm) (by simp)
  exact ⟨bigEndian_inj hepoch hepoch' hparts.1, bigEndian_inj hseq hseq' hparts.2⟩

inductive Change
  | add (memberId : PyStr) (publicKey : Bytes)
  | remove (memberId : PyStr)

namespace Change

def apply : Change → Method MLSGroupSession Unit
  | .add memberId publicKey => MLSGroupSession.addMember hmac memberId publicKey
  | .remove memberId => MLSGroupSession.removeMember hmac memberId

def Fits (members : Dict PyStr Bytes) : Change → Prop
  | .add _ _ => members.size < maxMembers
  | .remove _ => True

def update (members : Dict PyStr Bytes) : Change → Dict PyStr Bytes
  | .add memberId publicKey => members.set memberId publicKey
  | .remove memberId => members.pop memberId

end Change

namespace MLSGroupSession

def encodedIds (members : Dict PyStr Bytes) : Option (List Bytes) :=
  members.keys.mapM PyStr.encode

def rotated (s : MLSGroupSession) (members : Dict PyStr Bytes) (memberIds : List Bytes) :
    MLSGroupSession :=
  { s with
    members := members
    epochKey := deriveEpochKey hmac s.initSecret memberIds
    epoch := s.epoch + 1
    sendSeq := 0 }

theorem call_rotateEpoch_of_some {s : MLSGroupSession} {memberIds : List Bytes}
    (h : encodedIds s.members = some memberIds) :
    (rotateEpoch hmac).call s = (.ok (), s.rotated hmac s.members memberIds) := by
  unfold encodedIds at h
  unfold rotateEpoch
  simp only [Method.call_bind, Method.call_get, h, Method.ofOption_some, Method.call_pure,
    Method.call_set]
  rfl

theorem call_rotateEpoch_of_none {s : MLSGroupSession} (h : encodedIds s.members = none) :
    (rotateEpoch hmac).call s = (.error .unicodeEncodeError, s) := by
  unfold encodedIds at h
  unfold rotateEpoch
  simp only [Method.call_bind, Method.call_get, h, Method.ofOption_none, Method.call_throw]

theorem call_addMember_of_full {s : MLSGroupSession} (h : maxMembers ≤ s.members.size)
    (memberId : PyStr) (publicKey : Bytes) :
    (addMember hmac memberId publicKey).call s =
      (.error (.overflowError s!"Group size limit is {maxMembers}"), s) := by
  unfold addMember
  simp [Method.call_bind, h]

theorem call_addMember_of_lt {s : MLSGroupSession} (h : s.members.size < maxMembers)
    (memberId : PyStr) (publicKey : Bytes) :
    (addMember hmac memberId publicKey).call s =
      (rotateEpoch hmac).call { s with members := s.members.set memberId publicKey } := by
  unfold addMember
  simp [Method.call_bind, Nat.not_le.mpr h]

theorem call_removeMember (s : MLSGroupSession) (memberId : PyStr) :
    (removeMember hmac memberId).call s =
      (rotateEpoch hmac).call { s with members := s.members.pop memberId } := rfl

end MLSGroupSession

namespace Change

theorem call_apply_of_not_fits {c : Change} {s : MLSGroupSession} (h : ¬ c.Fits s.members) :
    (c.apply hmac).call s =
      (.error (.overflowError s!"Group size limit is {maxMembers}"), s) := by
  cases c with
  | add memberId publicKey =>
      exact MLSGroupSession.call_addMember_of_full hmac (Nat.not_lt.mp h) memberId publicKey
  | remove memberId => exact absurd trivial h

theorem call_apply_of_fits {c : Change} {s : MLSGroupSession} (h : c.Fits s.members) :
    (c.apply hmac).call s =
      (MLSGroupSession.rotateEpoch hmac).call { s with members := c.update s.members } := by
  cases c with
  | add memberId publicKey =>
      exact MLSGroupSession.call_addMember_of_lt hmac h memberId publicKey
  | remove memberId => exact MLSGroupSession.call_removeMember hmac s memberId

theorem call_apply_of_encodable {c : Change} {s : MLSGroupSession} {memberIds : List Bytes}
    (hfits : c.Fits s.members)
    (hencode : MLSGroupSession.encodedIds (c.update s.members) = some memberIds) :
    (c.apply hmac).call s = (.ok (), s.rotated hmac (c.update s.members) memberIds) := by
  rw [call_apply_of_fits hmac hfits]
  exact MLSGroupSession.call_rotateEpoch_of_some hmac hencode

/-- The map is written before the ids are encoded. -/
theorem call_apply_of_unencodable {c : Change} {s : MLSGroupSession} (hfits : c.Fits s.members)
    (hencode : MLSGroupSession.encodedIds (c.update s.members) = none) :
    (c.apply hmac).call s =
      (.error .unicodeEncodeError, { s with members := c.update s.members }) := by
  rw [call_apply_of_fits hmac hfits]
  exact MLSGroupSession.call_rotateEpoch_of_none hmac hencode

theorem call_apply_cases (c : Change) (s : MLSGroupSession) :
    (∃ e members, (c.apply hmac).call s = (.error e, { s with members := members })) ∨
    (∃ memberIds, c.Fits s.members ∧
      MLSGroupSession.encodedIds (c.update s.members) = some memberIds ∧
      (c.apply hmac).call s = (.ok (), s.rotated hmac (c.update s.members) memberIds)) := by
  by_cases hfits : c.Fits s.members
  · cases hencode : MLSGroupSession.encodedIds (c.update s.members) with
    | none =>
        left
        exact ⟨_, _, call_apply_of_unencodable hmac hfits hencode⟩
    | some memberIds =>
        right
        exact ⟨memberIds, hfits, rfl, call_apply_of_encodable hmac hfits hencode⟩
  · left
    exact ⟨_, s.members, call_apply_of_not_fits hmac hfits⟩

end Change

namespace MLSGroupSession

theorem call_encrypt_of_some {s : MLSGroupSession} {nonce : Bytes}
    (h : seqNonce s.epoch s.sendSeq = some nonce) (plaintext : Bytes) :
    (encrypt aesgcm plaintext).call s =
      (.ok (nonce ++ aesgcm.encrypt s.epochKey nonce (pad (truncate plaintext))),
        { s with sendSeq := s.sendSeq + 1 }) := by
  unfold encrypt
  simp only [Method.call_bind, Method.call_get, h, Method.ofOption_some, Method.call_pure,
    Method.call_set]

theorem call_encrypt_of_none {s : MLSGroupSession} (h : seqNonce s.epoch s.sendSeq = none)
    (plaintext : Bytes) :
    (encrypt aesgcm plaintext).call s = (.error .structError, s) := by
  unfold encrypt
  simp only [Method.call_bind, Method.call_get, h, Method.ofOption_none, Method.call_throw]

theorem exec_encrypt_cases (s : MLSGroupSession) (plaintext : Bytes) :
    (encrypt aesgcm plaintext).exec s = s ∨
      (encrypt aesgcm plaintext).exec s = { s with sendSeq := s.sendSeq + 1 } := by
  cases hnonce : seqNonce s.epoch s.sendSeq with
  | none =>
      left
      exact Method.exec_of_call (call_encrypt_of_none aesgcm hnonce plaintext)
  | some nonce =>
      right
      exact Method.exec_of_call (call_encrypt_of_some aesgcm hnonce plaintext)

theorem exec_decrypt (wireFrame : Bytes) (senderEpoch senderSeq : ℤ) (s : MLSGroupSession) :
    (decrypt aesgcm wireFrame senderEpoch senderSeq).exec s = s := by
  unfold decrypt Method.exec
  by_cases hlength : wireFrame.length = frameWireSize
  · simp only [hlength, ne_eq, not_true_eq_false, if_false, Method.call_bind, Method.call_get,
      Method.call_pure]
    cases seqNonce senderEpoch senderSeq with
    | none => rfl
    | some nonce =>
        dsimp only [Method.ofOption_some, Method.call_pure]
        cases aesgcm.decrypt s.epochKey nonce (wireFrame.drop nonceSize) <;> rfl
  · simp [hlength]

theorem call_decrypt_of_some {s : MLSGroupSession} {wireFrame nonce padded : Bytes}
    {senderEpoch senderSeq : ℤ} (hlength : wireFrame.length = frameWireSize)
    (hnonce : seqNonce senderEpoch senderSeq = some nonce)
    (hopen : aesgcm.decrypt s.epochKey nonce (wireFrame.drop nonceSize) = some padded) :
    (decrypt aesgcm wireFrame senderEpoch senderSeq).call s =
      (.ok (padded.rdropWhile (· = 0)), s) := by
  unfold decrypt
  simp only [hlength, hnonce, hopen, ne_eq, not_true_eq_false, if_false, Method.call_bind,
    Method.call_get, Method.call_pure, Method.ofOption_some]

end MLSGroupSession

end Roomsync.Encryption.Mls
