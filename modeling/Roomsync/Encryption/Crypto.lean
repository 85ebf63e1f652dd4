import Roomsync.Lib.Aead
import Roomsync.Lib.Bytes
import Roomsync.Lib.Kdf
/-!
# The cryptographic primitives the sessions call

HKDF and AES-GCM come from the `cryptography` package and HMAC-SHA256 from the
standard library.  The sessions are modelled over arbitrary functions of these
shapes; what a result needs of them is a hypothesis with a name.

The symbolic instance at the end satisfies all of these hypotheses at once and
can be computed with.
-/

namespace Roomsync.Encryption

open Roomsync.Lib

/-- The arguments of the `HKDF(...)` constructor, its hash being SHA-256. -/
structure HkdfParams where
  length : ℕ
  salt : Bytes
  info : Bytes

/-- `HKDF(...).derive(key_material)`. -/
abbrev HKDF := Bytes → HkdfParams → Bytes

/-- `AESGCM(key).encrypt(nonce, data, None)` and `AESGCM(key).decrypt(nonce, data, None)`. -/
abbrev AESGCM := Aead Bytes Bytes Bytes Bytes

/-- `hmac.new(key, message, hashlib.sha256).digest()`. -/
abbrev HMAC := Bytes → Bytes → Bytes

/-- What AES-GCM does for honest callers: it decrypts what it encrypted, and
appends a 16-byte tag. -/
structure AESGCM.Lawful (aesgcm : AESGCM) : Prop where
  correct : aesgcm.Correct
  length_encrypt : ∀ key nonce data,
    (aesgcm.encrypt key nonce data).length = data.length + 16

def AESGCM.TagStripped (aesgcm : AESGCM) : Prop :=
  ∀ key nonce ciphertext data, aesgcm.decrypt key nonce ciphertext = some data →
    ciphertext.length = data.length + 16

/-- No two of these messages have the same digest under this key. -/
def HMAC.CollisionFreeOn (hmac : HMAC) (key : Bytes) (messages : Set Bytes) : Prop :=
  Set.InjOn (hmac key) messages

/-! ## The symbolic instance -/

/-- A self-delimiting copy of `b`: its length in unary, a zero, then `b`. -/
def delimited (b : Bytes) : Bytes := List.replicate b.length 1 ++ 0 :: b

theorem replicate_append_zero_inj {m n : ℕ} {x y : Bytes}
    (h : List.replicate m 1 ++ 0 :: x = List.replicate n 1 ++ 0 :: y) :
    m = n ∧ x = y := by
  induction m generalizing n with
  | zero =>
      cases n with
      | zero => exact ⟨rfl, by simpa using h⟩
      | succ n => simp [List.replicate_succ] at h
  | succ m ih =>
      cases n with
      | zero => simp [List.replicate_succ] at h
      | succ n =>
          have htail := ih (n := n) (by simpa [List.replicate_succ] using h)
          exact ⟨by rw [htail.1], htail.2⟩

theorem delimited_append_inj {a b x y : Bytes}
    (h : delimited a ++ x = delimited b ++ y) : a = b ∧ x = y := by
  simp only [delimited, List.append_assoc, List.cons_append] at h
  obtain ⟨hlength, hrest⟩ := replicate_append_zero_inj h
  exact List.append_inj hrest hlength

/-- A derived key is its parameters, spelled out, in front of the old key. -/
def symbolicHkdf : HKDF := fun key p =>
  delimited p.salt ++ (delimited p.info ++ (List.replicate p.length 1 ++ 0 :: key))

theorem symbolicHkdf_free : Kdf.Free symbolicHkdf where
  injective := by
    rintro k k' ⟨length, salt, info⟩ ⟨length', salt', info'⟩ h
    obtain ⟨rfl, h⟩ := delimited_append_inj h
    obtain ⟨rfl, h⟩ := delimited_append_inj h
    obtain ⟨rfl, rfl⟩ := replicate_append_zero_inj h
    exact ⟨rfl, rfl⟩
  acyclic := by
    apply Kdf.acyclic_of_rank List.length
    intro key p
    simp only [symbolicHkdf, delimited, List.length_append, List.length_cons,
      List.length_replicate]
    omega

theorem symbolicHkdf_ne_singleton (key : Bytes) (p : HkdfParams) (b : UInt8) :
    symbolicHkdf key p ≠ [b] := by
  intro h
  have hlength := congrArg List.length h
  simp only [symbolicHkdf, delimited, List.length_append, List.length_cons,
    List.length_replicate, List.length_nil] at hlength
  omega

def symbolicTag (key : Bytes) : Bytes :=
  bigEndian 16 (key.foldl (fun acc b => (257 * acc + b.toNat + 1) % 256 ^ 16) 0)

def symbolicAesgcm : AESGCM where
  encrypt key _ data := data ++ symbolicTag key
  decrypt key _ data :=
    if data.drop (data.length - 16) = symbolicTag key then
      some (data.take (data.length - 16))
    else none

theorem symbolicAesgcm_lawful : AESGCM.Lawful symbolicAesgcm where
  correct := by
    intro key nonce data
    simp [symbolicAesgcm, symbolicTag]
  length_encrypt := by
    intro key nonce data
    simp [symbolicAesgcm, symbolicTag]

theorem symbolicAesgcm_tagStripped : AESGCM.TagStripped symbolicAesgcm := by
  intro key nonce ciphertext data h
  have htag : (symbolicTag key).length = 16 := length_bigEndian _ _
  simp only [symbolicAesgcm] at h
  split at h
  · rename_i hdrop
    have hlength := congrArg List.length hdrop
    have hdata := congrArg List.length (Option.some.inj h)
    rw [List.length_drop, htag] at hlength
    rw [List.length_take] at hdata
    omega
  · exact absurd h (by simp)

theorem symbolicAesgcm_decrypt_encrypt_of_ne {key key' : Bytes}
    (h : symbolicTag key ≠ symbolicTag key') (nonce nonce' data : Bytes) :
    symbolicAesgcm.decrypt key' nonce' (symbolicAesgcm.encrypt key nonce data) = none := by
  have hlength : (symbolicTag key).length = 16 := length_bigEndian _ _
  simp [symbolicAesgcm, hlength, h]

def symbolicHmac : HMAC := fun key message => delimited key ++ message

theorem symbolicHmac_collisionFreeOn (key : Bytes) (messages : Set Bytes) :
    HMAC.CollisionFreeOn symbolicHmac key messages :=
  fun _ _ _ _ h => (delimited_append_inj h).2

end Roomsync.Encryption
