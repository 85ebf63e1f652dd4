import Roomsync.Encryption.Signal.Session
import Roomsync.Lib.Run
/-!
# Frames and one-way streams

A frame carries the first 227 bytes of its plaintext and gives them back under
its own key.  Over a stream, `encrypt` seals frame after frame under the message
keys of its chain and `decrypt` opens frame after frame under the message keys of
its own (`sealFrom`, `openFrom`): the receiver's key for a frame depends on how
many frames came before it at the receiver.
-/

namespace Roomsync.Encryption.Signal

open Roomsync.Lib SignalSession

variable {kdf : HKDF} {aesgcm : AESGCM}

/-! ## One frame -/

theorem truncate_eq_take (plaintext : Bytes) : truncate plaintext = plaintext.take 227 := by
  unfold truncate
  split
  · rfl
  · rename_i h
    have hle : plaintext.length ≤ 227 := Nat.le_of_not_gt h
    rw [List.take_of_length_le hle]

theorem length_pad_truncate (plaintext : Bytes) : (pad (truncate plaintext)).length = 228 := by
  have hle : (truncate plaintext).length ≤ 227 := by
    rw [truncate_eq_take]
    exact List.length_take_le _ _
  simp only [pad, List.length_append, List.length_singleton, List.length_replicate, maxPlaintext,
    frameWireSize, nonceSize, tagSize]
  omega

theorem length_sealFrame (haes : aesgcm.Lawful) (key plaintext : Bytes) (nonce : Nonce) :
    (sealFrame aesgcm key plaintext nonce).length = frameWireSize := by
  unfold sealFrame
  rw [List.length_append, haes.length_encrypt, length_pad_truncate, Nonce.length_bytes]
  rfl

theorem sealAnswer_of_lawful (haes : aesgcm.Lawful) (key plaintext : Bytes) (nonce : Nonce) :
    sealAnswer aesgcm key plaintext nonce = .ok (sealFrame aesgcm key plaintext nonce) := by
  unfold sealAnswer
  exact if_pos (length_sealFrame haes key plaintext nonce)

@[simp] theorem take_sealFrame (key plaintext : Bytes) (nonce : Nonce) :
    (sealFrame aesgcm key plaintext nonce).take nonceSize = nonce.bytes :=
  List.take_left' nonce.length_bytes

@[simp] theorem drop_sealFrame (key plaintext : Bytes) (nonce : Nonce) :
    (sealFrame aesgcm key plaintext nonce).drop nonceSize =
      aesgcm.encrypt key nonce.bytes (pad (truncate plaintext)) :=
  List.drop_left' nonce.length_bytes

theorem openFrame_of_decrypt {key frame plaintext : Bytes}
    (h : aesgcm.decrypt key (frame.take nonceSize) (frame.drop nonceSize) =
      some (pad (truncate plaintext))) :
    openFrame aesgcm key frame = .ok (plaintext.take 227) := by
  unfold openFrame
  rw [h, truncate_eq_take]
  have hlt : (plaintext.take 227).length < 256 := by
    rw [List.length_take]
    omega
  have hlength : (UInt8.ofNat (plaintext.take 227).length).toNat =
      (plaintext.take 227).length := by
    rw [UInt8.toNat_ofNat', Nat.mod_eq_of_lt hlt]
  simp only [pad, List.cons_append, List.nil_append, hlength, List.take_left]

theorem openFrame_sealFrame (hcorrect : aesgcm.Correct) (key plaintext : Bytes)
    (nonce : Nonce) :
    openFrame aesgcm key (sealFrame aesgcm key plaintext nonce) =
      .ok (plaintext.take 227) := by
  apply openFrame_of_decrypt
  rw [take_sealFrame, drop_sealFrame, hcorrect]

theorem openFrame_of_rejected {key frame : Bytes}
    (h : aesgcm.decrypt key (frame.take nonceSize) (frame.drop nonceSize) = none) :
    openFrame aesgcm key frame = .error .invalidTag := by
  unfold openFrame
  rw [h]

theorem openFrame_sealFrame_of_ne {keys : Set Bytes} (hsep : aesgcm.Separates keys)
    {key key' : Bytes} (hkey : key ∈ keys) (hkey' : key' ∈ keys) (hne : key ≠ key')
    (plaintext : Bytes) (nonce : Nonce) :
    openFrame aesgcm key' (sealFrame aesgcm key plaintext nonce) = .error .invalidTag := by
  apply openFrame_of_rejected
  rw [take_sealFrame, drop_sealFrame]
  exact hsep key hkey key' hkey' hne _ _

/-! ## Streams -/

section Stream

variable (kdf aesgcm)

def encryptAll (s : SignalSession) (ps : List (Bytes × Nonce)) :
    List (Except PyError Bytes) × SignalSession :=
  run (fun s p => (encrypt kdf aesgcm p.1 p.2).call s) s ps

def decryptAll (s : SignalSession) (frames : List Bytes) :
    List (Except PyError Bytes) × SignalSession :=
  run (fun s frame => (decrypt kdf aesgcm frame).call s) s frames

def sealFrom (root : Bytes) : ℕ → List (Bytes × Nonce) → List Bytes
  | _, [] => []
  | n, p :: ps =>
      sealFrame aesgcm (messageKeyAt kdf root n) p.1 p.2 :: sealFrom root (n + 1) ps

def openFrom (root : Bytes) : ℕ → List Bytes → List (Except PyError Bytes)
  | _, [] => []
  | n, frame :: frames =>
      openFrame aesgcm (messageKeyAt kdf root n) frame :: openFrom root (n + 1) frames

end Stream

theorem length_of_mem_sealFrom (kdf : HKDF) (haes : aesgcm.Lawful) (root : Bytes) (n : ℕ)
    (ps : List (Bytes × Nonce)) :
    ∀ frame ∈ sealFrom kdf aesgcm root n ps, frame.length = frameWireSize := by
  induction ps generalizing n with
  | nil => simp [sealFrom]
  | cons p ps ih =>
      intro frame hframe
      rcases List.mem_cons.mp hframe with rfl | hframe
      · exact length_sealFrame haes _ _ _
      · exact ih (n + 1) frame hframe

theorem encryptAll_eq (haes : aesgcm.Lawful) {root : Bytes} {n : ℕ} {s : SignalSession}
    (hs : s.localRatchet.chainKey = chainKeyAt kdf root n) (ps : List (Bytes × Nonce)) :
    (encryptAll kdf aesgcm s ps).1 = (sealFrom kdf aesgcm root n ps).map .ok ∧
      (encryptAll kdf aesgcm s ps).2.localRatchet.chainKey =
        chainKeyAt kdf root (n + ps.length) := by
  induction ps generalizing s n with
  | nil => exact ⟨rfl, hs⟩
  | cons p ps ih =>
      have hkey := DoubleRatchetSession.messageKeyAt_of_chainKey kdf hs
      have hcall : (encrypt kdf aesgcm p.1 p.2).call s =
          (.ok (sealFrame aesgcm (messageKeyAt kdf root n) p.1 p.2),
            { s with localRatchet := s.localRatchet.advance kdf }) := by
        rw [call_encrypt, hkey, sealAnswer_of_lawful haes]
      have hnext := ih (n := n + 1)
        (s := { s with localRatchet := s.localRatchet.advance kdf })
        (DoubleRatchetSession.chainKey_advance_of_chainKey kdf hs)
      unfold encryptAll at hnext ⊢
      rw [run_cons, hcall]
      refine ⟨?_, ?_⟩
      · simp only [sealFrom, List.map_cons, hnext.1]
      · rw [hnext.2, List.length_cons, Nat.add_right_comm, Nat.add_assoc]

theorem decryptAll_eq (aesgcm : AESGCM) {root : Bytes} {n : ℕ} {s : SignalSession}
    (hs : s.remoteRatchet.chainKey = chainKeyAt kdf root n) {frames : List Bytes}
    (hframes : ∀ frame ∈ frames, frame.length = frameWireSize) :
    (decryptAll kdf aesgcm s frames).1 = openFrom kdf aesgcm root n frames ∧
      (decryptAll kdf aesgcm s frames).2.remoteRatchet.chainKey =
        chainKeyAt kdf root (n + frames.length) := by
  induction frames generalizing s n with
  | nil => exact ⟨rfl, hs⟩
  | cons frame frames ih =>
      have hkey := DoubleRatchetSession.messageKeyAt_of_chainKey kdf hs
      have hcall := call_decrypt_of_length kdf aesgcm (hframes frame (by simp)) s
      rw [hkey] at hcall
      have hnext := ih (n := n + 1)
        (s := { s with remoteRatchet := s.remoteRatchet.advance kdf })
        (DoubleRatchetSession.chainKey_advance_of_chainKey kdf hs)
        (fun f hf => hframes f (by simp [hf]))
      unfold decryptAll at hnext ⊢
      rw [run_cons, hcall]
      refine ⟨?_, ?_⟩
      · simp only [openFrom, hnext.1]
      · rw [hnext.2, List.length_cons, Nat.add_right_comm, Nat.add_assoc]

theorem openFrom_sealFrom (hcorrect : aesgcm.Correct) (root : Bytes) (n : ℕ)
    (ps : List (Bytes × Nonce)) :
    openFrom kdf aesgcm root n (sealFrom kdf aesgcm root n ps) =
      ps.map fun p => .ok (p.1.take 227) := by
  induction ps generalizing n with
  | nil => rfl
  | cons p ps ih =>
      simp only [sealFrom, openFrom, List.map_cons, openFrame_sealFrame hcorrect, ih]

theorem length_sealFrom (root : Bytes) (n : ℕ) (ps : List (Bytes × Nonce)) :
    (sealFrom kdf aesgcm root n ps).length = ps.length := by
  induction ps generalizing n with
  | nil => rfl
  | cons p ps ih => simp [sealFrom, ih]

theorem take_sealFrom (root : Bytes) (n : ℕ) (ps : List (Bytes × Nonce)) (k : ℕ) :
    (sealFrom kdf aesgcm root n ps).take k = sealFrom kdf aesgcm root n (ps.take k) := by
  induction ps generalizing n k with
  | nil => simp [sealFrom]
  | cons p ps ih =>
      cases k with
      | zero => rfl
      | succ k => simp only [sealFrom, List.take_succ_cons, ih]

/-- Every stream, delivered in full and in order, comes out as it went in, up
to the 227 bytes a frame holds, and leaves the two chains equal. -/
theorem stream_roundTrip (haes : aesgcm.Lawful) (a b : SignalSession)
    (hchain : a.localRatchet.chainKey = b.remoteRatchet.chainKey)
    (ps : List (Bytes × Nonce)) :
    ∃ frames : List Bytes,
      (encryptAll kdf aesgcm a ps).1 = frames.map .ok ∧
      (∀ frame ∈ frames, frame.length = 256) ∧
      (decryptAll kdf aesgcm b frames).1 = ps.map (fun p => .ok (p.1.take 227)) ∧
      (encryptAll kdf aesgcm a ps).2.localRatchet.chainKey =
        (decryptAll kdf aesgcm b frames).2.remoteRatchet.chainKey := by
  let root := a.localRatchet.chainKey
  have ha : a.localRatchet.chainKey = chainKeyAt kdf root 0 := rfl
  have hb : b.remoteRatchet.chainKey = chainKeyAt kdf root 0 := hchain.symm
  have hframes := length_of_mem_sealFrom kdf haes root 0 ps
  have hsend := encryptAll_eq haes ha ps
  have hreceive := decryptAll_eq aesgcm hb hframes
  refine ⟨sealFrom kdf aesgcm root 0 ps, hsend.1, hframes, ?_, ?_⟩
  · rw [hreceive.1, openFrom_sealFrom haes.correct]
  · rw [hsend.2, hreceive.2, length_sealFrom]

theorem stream_roundTrip_symbolic :
    ∃ frames : List Bytes,
      (encryptAll symbolicHkdf symbolicAesgcm ⟨{ chainKey := [1] }, { chainKey := [2] }⟩
        [([7, 0], .zero), ([], .zero)]).1 = frames.map .ok ∧
      (∀ frame ∈ frames, frame.length = 256) ∧
      (decryptAll symbolicHkdf symbolicAesgcm ⟨{ chainKey := [2] }, { chainKey := [1] }⟩
        frames).1 = [.ok [7, 0], .ok []] ∧
      (encryptAll symbolicHkdf symbolicAesgcm ⟨{ chainKey := [1] }, { chainKey := [2] }⟩
        [([7, 0], .zero), ([], .zero)]).2.localRatchet.chainKey =
        (decryptAll symbolicHkdf symbolicAesgcm ⟨{ chainKey := [2] }, { chainKey := [1] }⟩
          frames).2.remoteRatchet.chainKey :=
  stream_roundTrip symbolicAesgcm_lawful _ _ rfl _

end Roomsync.Encryption.Signal
