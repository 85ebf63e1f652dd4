import Roomsync.Encryption.Mls.Group
/-!
# Group frames

A frame holds up to 228 bytes of plaintext, filled up with zeros that `decrypt`
strips again.  The padding is not marked, so the zeros that end a plaintext go
with it.
-/

namespace Roomsync.Encryption.Mls

open Roomsync.Lib

theorem rdropWhile_append_replicate {α : Type*} (p : α → Bool) (l : List α) {x : α}
    (hx : p x = true) (n : ℕ) :
    (l ++ List.replicate n x).rdropWhile p = l.rdropWhile p := by
  induction n with
  | zero => rw [List.replicate_zero, List.append_nil]
  | succ n ih =>
      rw [List.replicate_succ', ← List.append_assoc, List.rdropWhile_concat_pos p _ _ hx, ih]

namespace MLSGroupSession

variable {aesgcm : AESGCM}

theorem truncate_of_le {plaintext : Bytes} (h : plaintext.length ≤ 228) :
    truncate plaintext = plaintext :=
  if_neg (Nat.not_lt.mpr h)

theorem length_pad {plaintext : Bytes} (h : plaintext.length ≤ 228) :
    (pad plaintext).length = 228 := by
  unfold pad
  rw [List.length_append, List.length_replicate]
  exact Nat.add_sub_of_le h

theorem rdropWhile_pad_eq_self_iff (plaintext : Bytes) :
    (pad plaintext).rdropWhile (· = 0) = plaintext ↔ plaintext.getLast? ≠ some 0 := by
  unfold pad
  rw [rdropWhile_append_replicate _ _ (by decide), List.rdropWhile_eq_self_iff]
  rcases List.eq_nil_or_concat plaintext with rfl | ⟨front, last, rfl⟩
  · simp
  · rw [List.concat_eq_append, List.getLast?_concat]
    simp

/-- `s` encrypts the plaintext and `r`, told the epoch and the sequence number of
`s`, decrypts the frame to it. -/
def RoundTrips (aesgcm : AESGCM) (s r : MLSGroupSession) (plaintext : Bytes) : Prop :=
  ∃ frame s', (encrypt aesgcm plaintext).call s = (.ok frame, s') ∧
    ((decrypt aesgcm frame s.epoch s.sendSeq).call r).1 = .ok plaintext

theorem call_decrypt_sealed (haes : aesgcm.Lawful) {s r : MLSGroupSession}
    (hkey : r.epochKey = s.epochKey) {nonce plaintext : Bytes}
    (hnonce : seqNonce s.epoch s.sendSeq = some nonce) (hlength : plaintext.length ≤ 228) :
    (decrypt aesgcm (nonce ++ aesgcm.encrypt s.epochKey nonce (pad plaintext))
      s.epoch s.sendSeq).call r = (.ok ((pad plaintext).rdropWhile (· = 0)), r) := by
  have hnonceLength := length_of_seqNonce hnonce
  apply call_decrypt_of_some aesgcm _ hnonce
  · rw [List.drop_left' hnonceLength, hkey, haes.correct]
  · rw [List.length_append, haes.length_encrypt, length_pad hlength, hnonceLength]
    rfl

/-- A plaintext comes back exactly when its last byte is not zero and the
counters fit the nonce. -/
theorem roundTrips_iff (haes : aesgcm.Lawful) (s r : MLSGroupSession)
    (hkey : r.epochKey = s.epochKey) (plaintext : Bytes) (hlength : plaintext.length ≤ 228) :
    RoundTrips aesgcm s r plaintext ↔
      plaintext.getLast? ≠ some 0 ∧ s.epoch < 2 ^ 32 ∧ s.sendSeq < 2 ^ 64 := by
  unfold RoundTrips
  cases hnonce : seqNonce s.epoch s.sendSeq with
  | none =>
      rw [call_encrypt_of_none aesgcm hnonce]
      have hcounters : ¬ (s.epoch < 2 ^ 32 ∧ s.sendSeq < 2 ^ 64) := by
        rintro ⟨hepoch, hseq⟩
        have hsome := (seqNonce_eq_some_iff _ _ _).mpr ⟨hepoch, hseq, rfl⟩
        rw [hnonce] at hsome
        exact absurd hsome (by simp)
      constructor
      · rintro ⟨frame, s', hcall, -⟩
        exact absurd (congrArg Prod.fst hcall) (by simp)
      · rintro ⟨-, hfit⟩
        exact absurd hfit hcounters
  | some nonce =>
      obtain ⟨hepoch, hseq, -⟩ := (seqNonce_eq_some_iff _ _ _).mp hnonce
      rw [call_encrypt_of_some aesgcm hnonce, truncate_of_le hlength]
      have hopen := call_decrypt_sealed haes hkey hnonce hlength
      rw [← rdropWhile_pad_eq_self_iff]
      constructor
      · rintro ⟨frame, s', hcall, hreturn⟩
        have hframe := Except.ok.inj (congrArg Prod.fst hcall)
        rw [← hframe, hopen] at hreturn
        exact ⟨Except.ok.inj hreturn, hepoch, hseq⟩
      · rintro ⟨hstrip, -⟩
        exact ⟨_, _, rfl, by rw [hopen, hstrip]⟩

theorem roundTrips_false_of_zero :
    ¬ RoundTrips symbolicAesgcm (new symbolicHmac [] [1] .empty)
      (new symbolicHmac [] [1] .empty) [10, 0] := by
  rintro ⟨frame, s', hcall, hreturn⟩
  have hframe := Except.ok.inj (congrArg Prod.fst hcall)
  rw [← hframe] at hreturn
  exact absurd hreturn (by decide +kernel)

theorem roundTrips_iff_symbolic :
    RoundTrips symbolicAesgcm (new symbolicHmac [] [1] .empty)
        (new symbolicHmac [] [1] .empty) [10, 20] ↔
      [(10 : UInt8), 20].getLast? ≠ some 0 ∧ 0 < 2 ^ 32 ∧ 0 < 2 ^ 64 :=
  roundTrips_iff symbolicAesgcm_lawful _ _ rfl _ (by decide)

end MLSGroupSession

end Roomsync.Encryption.Mls
