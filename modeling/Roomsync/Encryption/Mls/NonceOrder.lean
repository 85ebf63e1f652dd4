import Roomsync.Encryption.Mls.Epoch
import Roomsync.Lib.Run
import Mathlib.Data.Prod.Lex
/-!
# The order of a session's nonces

A session counts in two places: the epoch, and the frames sent in it.  An epoch
change sets the second back to zero but raises the first, so read as a pair, the
first place deciding, the count never falls.  The nonce spells that pair.
-/

namespace Roomsync.Encryption.Mls

open Roomsync.Lib

variable {hmac : HMAC} {aesgcm : AESGCM}

/-! ## The nonce spells epoch and counter -/

section SeqNonce

variable {epoch seq epoch' seq' : ℕ} {nonce nonce' : Bytes}

theorem ofBigEndian_seqNonce (h : seqNonce epoch seq = some nonce) :
    ofBigEndian nonce = epoch * 2 ^ 64 + seq := by
  obtain ⟨hepoch, hseq, rfl⟩ := (seqNonce_eq_some_iff epoch seq nonce).mp h
  have hbase : 256 ^ 8 = 2 ^ 64 := by norm_num
  rw [ofBigEndian_append, ofBigEndian_bigEndian hepoch, ofBigEndian_bigEndian hseq,
    length_bigEndian, hbase]

theorem seqNonce_fields (h : seqNonce epoch seq = some nonce) :
    ofBigEndian (nonce.take 4) = epoch ∧ ofBigEndian (nonce.drop 4) = seq := by
  obtain ⟨hepoch, hseq, rfl⟩ := (seqNonce_eq_some_iff epoch seq nonce).mp h
  have hlength : (bigEndian 4 epoch).length = 4 := length_bigEndian 4 epoch
  rw [List.take_left' hlength, List.drop_left' hlength]
  exact ⟨ofBigEndian_bigEndian hepoch, ofBigEndian_bigEndian hseq⟩

theorem seqNonce_lt_iff (h : seqNonce epoch seq = some nonce)
    (h' : seqNonce epoch' seq' = some nonce') :
    nonce < nonce' ↔ toLex (epoch, seq) < toLex (epoch', seq') := by
  have hlength : nonce.length = nonce'.length := by
    rw [length_of_seqNonce h, length_of_seqNonce h']
  have hseq := ((seqNonce_eq_some_iff epoch seq nonce).mp h).2.1
  have hseq' := ((seqNonce_eq_some_iff epoch' seq' nonce').mp h').2.1
  rw [← ofBigEndian_lt_iff hlength, ofBigEndian_seqNonce h, ofBigEndian_seqNonce h',
    placeValue_lt_iff hseq hseq', Prod.Lex.toLex_lt_toLex]

end SeqNonce

/-! ## The frames of a run -/

namespace MLSGroupSession

def position (s : MLSGroupSession) : ℕ ×ₗ ℕ := toLex (s.epoch, s.sendSeq)

end MLSGroupSession

/-- The frame that the call returns if it is one of `encrypt`, and the session it is made on. -/
def Operation.returned (aesgcm : AESGCM) (s : MLSGroupSession) :
    Operation → Option (Bytes × MLSGroupSession)
  | .encrypt plaintext =>
      ((MLSGroupSession.encrypt aesgcm plaintext).call s).1.toOption.map fun frame => (frame, s)
  | .change _ => none
  | .decrypt _ _ _ => none

def returnedFrames (hmac : HMAC) (aesgcm : AESGCM) (s : MLSGroupSession) (ops : List Operation) :
    List (Bytes × MLSGroupSession) :=
  (run (fun s op => (op.returned aesgcm s, op.apply hmac aesgcm s)) s ops).1.reduceOption

theorem Change.position_le_exec (hmac : HMAC) (c : Change) (s : MLSGroupSession) :
    s.position ≤ ((c.apply hmac).exec s).position := by
  unfold MLSGroupSession.position
  rw [Prod.Lex.toLex_le_toLex]
  rcases c.epoch_exec hmac s with ⟨hepoch, -, hseq⟩ | ⟨hepoch, -⟩
  · exact .inr ⟨hepoch.symm, hseq.ge⟩
  · exact .inl (by omega)

namespace MLSGroupSession

theorem position_lt_sent (s : MLSGroupSession) :
    s.position < position { s with sendSeq := s.sendSeq + 1 } :=
  Prod.Lex.toLex_lt_toLex.mpr (.inr ⟨rfl, Nat.lt_succ_self _⟩)

theorem position_le_apply (s : MLSGroupSession) (op : Operation) :
    s.position ≤ (op.apply hmac aesgcm s).position := by
  cases op with
  | change c => exact c.position_le_exec hmac s
  | encrypt plaintext =>
      rw [Operation.apply]
      rcases exec_encrypt_cases aesgcm s plaintext with hexec | hexec
      · rw [hexec]
      · rw [hexec]
        exact s.position_lt_sent.le
  | decrypt wireFrame senderEpoch senderSeq => rw [Operation.apply, exec_decrypt]

theorem returned_spec (hmac : HMAC) {s : MLSGroupSession} {op : Operation}
    {f : Bytes × MLSGroupSession} (h : op.returned aesgcm s = some f) :
    f.2 = s ∧ seqNonce s.epoch s.sendSeq = some (f.1.take nonceSize) ∧
      s.position < (op.apply hmac aesgcm s).position := by
  cases op with
  | change c => exact absurd h (by simp [Operation.returned])
  | encrypt plaintext =>
      rw [Operation.returned] at h
      rw [Operation.apply]
      cases hnonce : seqNonce s.epoch s.sendSeq with
      | none =>
          rw [call_encrypt_of_none aesgcm hnonce] at h
          exact absurd h (by simp [Except.toOption])
      | some nonce =>
          rw [call_encrypt_of_some aesgcm hnonce] at h
          obtain rfl := Option.some.inj h
          rw [Method.exec_of_call (call_encrypt_of_some aesgcm hnonce plaintext),
            List.take_left' (length_of_seqNonce hnonce)]
          exact ⟨rfl, rfl, s.position_lt_sent⟩
  | decrypt wireFrame senderEpoch senderSeq => exact absurd h (by simp [Operation.returned])

theorem encrypt_raises_iff (s : MLSGroupSession) (plaintext : Bytes) :
    (∃ e, ((encrypt aesgcm plaintext).call s).1 = .error e) ↔
      2 ^ 32 ≤ s.epoch ∨ 2 ^ 64 ≤ s.sendSeq := by
  cases hnonce : seqNonce s.epoch s.sendSeq with
  | none =>
      rw [call_encrypt_of_none aesgcm hnonce]
      refine iff_of_true ⟨_, rfl⟩ ?_
      by_contra hfits
      push Not at hfits
      have hsome := (seqNonce_eq_some_iff _ _ _).mpr ⟨hfits.1, hfits.2, rfl⟩
      rw [hnonce] at hsome
      exact absurd hsome (by simp)
  | some nonce =>
      obtain ⟨hepoch, hseq, -⟩ := (seqNonce_eq_some_iff _ _ _).mp hnonce
      rw [call_encrypt_of_some aesgcm hnonce]
      refine iff_of_false ?_ (by omega)
      rintro ⟨e, he⟩
      exact absurd he (by simp)

theorem seqNonce_of_mem_returnedFrames {s : MLSGroupSession} {ops : List Operation}
    {f : Bytes × MLSGroupSession} (h : f ∈ returnedFrames hmac aesgcm s ops) :
    seqNonce f.2.epoch f.2.sendSeq = some (f.1.take nonceSize) := by
  unfold returnedFrames at h
  apply forall_answers (Q := fun f : Bytes × MLSGroupSession =>
    seqNonce f.2.epoch f.2.sendSeq = some (f.1.take nonceSize)) _ s ops f h
  intro t op g hg
  obtain ⟨hsession, hnonce, -⟩ := returned_spec hmac hg
  rw [hsession]
  exact hnonce

/-- From any session on, through changes that raise and frames that are refused, the
nonces go up, each spelling epoch and counter at its call, and `encrypt` raises only
when one of the two has outgrown its field. -/
theorem nonces_ascend (hmac : HMAC) (aesgcm : AESGCM) (s : MLSGroupSession)
    (ops : List Operation) :
    ((returnedFrames hmac aesgcm s ops).map fun f => f.1.take nonceSize).Pairwise (· < ·) ∧
    (∀ f ∈ returnedFrames hmac aesgcm s ops,
      (f.1.take nonceSize).length = nonceSize ∧
      ofBigEndian ((f.1.take nonceSize).take 4) = f.2.epoch ∧
      ofBigEndian ((f.1.take nonceSize).drop 4) = f.2.sendSeq) ∧
    ∀ plaintext,
      (∃ e, ((encrypt aesgcm plaintext).call (s.perform hmac aesgcm ops)).1 = .error e) ↔
        2 ^ 32 ≤ (s.perform hmac aesgcm ops).epoch ∨
          2 ^ 64 ≤ (s.perform hmac aesgcm ops).sendSeq := by
  refine ⟨?_, ?_, fun plaintext => encrypt_raises_iff _ plaintext⟩
  · have hpositions : (returnedFrames hmac aesgcm s ops).Pairwise
        fun f g => f.2.position < g.2.position := by
      apply pairwise_answers (fun t op => t.position_le_apply op) _ s ops
      intro t op f hf
      obtain ⟨hsession, -, hpassed⟩ := returned_spec hmac hf
      rw [hsession]
      exact ⟨le_rfl, hpassed⟩
    apply List.pairwise_map.mpr
    apply hpositions.imp_of_mem
    intro f g hf hg hlt
    exact (seqNonce_lt_iff (seqNonce_of_mem_returnedFrames hf)
      (seqNonce_of_mem_returnedFrames hg)).mpr hlt
  · intro f hf
    have hnonce := seqNonce_of_mem_returnedFrames hf
    exact ⟨length_of_seqNonce hnonce, seqNonce_fields hnonce⟩

end MLSGroupSession

end Roomsync.Encryption.Mls
