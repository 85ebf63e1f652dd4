import Roomsync.Encryption.Signal.Frame
/-!
# What puts the receiver out of step

The receiving ratchet counts the 256-byte frames handed to `decrypt`, and a frame
says nothing about its place in the sender's sequence.  So a lost frame leaves the
receiver one key behind, and a rejected one leaves it one key ahead.
-/

namespace Roomsync.Encryption.Signal

open Roomsync.Lib SignalSession

variable {kdf : HKDF} {aesgcm : AESGCM}

/-! ## Lost frames -/

structure Transmission where
  plaintext : Bytes
  nonce : Nonce
  arrives : Bool

section LossTolerant

variable (kdf aesgcm)

def returned (answers : List (Except PyError Bytes)) : List Bytes :=
  answers.filterMap Except.toOption

def arriving (ts : List Transmission) (frames : List Bytes) : List Bytes :=
  ((frames.zip ts).filter fun x => x.2.arrives).map Prod.fst

def plaintexts (ts : List Transmission) : List (Bytes × Nonce) :=
  ts.map fun t => (t.plaintext, t.nonce)

def LossTolerant (a b : SignalSession) (ts : List Transmission) : Prop :=
  (decryptAll kdf aesgcm b
      (arriving ts (returned (encryptAll kdf aesgcm a (plaintexts ts)).1))).1 =
    (ts.filter fun t => t.arrives).map fun t => .ok (t.plaintext.take 227)

def firstMessageKeys (root : Bytes) (n : ℕ) : Set Bytes :=
  {key | ∃ i < n, messageKeyAt kdf root i = key}

end LossTolerant

@[simp] theorem returned_map_ok (frames : List Bytes) :
    returned (frames.map .ok) = frames := by
  induction frames with
  | nil => rfl
  | cons frame frames ih =>
      change frame :: returned (frames.map .ok) = _
      rw [ih]

theorem arriving_cons_of_arrives {t : Transmission} (h : t.arrives = true)
    (ts : List Transmission) (frame : Bytes) (frames : List Bytes) :
    arriving (t :: ts) (frame :: frames) = frame :: arriving ts frames := by
  simp [arriving, h]

theorem arriving_cons_of_lost {t : Transmission} (h : t.arrives = false)
    (ts : List Transmission) (frame : Bytes) (frames : List Bytes) :
    arriving (t :: ts) (frame :: frames) = arriving ts frames := by
  simp [arriving, h]

theorem mem_of_mem_arriving {ts : List Transmission} {frames : List Bytes} {frame : Bytes}
    (h : frame ∈ arriving ts frames) : frame ∈ frames := by
  obtain ⟨⟨_, t⟩, hmem, rfl⟩ := List.mem_map.mp h
  exact (List.of_mem_zip (List.mem_filter.mp hmem).1).1

section Alignment

variable {root : Bytes} {total : ℕ}
  (hdistinct : Set.InjOn (messageKeyAt kdf root) (Set.Iio total))
  (hsep : aesgcm.Separates (firstMessageKeys kdf root total))
include hdistinct hsep

theorem openFrom_behind_iff {m n : ℕ} (hbehind : m < n) (ts : List Transmission)
    (htotal : n + ts.length ≤ total) :
    openFrom kdf aesgcm root m (arriving ts (sealFrom kdf aesgcm root n (plaintexts ts))) =
        (ts.filter fun t => t.arrives).map (fun t => .ok (t.plaintext.take 227)) ↔
      ∀ t ∈ ts, t.arrives = false := by
  induction ts generalizing n with
  | nil => simp [arriving, plaintexts, sealFrom, openFrom]
  | cons t ts ih =>
      have htail := ih (n := n + 1) (by omega) (by rw [List.length_cons] at htotal; omega)
      cases ht : t.arrives with
      | true =>
          have hlt : n < total := by rw [List.length_cons] at htotal; omega
          have hreject : openFrame aesgcm (messageKeyAt kdf root m)
              (sealFrame aesgcm (messageKeyAt kdf root n) t.plaintext t.nonce) =
                .error .invalidTag := by
            apply openFrame_sealFrame_of_ne hsep ⟨n, hlt, rfl⟩ ⟨m, by omega, rfl⟩
            intro heq
            have hsame : n = m := hdistinct hlt (show m < total by omega) heq
            omega
          simp [plaintexts, sealFrom, arriving_cons_of_arrives ht, openFrom, hreject, ht]
      | false =>
          simp only [plaintexts, List.map_cons, sealFrom, arriving_cons_of_lost ht] at htail ⊢
          simp only [List.filter_cons, ht, Bool.false_eq_true, if_false, List.forall_mem_cons,
            true_and]
          exact htail

theorem openFrom_inStep_iff (haes : aesgcm.Correct) {n : ℕ} (ts : List Transmission)
    (htotal : n + ts.length ≤ total) :
    openFrom kdf aesgcm root n (arriving ts (sealFrom kdf aesgcm root n (plaintexts ts))) =
        (ts.filter fun t => t.arrives).map (fun t => .ok (t.plaintext.take 227)) ↔
      ts.Pairwise fun earlier later => later.arrives = true → earlier.arrives = true := by
  induction ts generalizing n with
  | nil => simp [arriving, plaintexts, sealFrom, openFrom]
  | cons t ts ih =>
      have hroom : n + 1 + ts.length ≤ total := by rw [List.length_cons] at htotal; omega
      cases ht : t.arrives with
      | true =>
          have htail := ih hroom
          simp only [plaintexts, List.map_cons, sealFrom, arriving_cons_of_arrives ht,
            openFrom, openFrame_sealFrame haes] at htail ⊢
          simp only [List.filter_cons, ht, if_true, List.map_cons, List.cons.injEq, true_and,
            List.pairwise_cons, implies_true]
          exact htail
      | false =>
          have htail := openFrom_behind_iff hdistinct hsep (Nat.lt_succ_self n) ts hroom
          simp only [plaintexts, List.map_cons, sealFrom, arriving_cons_of_lost ht] at htail ⊢
          simp only [List.filter_cons, ht, Bool.false_eq_true, if_false, List.pairwise_cons]
          rw [htail]
          constructor
          · intro hlost
            refine ⟨fun t' ht' => by simp [hlost t' ht'], ?_⟩
            exact List.Pairwise.imp_of_mem (fun _ hb _ h => by simp [hlost _ hb] at h)
              (List.pairwise_of_forall fun _ _ => trivial)
          · intro hpair t' ht'
            simpa using hpair.1 t' ht'

end Alignment

/-- The frames that arrive are all decrypted exactly when the lost ones, if
any, are the last of the stream. -/
theorem lossTolerant_iff (haes : aesgcm.Lawful) (a b : SignalSession)
    (hchain : a.localRatchet.chainKey = b.remoteRatchet.chainKey) (ts : List Transmission)
    (hdistinct : Set.InjOn (messageKeyAt kdf a.localRatchet.chainKey) (Set.Iio ts.length))
    (hsep : aesgcm.Separates (firstMessageKeys kdf a.localRatchet.chainKey ts.length)) :
    LossTolerant kdf aesgcm a b ts ↔
      ts.Pairwise fun earlier later => later.arrives = true → earlier.arrives = true := by
  let root := a.localRatchet.chainKey
  have ha : a.localRatchet.chainKey = chainKeyAt kdf root 0 := rfl
  have hb : b.remoteRatchet.chainKey = chainKeyAt kdf root 0 := hchain.symm
  have hsent := (encryptAll_eq haes ha (plaintexts ts)).1
  have hsizes : ∀ frame ∈ arriving ts (sealFrom kdf aesgcm root 0 (plaintexts ts)),
      frame.length = frameWireSize := fun frame hframe =>
    length_of_mem_sealFrom kdf haes root 0 _ frame (mem_of_mem_arriving hframe)
  have hreceived := (decryptAll_eq aesgcm hb hsizes).1
  unfold LossTolerant
  rw [hsent, returned_map_ok, hreceived]
  exact openFrom_inStep_iff hdistinct hsep haes.correct ts (by omega)

theorem lossTolerant_false_after_loss :
    ¬ LossTolerant symbolicHkdf symbolicAesgcm
      ⟨{ chainKey := [1] }, { chainKey := [2] }⟩ ⟨{ chainKey := [2] }, { chainKey := [1] }⟩
      [⟨[10, 20], .zero, false⟩, ⟨[30], .zero, true⟩] := by
  unfold LossTolerant
  decide +kernel

theorem separates_firstMessageKeys {root : Bytes} {n : ℕ}
    (h : ∀ i < n, ∀ j < n, i ≠ j →
      symbolicTag (messageKeyAt symbolicHkdf root i) ≠
        symbolicTag (messageKeyAt symbolicHkdf root j)) :
    symbolicAesgcm.Separates (firstMessageKeys symbolicHkdf root n) := by
  rintro _ ⟨i, hi, rfl⟩ _ ⟨j, hj, rfl⟩ hne nonce data
  apply symbolicAesgcm_decrypt_encrypt_of_ne
  exact h i hi j hj fun hij => hne (by rw [hij])

theorem lossTolerant_iff_symbolic :
    LossTolerant symbolicHkdf symbolicAesgcm
      ⟨{ chainKey := [1] }, { chainKey := [2] }⟩ ⟨{ chainKey := [2] }, { chainKey := [1] }⟩
      [⟨[10, 20], .zero, true⟩, ⟨[30], .zero, false⟩] ↔
    [(⟨[10, 20], .zero, true⟩ : Transmission), ⟨[30], .zero, false⟩].Pairwise
      fun earlier later => later.arrives = true → earlier.arrives = true :=
  lossTolerant_iff symbolicAesgcm_lawful _ _ rfl _
    (messageKeyAt_injective symbolicHkdf_free _).injOn
    (separates_firstMessageKeys (by decide +kernel))

/-! ## Rejected frames -/

inductive MethodCall
  | encrypt (plaintext : Bytes) (nonce : Nonce)
  | decrypt (wireFrame : Bytes)

section RejectionHarmless

variable (kdf aesgcm)

def MethodCall.apply (s : SignalSession) : MethodCall → Except PyError Bytes × SignalSession
  | .encrypt plaintext nonce => (SignalSession.encrypt kdf aesgcm plaintext nonce).call s
  | .decrypt wireFrame => (SignalSession.decrypt kdf aesgcm wireFrame).call s

def after (s : SignalSession) (calls : List MethodCall) : SignalSession :=
  (run (MethodCall.apply kdf aesgcm) s calls).2

/-- If `decrypt` raises on `wireFrame`, both ratchets are as before, and what a
peer in step sends next is still decrypted. -/
def RejectionHarmless (s : SignalSession) (wireFrame : Bytes) : Prop :=
  ∀ e s', (decrypt kdf aesgcm wireFrame).call s = (.error e, s') →
    s' = s ∧
    ∀ (peer : SignalSession) (ps : List (Bytes × Nonce)) (frames : List Bytes),
      peer.localRatchet.chainKey = s.remoteRatchet.chainKey →
      (encryptAll kdf aesgcm peer ps).1 = frames.map .ok →
      (decryptAll kdf aesgcm s' frames).1 = ps.map fun p => .ok (p.1.take 227)

/-- AES-GCM accepts the frame under the message key that is due. -/
def Accepted (s : SignalSession) (wireFrame : Bytes) : Prop :=
  aesgcm.decrypt (s.remoteRatchet.nextMessageKey kdf).1 (wireFrame.take nonceSize)
    (wireFrame.drop nonceSize) ≠ none

end RejectionHarmless

theorem map_ok_injective :
    Function.Injective (List.map (Except.ok : Bytes → Except PyError Bytes)) :=
  List.map_injective_iff.mpr fun _ _ h => Except.ok.inj h

theorem decryptAll_of_encryptAll (haes : aesgcm.Lawful) {peer s : SignalSession}
    (hchain : peer.localRatchet.chainKey = s.remoteRatchet.chainKey)
    {ps : List (Bytes × Nonce)} {frames : List Bytes}
    (hsent : (encryptAll kdf aesgcm peer ps).1 = frames.map .ok) :
    (decryptAll kdf aesgcm s frames).1 = ps.map fun p => .ok (p.1.take 227) := by
  have hpeer : peer.localRatchet.chainKey =
      chainKeyAt kdf peer.localRatchet.chainKey 0 := rfl
  have hframes : frames = sealFrom kdf aesgcm peer.localRatchet.chainKey 0 ps := by
    apply map_ok_injective
    rw [← hsent, (encryptAll_eq haes hpeer ps).1]
  have hsizes : ∀ frame ∈ frames, frame.length = frameWireSize := by
    rw [hframes]
    exact length_of_mem_sealFrom kdf haes _ _ _
  rw [(decryptAll_eq aesgcm (hchain.symm.trans hpeer) hsizes).1, hframes,
    openFrom_sealFrom haes.correct]

/-- An accepted frame is never followed by an exception: the padded plaintext
is as long as the frame is, so it has a length byte. -/
theorem openFrame_ne_error (hstrip : aesgcm.TagStripped) {key frame : Bytes}
    (hlength : frame.length = frameWireSize)
    (haccept : aesgcm.decrypt key (frame.take nonceSize) (frame.drop nonceSize) ≠ none)
    (e : PyError) : openFrame aesgcm key frame ≠ .error e := by
  obtain ⟨padded, hpadded⟩ := Option.ne_none_iff_exists'.mp haccept
  have hsize := hstrip _ _ _ _ hpadded
  rw [List.length_drop, hlength] at hsize
  unfold openFrame
  rw [hpadded]
  cases padded with
  | nil => simp [frameWireSize, nonceSize] at hsize
  | cons length rest => simp

theorem rejectionHarmless_iff_of_state (haes : aesgcm.Lawful) (hstrip : aesgcm.TagStripped)
    (s : SignalSession) (wireFrame : Bytes) :
    RejectionHarmless kdf aesgcm s wireFrame ↔
      wireFrame.length ≠ 256 ∨ Accepted kdf aesgcm s wireFrame := by
  by_cases hlength : wireFrame.length = 256
  · have hcall := call_decrypt_of_length kdf aesgcm hlength s
    constructor
    · intro hharmless
      right
      intro hreject
      -- The raise comes after the advance, so the counter has moved.
      rw [DoubleRatchetSession.nextMessageKey_eq] at hreject
      rw [openFrame_of_rejected hreject] at hcall
      have hsame := (hharmless _ _ hcall).1
      have hidx := congrArg (fun s => s.remoteRatchet.msgIdx) hsame
      simp at hidx
    · intro hcond e s' hraise
      have haccept := hcond.resolve_left (not_not.mpr hlength)
      rw [hcall] at hraise
      exact absurd (congrArg Prod.fst hraise)
        (openFrame_ne_error hstrip hlength haccept e)
  · have hcall := call_decrypt_of_length_ne kdf aesgcm hlength s
    refine iff_of_true ?_ (Or.inl hlength)
    intro e s' hraise
    have hsame : s' = s := by
      rw [hcall] at hraise
      exact (congrArg Prod.snd hraise).symm
    refine ⟨hsame, fun peer ps frames hchain hsent => ?_⟩
    rw [hsame]
    exact decryptAll_of_encryptAll haes hchain hsent

/-- In a run of calls on a newly built session, no `decrypt` that raises does
harm exactly when every frame handed over is of the wrong size or accepted. -/
theorem rejections_harmless_iff (haes : aesgcm.Lawful) (hstrip : aesgcm.TagStripped)
    (localKey remoteKey : Bytes) (calls : List MethodCall) :
    (∀ i wireFrame, calls[i]? = some (.decrypt wireFrame) →
      RejectionHarmless kdf aesgcm
        (after kdf aesgcm ⟨{ chainKey := localKey }, { chainKey := remoteKey }⟩ (calls.take i))
        wireFrame) ↔
    (∀ i wireFrame, calls[i]? = some (.decrypt wireFrame) →
      wireFrame.length ≠ 256 ∨
      Accepted kdf aesgcm
        (after kdf aesgcm ⟨{ chainKey := localKey }, { chainKey := remoteKey }⟩ (calls.take i))
        wireFrame) := by
  refine forall₃_congr fun i wireFrame _ => ?_
  exact rejectionHarmless_iff_of_state haes hstrip _ wireFrame

theorem rejections_harmless_iff_symbolic :
    (∀ i wireFrame, [MethodCall.decrypt (List.replicate 256 0)][i]? = some (.decrypt wireFrame) →
      RejectionHarmless symbolicHkdf symbolicAesgcm
        (after symbolicHkdf symbolicAesgcm ⟨{ chainKey := [1] }, { chainKey := [2] }⟩
          ([MethodCall.decrypt (List.replicate 256 0)].take i)) wireFrame) ↔
    (∀ i wireFrame, [MethodCall.decrypt (List.replicate 256 0)][i]? = some (.decrypt wireFrame) →
      wireFrame.length ≠ 256 ∨
      Accepted symbolicHkdf symbolicAesgcm
        (after symbolicHkdf symbolicAesgcm ⟨{ chainKey := [1] }, { chainKey := [2] }⟩
          ([MethodCall.decrypt (List.replicate 256 0)].take i)) wireFrame) :=
  rejections_harmless_iff symbolicAesgcm_lawful symbolicAesgcm_tagStripped _ _ _

theorem rejection_advances_ratchet :
    ¬ RejectionHarmless symbolicHkdf symbolicAesgcm
      ⟨{ chainKey := [1] }, { chainKey := [2] }⟩ (List.replicate 256 0) := by
  rw [rejectionHarmless_iff_of_state symbolicAesgcm_lawful symbolicAesgcm_tagStripped]
  unfold Accepted
  decide +kernel

end Roomsync.Encryption.Signal
