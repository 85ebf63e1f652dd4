import Mathlib.Data.List.ReduceOption
import Roomsync.Encryption.Signal.Desync
import Roomsync.Encryption.Signal.Secrecy
import Roomsync.Encryption.Signal.X3dh
/-!
# The keys of one session

Every key that a session derives lies at the end of a path of HKDF labels that
starts at the shared secret: the root label of a direction, then the chain label
some number of times, then the message label for a message key.  So whether two
keys differ is a matter of their paths.
-/

namespace Roomsync.Encryption.Signal

open Roomsync.Lib

/-! ## What a session derives -/

section

variable (kdf : HKDF) (aesgcm : AESGCM)

namespace DoubleRatchetSession

/-- The chain keys in the course of `n` calls of `next_message_key`, and the keys
that these return. -/
def keys (s : DoubleRatchetSession) (n : ℕ) : List Bytes :=
  (List.range (n + 1)).map (fun m => (s.messageKeys kdf m).2.chainKey) ++ (s.messageKeys kdf n).1

end DoubleRatchetSession

namespace SignalSession

def keys (s : SignalSession) (i j : ℕ) : List Bytes :=
  s.localRatchet.keys kdf i ++ s.remoteRatchet.keys kdf j

end SignalSession

/-- The call of `next_message_key` that the method makes, if it gets that far. -/
def MethodCall.nextMessageKey (s : SignalSession) :
    MethodCall → Option (Bytes × DoubleRatchetSession)
  | .encrypt _ _ => some (s.localRatchet.nextMessageKey kdf)
  | .decrypt wireFrame =>
      if wireFrame.length ≠ frameWireSize then none
      else some (s.remoteRatchet.nextMessageKey kdf)

/-- The keys handed to AES-GCM in a run, each with the ratchet that returned it. -/
def derivations (s : SignalSession) (calls : List MethodCall) :
    List (Bytes × DoubleRatchetSession) :=
  (run (fun s c => (c.nextMessageKey kdf s, (c.apply kdf aesgcm s).2)) s calls).1.reduceOption

def derivedKeys (s : SignalSession) (calls : List MethodCall) : List Bytes :=
  [s.localRatchet.chainKey, s.remoteRatchet.chainKey] ++
    (derivations kdf aesgcm s calls).map (fun d => d.2.chainKey) ++
    (derivations kdf aesgcm s calls).map Prod.fst

end

def sent (calls : List MethodCall) : ℕ :=
  calls.countP fun
    | .encrypt _ _ => true
    | .decrypt _ => false

/-- The frames of the right size given to `decrypt`; no other reaches the ratchet. -/
def received (calls : List MethodCall) : ℕ :=
  calls.countP fun
    | .encrypt _ _ => false
    | .decrypt wireFrame => wireFrame.length = frameWireSize

@[simp] theorem sent_encrypt (plaintext : Bytes) (nonce : Nonce) (cs : List MethodCall) :
    sent (.encrypt plaintext nonce :: cs) = sent cs + 1 :=
  List.countP_cons_of_pos rfl

@[simp] theorem received_encrypt (plaintext : Bytes) (nonce : Nonce) (cs : List MethodCall) :
    received (.encrypt plaintext nonce :: cs) = received cs :=
  List.countP_cons_of_neg Bool.false_ne_true

@[simp] theorem sent_decrypt (wireFrame : Bytes) (cs : List MethodCall) :
    sent (.decrypt wireFrame :: cs) = sent cs :=
  List.countP_cons_of_neg Bool.false_ne_true

theorem received_decrypt_of_length {wireFrame : Bytes} (h : wireFrame.length = frameWireSize)
    (cs : List MethodCall) : received (.decrypt wireFrame :: cs) = received cs + 1 :=
  List.countP_cons_of_pos (decide_eq_true h)

theorem received_decrypt_of_length_ne {wireFrame : Bytes} (h : wireFrame.length ≠ frameWireSize)
    (cs : List MethodCall) : received (.decrypt wireFrame :: cs) = received cs :=
  List.countP_cons_of_neg fun heq => h (of_decide_eq_true heq)

variable {kdf : HKDF} {aesgcm : AESGCM}

namespace DoubleRatchetSession

theorem messageKeys_fst (s : DoubleRatchetSession) (n : ℕ) :
    (s.messageKeys kdf n).1 = (List.range n).map (messageKeyAt kdf s.chainKey) := by
  have hlength : (s.messageKeys kdf n).1.length = n := by
    unfold messageKeys
    rw [length_run, List.length_replicate]
  apply List.ext_getElem?
  intro j
  by_cases hj : j < n
  · rw [getElem?_messageKeys s hj, List.getElem?_map, List.getElem?_range hj, Option.map_some]
  · rw [List.getElem?_eq_none (by omega),
      List.getElem?_eq_none (by rw [List.length_map, List.length_range]; omega)]

theorem keys_eq (s : DoubleRatchetSession) (n : ℕ) :
    s.keys kdf n = (List.range (n + 1)).map (chainKeyAt kdf s.chainKey) ++
      (List.range n).map (messageKeyAt kdf s.chainKey) := by
  unfold keys
  rw [messageKeys_fst]
  simp only [chainKey_messageKeys]

/-- One more call: the old chain key and the returned key join those still to come. -/
theorem keys_succ_perm (s : DoubleRatchetSession) (n : ℕ) :
    (s.keys kdf (n + 1)).Perm (s.chainKey :: (s.nextMessageKey kdf).1 ::
      (s.nextMessageKey kdf).2.keys kdf n) := by
  have hchains : (List.range (n + 2)).map (chainKeyAt kdf s.chainKey) =
      s.chainKey :: (List.range (n + 1)).map (chainKeyAt kdf (s.advance kdf).chainKey) := by
    rw [List.range_succ_eq_map, List.map_cons, List.map_map]
    apply congrArg (List.cons s.chainKey)
    apply List.map_congr_left
    intro m _
    exact Kdf.chain_add _ m 1 _
  have hmessages : (List.range (n + 1)).map (messageKeyAt kdf s.chainKey) =
      messageKeyAt kdf s.chainKey 0 ::
        (List.range n).map (messageKeyAt kdf (s.advance kdf).chainKey) := by
    rw [List.range_succ_eq_map, List.map_cons, List.map_map]
    apply congrArg (List.cons _)
    apply List.map_congr_left
    intro m _
    exact congrArg (fun key => kdf key msgParams) (Kdf.chain_add _ (m + 1) 1 _)
  rw [nextMessageKey_eq, keys_eq, keys_eq, hchains, hmessages, List.cons_append]
  exact List.perm_middle.cons _

end DoubleRatchetSession

namespace SignalSession

theorem keys_sent_succ_perm (s : SignalSession) (i j : ℕ) :
    (s.keys kdf (i + 1) j).Perm (s.localRatchet.chainKey ::
      (s.localRatchet.nextMessageKey kdf).1 ::
        { s with localRatchet := s.localRatchet.advance kdf }.keys kdf i j) :=
  (s.localRatchet.keys_succ_perm i).append_right _

theorem keys_received_succ_perm (s : SignalSession) (i j : ℕ) :
    (s.keys kdf i (j + 1)).Perm (s.remoteRatchet.chainKey ::
      (s.remoteRatchet.nextMessageKey kdf).1 ::
        { s with remoteRatchet := s.remoteRatchet.advance kdf }.keys kdf i j) := by
  apply ((s.remoteRatchet.keys_succ_perm j).append_left _).trans
  apply List.perm_middle.trans
  exact List.perm_middle.cons _

end SignalSession

section Run

variable {s s' : SignalSession} {c : MethodCall} (happly : (c.apply kdf aesgcm s).2 = s')
include happly

theorem derivations_of_some {d : Bytes × DoubleRatchetSession}
    (h : c.nextMessageKey kdf s = some d) (cs : List MethodCall) :
    derivations kdf aesgcm s (c :: cs) = d :: derivations kdf aesgcm s' cs := by
  unfold derivations
  rw [run_cons, h, List.reduceOption_cons_of_some, happly]

theorem derivations_of_none (h : c.nextMessageKey kdf s = none) (cs : List MethodCall) :
    derivations kdf aesgcm s (c :: cs) = derivations kdf aesgcm s' cs := by
  unfold derivations
  rw [run_cons, h, List.reduceOption_cons_of_none, happly]

theorem derivedKeys_of_some {d : Bytes × DoubleRatchetSession}
    (h : c.nextMessageKey kdf s = some d) {old : Bytes}
    (hmoved : [s.localRatchet.chainKey, s.remoteRatchet.chainKey, d.2.chainKey].Perm
      [old, s'.localRatchet.chainKey, s'.remoteRatchet.chainKey]) (cs : List MethodCall) :
    (derivedKeys kdf aesgcm s (c :: cs)).Perm
      (old :: d.1 :: derivedKeys kdf aesgcm s' cs) := by
  unfold derivedKeys
  rw [derivations_of_some happly h]
  apply List.perm_iff_count.mpr
  intro key
  have hcount := List.perm_iff_count.mp hmoved key
  simp only [List.map_cons, List.count_append, List.count_cons, List.count_nil] at hcount ⊢
  omega

end Run

/-- What a run derives is what the numbers of frames sent and received say. -/
theorem derivedKeys_perm (s : SignalSession) (calls : List MethodCall) :
    (derivedKeys kdf aesgcm s calls).Perm (s.keys kdf (sent calls) (received calls)) := by
  induction calls generalizing s with
  | nil => exact List.Perm.refl _
  | cons c cs ih =>
      cases c with
      | encrypt plaintext nonce =>
          have happly := congrArg Prod.snd (SignalSession.call_encrypt kdf aesgcm plaintext nonce s)
          have hstep := derivedKeys_of_some (c := .encrypt plaintext nonce) happly rfl
            ((List.Perm.swap _ _ _).cons _) cs
          rw [sent_encrypt, received_encrypt]
          apply hstep.trans
          apply (((ih _).cons _).cons _).trans
          exact (s.keys_sent_succ_perm _ _).symm
      | decrypt wireFrame =>
          rw [sent_decrypt]
          by_cases hlength : wireFrame.length = frameWireSize
          · have happly := congrArg Prod.snd
              (SignalSession.call_decrypt_of_length kdf aesgcm hlength s)
            have hstep := derivedKeys_of_some (c := .decrypt wireFrame) happly
              (if_neg (not_not.mpr hlength)) (List.Perm.swap _ _ _) cs
            rw [received_decrypt_of_length hlength]
            apply hstep.trans
            apply (((ih _).cons _).cons _).trans
            exact (s.keys_received_succ_perm _ _).symm
          · have happly := congrArg Prod.snd
              (SignalSession.call_decrypt_of_length_ne kdf aesgcm hlength s)
            rw [received_decrypt_of_length_ne hlength]
            unfold derivedKeys
            rw [derivations_of_none (c := .decrypt wireFrame) happly (if_pos hlength)]
            exact ih s

/-! ## The paths to the keys -/

def chainPaths (root : HkdfParams) (n : ℕ) : List (List HkdfParams) :=
  (List.range (n + 1)).map fun m => root :: List.replicate m chainParams

def messagePaths (root : HkdfParams) (n : ℕ) : List (List HkdfParams) :=
  (List.range n).map fun m => root :: (List.replicate (m + 1) chainParams ++ [msgParams])

def keyPaths (root : HkdfParams) (n : ℕ) : List (List HkdfParams) :=
  chainPaths root n ++ messagePaths root n

theorem nodup_keyPaths (root : HkdfParams) (n : ℕ) : (keyPaths root n).Nodup := by
  have hchains : (chainPaths root n).Nodup := by
    apply List.nodup_range.map
    intro m m' h
    simpa using congrArg List.length h
  have hmessages : (messagePaths root n).Nodup := by
    apply List.nodup_range.map
    intro m m' h
    simpa using congrArg List.length h
  apply hchains.append hmessages
  -- Behind the root, the message label stands on message paths only.
  intro path hchain hmessage
  obtain ⟨m, -, rfl⟩ := List.mem_map.mp hchain
  obtain ⟨m', -, heq⟩ := List.mem_map.mp hmessage
  have htail := (List.cons.inj heq).2
  have hmem : msgParams ∈ List.replicate m chainParams := by
    rw [← htail]
    exact List.mem_append_right _ List.mem_cons_self
  exact msgParams_ne_chainParams (List.eq_of_mem_replicate hmem)

theorem head_of_mem_keyPaths {root : HkdfParams} {n : ℕ} {path : List HkdfParams}
    (h : path ∈ keyPaths root n) :
    ∃ tail, path = root :: tail ∧ ∀ l ∈ tail, l = chainParams ∨ l = msgParams := by
  rcases List.mem_append.mp h with hchain | hmessage
  · obtain ⟨m, -, rfl⟩ := List.mem_map.mp hchain
    exact ⟨_, rfl, fun l hl => .inl (List.eq_of_mem_replicate hl)⟩
  · obtain ⟨m, -, rfl⟩ := List.mem_map.mp hmessage
    refine ⟨_, rfl, fun l hl => ?_⟩
    rcases List.mem_append.mp hl with hl | hl
    · exact .inl (List.eq_of_mem_replicate hl)
    · exact .inr (List.mem_singleton.mp hl)

theorem sendParams_ne_recvParams : sendParams ≠ recvParams := by
  intro h
  exact absurd (congrArg HkdfParams.info h) (by decide)

def sessionPaths (i j : ℕ) : List (List HkdfParams) :=
  keyPaths sendParams i ++ keyPaths recvParams j

theorem nodup_sessionPaths (i j : ℕ) : (sessionPaths i j).Nodup := by
  apply (nodup_keyPaths sendParams i).append (nodup_keyPaths recvParams j)
  intro path hsend hrecv
  obtain ⟨tail, hpath, -⟩ := head_of_mem_keyPaths hsend
  obtain ⟨tail', hpath', -⟩ := head_of_mem_keyPaths hrecv
  exact sendParams_ne_recvParams (List.cons.inj (hpath.symm.trans hpath')).1

/-- The calls of HKDF behind the keys of both ratchets. -/
def hkdfCalls (kdf : HKDF) (sharedSecret : Bytes) (i j : ℕ) : Set (Bytes × HkdfParams) :=
  {d | ∃ path ∈ sessionPaths i j, d ∈ Kdf.steps kdf sharedSecret path}

theorem rooted_of_mem_sessionPaths {i j : ℕ} {path : List HkdfParams}
    (h : path ∈ sessionPaths i j) :
    ∃ root tail, path = root :: tail ∧ (root = sendParams ∨ root = recvParams) ∧
      ∀ l ∈ tail, l ≠ sendParams ∧ l ≠ recvParams := by
  have hlabels : ∀ l, l = chainParams ∨ l = msgParams → l ≠ sendParams ∧ l ≠ recvParams := by
    rintro l (rfl | rfl) <;>
      exact ⟨fun h => absurd (congrArg HkdfParams.info h) (by decide),
        fun h => absurd (congrArg HkdfParams.info h) (by decide)⟩
  rcases List.mem_append.mp h with hsend | hrecv
  · obtain ⟨tail, rfl, htail⟩ := head_of_mem_keyPaths hsend
    exact ⟨_, tail, rfl, .inl rfl, fun l hl => hlabels l (htail l hl)⟩
  · obtain ⟨tail, rfl, htail⟩ := head_of_mem_keyPaths hrecv
    exact ⟨_, tail, rfl, .inr rfl, fun l hl => hlabels l (htail l hl)⟩

theorem DoubleRatchetSession.keys_eq_paths {s : DoubleRatchetSession} {sharedSecret : Bytes}
    {root : HkdfParams} (h : s.chainKey = kdf sharedSecret root) (n : ℕ) :
    s.keys kdf n = (keyPaths root n).map (Kdf.derive kdf sharedSecret) := by
  have hchain : ∀ m, chainKeyAt kdf s.chainKey m =
      Kdf.derive kdf sharedSecret (root :: List.replicate m chainParams) := by
    intro m
    rw [h]
    exact Kdf.chain_derive chainParams m sharedSecret [root]
  have hmessage : ∀ m, messageKeyAt kdf s.chainKey m = Kdf.derive kdf sharedSecret
      (root :: (List.replicate (m + 1) chainParams ++ [msgParams])) := by
    intro m
    unfold messageKeyAt
    rw [hchain, ← List.cons_append, Kdf.derive_concat]
  unfold keyPaths chainPaths messagePaths
  rw [keys_eq, List.map_append, List.map_map, List.map_map]
  simp only [Function.comp_def, ← hchain, ← hmessage]

theorem SignalSession.nodup_keys_fromX3dh {sharedSecret : Bytes} {i j : ℕ}
    (hinj : Kdf.InjectiveOn kdf (hkdfCalls kdf sharedSecret i j)) :
    ((fromX3dh kdf sharedSecret).keys kdf i j).Nodup := by
  have hsend : (fromX3dh kdf sharedSecret).localRatchet.chainKey =
      kdf sharedSecret sendParams := rfl
  have hrecv : (fromX3dh kdf sharedSecret).remoteRatchet.chainKey =
      kdf sharedSecret recvParams := rfl
  unfold SignalSession.keys
  rw [DoubleRatchetSession.keys_eq_paths hsend, DoubleRatchetSession.keys_eq_paths hrecv,
    ← List.map_append]
  apply List.Nodup.map_on _ (nodup_sessionPaths i j)
  intro path hpath path' hpath' h
  have hused : Kdf.steps kdf sharedSecret path ∪ Kdf.steps kdf sharedSecret path' ⊆
      hkdfCalls kdf sharedSecret i j := by
    rintro d (hd | hd)
    · exact ⟨path, hpath, hd⟩
    · exact ⟨path', hpath', hd⟩
  obtain ⟨root, tail, rfl, hroot, htail⟩ := rooted_of_mem_sessionPaths hpath
  obtain ⟨root', tail', rfl, hroot', htail'⟩ := rooted_of_mem_sessionPaths hpath'
  have hnew : root ∉ tail' := by
    intro hmem
    exact hroot.elim (htail' root hmem).1 (htail' root hmem).2
  have hnew' : root' ∉ tail := by
    intro hmem
    exact hroot'.elim (htail root' hmem).1 (htail root' hmem).2
  exact Kdf.derive_inj_of_rooted hnew hnew' (Set.InjOn.mono hused hinj) h

/-- All keys of a session are different, so that no two frames and no two directions share
one, as long as no two different calls of HKDF behind these keys collide. -/
theorem session_keys_separated (sharedSecret : Bytes) (i j : ℕ)
    (hinj : Kdf.InjectiveOn kdf (hkdfCalls kdf sharedSecret i j)) :
    ((SignalSession.fromX3dh kdf sharedSecret).keys kdf i j).Nodup ∧
      ∀ calls, sent calls = i → received calls = j →
        (derivedKeys kdf aesgcm (SignalSession.fromX3dh kdf sharedSecret) calls).Perm
          ((SignalSession.fromX3dh kdf sharedSecret).keys kdf i j) ∧
        ((derivations kdf aesgcm (SignalSession.fromX3dh kdf sharedSecret) calls).map
          Prod.fst).Nodup := by
  have hnodup := SignalSession.nodup_keys_fromX3dh hinj
  refine ⟨hnodup, ?_⟩
  rintro calls rfl rfl
  have hperm := @derivedKeys_perm kdf aesgcm (SignalSession.fromX3dh kdf sharedSecret) calls
  refine ⟨hperm, ?_⟩
  have hall := hperm.nodup_iff.mpr hnodup
  exact hall.sublist (List.sublist_append_right _ _)

theorem session_keys_separated_symbolic :
    let calls : List MethodCall :=
      [.encrypt [1] .zero, .decrypt (List.replicate frameWireSize 0), .encrypt [2] .zero]
    ((SignalSession.fromX3dh symbolicHkdf [7]).keys symbolicHkdf 2 1).Nodup ∧
      (derivedKeys symbolicHkdf symbolicAesgcm (SignalSession.fromX3dh symbolicHkdf [7])
        calls).Perm ((SignalSession.fromX3dh symbolicHkdf [7]).keys symbolicHkdf 2 1) ∧
      ((derivations symbolicHkdf symbolicAesgcm (SignalSession.fromX3dh symbolicHkdf [7])
        calls).map Prod.fst).Nodup := by
  have hreceived : received [.encrypt [1] .zero,
      .decrypt (List.replicate frameWireSize 0), .encrypt [2] .zero] = 1 := by
    rw [received_encrypt, received_decrypt_of_length List.length_replicate, received_encrypt]
    rfl
  have hkeys := @session_keys_separated _ symbolicAesgcm [7] 2 1
    (symbolicHkdf_free.injective.on _)
  exact ⟨hkeys.1, hkeys.2 _ rfl hreceived⟩

end Roomsync.Encryption.Signal
