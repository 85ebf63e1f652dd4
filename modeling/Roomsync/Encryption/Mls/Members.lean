import Roomsync.Encryption.Mls.Epoch
import Roomsync.Encryption.Mls.Frame
import Roomsync.Lib.Regroup
import Roomsync.Lib.Run
/-!
# What the epoch key says of the members

The key depends on the members alone, not on the order in which they came: whoever
has made as many changes and ended with the same members is in the same epoch.  It
binds the members up to where one id ends and the next begins.
-/

namespace Roomsync.Encryption.Mls

open Roomsync.Lib

variable {hmac : HMAC} {aesgcm : AESGCM}

namespace MLSGroupSession

theorem epochKey_exec_rotateEpoch {s : MLSGroupSession} {memberIds : List Bytes}
    (h : encodedIds s.members = some memberIds) :
    ((rotateEpoch hmac).exec s).epochKey = deriveEpochKey hmac s.initSecret memberIds := by
  rw [Method.exec_of_call (call_rotateEpoch_of_some hmac h)]
  rfl

/-! ## Different members -/

theorem deriveEpochKey_eq_iff {initSecret : Bytes} {memberIds memberIds' : List Bytes}
    (hhmac : hmac.CollisionFreeOn initSecret
      {(sorted memberIds).flatten, (sorted memberIds').flatten}) :
    deriveEpochKey hmac initSecret memberIds = deriveEpochKey hmac initSecret memberIds' ↔
      Regrouped (sorted memberIds) (sorted memberIds') := by
  rw [regrouped_iff]
  exact hhmac.eq_iff (Set.mem_insert _ _) (Set.mem_insert_of_mem _ rfl)

/-- Two member sets get different keys exactly when no moving of boundaries takes
the sorted ids of one to those of the other. -/
theorem epochKeys_ne_iff (s s' : MLSGroupSession) (hsecret : s.initSecret = s'.initSecret)
    {memberIds memberIds' : List Bytes} (hids : encodedIds s.members = some memberIds)
    (hids' : encodedIds s'.members = some memberIds')
    (hhmac : hmac.CollisionFreeOn s.initSecret
      {(sorted memberIds).flatten, (sorted memberIds').flatten}) :
    ((rotateEpoch hmac).exec s).epochKey ≠ ((rotateEpoch hmac).exec s').epochKey ↔
      ¬ Regrouped (sorted memberIds) (sorted memberIds') := by
  rw [epochKey_exec_rotateEpoch hids, epochKey_exec_rotateEpoch hids', ← hsecret]
  exact not_congr (deriveEpochKey_eq_iff hhmac)

theorem epochKeys_eq_of_moved_boundary :
    ¬ ∀ s s' : MLSGroupSession, s.initSecret = s'.initSecret →
      encodedIds s.members ≠ none → encodedIds s'.members ≠ none →
      ((rotateEpoch symbolicHmac).exec s).epochKey =
        ((rotateEpoch symbolicHmac).exec s').epochKey →
      ∀ m, m ∈ s.members.keys ↔ m ∈ s'.members.keys := by
  intro hbinds
  have hmem := hbinds
    (afterChanges symbolicHmac (new symbolicHmac [] [1] .empty)
      [.add [97, 98] [], .add [99] []])
    (afterChanges symbolicHmac (new symbolicHmac [] [1] .empty)
      [.add [97] [], .add [98, 99] []])
    rfl (by decide +kernel) (by decide +kernel) (by decide +kernel) [97]
  exact absurd hmem (by decide +kernel)

theorem epochKeys_ne_iff_symbolic :
    ((rotateEpoch symbolicHmac).exec
        { new symbolicHmac [] [1] .empty with members := .set .empty [97] [] }).epochKey ≠
      ((rotateEpoch symbolicHmac).exec (new symbolicHmac [] [1] .empty)).epochKey ↔
    ¬ Regrouped (sorted [[97]]) (sorted []) := by
  have hids : encodedIds (Dict.set .empty [97] []) = some [[97]] := by decide +kernel
  have hids' : encodedIds .empty = some [] := by decide +kernel
  exact epochKeys_ne_iff { new symbolicHmac [] [1] .empty with members := .set .empty [97] [] }
    (new symbolicHmac [] [1] .empty) rfl hids hids' (symbolicHmac_collisionFreeOn _ _)

/-! ## The same members -/

theorem filterMap_of_mapM_eq_some {α β : Type} {f : α → Option β} {xs : List α} {ys : List β}
    (h : xs.mapM f = some ys) : xs.filterMap f = ys := by
  induction xs generalizing ys with
  | nil => simpa using h
  | cons x xs ih =>
      rw [List.mapM_cons] at h
      cases hx : f x with
      | none => simp [hx] at h
      | some y =>
          cases hxs : xs.mapM f with
          | none => simp [hx, hxs] at h
          | some tail =>
              have hys : y :: tail = ys := by simpa [hx, hxs] using h
              rw [List.filterMap_cons_some hx, ih hxs, hys]

theorem deriveEpochKey_eq_of_same_members {members members' : Dict PyStr Bytes}
    {memberIds memberIds' : List Bytes} (hids : encodedIds members = some memberIds)
    (hids' : encodedIds members' = some memberIds')
    (hsame : ∀ m, m ∈ members.keys ↔ m ∈ members'.keys) (initSecret : Bytes) :
    deriveEpochKey hmac initSecret memberIds = deriveEpochKey hmac initSecret memberIds' := by
  have hkeys : members.keys.Perm members'.keys :=
    (List.perm_ext_iff_of_nodup members.nodup members'.nodup).mpr hsame
  have hperm := hkeys.filterMap PyStr.encode
  rw [filterMap_of_mapM_eq_some hids, filterMap_of_mapM_eq_some hids'] at hperm
  unfold deriveEpochKey
  rw [sorted_eq_of_perm hperm]

structure KeyedBy (hmac : HMAC) (initSecret : Bytes) (s : MLSGroupSession) : Prop where
  secret : s.initSecret = initSecret
  key : ∃ memberIds, encodedIds s.members = some memberIds ∧
    s.epochKey = deriveEpochKey hmac initSecret memberIds

theorem keyedBy_new (hmac : HMAC) (groupId initSecret : Bytes) :
    KeyedBy hmac initSecret (new hmac groupId initSecret .empty) where
  secret := rfl
  key := ⟨[], rfl, rfl⟩

theorem of_shared_eq {s s' : MLSGroupSession} (h : s'.shared = s.shared) :
    s'.initSecret = s.initSecret ∧ s'.members = s.members ∧ s'.epoch = s.epoch ∧
      s'.epochKey = s.epochKey := by
  have hsecret : s'.shared.initSecret = s.shared.initSecret := by rw [h]
  have hmembers : s'.shared.members = s.shared.members := by rw [h]
  have hepoch : s'.shared.epoch = s.shared.epoch := by rw [h]
  have hkey : s'.shared.epochKey = s.shared.epochKey := by rw [h]
  exact ⟨hsecret, hmembers, hepoch, hkey⟩

theorem KeyedBy.of_shared_eq {secret : Bytes} {s s' : MLSGroupSession}
    (hs : KeyedBy hmac secret s) (h : s'.shared = s.shared) : KeyedBy hmac secret s' := by
  obtain ⟨hsecret, hmembers, -, hkey⟩ := MLSGroupSession.of_shared_eq h
  refine ⟨?_, ?_⟩
  · rw [hsecret, hs.secret]
  · rw [hmembers, hkey]
    exact hs.key

end MLSGroupSession

def Operation.Succeeds (hmac : HMAC) (s : MLSGroupSession) (op : Operation) : Prop :=
  ∀ c, op.change? = some c → ((c.apply hmac).call s).1 = .ok ()

theorem Change.call_apply_of_ok {c : Change} {s : MLSGroupSession}
    (h : ((c.apply hmac).call s).1 = .ok ()) :
    ∃ memberIds, MLSGroupSession.encodedIds (c.update s.members) = some memberIds ∧
      (c.apply hmac).exec s = s.rotated hmac (c.update s.members) memberIds := by
  rcases c.call_apply_cases hmac s with
    ⟨e, members, hcall⟩ | ⟨memberIds, -, hencode, hcall⟩
  · rw [hcall] at h
    exact absurd h (by simp)
  · exact ⟨memberIds, hencode, Method.exec_of_call hcall⟩

theorem Operation.apply_of_change {op : Operation} {c : Change} (h : op.change? = some c)
    (s : MLSGroupSession) : op.apply hmac aesgcm s = (c.apply hmac).exec s := by
  cases op with
  | change c' => rw [Operation.apply, Option.some.inj h]
  | encrypt plaintext => exact absurd h (by simp [Operation.change?])
  | decrypt wireFrame senderEpoch senderSeq => exact absurd h (by simp [Operation.change?])

namespace MLSGroupSession

theorem keyedBy_apply {secret : Bytes} {s : MLSGroupSession} {op : Operation}
    (hs : KeyedBy hmac secret s) (hop : op.Succeeds hmac s) :
    KeyedBy hmac secret (op.apply hmac aesgcm s) := by
  cases hchange : op.change? with
  | none => exact hs.of_shared_eq (shared_apply_of_none hchange s)
  | some c =>
      obtain ⟨memberIds, hencode, hexec⟩ := Change.call_apply_of_ok (hop c hchange)
      rw [Operation.apply_of_change hchange s, hexec]
      exact ⟨hs.secret, memberIds, hencode, by rw [← hs.secret]; rfl⟩

theorem epoch_apply {s : MLSGroupSession} {op : Operation} (hop : op.Succeeds hmac s) :
    (op.apply hmac aesgcm s).epoch = s.epoch + op.change?.toList.length := by
  cases hchange : op.change? with
  | none => exact (of_shared_eq (shared_apply_of_none hchange s)).2.2.1
  | some c =>
      obtain ⟨memberIds, -, hexec⟩ := Change.call_apply_of_ok (hop c hchange)
      rw [Operation.apply_of_change hchange s, hexec]
      rfl

theorem epoch_perform {s : MLSGroupSession} {ops : List Operation}
    (hops : Along (Operation.apply hmac aesgcm) (Operation.Succeeds hmac) s ops) :
    (s.perform hmac aesgcm ops).epoch =
      s.epoch + (ops.filterMap Operation.change?).length := by
  induction ops generalizing s with
  | nil => rfl
  | cons op ops ih =>
      have htail := ih hops.2
      change (s.perform hmac aesgcm (op :: ops)).epoch = _ at htail
      rw [htail, epoch_apply hops.1]
      cases hchange : op.change? with
      | none =>
          rw [List.filterMap_cons_none hchange]
          rfl
      | some c =>
          rw [List.filterMap_cons_some hchange, List.length_cons, Option.toList_some,
            List.length_singleton]
          omega

theorem epochKey_perform_of_no_change {s : MLSGroupSession} {ops : List Operation}
    (hops : ∀ op ∈ ops, op.change? = none) :
    (s.perform hmac aesgcm ops).epochKey = s.epochKey := by
  have hshared : (s.perform hmac aesgcm ops).shared =
      afterChanges hmac s.shared (ops.filterMap Operation.change?) := shared_perform s ops
  rw [List.filterMap_eq_nil_iff.mpr hops] at hshared
  exact (of_shared_eq hshared).2.2.2

/-- `ops`, whose changes all succeed, leave a session that was constructed with this
init secret and no members in the state `s`. -/
def ReachedBy (hmac : HMAC) (aesgcm : AESGCM) (initSecret : Bytes) (ops : List Operation)
    (s : MLSGroupSession) : Prop :=
  ∃ groupId, Along (Operation.apply hmac aesgcm) (Operation.Succeeds hmac)
      (new hmac groupId initSecret .empty) ops ∧
    (new hmac groupId initSecret .empty).perform hmac aesgcm ops = s

theorem ReachedBy.keyedBy {secret : Bytes} {ops : List Operation} {s : MLSGroupSession}
    (h : ReachedBy hmac aesgcm secret ops s) : KeyedBy hmac secret s := by
  obtain ⟨groupId, hops, rfl⟩ := h
  exact foldl_invariant (fun _ _ _ hs hop => keyedBy_apply hs hop) (keyedBy_new _ _ _) hops

theorem ReachedBy.epoch_eq {secret : Bytes} {ops : List Operation} {s : MLSGroupSession}
    (h : ReachedBy hmac aesgcm secret ops s) :
    s.epoch = (ops.filterMap Operation.change?).length := by
  obtain ⟨groupId, hops, rfl⟩ := h
  rw [epoch_perform hops]
  exact Nat.zero_add _

theorem length_truncate (plaintext : Bytes) : (truncate plaintext).length ≤ 228 := by
  unfold truncate
  by_cases hlong : plaintext.length > maxPlaintext
  · rw [if_pos hlong]
    exact List.length_take_le _ _
  · rw [if_neg hlong]
    exact Nat.le_of_not_lt hlong

def Authenticates (aesgcm : AESGCM) (s r : MLSGroupSession) : Prop :=
  ∀ plaintext frame s', (encrypt aesgcm plaintext).call s = (.ok frame, s') →
    (decrypt aesgcm frame s.epoch s.sendSeq).call r =
      (.ok ((pad (truncate plaintext)).rdropWhile (· = 0)), r)

theorem authenticates_of_epochKey_eq (haes : aesgcm.Lawful) {s r : MLSGroupSession}
    (hkey : r.epochKey = s.epochKey) : Authenticates aesgcm s r := by
  intro plaintext frame s' hcall
  cases hnonce : seqNonce s.epoch s.sendSeq with
  | none =>
      rw [call_encrypt_of_none aesgcm hnonce] at hcall
      exact absurd (congrArg Prod.fst hcall) (by simp)
  | some nonce =>
      rw [call_encrypt_of_some aesgcm hnonce] at hcall
      have hframe := Except.ok.inj (congrArg Prod.fst hcall)
      rw [← hframe]
      exact call_decrypt_sealed haes hkey hnonce (length_truncate plaintext)

/-- Sessions with one init secret that end with the same members hold the same key;
after as many changes they are in the same epoch and read each other's frames until
the next change. -/
theorem same_members_agree (haes : aesgcm.Lawful) {secret : Bytes} {ops ops' : List Operation}
    {s s' : MLSGroupSession} (hs : ReachedBy hmac aesgcm secret ops s)
    (hs' : ReachedBy hmac aesgcm secret ops' s')
    (hsame : ∀ m, m ∈ s.members.keys ↔ m ∈ s'.members.keys) :
    s.epochKey = s'.epochKey ∧
    ((ops.filterMap Operation.change?).length = (ops'.filterMap Operation.change?).length →
      s.epoch = s'.epoch ∧
      ∀ more more', (∀ op ∈ more, op.change? = none) → (∀ op ∈ more', op.change? = none) →
        Authenticates aesgcm (s.perform hmac aesgcm more) (s'.perform hmac aesgcm more') ∧
        Authenticates aesgcm (s'.perform hmac aesgcm more') (s.perform hmac aesgcm more)) := by
  obtain ⟨memberIds, hids, hkey⟩ := hs.keyedBy.key
  obtain ⟨memberIds', hids', hkey'⟩ := hs'.keyedBy.key
  have hagree : s.epochKey = s'.epochKey := by
    rw [hkey, hkey', deriveEpochKey_eq_of_same_members hids hids' hsame]
  refine ⟨hagree, ?_⟩
  intro hcount
  refine ⟨by rw [hs.epoch_eq, hs'.epoch_eq, hcount], ?_⟩
  intro more more' hmore hmore'
  have hlater : (s.perform hmac aesgcm more).epochKey =
      (s'.perform hmac aesgcm more').epochKey := by
    rw [epochKey_perform_of_no_change hmore, epochKey_perform_of_no_change hmore', hagree]
  exact ⟨authenticates_of_epochKey_eq haes hlater.symm, authenticates_of_epochKey_eq haes hlater⟩

theorem same_members_agree_symbolic :
    ((new symbolicHmac [7] [1] .empty).perform symbolicHmac symbolicAesgcm
        [.change (.add [97] []), .encrypt [5], .change (.add [98] [])]).epochKey =
      ((new symbolicHmac [] [1] .empty).perform symbolicHmac symbolicAesgcm
        [.change (.add [98] []), .change (.add [97] [])]).epochKey ∧
    ((new symbolicHmac [7] [1] .empty).perform symbolicHmac symbolicAesgcm
        [.change (.add [97] []), .encrypt [5], .change (.add [98] [])]).epoch =
      ((new symbolicHmac [] [1] .empty).perform symbolicHmac symbolicAesgcm
        [.change (.add [98] []), .change (.add [97] [])]).epoch := by
  have hreached : ReachedBy symbolicHmac symbolicAesgcm [1]
      [.change (.add [97] []), .encrypt [5], .change (.add [98] [])]
      ((new symbolicHmac [7] [1] .empty).perform symbolicHmac symbolicAesgcm
        [.change (.add [97] []), .encrypt [5], .change (.add [98] [])]) := by
    refine ⟨[7], ⟨?_, ?_, ?_, trivial⟩, rfl⟩
    · rintro c ⟨⟩
      decide +kernel
    · intro c hc
      exact absurd hc (by simp [Operation.change?])
    · rintro c ⟨⟩
      decide +kernel
  have hreached' : ReachedBy symbolicHmac symbolicAesgcm [1]
      [.change (.add [98] []), .change (.add [97] [])]
      ((new symbolicHmac [] [1] .empty).perform symbolicHmac symbolicAesgcm
        [.change (.add [98] []), .change (.add [97] [])]) := by
    refine ⟨[], ⟨?_, ?_, trivial⟩, rfl⟩
    · rintro c ⟨⟩
      decide +kernel
    · rintro c ⟨⟩
      decide +kernel
  have hkeys : ((new symbolicHmac [7] [1] .empty).perform symbolicHmac symbolicAesgcm
      [.change (.add [97] []), .encrypt [5], .change (.add [98] [])]).members.keys =
        [[97], [98]] := by decide +kernel
  have hkeys' : ((new symbolicHmac [] [1] .empty).perform symbolicHmac symbolicAesgcm
      [.change (.add [98] []), .change (.add [97] [])]).members.keys =
        [[98], [97]] := by decide +kernel
  have hagree := same_members_agree symbolicAesgcm_lawful hreached hreached' (by
    intro m
    rw [hkeys, hkeys']
    exact (List.Perm.swap [98] [97] []).mem_iff)
  exact ⟨hagree.1, (hagree.2 rfl).1⟩

end MLSGroupSession

end Roomsync.Encryption.Mls
