import Roomsync.Encryption.Mls.Group
import Roomsync.Lib.Regroup
/-!
# Epochs and their keys

The key of an epoch is the digest, under the init secret, of the sorted member
ids run together.  Nothing else goes into it, so it depends on the members alone
and whoever has the init secret can compute it.
-/

namespace Roomsync.Encryption.Mls

open Roomsync.Lib

/-! ## The epochs of a list of changes -/

namespace MLSGroupSession

def afterChanges (hmac : HMAC) (s : MLSGroupSession) (changes : List Change) :
    MLSGroupSession :=
  changes.foldl (fun s c => (c.apply hmac).exec s) s

/-- What the members of a group have in common: all but the send counter. -/
def shared (s : MLSGroupSession) : MLSGroupSession := { s with sendSeq := 0 }

end MLSGroupSession

variable {hmac : HMAC} {aesgcm : AESGCM}

theorem Change.shared_exec (hmac : HMAC) (c : Change) (s : MLSGroupSession) :
    ((c.apply hmac).exec s).shared = (c.apply hmac).exec s.shared := by
  by_cases hfits : c.Fits s.members
  · have hfits' : c.Fits s.shared.members := hfits
    cases hencode : MLSGroupSession.encodedIds (c.update s.members) with
    | none =>
        rw [Method.exec_of_call (call_apply_of_unencodable hmac hfits hencode),
          Method.exec_of_call (call_apply_of_unencodable hmac hfits' hencode)]
        rfl
    | some memberIds =>
        rw [Method.exec_of_call (call_apply_of_encodable hmac hfits hencode),
          Method.exec_of_call (call_apply_of_encodable hmac hfits' hencode)]
        rfl
  · have hfits' : ¬ c.Fits s.shared.members := hfits
    rw [Method.exec_of_call (call_apply_of_not_fits hmac hfits),
      Method.exec_of_call (call_apply_of_not_fits hmac hfits')]

theorem Change.epoch_exec (hmac : HMAC) (c : Change) (s : MLSGroupSession) :
    (((c.apply hmac).exec s).epoch = s.epoch ∧
      ((c.apply hmac).exec s).epochKey = s.epochKey ∧
      ((c.apply hmac).exec s).sendSeq = s.sendSeq) ∨
    (((c.apply hmac).exec s).epoch = s.epoch + 1 ∧
      ((c.apply hmac).exec s).sendSeq = 0) := by
  rcases c.call_apply_cases hmac s with ⟨e, members, hcall⟩ | ⟨memberIds, -, -, hcall⟩
  · left
    rw [Method.exec_of_call hcall]
    exact ⟨rfl, rfl, rfl⟩
  · right
    rw [Method.exec_of_call hcall]
    exact ⟨rfl, rfl⟩

namespace MLSGroupSession

theorem afterChanges_take_succ (s : MLSGroupSession) {changes : List Change} {n : ℕ}
    {c : Change} (hc : changes[n]? = some c) :
    afterChanges hmac s (changes.take (n + 1)) =
      (c.apply hmac).exec (afterChanges hmac s (changes.take n)) := by
  unfold afterChanges
  rw [List.take_add_one, hc, Option.toList_some, List.foldl_append]
  rfl

theorem afterChanges_take_of_none (s : MLSGroupSession) {changes : List Change} {n : ℕ}
    (hc : changes[n]? = none) :
    afterChanges hmac s (changes.take (n + 1)) = afterChanges hmac s (changes.take n) := by
  rw [List.take_add_one, hc, Option.toList_none, List.append_nil]

theorem epoch_afterChanges_le (s : MLSGroupSession) (changes : List Change) {m n : ℕ}
    (h : m ≤ n) :
    (afterChanges hmac s (changes.take m)).epoch ≤ (afterChanges hmac s (changes.take n)).epoch ∧
    ((afterChanges hmac s (changes.take m)).epoch = (afterChanges hmac s (changes.take n)).epoch →
      (afterChanges hmac s (changes.take m)).epochKey =
        (afterChanges hmac s (changes.take n)).epochKey) := by
  induction n, h using Nat.le_induction with
  | base => exact ⟨le_rfl, fun _ => rfl⟩
  | succ n _ ih =>
      cases hc : changes[n]? with
      | none =>
          rw [afterChanges_take_of_none s hc]
          exact ih
      | some c =>
          rw [afterChanges_take_succ s hc]
          have hstep := c.epoch_exec hmac (afterChanges hmac s (changes.take n))
          rcases hstep with ⟨hepoch, hkey, -⟩ | ⟨hepoch, -⟩
          · rw [hepoch, hkey]
            exact ih
          · rw [hepoch]
            exact ⟨by omega, fun heq => by omega⟩

theorem epochKey_eq_of_epoch_eq (s : MLSGroupSession) (changes : List Change) {m n : ℕ}
    (h : (afterChanges hmac s (changes.take m)).epoch =
      (afterChanges hmac s (changes.take n)).epoch) :
    (afterChanges hmac s (changes.take m)).epochKey =
      (afterChanges hmac s (changes.take n)).epochKey := by
  rcases Nat.le_total m n with hle | hle
  · exact (epoch_afterChanges_le s changes hle).2 h
  · exact ((epoch_afterChanges_le s changes hle).2 h.symm).symm

end MLSGroupSession

/-! ## The keys of a run -/

/-- An epoch: its key, and the encoded member ids that it was derived from. -/
structure Epoch where
  key : Bytes
  memberIds : List Bytes

namespace MLSGroupSession

/-- The epochs that the changes open; one that raises opens none. -/
def openedEpochs (hmac : HMAC) : MLSGroupSession → List Change → List Epoch
  | _, [] => []
  | s, c :: cs =>
      match (c.apply hmac).call s with
      | (.ok _, s') => ⟨s'.epochKey, (encodedIds s'.members).getD []⟩ :: openedEpochs hmac s' cs
      | (.error _, s') => openedEpochs hmac s' cs

def epochs (hmac : HMAC) (groupId initSecret : Bytes) (members : Dict PyStr Bytes)
    (changes : List Change) : List Epoch :=
  ⟨(new hmac groupId initSecret members).epochKey, []⟩ ::
    openedEpochs hmac (new hmac groupId initSecret members) changes

def joinedIds (e : Epoch) : Bytes := (sorted e.memberIds).flatten

theorem openedEpochs_cons_of_error {s s' : MLSGroupSession} {c : Change} {error : PyError}
    (h : (c.apply hmac).call s = (.error error, s')) (cs : List Change) :
    openedEpochs hmac s (c :: cs) = openedEpochs hmac s' cs := by
  simp only [openedEpochs, h]

theorem openedEpochs_cons_of_ok {s : MLSGroupSession} {c : Change} {members : Dict PyStr Bytes}
    {memberIds : List Bytes} (hencode : encodedIds members = some memberIds)
    (h : (c.apply hmac).call s = (.ok (), s.rotated hmac members memberIds)) (cs : List Change) :
    openedEpochs hmac s (c :: cs) =
      ⟨deriveEpochKey hmac s.initSecret memberIds, memberIds⟩ ::
        openedEpochs hmac (s.rotated hmac members memberIds) cs := by
  simp only [openedEpochs, h]
  simp only [rotated, hencode, Option.getD_some]

theorem key_of_mem_openedEpochs (s : MLSGroupSession) (changes : List Change) :
    ∀ e ∈ openedEpochs hmac s changes, e.key = hmac s.initSecret (joinedIds e) := by
  induction changes generalizing s with
  | nil => simp [openedEpochs]
  | cons c cs ih =>
      intro e he
      rcases c.call_apply_cases hmac s with
        ⟨error, members, hcall⟩ | ⟨memberIds, -, hencode, hcall⟩
      · rw [openedEpochs_cons_of_error hcall] at he
        exact ih { s with members := members } e he
      · rw [openedEpochs_cons_of_ok hencode hcall] at he
        rcases List.mem_cons.mp he with rfl | he
        · rfl
        · exact ih (s.rotated hmac (c.update s.members) memberIds) e he

theorem key_of_mem_epochs {groupId initSecret : Bytes} {members : Dict PyStr Bytes}
    {changes : List Change} :
    ∀ e ∈ epochs hmac groupId initSecret members changes,
      e.key = hmac initSecret (joinedIds e) := by
  intro e he
  rcases List.mem_cons.mp he with rfl | he
  · rfl
  · exact key_of_mem_openedEpochs _ _ e he

def messages (es : List Epoch) : Set Bytes := {m | ∃ e ∈ es, joinedIds e = m}

/-- Two epochs of a session share a key exactly when moving the boundaries between the sorted
ids of one gives those of the other. -/
theorem epochKey_eq_iff_regrouped {groupId initSecret : Bytes} {members : Dict PyStr Bytes}
    {changes : List Change} {used : Set Bytes} (hhmac : hmac.CollisionFreeOn initSecret used)
    {e e' : Epoch} (he : e ∈ epochs hmac groupId initSecret members changes)
    (he' : e' ∈ epochs hmac groupId initSecret members changes) (hused : joinedIds e ∈ used)
    (hused' : joinedIds e' ∈ used) :
    e.key = e'.key ↔ Regrouped (sorted e.memberIds) (sorted e'.memberIds) := by
  rw [key_of_mem_epochs e he, key_of_mem_epochs e' he', regrouped_iff]
  exact ⟨fun h => hhmac hused hused' h, fun h => congrArg (hmac initSecret) h⟩

/-- From any epoch of a run on, the keys differ exactly when the ids of no epoch are those of
a later one run together and cut up differently. -/
theorem epochKeys_nodup_iff (groupId initSecret : Bytes) (members : Dict PyStr Bytes)
    (changes : List Change) (k : ℕ)
    (hhmac : hmac.CollisionFreeOn initSecret
      (messages ((epochs hmac groupId initSecret members changes).drop k))) :
    (((epochs hmac groupId initSecret members changes).drop k).map Epoch.key).Nodup ↔
      (((epochs hmac groupId initSecret members changes).drop k).map
        fun e => sorted e.memberIds).Pairwise fun ids ids' => ¬ Regrouped ids ids' := by
  unfold List.Nodup
  rw [List.pairwise_map, List.pairwise_map]
  apply List.Pairwise.iff_of_mem
  intro e e' he he'
  exact not_congr (epochKey_eq_iff_regrouped hhmac (List.mem_of_mem_drop he)
    (List.mem_of_mem_drop he') ⟨e, he, rfl⟩ ⟨e', he', rfl⟩)

theorem epochKeys_repeat_after_leave :
    ¬ ((epochs symbolicHmac [] [1] .empty
        [.add [97] [], .add [98] [], .remove [98]]).map Epoch.key).Nodup := by
  decide +kernel

theorem epochKeys_nodup_iff_symbolic :
    (((epochs symbolicHmac [] [1] .empty [.add [97] [], .add [98] []]).drop 1).map
        Epoch.key).Nodup ↔
      (((epochs symbolicHmac [] [1] .empty [.add [97] [], .add [98] []]).drop 1).map
        fun e => sorted e.memberIds).Pairwise fun ids ids' => ¬ Regrouped ids ids' :=
  epochKeys_nodup_iff _ _ _ _ _ (symbolicHmac_collisionFreeOn _ _)

end MLSGroupSession

/-! ## Removed members -/

inductive Operation
  | change (c : Change)
  | encrypt (plaintext : Bytes)
  | decrypt (wireFrame : Bytes) (senderEpoch senderSeq : ℤ)

namespace Operation

def change? : Operation → Option Change
  | .change c => some c
  | .encrypt _ => none
  | .decrypt _ _ _ => none

def apply (hmac : HMAC) (aesgcm : AESGCM) (s : MLSGroupSession) : Operation → MLSGroupSession
  | .change c => (c.apply hmac).exec s
  | .encrypt plaintext => (MLSGroupSession.encrypt aesgcm plaintext).exec s
  | .decrypt wireFrame senderEpoch senderSeq =>
      (MLSGroupSession.decrypt aesgcm wireFrame senderEpoch senderSeq).exec s

end Operation

namespace MLSGroupSession

def perform (hmac : HMAC) (aesgcm : AESGCM) (s : MLSGroupSession) (ops : List Operation) :
    MLSGroupSession :=
  ops.foldl (Operation.apply hmac aesgcm) s

theorem shared_exec_encrypt (s : MLSGroupSession) (plaintext : Bytes) :
    ((encrypt aesgcm plaintext).exec s).shared = s.shared := by
  rcases exec_encrypt_cases aesgcm s plaintext with hexec | hexec
  · rw [hexec]
  · rw [hexec]
    rfl

theorem shared_apply_of_none {op : Operation} (h : op.change? = none) (s : MLSGroupSession) :
    (op.apply hmac aesgcm s).shared = s.shared := by
  cases op with
  | change c => exact absurd h (by simp [Operation.change?])
  | encrypt plaintext => simp only [Operation.apply, shared_exec_encrypt]
  | decrypt wireFrame senderEpoch senderSeq => simp only [Operation.apply, exec_decrypt]

theorem shared_apply_of_some {op : Operation} {c : Change} (h : op.change? = some c)
    (s : MLSGroupSession) :
    (op.apply hmac aesgcm s).shared = (c.apply hmac).exec s.shared := by
  cases op with
  | change c' =>
      have hc : c' = c := Option.some.inj h
      simp only [Operation.apply, hc, c.shared_exec hmac]
  | encrypt plaintext => exact absurd h (by simp [Operation.change?])
  | decrypt wireFrame senderEpoch senderSeq => exact absurd h (by simp [Operation.change?])

theorem shared_perform (s : MLSGroupSession) (ops : List Operation) :
    (s.perform hmac aesgcm ops).shared =
      afterChanges hmac s.shared (ops.filterMap Operation.change?) := by
  induction ops generalizing s with
  | nil => rfl
  | cons op ops ih =>
      have htail := ih (op.apply hmac aesgcm s)
      change (s.perform hmac aesgcm (op :: ops)).shared = _ at htail
      rw [htail]
      cases hchange : op.change? with
      | none => rw [List.filterMap_cons_none hchange, shared_apply_of_none hchange]
      | some c =>
          rw [List.filterMap_cons_some hchange, shared_apply_of_some hchange]
          rfl

/-- Nothing done with `copy` yields the key that `others` hold once `m` is removed. -/
def LockedOut (hmac : HMAC) (aesgcm : AESGCM) (copy others : MLSGroupSession) (m : PyStr) :
    Prop :=
  ∀ ops, (copy.perform hmac aesgcm ops).epochKey ≠
    ((removeMember hmac m).exec others).epochKey

/-- A removed member gets the new key by removing itself from its own copy. -/
theorem not_lockedOut (hmac : HMAC) (aesgcm : AESGCM) (groupId initSecret : Bytes)
    (members : Dict PyStr Bytes) (ownOps othersOps : List Operation)
    (hchanges : ownOps.filterMap Operation.change? = othersOps.filterMap Operation.change?)
    (m : PyStr) :
    ¬ LockedOut hmac aesgcm ((new hmac groupId initSecret members).perform hmac aesgcm ownOps)
        ((new hmac groupId initSecret members).perform hmac aesgcm othersOps) m := by
  intro hlocked
  generalize new hmac groupId initSecret members = s at hlocked
  have hshared : (s.perform hmac aesgcm ownOps).shared =
      (s.perform hmac aesgcm othersOps).shared := by
    rw [shared_perform, shared_perform, hchanges]
  have hown := (Change.remove m).shared_exec hmac (s.perform hmac aesgcm ownOps)
  have hothers := (Change.remove m).shared_exec hmac (s.perform hmac aesgcm othersOps)
  rw [hshared, ← hothers] at hown
  have hkey := congrArg epochKey hown
  exact hlocked [.change (.remove m)] hkey

theorem lockedOut_false_after_removal :
    ¬ LockedOut symbolicHmac symbolicAesgcm
      ((new symbolicHmac [] [1] .empty).perform symbolicHmac symbolicAesgcm
        [.change (.add [97] []), .change (.add [98] [])])
      ((new symbolicHmac [] [1] .empty).perform symbolicHmac symbolicAesgcm
        [.change (.add [97] []), .change (.add [98] [])]) [98] := by
  intro hlocked
  exact hlocked [.change (.remove [98])] (by decide +kernel)

theorem not_lockedOut_symbolic :
    ¬ LockedOut symbolicHmac symbolicAesgcm
      ((new symbolicHmac [] [1] .empty).perform symbolicHmac symbolicAesgcm
        [.change (.add [97] []), .encrypt [5]])
      ((new symbolicHmac [] [1] .empty).perform symbolicHmac symbolicAesgcm
        [.change (.add [97] [])]) [97] :=
  not_lockedOut symbolicHmac symbolicAesgcm [] [1] .empty _ _ (by simp [Operation.change?]) _

end MLSGroupSession

end Roomsync.Encryption.Mls
