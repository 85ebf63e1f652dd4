import Roomsync.Encryption.Mls.Members
/-!
# A session built from the data of a group

The constructor takes a member map and derives the first epoch key from no members
at all.  A joiner that is handed the init secret and the members of a group holds the
key of that group only where the group's own key comes from no ids, or empty ones;
the next change brings the two together.
-/

namespace Roomsync.Encryption.Mls

open Roomsync.Lib

variable {hmac : HMAC} {aesgcm : AESGCM}

namespace MLSGroupSession

/-! ## The key held is the last one derived -/

theorem key_getLast_openedEpochs (hmac : HMAC) (s : MLSGroupSession) (changes : List Change) :
    ((openedEpochs hmac s changes).getLast?.map Epoch.key).getD s.epochKey =
      (afterChanges hmac s changes).epochKey := by
  induction changes generalizing s with
  | nil => rfl
  | cons c cs ih =>
      rcases c.call_apply_cases hmac s with
        ⟨error, members, hcall⟩ | ⟨memberIds, -, hencode, hcall⟩
      · have hexec := Method.exec_of_call hcall
        rw [openedEpochs_cons_of_error hcall]
        change _ = (afterChanges hmac ((c.apply hmac).exec s) cs).epochKey
        rw [hexec]
        exact ih { s with members := members }
      · have hexec := Method.exec_of_call hcall
        rw [openedEpochs_cons_of_ok hencode hcall, List.getLast?_cons, Option.map_some,
          Option.getD_some]
        change _ = (afterChanges hmac ((c.apply hmac).exec s) cs).epochKey
        rw [hexec, ← ih (s.rotated hmac (c.update s.members) memberIds)]
        cases (openedEpochs hmac (s.rotated hmac _ memberIds) cs).getLast? <;> rfl

theorem exists_getLast_epochs (hmac : HMAC) (groupId initSecret : Bytes)
    (members : Dict PyStr Bytes) (changes : List Change) :
    ∃ e, (epochs hmac groupId initSecret members changes).getLast? = some e ∧
      (afterChanges hmac (new hmac groupId initSecret members) changes).epochKey = e.key := by
  have hkey := key_getLast_openedEpochs hmac (new hmac groupId initSecret members) changes
  unfold epochs
  rw [List.getLast?_cons]
  refine ⟨_, rfl, ?_⟩
  rw [← hkey]
  cases (openedEpochs hmac (new hmac groupId initSecret members) changes).getLast? <;> rfl

/-! ## Two sessions that agree -/

structure Agree (s t : MLSGroupSession) : Prop where
  initSecret : t.initSecret = s.initSecret
  members : t.members = s.members
  epochKey : t.epochKey = s.epochKey

theorem agree_exec_of_ok {s t : MLSGroupSession} (hsecret : t.initSecret = s.initSecret)
    (hmembers : t.members = s.members) {c : Change} (hok : ((c.apply hmac).call s).1 = .ok ()) :
    Agree ((c.apply hmac).exec s) ((c.apply hmac).exec t) := by
  rcases c.call_apply_cases hmac s with
    ⟨error, members, hcall⟩ | ⟨memberIds, hfits, hencode, hcall⟩
  · rw [hcall] at hok
    exact absurd hok (by simp)
  · have hcall' : (c.apply hmac).call t =
        (.ok (), t.rotated hmac (c.update s.members) memberIds) := by
      rw [← hmembers] at hfits hencode ⊢
      exact Change.call_apply_of_encodable hmac hfits hencode
    rw [Method.exec_of_call hcall, Method.exec_of_call hcall']
    refine ⟨hsecret, rfl, ?_⟩
    unfold rotated
    rw [hsecret]

def Succeed (hmac : HMAC) (s : MLSGroupSession) (changes : List Change) : Prop :=
  Along (fun t c => (c.apply hmac).exec t) (fun t c => ((c.apply hmac).call t).1 = .ok ()) s changes

theorem Agree.afterChanges {s t : MLSGroupSession} (h : Agree s t) {changes : List Change}
    (hchanges : s.Succeed hmac changes) :
    Agree (afterChanges hmac s changes) (afterChanges hmac t changes) := by
  induction changes generalizing s t with
  | nil => exact h
  | cons c cs ih => exact ih (agree_exec_of_ok h.initSecret h.members hchanges.1) hchanges.2

/-! ## The joiner -/

/-- The session constructed from what a member of the group holds. -/
def joiner (hmac : HMAC) (s : MLSGroupSession) : MLSGroupSession :=
  new hmac s.groupId s.initSecret s.members

/-- The joiner holds the key of the group, reads what the group sends until the next
change, and keeps up with the changes. -/
structure JoinsInSync (hmac : HMAC) (aesgcm : AESGCM) (s : MLSGroupSession) : Prop where
  epochKey : (joiner hmac s).epochKey = s.epochKey
  authenticates : ∀ more : List Operation, (∀ op ∈ more, op.change? = none) →
    Authenticates aesgcm (s.perform hmac aesgcm more) (joiner hmac s)
  keepsUp : ∀ changes, s.Succeed hmac changes → (joiner hmac s).Succeed hmac changes →
    (afterChanges hmac (joiner hmac s) changes).epochKey = (afterChanges hmac s changes).epochKey

theorem joinsInSync_of_epochKey_eq (haes : aesgcm.Lawful) {s : MLSGroupSession}
    (hkey : (joiner hmac s).epochKey = s.epochKey) : JoinsInSync hmac aesgcm s where
  epochKey := hkey
  authenticates := by
    intro more hmore
    apply authenticates_of_epochKey_eq haes
    rw [epochKey_perform_of_no_change hmore, hkey]
  keepsUp := by
    intro changes hchanges _
    have hagree : Agree s (joiner hmac s) := ⟨rfl, rfl, hkey⟩
    exact (hagree.afterChanges hchanges).epochKey

theorem joinedIds_eq_nil_iff (e : Epoch) : joinedIds e = [] ↔ ∀ b ∈ e.memberIds, b = [] := by
  unfold joinedIds
  rw [List.flatten_eq_nil_iff]
  exact forall_congr' fun b => imp_congr_left (sorted_perm e.memberIds).mem_iff

theorem initSecret_apply (s : MLSGroupSession) (op : Operation) :
    (op.apply hmac aesgcm s).initSecret = s.initSecret := by
  cases hchange : op.change? with
  | none => exact (of_shared_eq (shared_apply_of_none hchange s)).1
  | some c =>
      rw [Operation.apply_of_change hchange s]
      rcases c.call_apply_cases hmac s with ⟨e, members, hcall⟩ | ⟨memberIds, -, -, hcall⟩
      · rw [Method.exec_of_call hcall]
      · rw [Method.exec_of_call hcall]
        rfl

theorem initSecret_perform (s : MLSGroupSession) (ops : List Operation) :
    (s.perform hmac aesgcm ops).initSecret = s.initSecret := by
  induction ops generalizing s with
  | nil => rfl
  | cons op ops ih => exact (ih (op.apply hmac aesgcm s)).trans (initSecret_apply s op)

theorem epochKey_perform (groupId initSecret : Bytes) (members : Dict PyStr Bytes)
    (ops : List Operation) :
    ((new hmac groupId initSecret members).perform hmac aesgcm ops).epochKey =
      (afterChanges hmac (new hmac groupId initSecret members)
        (ops.filterMap Operation.change?)).epochKey := by
  have hkey : ((new hmac groupId initSecret members).perform hmac aesgcm ops).shared.epochKey =
      (afterChanges hmac (new hmac groupId initSecret members).shared
        (ops.filterMap Operation.change?)).epochKey := by
    rw [shared_perform]
  exact hkey

/-- A joiner is in sync exactly when the group's key was last derived from no ids, or
from empty ones. -/
theorem joinsInSync_iff (haes : aesgcm.Lawful) (groupId initSecret : Bytes)
    (members : Dict PyStr Bytes) (ops : List Operation)
    (hhmac : hmac.CollisionFreeOn initSecret
      (messages (epochs hmac groupId initSecret members (ops.filterMap Operation.change?)))) :
    JoinsInSync hmac aesgcm ((new hmac groupId initSecret members).perform hmac aesgcm ops) ↔
      ∀ e ∈ (epochs hmac groupId initSecret members (ops.filterMap Operation.change?)).getLast?,
        ∀ b ∈ e.memberIds, b = [] := by
  obtain ⟨e, hlast, hkey⟩ :=
    exists_getLast_epochs hmac groupId initSecret members (ops.filterMap Operation.change?)
  have he := List.mem_of_getLast? hlast
  have hderived := key_of_mem_epochs e he
  have hheld : ((new hmac groupId initSecret members).perform hmac aesgcm ops).epochKey =
      hmac initSecret (joinedIds e) := by
    rw [epochKey_perform, hkey, hderived]
  have hjoiner : (joiner hmac
      ((new hmac groupId initSecret members).perform hmac aesgcm ops)).epochKey =
        hmac initSecret [] := by
    unfold joiner
    rw [initSecret_perform]
    rfl
  rw [hlast]
  simp only [Option.mem_some_iff, forall_eq', ← joinedIds_eq_nil_iff]
  constructor
  · intro hsync
    have hsame := hsync.epochKey
    rw [hjoiner, hheld] at hsame
    -- The epoch that the constructor opens has the empty message.
    exact (hhmac ⟨_, List.mem_cons_self, rfl⟩ ⟨e, he, rfl⟩ hsame).symm
  · intro hnil
    apply joinsInSync_of_epochKey_eq haes
    rw [hjoiner, hheld, hnil]

theorem joiner_of_one_member_out_of_sync :
    ¬ JoinsInSync symbolicHmac symbolicAesgcm
      ((new symbolicHmac [] [1] .empty).perform symbolicHmac symbolicAesgcm
        [.change (.add [97] [])]) := by
  intro hsync
  exact absurd hsync.epochKey (by decide +kernel)

theorem joinsInSync_iff_symbolic :
    JoinsInSync symbolicHmac symbolicAesgcm
      ((new symbolicHmac [] [1] .empty).perform symbolicHmac symbolicAesgcm
        [.change (.add [97] []), .encrypt [5], .change (.remove [97])]) ↔
      ∀ e ∈ (epochs symbolicHmac [] [1] .empty
          ([Operation.change (.add [97] []), .encrypt [5], .change (.remove [97])].filterMap
            Operation.change?)).getLast?,
        ∀ b ∈ e.memberIds, b = [] :=
  joinsInSync_iff symbolicAesgcm_lawful [] [1] .empty _ (symbolicHmac_collisionFreeOn _ _)

end MLSGroupSession

end Roomsync.Encryption.Mls
