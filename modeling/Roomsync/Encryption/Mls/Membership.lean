import Roomsync.Encryption.Mls.Epoch
import Roomsync.Lib.Run
/-!
# What a change leaves when it raises

`add_member` and `remove_member` write the member map first and derive the key of
the next epoch from it afterwards.  Only the size check comes before the write, so a
member id that cannot be encoded is found when the map already holds it.
-/

namespace Roomsync.Encryption.Mls

open Roomsync.Lib

variable {hmac : HMAC} {aesgcm : AESGCM}

def Change.memberId : Change → PyStr
  | .add memberId _ => memberId
  | .remove memberId => memberId

namespace MLSGroupSession

theorem encodedIds_eq_none_iff (members : Dict PyStr Bytes) :
    encodedIds members = none ↔ ∃ memberId ∈ members.keys, memberId.HasSurrogate := by
  unfold encodedIds
  simp only [mapM_eq_none_iff, PyStr.encode_eq_none_iff]

/-! ## Errors -/

/-- If the call raises, the session is as before, and later calls for other ids cannot
tell that it was made. -/
def ErrorLeavesIntact (hmac : HMAC) (s : MLSGroupSession) (c : Change) : Prop :=
  ∀ e s', (c.apply hmac).call s = (.error e, s') →
    (s'.members = s.members ∧ s'.epoch = s.epoch ∧ s'.epochKey = s.epochKey ∧
      s'.sendSeq = s.sendSeq) ∧
    ∀ later : List Change, (∀ c' ∈ later, c'.memberId ≠ c.memberId) →
      run (fun t c' => (c'.apply hmac).call t) s' later =
        run (fun t c' => (c'.apply hmac).call t) s later

/-- The size check refuses the call, or the members after it can all be encoded, or it
writes nothing new. -/
def Harmless (members : Dict PyStr Bytes) (c : Change) : Prop :=
  ¬ c.Fits members ∨ (∀ memberId ∈ (c.update members).keys, ¬ memberId.HasSurrogate) ∨
    c.update members = members

theorem call_apply_eq_error {c : Change} {s s' : MLSGroupSession} {e : PyError}
    (h : (c.apply hmac).call s = (.error e, s')) :
    ¬ c.Fits s.members ∧ s' = s ∨
      c.Fits s.members ∧ (∃ memberId ∈ (c.update s.members).keys, memberId.HasSurrogate) ∧
        s' = { s with members := c.update s.members } := by
  by_cases hfits : c.Fits s.members
  · right
    cases hencode : encodedIds (c.update s.members) with
    | none =>
        rw [Change.call_apply_of_unencodable hmac hfits hencode] at h
        exact ⟨hfits, (encodedIds_eq_none_iff _).mp hencode, (congrArg Prod.snd h).symm⟩
    | some memberIds =>
        rw [Change.call_apply_of_encodable hmac hfits hencode] at h
        exact absurd (congrArg Prod.fst h) (by simp)
  · left
    rw [Change.call_apply_of_not_fits hmac hfits] at h
    exact ⟨hfits, (congrArg Prod.snd h).symm⟩

theorem errorLeavesIntact_iff (s : MLSGroupSession) (c : Change) :
    ErrorLeavesIntact hmac s c ↔ Harmless s.members c := by
  constructor
  · intro hintact
    by_cases hfits : c.Fits s.members
    · by_cases hsurrogate : ∃ memberId ∈ (c.update s.members).keys, memberId.HasSurrogate
      · have hencode := (encodedIds_eq_none_iff _).mpr hsurrogate
        have hcall := Change.call_apply_of_unencodable hmac hfits hencode
        exact .inr (.inr (hintact _ _ hcall).1.1)
      · push Not at hsurrogate
        exact .inr (.inl hsurrogate)
    · exact .inl hfits
  · intro hharmless e s' hcall
    have hstate : s' = s := by
      rcases call_apply_eq_error hcall with
        ⟨-, hsame⟩ | ⟨hfits, ⟨memberId, hmem, hid⟩, hwritten⟩
      · exact hsame
      · rcases hharmless with hfull | hencodable | hnothing
        · exact absurd hfits hfull
        · exact absurd hid (hencodable memberId hmem)
        · rw [hwritten, hnothing]
    subst hstate
    exact ⟨⟨rfl, rfl, rfl, rfl⟩, fun _ _ => rfl⟩

/-- In a run, the changes that raise leave the group intact exactly as far as they are
harmless to the members that they are made on. -/
theorem errors_leave_intact_iff (hmac : HMAC) (aesgcm : AESGCM) (groupId initSecret : Bytes)
    (members : Dict PyStr Bytes) (ops : List Operation) :
    (∀ i c, ops[i]? = some (.change c) →
      ErrorLeavesIntact hmac
        ((new hmac groupId initSecret members).perform hmac aesgcm (ops.take i)) c) ↔
    ∀ i c, ops[i]? = some (.change c) →
      Harmless
        ((new hmac groupId initSecret members).perform hmac aesgcm (ops.take i)).members c := by
  constructor
  · intro hintact i c hc
    exact (errorLeavesIntact_iff _ c).mp (hintact i c hc)
  · intro hharmless i c hc
    exact (errorLeavesIntact_iff _ c).mpr (hharmless i c hc)

theorem surrogate_id_stays :
    ¬ ∀ i c, [Operation.change (.add [0xD800] [])][i]? = some (.change c) →
      ErrorLeavesIntact symbolicHmac
        ((new symbolicHmac [] [1] .empty).perform symbolicHmac symbolicAesgcm
          ([Operation.change (.add [0xD800] [])].take i)) c := by
  intro hintact
  have hraised := hintact 0 (.add [0xD800] []) rfl .unicodeEncodeError
    { new symbolicHmac [] [1] .empty with members := .set .empty [0xD800] [] } (by rfl)
  have hkeys := congrArg Dict.keys hraised.1.1
  exact absurd hkeys (by decide)

/-! ## Capacity -/

/-- What calls of `add_member` and `remove_member` with encodable ids keep. -/
structure WithinCapacity (s : MLSGroupSession) : Prop where
  size_le : s.members.size ≤ maxMembers
  encodable : ∀ memberId ∈ s.members.keys, ¬ memberId.HasSurrogate

theorem encodable_update {members : Dict PyStr Bytes} {c : Change}
    (hmembers : ∀ memberId ∈ members.keys, ¬ memberId.HasSurrogate)
    (hc : ¬ c.memberId.HasSurrogate) :
    ∀ memberId ∈ (c.update members).keys, ¬ memberId.HasSurrogate := by
  intro memberId hmem
  cases c with
  | add added publicKey =>
      rcases Dict.mem_keys_set.mp hmem with rfl | hold
      · exact hc
      · exact hmembers memberId hold
  | remove removed => exact hmembers memberId (Dict.mem_keys_pop.mp hmem).2

theorem size_update_le {members : Dict PyStr Bytes} {c : Change} (hfits : c.Fits members)
    (hsize : members.size ≤ maxMembers) : (c.update members).size ≤ maxMembers := by
  cases c with
  | add memberId publicKey => exact (members.size_set_le memberId publicKey).trans hfits
  | remove memberId => exact (members.size_pop_le memberId).trans hsize

theorem WithinCapacity.call_of_fits {s : MLSGroupSession} (hs : s.WithinCapacity)
    (hmac : HMAC) {c : Change} (hc : ¬ c.memberId.HasSurrogate) (hfits : c.Fits s.members) :
    ∃ memberIds,
      (c.apply hmac).call s = (.ok (), s.rotated hmac (c.update s.members) memberIds) := by
  cases hencode : encodedIds (c.update s.members) with
  | none =>
      obtain ⟨memberId, hmem, hid⟩ := (encodedIds_eq_none_iff _).mp hencode
      exact absurd hid (encodable_update hs.encodable hc memberId hmem)
  | some memberIds =>
      exact ⟨memberIds, Change.call_apply_of_encodable hmac hfits hencode⟩

theorem WithinCapacity.exec {s : MLSGroupSession} (hs : s.WithinCapacity) {c : Change}
    (hc : ¬ c.memberId.HasSurrogate) : ((c.apply hmac).exec s).WithinCapacity := by
  by_cases hfits : c.Fits s.members
  · obtain ⟨memberIds, hcall⟩ := hs.call_of_fits hmac hc hfits
    rw [Method.exec_of_call hcall]
    exact ⟨size_update_le hfits hs.size_le, encodable_update hs.encodable hc⟩
  · rw [Method.exec_of_call (Change.call_apply_of_not_fits hmac hfits)]
    exact hs

theorem withinCapacity_new (hmac : HMAC) (groupId initSecret : Bytes) :
    (new hmac groupId initSecret .empty).WithinCapacity :=
  ⟨Nat.zero_le _, fun _ hmem => absurd hmem List.not_mem_nil⟩

theorem WithinCapacity.afterChanges {s : MLSGroupSession} (hs : s.WithinCapacity)
    (hmac : HMAC) {changes : List Change} (hchanges : ∀ c ∈ changes, ¬ c.memberId.HasSurrogate) :
    (afterChanges hmac s changes).WithinCapacity := by
  apply List.foldlRecOn changes _ hs
  intro t ht c hc
  exact ht.exec (hchanges c hc)

/-- `add_member` refuses a new member exactly when the group is full, and never refuses
a new public key for a member. -/
def AddsUpToCapacity (hmac : HMAC) (s : MLSGroupSession) (memberId : PyStr)
    (publicKey : Bytes) : Prop :=
  ((∃ message, ((addMember hmac memberId publicKey).call s).1 =
      .error (.overflowError message)) ↔
    memberId ∉ s.members.keys ∧ s.members.size = maxMembers) ∧
  (memberId ∈ s.members.keys →
    ((addMember hmac memberId publicKey).call s).1 = .ok () ∧
    ((addMember hmac memberId publicKey).exec s).members.get? memberId = some publicKey ∧
    ∀ other, other ≠ memberId →
      ((addMember hmac memberId publicKey).exec s).members.get? other = s.members.get? other)

theorem addMember_overflow_iff (hmac : HMAC) (s : MLSGroupSession) (memberId : PyStr)
    (publicKey : Bytes) :
    (∃ message, ((addMember hmac memberId publicKey).call s).1 =
      .error (.overflowError message)) ↔ maxMembers ≤ s.members.size := by
  constructor
  · rintro ⟨message, hraises⟩
    by_contra hfull
    rw [call_addMember_of_lt hmac (Nat.not_le.mp hfull)] at hraises
    cases hencode : encodedIds (s.members.set memberId publicKey) with
    | none =>
        rw [call_rotateEpoch_of_none hmac hencode] at hraises
        exact absurd hraises (by simp)
    | some memberIds =>
        rw [call_rotateEpoch_of_some hmac hencode] at hraises
        exact absurd hraises (by simp)
  · intro hfull
    exact ⟨_, congrArg Prod.fst (call_addMember_of_full hmac hfull memberId publicKey)⟩

theorem WithinCapacity.addsUpToCapacity_iff {s : MLSGroupSession} (hs : s.WithinCapacity)
    (memberId : PyStr) (publicKey : Bytes) :
    AddsUpToCapacity hmac s memberId publicKey ↔
      ¬ (s.members.size = maxMembers ∧ memberId ∈ s.members.keys) := by
  unfold AddsUpToCapacity
  rw [addMember_overflow_iff]
  have hsize := hs.size_le
  constructor
  · rintro ⟨hrefuses, -⟩ ⟨hfull, hmem⟩
    exact (hrefuses.mp hfull.ge).1 hmem
  · intro hroom
    refine ⟨⟨fun hfull => ?_, fun hfull => hfull.2.ge⟩, fun hmem => ?_⟩
    · have hexact : s.members.size = maxMembers := by omega
      exact ⟨fun hmem => hroom ⟨hexact, hmem⟩, hexact⟩
    · have hfits : s.members.size < maxMembers := by
        by_contra hfull
        exact hroom ⟨by omega, hmem⟩
      obtain ⟨memberIds, hcall⟩ := hs.call_of_fits hmac
        (c := .add memberId publicKey) (hs.encodable memberId hmem) hfits
      have hadd : (addMember hmac memberId publicKey).call s =
        (.ok (), s.rotated hmac (s.members.set memberId publicKey) memberIds) := hcall
      rw [Method.exec_of_call hadd, hadd]
      refine ⟨rfl, s.members.get?_set_self memberId publicKey, fun other hne => ?_⟩
      exact s.members.get?_set_of_ne hne publicKey

/-- The group stays within its limit, and `add_member` keeps to it as it should unless
it is called for a member of a full group. -/
theorem capacity_kept_iff (hmac : HMAC) (groupId initSecret : Bytes) {changes : List Change}
    (hchanges : ∀ c ∈ changes, ¬ c.memberId.HasSurrogate) (memberId : PyStr)
    (publicKey : Bytes) :
    (afterChanges hmac (new hmac groupId initSecret .empty) changes).members.size ≤ maxMembers ∧
    (AddsUpToCapacity hmac (afterChanges hmac (new hmac groupId initSecret .empty) changes)
        memberId publicKey ↔
      ¬ ((afterChanges hmac (new hmac groupId initSecret .empty) changes).members.size =
          maxMembers ∧
        memberId ∈
          (afterChanges hmac (new hmac groupId initSecret .empty) changes).members.keys)) := by
  have hkept := (withinCapacity_new hmac groupId initSecret).afterChanges hmac hchanges
  exact ⟨hkept.size_le, hkept.addsUpToCapacity_iff memberId publicKey⟩

theorem full_group_refuses_member :
    ¬ AddsUpToCapacity symbolicHmac
      (afterChanges symbolicHmac (new symbolicHmac [] [1] .empty)
        ((List.finRange 50).map fun i => .add [i.castLE (by omega)] [])) [0] [1] := by
  intro hkept
  have hfull : (afterChanges symbolicHmac (new symbolicHmac [] [1] .empty)
      ((List.finRange 50).map fun i => .add [i.castLE (by omega)] [])).members.size =
        maxMembers := by decide +kernel
  have hmem : [0] ∈ (afterChanges symbolicHmac (new symbolicHmac [] [1] .empty)
      ((List.finRange 50).map fun i => .add [i.castLE (by omega)] [])).members.keys := by
    decide +kernel
  have hraises := (addMember_overflow_iff symbolicHmac _ [0] [1]).mpr hfull.ge
  exact (hkept.1.mp hraises).1 hmem

theorem capacity_kept_iff_after_two :
    (afterChanges symbolicHmac (new symbolicHmac [] [1] .empty)
        [.add [97] [], .add [98] []]).members.size ≤ maxMembers ∧
    (AddsUpToCapacity symbolicHmac (afterChanges symbolicHmac (new symbolicHmac [] [1] .empty)
        [.add [97] [], .add [98] []]) [98] [7] ↔
      ¬ ((afterChanges symbolicHmac (new symbolicHmac [] [1] .empty)
          [.add [97] [], .add [98] []]).members.size = maxMembers ∧
        [98] ∈ (afterChanges symbolicHmac (new symbolicHmac [] [1] .empty)
          [.add [97] [], .add [98] []]).members.keys)) := by
  apply capacity_kept_iff symbolicHmac [] [1]
  simp [Change.memberId, PyStr.HasSurrogate]

end MLSGroupSession

end Roomsync.Encryption.Mls
