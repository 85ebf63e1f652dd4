import Roomsync.Encryption.Mls.Epoch
import Mathlib.Data.List.Pairwise
import Mathlib.Logic.Function.Basic
/-!
# Keys and nonces across a group

Every member of a group holds a session of its own, built from the same init
secret, and applies the same list of membership changes, each at its own pace.
In each epoch every member counts its frames from zero.
-/

namespace Roomsync.Encryption.Mls

open Roomsync.Lib

variable {hmac : HMAC} {aesgcm : AESGCM}

/-! ## The members of a group -/

variable {ι : Type}

/-- A frame that `encrypt` returned to `sender`: the key and the nonce that it is
sealed under, and the sender's epoch and counter at the call. -/
structure SentFrame (ι : Type) where
  sender : ι
  key : Bytes
  nonce : Bytes
  epoch : ℕ
  seq : ℕ
  deriving DecidableEq

structure Group (ι : Type) where
  session : ι → MLSGroupSession
  applied : ι → ℕ
  frames : List (SentFrame ι)

inductive GroupEvent (ι : Type)
  /-- The member applies the first change of the list that it has not applied yet. -/
  | change (i : ι)
  | encrypt (i : ι) (plaintext : Bytes)

namespace Group

def start (s : MLSGroupSession) : Group ι where
  session _ := s
  applied _ := 0
  frames := []

section Step

variable [DecidableEq ι] (hmac : HMAC) (aesgcm : AESGCM) (changes : List Change)

def step (g : Group ι) : GroupEvent ι → Group ι
  | .change i =>
      match changes[g.applied i]? with
      | some c =>
          { g with
            session := Function.update g.session i ((c.apply hmac).exec (g.session i))
            applied := Function.update g.applied i (g.applied i + 1) }
      | none => g
  | .encrypt i plaintext =>
      let r := (MLSGroupSession.encrypt aesgcm plaintext).call (g.session i)
      { g with
        session := Function.update g.session i r.2
        frames :=
          match r.1 with
          | .ok wire => g.frames ++ [{
              sender := i
              key := (g.session i).epochKey
              nonce := wire.take nonceSize
              epoch := (g.session i).epoch
              seq := (g.session i).sendSeq }]
          | .error _ => g.frames }

def play (g : Group ι) (events : List (GroupEvent ι)) : Group ι :=
  events.foldl (step hmac aesgcm changes) g

end Step

def NonceUnique (g : Group ι) : Prop :=
  g.frames.Pairwise fun f f' => (f.key, f.nonce) ≠ (f'.key, f'.nonce)

def OneSenderPerEpoch (g : Group ι) : Prop :=
  g.frames.Pairwise fun f f' => f.sender ≠ f'.sender → f.epoch ≠ f'.epoch

/-! ## The invariant -/

/-- Frame `f` lies behind session `s` of its sender: in an earlier epoch, or at a
smaller counter. -/
def Behind (f : SentFrame ι) (s : MLSGroupSession) : Prop :=
  f.epoch < s.epoch ∨ f.epoch = s.epoch ∧ f.seq < s.sendSeq

/-- The sessions follow the list of changes that starts at `s`, and every sender
has numbered its frames from zero in each epoch. -/
structure Numbered (hmac : HMAC) (s : MLSGroupSession) (changes : List Change)
    (g : Group ι) : Prop where
  follows : ∀ i, (g.session i).shared =
    (MLSGroupSession.afterChanges hmac s (changes.take (g.applied i))).shared
  keyed : ∀ f ∈ g.frames, ∃ n,
    f.epoch = (MLSGroupSession.afterChanges hmac s (changes.take n)).epoch ∧
    f.key = (MLSGroupSession.afterChanges hmac s (changes.take n)).epochKey
  packed : ∀ f ∈ g.frames, seqNonce f.epoch f.seq = some f.nonce
  behind : ∀ f ∈ g.frames, Behind f (g.session f.sender)
  first : ∀ f ∈ g.frames, ∃ f' ∈ g.frames,
    f'.sender = f.sender ∧ f'.epoch = f.epoch ∧ f'.seq = 0
  opened : ∀ i, 0 < (g.session i).sendSeq → ∃ f ∈ g.frames,
    f.sender = i ∧ f.epoch = (g.session i).epoch
  distinct : g.frames.Pairwise fun f f' =>
    f.sender = f'.sender → f.epoch = f'.epoch → f.seq ≠ f'.seq

variable {changes : List Change}

theorem numbered_start (s : MLSGroupSession) (hseq : s.sendSeq = 0) :
    Numbered hmac s changes (start s : Group ι) where
  follows _ := rfl
  keyed := by simp [start]
  packed := by simp [start]
  behind := by simp [start]
  first := by simp [start]
  opened := by simp [start, hseq]
  distinct := List.Pairwise.nil

variable {s : MLSGroupSession} {g : Group ι}

theorem Numbered.epoch_session (h : Numbered hmac s changes g) (i : ι) :
    (g.session i).epoch =
        (MLSGroupSession.afterChanges hmac s (changes.take (g.applied i))).epoch ∧
      (g.session i).epochKey =
        (MLSGroupSession.afterChanges hmac s (changes.take (g.applied i))).epochKey := by
  have hshared := h.follows i
  have hepoch := congrArg MLSGroupSession.epoch hshared
  have hkey := congrArg MLSGroupSession.epochKey hshared
  exact ⟨hepoch, hkey⟩

theorem Numbered.exists_first (h : Numbered hmac s changes g) {i : ι}
    (hpos : 0 < (g.session i).sendSeq) :
    ∃ f ∈ g.frames, f.sender = i ∧ f.epoch = (g.session i).epoch ∧ f.seq = 0 := by
  obtain ⟨f, hf, hsender, hepoch⟩ := h.opened i hpos
  obtain ⟨f', hf', hsender', hepoch', hseq'⟩ := h.first f hf
  exact ⟨f', hf', hsender'.trans hsender, hepoch'.trans hepoch, hseq'⟩

theorem Numbered.key_eq (h : Numbered hmac s changes g) {f f' : SentFrame ι}
    (hf : f ∈ g.frames) (hf' : f' ∈ g.frames) (hepoch : f.epoch = f'.epoch) :
    f.key = f'.key := by
  obtain ⟨n, hn, hkey⟩ := h.keyed f hf
  obtain ⟨n', hn', hkey'⟩ := h.keyed f' hf'
  rw [hkey, hkey']
  exact MLSGroupSession.epochKey_eq_of_epoch_eq s changes (hn.symm.trans (hepoch.trans hn'))

theorem Numbered.nonceUnique_iff (h : Numbered hmac s changes g) :
    g.NonceUnique ↔ g.OneSenderPerEpoch := by
  unfold NonceUnique OneSenderPerEpoch
  constructor
  · intro hunique
    have hsymm : Std.Symm fun f f' : SentFrame ι => (f.key, f.nonce) ≠ (f'.key, f'.nonce) :=
      ⟨fun _ _ hne => hne.symm⟩
    apply List.Pairwise.imp_of_mem _ (List.pairwise_of_forall fun _ _ => trivial)
    intro f f' hf hf' _ hsender hepoch
    -- The two senders' first frames in the epoch.
    obtain ⟨f₀, hf₀, hsender₀, hepoch₀, hseq₀⟩ := h.first f hf
    obtain ⟨f₀', hf₀', hsender₀', hepoch₀', hseq₀'⟩ := h.first f' hf'
    have hsame : f₀.epoch = f₀'.epoch := by rw [hepoch₀, hepoch₀', hepoch]
    have hne : f₀ ≠ f₀' := by
      intro heq
      rw [heq, hsender₀'] at hsender₀
      exact hsender hsender₀.symm
    have hnonce : some f₀.nonce = some f₀'.nonce := by
      rw [← h.packed f₀ hf₀, ← h.packed f₀' hf₀', hsame, hseq₀, hseq₀']
    have hpair : (f₀.key, f₀.nonce) = (f₀'.key, f₀'.nonce) := by
      rw [h.key_eq hf₀ hf₀' hsame, Option.some.inj hnonce]
    exact hunique.forall hf₀ hf₀' hne hpair
  · intro hone
    apply List.Pairwise.imp_of_mem _ (hone.and h.distinct)
    intro f f' hf hf' hboth hpair
    have hnonce := h.packed f hf
    rw [(Prod.mk.inj hpair).2] at hnonce
    obtain ⟨hepoch, hseq⟩ := seqNonce_inj hnonce (h.packed f' hf')
    by_cases hsender : f.sender = f'.sender
    · exact hboth.2 hsender hepoch hseq
    · exact hboth.1 hsender hepoch

/-! ## What a step does -/

variable [DecidableEq ι]

theorem step_change_of_some {g : Group ι} {i : ι} {c : Change}
    (hc : changes[g.applied i]? = some c) :
    g.step hmac aesgcm changes (.change i) =
      { g with
        session := Function.update g.session i ((c.apply hmac).exec (g.session i))
        applied := Function.update g.applied i (g.applied i + 1) } := by
  simp only [step, hc]

theorem step_change_of_none {g : Group ι} {i : ι} (hc : changes[g.applied i]? = none) :
    g.step hmac aesgcm changes (.change i) = g := by
  simp only [step, hc]

theorem step_encrypt_of_some {g : Group ι} {i : ι} {nonce : Bytes}
    (hnonce : seqNonce (g.session i).epoch (g.session i).sendSeq = some nonce)
    (plaintext : Bytes) :
    g.step hmac aesgcm changes (.encrypt i plaintext) =
      { g with
        session := Function.update g.session i
          { g.session i with sendSeq := (g.session i).sendSeq + 1 }
        frames := g.frames ++
          [⟨i, (g.session i).epochKey, nonce, (g.session i).epoch, (g.session i).sendSeq⟩] } := by
  simp only [step, MLSGroupSession.call_encrypt_of_some aesgcm hnonce,
    List.take_left' (length_of_seqNonce hnonce)]

theorem step_encrypt_of_none {g : Group ι} {i : ι}
    (hnonce : seqNonce (g.session i).epoch (g.session i).sendSeq = none) (plaintext : Bytes) :
    g.step hmac aesgcm changes (.encrypt i plaintext) = g := by
  simp only [step, MLSGroupSession.call_encrypt_of_none aesgcm hnonce, Function.update_eq_self]

theorem behind_update {f : SentFrame ι} {i : ι} {s' : MLSGroupSession}
    (hbehind : Behind f (g.session f.sender))
    (hahead : Behind f (g.session i) → Behind f s') :
    Behind f (Function.update g.session i s' f.sender) := by
  by_cases hi : f.sender = i
  · rw [hi] at hbehind ⊢
    rw [Function.update_self]
    exact hahead hbehind
  · rw [Function.update_of_ne hi]
    exact hbehind

theorem Numbered.change (h : Numbered hmac s changes g) {i : ι} {c : Change}
    (hc : changes[g.applied i]? = some c) :
    Numbered hmac s changes (g.step hmac aesgcm changes (.change i)) := by
  rw [step_change_of_some hc]
  have hepoch := c.epoch_exec hmac (g.session i)
  constructor
  · intro j
    dsimp only
    by_cases hj : j = i
    · subst hj
      rw [Function.update_self, Function.update_self, c.shared_exec, h.follows j,
        ← c.shared_exec, MLSGroupSession.afterChanges_take_succ s hc]
    · rw [Function.update_of_ne hj, Function.update_of_ne hj]
      exact h.follows j
  · exact h.keyed
  · exact h.packed
  · intro f hf
    apply behind_update (h.behind f hf)
    intro hbehind
    unfold Behind at hbehind ⊢
    omega
  · exact h.first
  · apply (Function.forall_update_iff _ fun j (t : MLSGroupSession) =>
      0 < t.sendSeq → ∃ f ∈ g.frames, f.sender = j ∧ f.epoch = t.epoch).mpr
    refine ⟨?_, fun j _ => h.opened j⟩
    intro hpos
    -- A change that opens an epoch leaves the counter at zero.
    rcases hepoch with ⟨hsame, -, hseq⟩ | ⟨-, hzero⟩
    · rw [hseq] at hpos
      rw [hsame]
      exact h.opened i hpos
    · omega
  · exact h.distinct

theorem Numbered.encrypt (h : Numbered hmac s changes g) {i : ι} {nonce : Bytes}
    (hnonce : seqNonce (g.session i).epoch (g.session i).sendSeq = some nonce)
    (plaintext : Bytes) :
    Numbered hmac s changes (g.step hmac aesgcm changes (.encrypt i plaintext)) := by
  rw [step_encrypt_of_some hnonce]
  constructor
  · apply (Function.forall_update_iff _ fun j (t : MLSGroupSession) => t.shared =
      (MLSGroupSession.afterChanges hmac s (changes.take (g.applied j))).shared).mpr
    exact ⟨h.follows i, fun j _ => h.follows j⟩
  · exact List.forall_mem_append.mpr
      ⟨h.keyed, List.forall_mem_singleton.mpr ⟨_, h.epoch_session i⟩⟩
  · exact List.forall_mem_append.mpr ⟨h.packed, List.forall_mem_singleton.mpr hnonce⟩
  · refine List.forall_mem_append.mpr ⟨fun f hf => ?_, List.forall_mem_singleton.mpr ?_⟩
    · apply behind_update (h.behind f hf)
      intro hbehind
      unfold Behind at hbehind ⊢
      dsimp only
      omega
    · dsimp only
      rw [Function.update_self]
      exact .inr ⟨rfl, Nat.lt_succ_self _⟩
  · refine List.forall_mem_append.mpr ⟨fun f hf => ?_, List.forall_mem_singleton.mpr ?_⟩
    · obtain ⟨f', hf', hfirst⟩ := h.first f hf
      exact ⟨f', List.mem_append_left _ hf', hfirst⟩
    · -- The new frame is the first of its epoch, or its sender has one already.
      by_cases hzero : (g.session i).sendSeq = 0
      · exact ⟨_, List.mem_append_right _ (List.mem_singleton_self _), rfl, rfl, hzero⟩
      · obtain ⟨f', hf', hfirst⟩ := h.exists_first (Nat.pos_of_ne_zero hzero)
        exact ⟨f', List.mem_append_left _ hf', hfirst⟩
  · apply (Function.forall_update_iff _ fun j (t : MLSGroupSession) =>
      0 < t.sendSeq → ∃ f ∈ g.frames ++ _, f.sender = j ∧ f.epoch = t.epoch).mpr
    refine ⟨?_, fun j _ hpos => ?_⟩
    · intro _
      exact ⟨_, List.mem_append_right _ (List.mem_singleton_self _), rfl, rfl⟩
    · obtain ⟨f, hf, hopened⟩ := h.opened j hpos
      exact ⟨f, List.mem_append_left _ hf, hopened⟩
  · apply List.pairwise_append.mpr
    refine ⟨h.distinct, List.pairwise_singleton _ _, fun f hf => List.forall_mem_singleton.mpr ?_⟩
    intro hsender hepoch
    have hbehind := h.behind f hf
    dsimp only at hsender hepoch ⊢
    rw [hsender] at hbehind
    unfold Behind at hbehind
    omega

theorem Numbered.step (h : Numbered hmac s changes g) (e : GroupEvent ι) :
    Numbered hmac s changes (g.step hmac aesgcm changes e) := by
  cases e with
  | change i =>
      cases hc : changes[g.applied i]? with
      | none =>
          rw [step_change_of_none hc]
          exact h
      | some c => exact h.change hc
  | encrypt i plaintext =>
      cases hnonce : seqNonce (g.session i).epoch (g.session i).sendSeq with
      | none =>
          rw [step_encrypt_of_none hnonce]
          exact h
      | some nonce => exact h.encrypt hnonce plaintext

theorem Numbered.play (h : Numbered hmac s changes g) (events : List (GroupEvent ι)) :
    Numbered hmac s changes (g.play hmac aesgcm changes events) := by
  apply List.foldlRecOn events _ h
  intro g' hg' e _
  exact hg'.step e

end Group

/-- In a group whose members start from one session and apply the same changes,
no key and nonce are used twice exactly when no epoch has two senders. -/
theorem nonceUnique_iff_oneSender [DecidableEq ι] (hmac : HMAC) (aesgcm : AESGCM)
    (groupId initSecret : Bytes) (members : Dict PyStr Bytes) (changes : List Change)
    (events : List (GroupEvent ι)) :
    ((Group.start (.new hmac groupId initSecret members)).play hmac aesgcm changes
        events).NonceUnique ↔
      ((Group.start (.new hmac groupId initSecret members)).play hmac aesgcm changes
        events).OneSenderPerEpoch :=
  ((Group.numbered_start _ rfl).play events).nonceUnique_iff

theorem nonceUnique_false_of_two_senders :
    ¬ ((Group.start (.new symbolicHmac [] [1] .empty)).play symbolicHmac symbolicAesgcm []
        [.encrypt false [10], .encrypt true [20]]).NonceUnique := by
  unfold Group.NonceUnique
  decide +kernel

end Roomsync.Encryption.Mls
