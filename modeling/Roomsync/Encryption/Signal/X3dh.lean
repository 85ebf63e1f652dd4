import Roomsync.Encryption.Signal.Call
/-!
# Two sessions built from one shared secret

`SignalSession.from_x3dh` gives both parties the same two ratchets: each sends on
the chain `send` and receives on the chain `recv`.  A conversation here has a
perfect network, which hands each party the frames of the other in order.
-/

namespace Roomsync.Encryption.Signal

open Roomsync.Lib SignalSession

inductive Turn
  | encrypt (who : Party) (plaintext : Bytes) (nonce : Nonce)
  /-- The next frame of the peer, if there is one, reaches `who`. -/
  | deliver (who : Party)

/-- No party is given a frame: what reaches it comes before anything its peer sends. -/
def Undelivered (turns : List Turn) : Prop :=
  turns.Pairwise fun earlier later =>
    ∀ who plaintext nonce, earlier = .encrypt who plaintext nonce → later ≠ .deliver who.peer

namespace Call

def frames (c : Call) (who : Party) : List Bytes :=
  (c.sent who).filterMap fun s => s.2.toOption

def nextFrame (c : Call) (who : Party) : Option Bytes :=
  (c.frames who.peer)[(c.received who).length]?

section Turn

variable (kdf : HKDF) (aesgcm : AESGCM)

def turn (c : Call) : Turn → Call
  | .encrypt who plaintext nonce => c.step kdf aesgcm (.encrypt who plaintext nonce)
  | .deliver who =>
      match c.nextFrame who with
      | some frame => c.step kdf aesgcm (.decrypt who frame)
      | none => c

def converse (c : Call) (turns : List Turn) : Call := turns.foldl (turn kdf aesgcm) c

def AuthenticTurn (c : Call) : Turn → Prop
  | .encrypt _ _ _ => True
  | .deliver who => ∀ frame, c.nextFrame who = some frame →
      c.Authentic kdf aesgcm (.decrypt who frame)

def AuthenticTurns (c : Call) (turns : List Turn) : Prop :=
  Along (turn kdf aesgcm) (AuthenticTurn kdf aesgcm) c turns

end Turn

def Intact (c : Call) : Prop :=
  ∀ who, (c.received who).map Prod.snd =
    ((c.sent who.peer).take (c.received who).length).map fun s => .ok s.1

/-- Everything is sealed on one chain, under its first `total` keys, and opened on the
other. -/
structure Crossed (kdf : HKDF) (sendRoot recvRoot : Bytes) (total : ℕ) (c : Call) : Prop where
  sending : ∀ who, (c.session who).localRatchet.chainKey =
    chainKeyAt kdf sendRoot (c.sent who).length
  receiving : ∀ who, (c.session who).remoteRatchet.chainKey =
    chainKeyAt kdf recvRoot (c.received who).length
  sealed : ∀ s ∈ c.sealings, ∃ n < total, s.key = messageKeyAt kdf sendRoot n
  framed : ∀ who, ∀ s ∈ c.sent who, ∃ frame, s.2 = .ok frame ∧ frame.length = frameWireSize
  rejected : ∀ who, ∀ r ∈ c.received who, ∃ e, r.2 = .error e

variable {kdf : HKDF} {aesgcm : AESGCM} {sendRoot recvRoot : Bytes} {total : ℕ}

theorem received_turn_encrypt (c : Call) (who : Party) (plaintext : Bytes) (nonce : Nonce) :
    (c.turn kdf aesgcm (.encrypt who plaintext nonce)).received = c.received := by
  rw [turn, step_encrypt]

theorem sent_turn_encrypt_ne_nil_iff (c : Call) (who : Party) (plaintext : Bytes)
    (nonce : Nonce) (w : Party) :
    (c.turn kdf aesgcm (.encrypt who plaintext nonce)).sent w ≠ [] ↔
      c.sent w ≠ [] ∨ who = w := by
  rw [turn, step_encrypt]
  by_cases hw : w = who
  · subst hw
    simp
  · simp [hw, Ne.symm hw]

theorem turn_deliver_of_none {c : Call} {who : Party} (h : c.nextFrame who = none) :
    c.turn kdf aesgcm (.deliver who) = c := by
  simp only [turn, h]

theorem turn_deliver_of_some {c : Call} {who : Party} {frame : Bytes}
    (h : c.nextFrame who = some frame) :
    c.turn kdf aesgcm (.deliver who) = c.step kdf aesgcm (.decrypt who frame) := by
  simp only [turn, h]

theorem crossed_start {session : Party → SignalSession}
    (hlocal : ∀ who, (session who).localRatchet.chainKey = sendRoot)
    (hremote : ∀ who, (session who).remoteRatchet.chainKey = recvRoot) :
    Crossed kdf sendRoot recvRoot total (start session) where
  sending := hlocal
  receiving := hremote
  sealed := by simp [start]
  framed := by simp [start]
  rejected := by simp [start]

theorem Crossed.encrypt (haes : aesgcm.Lawful) {c : Call}
    (h : Crossed kdf sendRoot recvRoot total c) {who : Party}
    (hroom : (c.sent who).length < total) (plaintext : Bytes) (nonce : Nonce) :
    Crossed kdf sendRoot recvRoot total (c.step kdf aesgcm (.encrypt who plaintext nonce)) := by
  have hkey := DoubleRatchetSession.messageKeyAt_of_chainKey kdf (h.sending who)
  have hnext := DoubleRatchetSession.chainKey_advance_of_chainKey kdf (h.sending who)
  rw [step_encrypt, sendKey_eq, hkey, sealAnswer_of_lawful haes]
  constructor
  · intro who'
    dsimp only
    rcases eq_or_ne who' who with rfl | hwho
    · rw [Function.update_self, Function.update_self, List.length_append, List.length_singleton]
      exact hnext
    · rw [Function.update_of_ne hwho, Function.update_of_ne hwho]
      exact h.sending who'
  · intro who'
    dsimp only
    rcases eq_or_ne who' who with rfl | hwho
    · rw [Function.update_self]
      exact h.receiving who'
    · rw [Function.update_of_ne hwho]
      exact h.receiving who'
  · refine List.forall_mem_append.mpr ⟨h.sealed, List.forall_mem_singleton.mpr ?_⟩
    exact ⟨_, hroom, rfl⟩
  · apply (Function.forall_update_iff _ fun _ (sent : List (Bytes × Except PyError Bytes)) =>
      ∀ s ∈ sent, ∃ frame, s.2 = .ok frame ∧ frame.length = frameWireSize).mpr
    refine ⟨List.forall_mem_append.mpr ⟨h.framed who, ?_⟩, fun who' _ => h.framed who'⟩
    exact List.forall_mem_singleton.mpr ⟨_, rfl, length_sealFrame haes _ _ _⟩
  · exact h.rejected

theorem Crossed.decrypt
    (hne : ∀ m < total, ∀ n < total, messageKeyAt kdf sendRoot m ≠ messageKeyAt kdf recvRoot n)
    {c : Call} (h : Crossed kdf sendRoot recvRoot total c) {who : Party}
    (hroom : (c.received who).length < total) {frame : Bytes}
    (hlength : frame.length = frameWireSize)
    (hauth : c.Authentic kdf aesgcm (.decrypt who frame)) :
    Crossed kdf sendRoot recvRoot total (c.step kdf aesgcm (.decrypt who frame)) := by
  have hkey := DoubleRatchetSession.messageKeyAt_of_chainKey kdf (h.receiving who)
  have hnext := DoubleRatchetSession.chainKey_advance_of_chainKey kdf (h.receiving who)
  have hauth' := hauth hlength
  rw [receiveKey_eq, hkey] at hauth'
  have hunused : ∀ s ∈ c.sealings, s.key ≠ messageKeyAt kdf recvRoot (c.received who).length := by
    intro s hs
    obtain ⟨m, hm, hsealed⟩ := h.sealed s hs
    rw [hsealed]
    exact hne m hm _ hroom
  have hreject := openFrame_of_rejected (hauth'.eq_none hunused)
  rw [step_decrypt_of_length c who hlength, receiveKey_eq, hkey, hreject]
  constructor
  · intro who'
    dsimp only
    rcases eq_or_ne who' who with rfl | hwho
    · rw [Function.update_self]
      exact h.sending who'
    · rw [Function.update_of_ne hwho]
      exact h.sending who'
  · intro who'
    dsimp only
    rcases eq_or_ne who' who with rfl | hwho
    · rw [Function.update_self, Function.update_self, List.length_append, List.length_singleton]
      exact hnext
    · rw [Function.update_of_ne hwho, Function.update_of_ne hwho]
      exact h.receiving who'
  · exact h.sealed
  · exact h.framed
  · apply (Function.forall_update_iff _ fun _ (received : List (Bytes × Except PyError Bytes)) =>
      ∀ r ∈ received, ∃ e, r.2 = .error e).mpr
    refine ⟨List.forall_mem_append.mpr ⟨h.rejected who, ?_⟩, fun who' _ => h.rejected who'⟩
    exact List.forall_mem_singleton.mpr ⟨_, rfl⟩

theorem Crossed.length_of_nextFrame {c : Call} (h : Crossed kdf sendRoot recvRoot total c)
    {who : Party} {frame : Bytes} (hnext : c.nextFrame who = some frame) :
    frame.length = frameWireSize := by
  have hmem : frame ∈ c.frames who.peer := List.mem_of_getElem? hnext
  obtain ⟨s, hs, hframe⟩ := List.mem_filterMap.mp hmem
  obtain ⟨frame', hok, hlength⟩ := h.framed who.peer s hs
  rw [hok] at hframe
  obtain rfl := Option.some.inj hframe
  exact hlength

theorem Crossed.turn (haes : aesgcm.Lawful)
    (hne : ∀ m < total, ∀ n < total, messageKeyAt kdf sendRoot m ≠ messageKeyAt kdf recvRoot n)
    {c : Call} (h : Crossed kdf sendRoot recvRoot total c)
    (hroom : ∀ who, (c.sent who).length < total ∧ (c.received who).length < total) {t : Turn}
    (hauth : c.AuthenticTurn kdf aesgcm t) :
    Crossed kdf sendRoot recvRoot total (c.turn kdf aesgcm t) := by
  cases t with
  | encrypt who plaintext nonce => exact h.encrypt haes (hroom who).1 plaintext nonce
  | deliver who =>
      cases hnext : c.nextFrame who with
      | none =>
          rw [turn_deliver_of_none hnext]
          exact h
      | some frame =>
          rw [turn_deliver_of_some hnext]
          exact h.decrypt hne (hroom who).2 (h.length_of_nextFrame hnext) (hauth frame hnext)

/-- When every answer is an exception, a conversation is intact only if there
was no answer. -/
theorem Crossed.intact_iff {c : Call} (h : Crossed kdf sendRoot recvRoot total c) :
    c.Intact ↔ ∀ who, c.received who = [] := by
  constructor
  · intro hintact who
    cases hreceived : c.received who with
    | nil => rfl
    | cons r rs =>
        obtain ⟨e, he⟩ := h.rejected who r (by rw [hreceived]; exact List.mem_cons_self)
        have hwho := hintact who
        rw [hreceived] at hwho
        cases hsent : c.sent who.peer with
        | nil =>
            rw [hsent] at hwho
            simp at hwho
        | cons s ss =>
            rw [hsent] at hwho
            simp [he] at hwho
  · intro hempty who
    rw [hempty who]
    rfl

theorem Crossed.nextFrame_eq_none_iff {c : Call} (h : Crossed kdf sendRoot recvRoot total c)
    {who : Party} (hreceived : c.received who = []) :
    c.nextFrame who = none ↔ c.sent who.peer = [] := by
  unfold nextFrame
  rw [hreceived, List.length_nil, List.getElem?_eq_none_iff, Nat.le_zero, List.length_eq_zero_iff]
  constructor
  · intro hframes
    cases hsent : c.sent who.peer with
    | nil => rfl
    | cons s ss =>
        obtain ⟨frame, hok, -⟩ := h.framed who.peer s (by rw [hsent]; exact List.mem_cons_self)
        have hmem : frame ∈ c.frames who.peer :=
          List.mem_filterMap.mpr ⟨s, by rw [hsent]; exact List.mem_cons_self, by rw [hok]; rfl⟩
        rw [hframes] at hmem
        exact absurd hmem List.not_mem_nil
  · intro hsent
    unfold frames
    rw [hsent]
    rfl

/-- No answer was given, and `turns` deliver neither what is under way nor what they send. -/
def Unheard (c : Call) (turns : List Turn) : Prop :=
  (∀ who, c.received who = []) ∧
    (∀ who, c.sent who ≠ [] → .deliver who.peer ∉ turns) ∧ Undelivered turns

theorem unheard_encrypt (c : Call) (who : Party) (plaintext : Bytes) (nonce : Nonce)
    (ts : List Turn) :
    (c.turn kdf aesgcm (.encrypt who plaintext nonce)).Unheard ts ↔
      c.Unheard (.encrypt who plaintext nonce :: ts) := by
  unfold Unheard Undelivered
  rw [List.pairwise_cons, received_turn_encrypt]
  simp only [sent_turn_encrypt_ne_nil_iff, List.mem_cons, reduceCtorEq, false_or,
    Turn.encrypt.injEq]
  constructor
  · rintro ⟨hempty, hway, hlater⟩
    refine ⟨hempty, fun w hw => hway w (.inl hw), ?_, hlater⟩
    rintro t ht w p n ⟨rfl, -, -⟩ rfl
    exact hway _ (.inr rfl) ht
  · rintro ⟨hempty, hway, hnow, hlater⟩
    refine ⟨hempty, ?_, hlater⟩
    rintro w (hw | rfl) hmem
    · exact hway w hw hmem
    · exact hnow _ hmem who plaintext nonce ⟨rfl, rfl, rfl⟩ rfl

theorem Crossed.unheard_deliver {c : Call} (h : Crossed kdf sendRoot recvRoot total c) (who : Party)
    (ts : List Turn) :
    (c.turn kdf aesgcm (.deliver who)).Unheard ts ↔ c.Unheard (.deliver who :: ts) := by
  unfold Unheard Undelivered
  rw [List.pairwise_cons]
  cases hnext : c.nextFrame who with
  | none =>
      rw [turn_deliver_of_none hnext]
      constructor
      · rintro ⟨hempty, hway, hlater⟩
        have hpeer := (h.nextFrame_eq_none_iff (hempty who)).mp hnext
        refine ⟨hempty, ?_, by simp, hlater⟩
        intro w hw hmem
        rcases List.mem_cons.mp hmem with heq | hmem
        · have hwho : who.peer = w := by
            rw [← Turn.deliver.inj heq, Party.peer_peer]
          rw [← hwho] at hw
          exact hw hpeer
        · exact hway w hw hmem
      · rintro ⟨hempty, hway, -, hlater⟩
        exact ⟨hempty, fun w hw hmem => hway w hw (List.mem_cons_of_mem _ hmem), hlater⟩
  | some frame =>
      rw [turn_deliver_of_some hnext,
        step_decrypt_of_length c who (h.length_of_nextFrame hnext)]
      constructor
      · rintro ⟨hempty, -⟩
        have hwho := hempty who
        simp at hwho
      · rintro ⟨hempty, hway, -⟩
        have hpeer : c.sent who.peer ≠ [] := by
          intro hsent
          rw [(h.nextFrame_eq_none_iff (hempty who)).mpr hsent] at hnext
          exact absurd hnext (by simp)
        have hnow := hway who.peer hpeer
        rw [Party.peer_peer] at hnow
        exact absurd List.mem_cons_self hnow

def Room (c : Call) (total : ℕ) (turns : List Turn) : Prop :=
  ∀ who, (c.sent who).length + turns.length ≤ total ∧
    (c.received who).length + turns.length ≤ total

theorem Room.lt {c : Call} {t : Turn} {ts : List Turn} (h : c.Room total (t :: ts))
    (who : Party) : (c.sent who).length < total ∧ (c.received who).length < total := by
  have hwho := h who
  rw [List.length_cons] at hwho
  omega

theorem Room.turn {c : Call} {t : Turn} {ts : List Turn} (h : c.Room total (t :: ts)) :
    (c.turn kdf aesgcm t).Room total ts := by
  intro who
  have hwho := h who
  rw [List.length_cons] at hwho
  have hstep : ∀ e, ((c.step kdf aesgcm e).sent who).length + ts.length ≤ total ∧
      ((c.step kdf aesgcm e).received who).length + ts.length ≤ total := by
    intro e
    have hsent := c.length_sent_step_le kdf aesgcm e who
    have hreceived := c.length_received_step_le kdf aesgcm e who
    omega
  cases t with
  | encrypt who' plaintext nonce => exact hstep (.encrypt who' plaintext nonce)
  | deliver who' =>
      cases hnext : c.nextFrame who' with
      | none =>
          rw [turn_deliver_of_none hnext]
          omega
      | some frame =>
          rw [turn_deliver_of_some hnext]
          exact hstep _

section Undelivered

variable (haes : aesgcm.Lawful)
  (hne : ∀ m < total, ∀ n < total, messageKeyAt kdf sendRoot m ≠ messageKeyAt kdf recvRoot n)
include haes hne

theorem Crossed.converse {c : Call} (h : Crossed kdf sendRoot recvRoot total c)
    {turns : List Turn} (hroom : c.Room total turns)
    (hauth : c.AuthenticTurns kdf aesgcm turns) :
    Crossed kdf sendRoot recvRoot total (c.converse kdf aesgcm turns) := by
  induction turns generalizing c with
  | nil => exact h
  | cons t ts ih => exact ih (h.turn haes hne hroom.lt hauth.1) hroom.turn hauth.2

/-- Nothing is delivered in a conversation that starts at `c` exactly when nothing
was delivered before, no frame under way is delivered, and no later frame is. -/
theorem Crossed.received_converse_eq_nil_iff {c : Call}
    (h : Crossed kdf sendRoot recvRoot total c) {turns : List Turn} (hroom : c.Room total turns)
    (hauth : c.AuthenticTurns kdf aesgcm turns) :
    (∀ who, (c.converse kdf aesgcm turns).received who = []) ↔ c.Unheard turns := by
  induction turns generalizing c with
  | nil => simp [Call.converse, Unheard, Undelivered]
  | cons t ts ih =>
      change (∀ who, ((c.turn kdf aesgcm t).converse kdf aesgcm ts).received who = []) ↔ _
      rw [ih (h.turn haes hne hroom.lt hauth.1) hroom.turn hauth.2]
      cases t with
      | encrypt who plaintext nonce => exact c.unheard_encrypt who plaintext nonce ts
      | deliver who => exact h.unheard_deliver who ts

end Undelivered

end Call

/-! ## The shared secret -/

def sendParams : HkdfParams :=
  ⟨32, [0x72, 0x6f, 0x6f, 0x74, 0x6b, 0x65, 0x79], [0x73, 0x65, 0x6e, 0x64]⟩

def recvParams : HkdfParams :=
  ⟨32, [0x72, 0x6f, 0x6f, 0x74, 0x6b, 0x65, 0x79], [0x72, 0x65, 0x63, 0x76]⟩

theorem kdf_ne_of_info_ne {kdf : HKDF} (hinj : Kdf.Injective kdf) {p q : HkdfParams}
    (h : p.info ≠ q.info) (key key' : Bytes) : kdf key p ≠ kdf key' q :=
  fun heq => h (congrArg HkdfParams.info (hinj heq).2)

/-- Both parties send on the one chain and receive on the other, so a
conversation is intact exactly when no frame is ever delivered. -/
theorem intact_iff_undelivered {kdf : HKDF} {aesgcm : AESGCM} (haes : aesgcm.Lawful)
    (sharedSecret : Bytes) (turns : List Turn)
    (hne : ∀ m < turns.length, ∀ n < turns.length,
      messageKeyAt kdf (kdf sharedSecret sendParams) m ≠
        messageKeyAt kdf (kdf sharedSecret recvParams) n)
    (hauth : (Call.start fun _ => fromX3dh kdf sharedSecret).AuthenticTurns kdf aesgcm turns) :
    ((Call.start fun _ => fromX3dh kdf sharedSecret).converse kdf aesgcm turns).Intact ↔
      Undelivered turns := by
  have hstart : Call.Crossed kdf (kdf sharedSecret sendParams) (kdf sharedSecret recvParams)
      turns.length (Call.start fun _ => fromX3dh kdf sharedSecret) :=
    Call.crossed_start (fun _ => rfl) (fun _ => rfl)
  have hroom : (Call.start fun _ => fromX3dh kdf sharedSecret).Room turns.length turns := by
    simp [Call.Room, Call.start]
  rw [(hstart.converse haes hne hroom hauth).intact_iff,
    hstart.received_converse_eq_nil_iff haes hne hroom hauth]
  simp [Call.start, Call.Unheard]

theorem intact_false_after_delivery :
    ¬ ((Call.start fun _ => fromX3dh symbolicHkdf [7]).converse symbolicHkdf symbolicAesgcm
        [.encrypt .alice [1] .zero, .deliver .bob]).Intact := by
  intro h
  exact absurd (h .bob) (by decide +kernel)

theorem intact_iff_undelivered_symbolic :
    ((Call.start fun _ => fromX3dh symbolicHkdf [7]).converse symbolicHkdf symbolicAesgcm
        [.encrypt .alice [1] .zero, .deliver .bob]).Intact ↔
      Undelivered [.encrypt .alice [1] .zero, .deliver .bob] := by
  apply intact_iff_undelivered symbolicAesgcm_lawful
  · intro m _ n _
    have hinj := symbolicHkdf_free.injective
    apply messageKeyAt_ne hinj
    · exact kdf_ne_of_info_ne hinj (by decide) _ _
    · exact fun key => kdf_ne_of_info_ne hinj (by decide) _ _
    · exact fun key => kdf_ne_of_info_ne hinj (by decide) _ _
  refine ⟨trivial, ?_, trivial⟩
  intro frame hframe _
  -- The one frame under way, tried under the first key of the other chain.
  have hnext : some frame = some (sealFrame symbolicAesgcm
      (messageKeyAt symbolicHkdf (symbolicHkdf [7] sendParams) 0) [1] .zero) :=
    hframe.symm.trans (by decide +kernel)
  obtain rfl := Option.some.inj hnext
  exact Aead.Authentic.of_eq_none (by decide +kernel)

end Roomsync.Encryption.Signal
