import Roomsync.Coordinator.Discovery
import Roomsync.Lib.Run
import Mathlib.Logic.Function.Basic
/-!
# What the peer table says

The notifications themselves say which peers are in the room: those that were
announced and not removed since, and whose latest record carries the room code.  The
zeroconf browser cannot call the handler, so the table stays empty and is that view only
while nobody of the room is there.  A browser that could call it would find the table
following the view as long as nobody leaves for another room or changes a record.
-/

namespace Roomsync.Coordinator

open Roomsync.Lib

/-! ## The view that the notifications give -/

/-- What has been seen of a name: whether it is announced now, and the record that it
resolved to last. -/
structure Seen where
  announced : Bool
  record : Option Peer

namespace Seen

/-- One notification about the name.  Whether a removal makes its record forgotten is
left open. -/
def next (forget : Bool) (seen : Seen) : Notification → Seen
  | .added name info => ⟨true, (resolvedPeer name info).or seen.record⟩
  | .updated name info => ⟨true, (resolvedPeer name info).or seen.record⟩
  | .removed _ => ⟨false, if forget then none else seen.record⟩

def listed (roomCode : PyStr) (seen : Seen) : Option Peer :=
  if seen.announced then seen.record.filter (·.roomCode = some roomCode) else none

end Seen

def Notification.name : Notification → PyStr
  | .added name _ => name
  | .updated name _ => name
  | .removed name => name

structure Observed where
  service : DiscoveryService
  seen : PyStr → Seen

namespace Observed

def start (roomCode role : PyStr) (port : ℕ) : Observed where
  service := .new roomCode role port
  seen _ := ⟨false, none⟩

def step (browser : Browser) (forget : Bool) (o : Observed) (n : Notification) : Observed where
  service := (o.service.notify browser n).2
  seen := Function.update o.seen n.name ((o.seen n.name).next forget n)

/-- Each name is listed with the peer that the view has for it, or not at all. -/
def Faithful (o : Observed) : Prop :=
  ∀ name, o.service.peers.get? name = (o.seen name).listed o.service.roomCode

/-! ## Which notifications the table follows -/

/-- An announcement that does not resolve leaves the view alone: the name is announced
already, or its last record is none of this room. -/
def Settled (o : Observed) (name : PyStr) : Prop :=
  (o.seen name).announced = true ∨
    ∀ p, (o.seen name).record = some p → p.roomCode ≠ some o.service.roomCode

/-- A peer that is announced anew comes to this room or was not listed; a record that
changes is of a peer that is not listed, or the same as before. -/
def Follows (o : Observed) : Notification → Prop
  | .added name info =>
      match resolvedPeer name info with
      | some p => p.roomCode = some o.service.roomCode ∨ o.service.peers.get? name = none
      | none => o.Settled name
  | .updated name info =>
      match resolvedPeer name info with
      | some p => o.service.peers.get? name =
          if p.roomCode = some o.service.roomCode then some p else none
      | none => o.Settled name
  | .removed _ => True

theorem get?_onChange_of_ne (s : DiscoveryService) (n : Notification) {name : PyStr}
    (h : name ≠ n.name) : (s.onChange n).2.peers.get? name = s.peers.get? name := by
  rcases s.onChange_cases n with ⟨name', info, p, rfl, -, -, hchange⟩ |
    ⟨name', p, rfl, -, hchange⟩ | ⟨hchange, -, -⟩
  · rw [hchange]
    exact Dict.get?_set_of_ne s.peers h p
  · rw [hchange]
    exact Dict.get?_pop_of_ne s.peers h
  · rw [hchange]

variable {browser : Browser}

/-- Other names stay as they are, so a step is faithful if it is so for its own name. -/
theorem Faithful.step_iff {o : Observed} (h : o.Faithful) (hfits : browser.Fits) (forget : Bool)
    (n : Notification) :
    (o.step browser forget n).Faithful ↔ (o.service.onChange n).2.peers.get? n.name =
      ((o.seen n.name).next forget n).listed o.service.roomCode := by
  unfold Faithful step
  simp only [DiscoveryService.notify_of_fits hfits, DiscoveryService.roomCode_onChange]
  constructor
  · intro hall
    have hown := hall n.name
    rwa [Function.update_self] at hown
  · intro hown name
    by_cases hname : name = n.name
    · subst hname
      rwa [Function.update_self]
    · rw [Function.update_of_ne hname, get?_onChange_of_ne o.service n hname]
      exact h name

theorem listed_of_announced (roomCode : PyStr) (p : Peer) :
    Seen.listed roomCode ⟨true, some p⟩ =
      if p.roomCode = some roomCode then some p else none := by
  unfold Seen.listed
  rw [if_pos rfl]
  by_cases hroom : p.roomCode = some roomCode <;> simp [Option.filter, hroom]

theorem Faithful.settled_iff {o : Observed} (h : o.Faithful) (name : PyStr) :
    o.service.peers.get? name =
        Seen.listed o.service.roomCode ⟨true, (o.seen name).record⟩ ↔ o.Settled name := by
  unfold Settled
  rw [h name]
  unfold Seen.listed
  rw [if_pos rfl]
  cases hannounced : (o.seen name).announced with
  | true => simp
  | false =>
      cases hrecord : (o.seen name).record with
      | none => simp
      | some p => simp [Option.filter, eq_comm]

theorem Faithful.follows_iff {o : Observed} (h : o.Faithful) (hfits : browser.Fits)
    (forget : Bool) (n : Notification) : (o.step browser forget n).Faithful ↔ o.Follows n := by
  rw [h.step_iff hfits]
  cases n with
  | added name info =>
      unfold Follows Seen.next
      simp only [DiscoveryService.onChange, Notification.name]
      rcases Option.eq_none_or_eq_some (resolvedPeer name info) with hp | ⟨p, hp⟩
      · rw [DiscoveryService.addPeer_of_unresolved hp, hp]
        exact h.settled_iff name
      · rw [hp, Option.some_or, listed_of_announced]
        by_cases hroom : p.roomCode = some o.service.roomCode
        · rw [DiscoveryService.addPeer_of_ownRoom hp hroom]
          simp [hroom, Dict.get?_set_self]
        · rw [DiscoveryService.addPeer_of_otherRoom hp hroom]
          simp [hroom]
  | updated name info =>
      unfold Follows Seen.next
      simp only [DiscoveryService.onChange, Notification.name]
      rcases Option.eq_none_or_eq_some (resolvedPeer name info) with hp | ⟨p, hp⟩
      · rw [hp]
        exact h.settled_iff name
      · rw [hp, Option.some_or, listed_of_announced]
  | removed name =>
      unfold Follows Seen.next Seen.listed
      simp only [DiscoveryService.onChange, Notification.name, Bool.false_eq_true, if_false,
        iff_true]
      rcases Option.eq_none_or_eq_some (o.service.peers.get? name) with hp | ⟨p, hp⟩
      · rw [DiscoveryService.removePeer_of_absent hp]
        exact hp
      · rw [DiscoveryService.removePeer_of_listed hp]
        exact Dict.get?_pop_self o.service.peers name

theorem faithful_start (roomCode role : PyStr) (port : ℕ) :
    (start roomCode role port).Faithful :=
  fun _ => rfl

/-- Under a browser that can call the handler the table is the view after every sequence of
notifications, exactly when each of them is one that the table follows. -/
theorem faithful_iff_follows (hfits : browser.Fits) (forget : Bool) (roomCode role : PyStr)
    (port : ℕ) (notifications : List Notification) :
    (∀ k, ((notifications.take k).foldl (step browser forget)
      (start roomCode role port)).Faithful) ↔
      Along (step browser forget) Follows (start roomCode role port) notifications :=
  forall_take_iff_along (K := fun _ => True) (fun _ _ _ => trivial)
    (fun _ n _ h => h.follows_iff hfits forget n) trivial (faithful_start roomCode role port)
    notifications

/-- The notification resolves to a peer of the room. -/
def Tells (roomCode : PyStr) : Notification → Prop
  | .added name info => ∃ p, resolvedPeer name info = some p ∧ p.roomCode = some roomCode
  | .updated name info => ∃ p, resolvedPeer name info = some p ∧ p.roomCode = some roomCode
  | .removed _ => False

theorem listed_next_of_tells {roomCode : PyStr} {n : Notification} (hn : Tells roomCode n)
    (forget : Bool) (seen : Seen) : (seen.next forget n).listed roomCode ≠ none := by
  cases n with
  | added name info =>
      obtain ⟨p, hp, hroom⟩ := hn
      rw [Seen.next, hp, Option.some_or, listed_of_announced, if_pos hroom]
      exact Option.some_ne_none p
  | updated name info =>
      obtain ⟨p, hp, hroom⟩ := hn
      rw [Seen.next, hp, Option.some_or, listed_of_announced, if_pos hroom]
      exact Option.some_ne_none p
  | removed name => exact hn.elim

/-- A record is an old one, or its room is told of. -/
theorem record_next_cases {seen : Seen} {forget : Bool} {n : Notification} {p : Peer}
    (h : (seen.next forget n).record = some p) :
    seen.record = some p ∨ ∀ roomCode, p.roomCode = some roomCode → Tells roomCode n := by
  cases n with
  | added name info =>
      rcases Option.or_eq_some_iff.mp h with hnew | ⟨-, hold⟩
      · exact .inr fun _ hroom => ⟨p, hnew, hroom⟩
      · exact .inl hold
  | updated name info =>
      rcases Option.or_eq_some_iff.mp h with hnew | ⟨-, hold⟩
      · exact .inr fun _ hroom => ⟨p, hnew, hroom⟩
      · exact .inl hold
  | removed name =>
      cases forget with
      | false => exact .inl h
      | true => exact absurd h (by simp [Seen.next])

structure Deserted (roomCode : PyStr) (o : Observed) : Prop where
  roomCode_eq : o.service.roomCode = roomCode
  peers_eq : o.service.peers = .empty
  otherRoom : ∀ name p, (o.seen name).record = some p → p.roomCode ≠ some roomCode

theorem Deserted.faithful {roomCode : PyStr} {o : Observed} (h : Deserted roomCode o) :
    o.Faithful := by
  intro name
  rw [h.peers_eq, h.roomCode_eq, Dict.get?_empty]
  unfold Seen.listed
  have hother := h.otherRoom name
  cases hrecord : (o.seen name).record with
  | none => simp
  | some p => simp [Option.filter, hother p hrecord]

theorem Deserted.step {roomCode : PyStr} {o : Observed} (h : Deserted roomCode o)
    (hfits : ¬ browser.Fits) (forget : Bool) {n : Notification} (hn : ¬ Tells roomCode n) :
    Deserted roomCode (o.step browser forget n) := by
  unfold Observed.step
  rw [DiscoveryService.notify_of_not_fits hfits]
  refine ⟨h.roomCode_eq, h.peers_eq, ?_⟩
  intro name p hp
  dsimp only at hp
  by_cases hname : name = n.name
  · subst hname
    rw [Function.update_self] at hp
    rcases record_next_cases hp with hold | htells
    · exact h.otherRoom n.name p hold
    · exact fun hroom => hn (htells roomCode hroom)
  · rw [Function.update_of_ne hname] at hp
    exact h.otherRoom name p hp

theorem not_faithful_step {roomCode : PyStr} {o : Observed} (h : Deserted roomCode o)
    (hfits : ¬ browser.Fits) (forget : Bool) {n : Notification} (hn : Tells roomCode n) :
    ¬ (o.step browser forget n).Faithful := by
  intro hfaithful
  have hown := hfaithful n.name
  unfold Observed.step at hown
  rw [DiscoveryService.notify_of_not_fits hfits] at hown
  dsimp only at hown
  rw [Function.update_self, h.peers_eq, h.roomCode_eq, Dict.get?_empty] at hown
  exact listed_next_of_tells hn forget (o.seen n.name) hown.symm

theorem deserted_start (roomCode role : PyStr) (port : ℕ) :
    Deserted roomCode (start roomCode role port) where
  roomCode_eq := rfl
  peers_eq := rfl
  otherRoom _ _ h := absurd h (by simp [start])

/-- Along the whole way, the table is the view exactly when no notification tells of a peer
of the room. -/
theorem Deserted.faithful_iff {roomCode : PyStr} {o : Observed} (ho : Deserted roomCode o)
    (hfits : ¬ browser.Fits) (forget : Bool) (notifications : List Notification) :
    (∀ k, ((notifications.take k).foldl (Observed.step browser forget) o).Faithful) ↔
      ∀ n ∈ notifications, ¬ Tells roomCode n := by
  induction notifications generalizing o with
  | nil =>
      simp only [List.take_nil, List.foldl_nil, List.not_mem_nil, false_imp_iff, implies_true,
        iff_true]
      exact fun _ => ho.faithful
  | cons n ns ih =>
      rw [List.forall_mem_cons]
      by_cases hn : Tells roomCode n
      · refine iff_of_false ?_ fun h => h.1 hn
        intro hall
        exact not_faithful_step ho hfits forget hn (hall 1)
      · rw [and_iff_right hn]
        refine Iff.trans ?_ (ih (ho.step hfits forget hn))
        constructor
        · intro hall k
          exact hall (k + 1)
        · intro hall k
          cases k with
          | zero => exact ho.faithful
          | succ k => exact hall k

theorem service_foldl_step (hfits : ¬ browser.Fits) (forget : Bool)
    (notifications : List Notification) (o : Observed) :
    (notifications.foldl (step browser forget) o).service = o.service := by
  induction notifications generalizing o with
  | nil => rfl
  | cons n ns ih =>
      rw [List.foldl_cons, ih]
      unfold step
      rw [DiscoveryService.notify_of_not_fits hfits]

/-- The view has nobody to list. -/
def Vacant (roomCode : PyStr) (o : Observed) : Prop :=
  ∀ name, (o.seen name).listed roomCode = none

theorem faithful_iff_vacant {o : Observed} (h : o.service.peers = .empty) :
    o.Faithful ↔ Vacant o.service.roomCode o := by
  unfold Faithful Vacant
  simp only [h, Dict.get?_empty, eq_comm]

/-- Under the zeroconf browser the table is the view after every sequence of notifications,
exactly when none of them tells of a peer of the room; and at the end of one, exactly when
nobody of the room is left to be listed. -/
theorem faithful_iff_none_tells (hbrowser : browser.Documented) (forget : Bool)
    (roomCode role : PyStr) (port : ℕ) (notifications : List Notification) :
    ((∀ k, ((notifications.take k).foldl (step browser forget)
        (start roomCode role port)).Faithful) ↔ ∀ n ∈ notifications, ¬ Tells roomCode n) ∧
      ((notifications.foldl (step browser forget) (start roomCode role port)).Faithful ↔
        Vacant roomCode (notifications.foldl (step browser forget)
          (start roomCode role port))) := by
  have hfits := hbrowser.not_fits
  have hservice := service_foldl_step hfits forget notifications (start roomCode role port)
  refine ⟨(deserted_start roomCode role port).faithful_iff hfits forget notifications, ?_⟩
  rw [faithful_iff_vacant (by rw [hservice]; rfl), hservice]
  exact Iff.rfl

/-- Whether or not a removal makes a record forgotten. -/
theorem faithful_false_of_own_peer :
    ¬ ∃ forget : Bool, (([.added [97] (announcement [65])] : List Notification).foldl
      (step zeroconfBrowser forget) (start [65] [] 0)).Faithful := by
  rintro ⟨forget, hfaithful⟩
  exact absurd (congrArg Option.isSome (hfaithful [97])) (by cases forget <;> decide +kernel)

/-- A peer of another room, and one of this room that leaves again. -/
def passers : List Notification :=
  [.added [97] (announcement [66]), .added [98] (announcement [65]), .removed [98]]

theorem faithful_iff_none_tells_zeroconf :
    ((∀ k, ((passers.take k).foldl (step zeroconfBrowser false) (start [65] [] 0)).Faithful) ↔
        ∀ n ∈ passers, ¬ Tells [65] n) ∧
      ((passers.foldl (step zeroconfBrowser false) (start [65] [] 0)).Faithful ↔
        Vacant [65] (passers.foldl (step zeroconfBrowser false) (start [65] [] 0))) :=
  faithful_iff_none_tells zeroconfBrowser_documented false [65] [] 0 passers

end Observed

/-! ## The instance itself -/

namespace DiscoveryService

variable {browser : Browser}

/-- No entry of the table ever bears the name, and no peer that `on_peer_added` is
called with. -/
def NeverListed (browser : Browser) (name : PyStr) (s : DiscoveryService)
    (notifications : List Notification) : Prop :=
  (∀ k, ∀ p ∈ (run (notify browser) s (notifications.take k)).2.peerList, p.hostname ≠ name) ∧
  ∀ p, .peerAdded p ∈ (run (notify browser) s notifications).1.flatten → p.hostname ≠ name

def Reported (roomCode name : PyStr) (notifications : List Notification) : Prop :=
  ∃ info p, .added name info ∈ notifications ∧ resolvedPeer name info = some p ∧
    p.roomCode = some roomCode

theorem run_notify_of_fits (h : browser.Fits) (s : DiscoveryService)
    (notifications : List Notification) :
    run (notify browser) s notifications = run onChange s notifications := by
  have hsame : notify browser = onChange := by
    funext s n
    exact notify_of_fits h s n
  rw [hsame]

theorem run_notify_of_not_fits (h : ¬ browser.Fits) (s : DiscoveryService)
    (notifications : List Notification) :
    run (notify browser) s notifications = (List.replicate notifications.length [], s) := by
  induction notifications with
  | nil => rfl
  | cons n ns ih => rw [run_cons, notify_of_not_fits h, ih, List.length_cons, List.replicate_succ]

theorem roomCode_run (s : DiscoveryService) (notifications : List Notification) :
    (run onChange s notifications).2.roomCode = s.roomCode := by
  induction notifications generalizing s with
  | nil => rfl
  | cons n ns ih => rw [run_cons, ih, roomCode_onChange]

theorem not_listed_onChange {name : PyStr} {s : DiscoveryService} {n : Notification}
    (hs : ∀ p ∈ s.peerList, p.hostname ≠ name) (hn : ¬ Reported s.roomCode name [n]) :
    (∀ p ∈ (s.onChange n).2.peerList, p.hostname ≠ name) ∧
    ∀ p, .peerAdded p ∈ (s.onChange n).1 → p.hostname ≠ name := by
  rcases s.onChange_cases n with ⟨name', info, p, rfl, hp, hroom, hchange⟩ |
    ⟨name', p, rfl, -, hchange⟩ | ⟨hchange, -, -⟩
  · have hhost := hostname_of_resolvedPeer hp
    have hother : p.hostname ≠ name := by
      rintro rfl
      rw [← hhost] at hp hn
      exact hn ⟨info, p, List.mem_singleton_self _, hp, hroom⟩
    rw [hchange]
    refine ⟨?_, ?_⟩
    · intro q hq
      obtain ⟨k, hk⟩ := Dict.mem_values.mp hq
      rcases Dict.mem_entries_set.mp hk with ⟨-, rfl⟩ | ⟨-, hold⟩
      · exact hother
      · exact hs q (Dict.mem_values.mpr ⟨k, hold⟩)
    · intro q hq
      rw [Callback.peerAdded.inj (List.mem_singleton.mp hq)]
      exact hother
  · rw [hchange]
    refine ⟨?_, by simp⟩
    intro q hq
    obtain ⟨k, hk⟩ := Dict.mem_values.mp hq
    exact hs q (Dict.mem_values.mpr ⟨k, (Dict.mem_entries_pop.mp hk).2⟩)
  · rw [hchange]
    exact ⟨hs, by simp⟩

theorem not_listed_run {name : PyStr} {s : DiscoveryService} {notifications : List Notification}
    (hs : ∀ p ∈ s.peerList, p.hostname ≠ name)
    (hns : ¬ Reported s.roomCode name notifications) :
    (∀ p ∈ (run onChange s notifications).2.peerList, p.hostname ≠ name) ∧
    ∀ p, .peerAdded p ∈ (run onChange s notifications).1.flatten → p.hostname ≠ name := by
  induction notifications generalizing s with
  | nil => exact ⟨hs, by simp⟩
  | cons n ns ih =>
      have hhead : ¬ Reported s.roomCode name [n] := by
        rintro ⟨info, p, hmem, hp, hroom⟩
        rw [List.mem_singleton] at hmem
        exact hns ⟨info, p, hmem ▸ List.mem_cons_self, hp, hroom⟩
      have htail : ¬ Reported s.roomCode name ns := by
        rintro ⟨info, p, hmem, hp, hroom⟩
        exact hns ⟨info, p, List.mem_cons_of_mem _ hmem, hp, hroom⟩
      obtain ⟨hlist, hcalls⟩ := not_listed_onChange hs hhead
      rw [← roomCode_onChange s n] at htail
      obtain ⟨hlist', hcalls'⟩ := ih hlist htail
      rw [run_cons]
      refine ⟨hlist', ?_⟩
      intro p hp
      rw [List.flatten_cons, List.mem_append] at hp
      exact hp.elim (hcalls p) (hcalls' p)

theorem peerAdded_mem_run {name : PyStr} {s : DiscoveryService}
    {notifications : List Notification} {info : ServiceInfo} {p : Peer}
    (hmem : .added name info ∈ notifications) (hp : resolvedPeer name info = some p)
    (hroom : p.roomCode = some s.roomCode) :
    .peerAdded p ∈ (run onChange s notifications).1.flatten := by
  obtain ⟨i, hi⟩ := List.mem_iff_getElem?.mp hmem
  have hcalls := getElem?_run onChange s notifications i
  have hroom' : p.roomCode = some (run onChange s (notifications.take i)).2.roomCode := by
    rw [roomCode_run]
    exact hroom
  rw [hi, Option.map_some] at hcalls
  simp only [onChange, addPeer_of_ownRoom hp hroom'] at hcalls
  apply List.mem_flatten.mpr
  exact ⟨[.peerAdded p], List.mem_of_getElem? hcalls, List.mem_singleton_self _⟩

theorem start_spec {hostname : PyStr} {localIp : IPv4} {s t : DiscoveryService}
    (h : (start hostname localIp).call s = (.ok (), t)) :
    t.info.map RegisteredService.name = some (serviceName hostname) ∧
      t.roomCode = s.roomCode ∧ t.peers = s.peers := by
  unfold start at h
  simp only [Method.call_bind, Method.call_get] at h
  cases hroom : s.roomCode.encode with
  | none => simp [hroom] at h
  | some room =>
  cases hrole : s.role.encode with
  | none => simp [hroom, hrole] at h
  | some role =>
      simp only [hroom, hrole, Method.ofOption_some, Method.call_pure, Method.call_set,
        Prod.mk.injEq, true_and] at h
      rw [← h]
      exact ⟨rfl, rfl, rfl⟩

theorem peers_of_start {hostname : PyStr} {localIp : IPv4} {roomCode role : PyStr} {port : ℕ}
    {s : DiscoveryService}
    (hstart : (start hostname localIp).call (new roomCode role port) = (.ok (), s)) (name : PyStr) :
    ∀ p ∈ s.peerList, p.hostname ≠ name := by
  unfold peerList
  rw [(start_spec hstart).2.2]
  intro p hp
  exact absurd hp (by simp [new, Dict.values, Dict.empty])

/-- With a browser that can call the handler, a started service never lists itself exactly
when the browser does not report it. -/
theorem neverListed_iff (hfits : browser.Fits) {roomCode role hostname : PyStr} {port : ℕ}
    {localIp : IPv4} {s : DiscoveryService}
    (hstart : (start hostname localIp).call (new roomCode role port) = (.ok (), s))
    (notifications : List Notification) :
    NeverListed browser (serviceName hostname) s notifications ↔
      ¬ Reported roomCode (serviceName hostname) notifications := by
  have hroom : s.roomCode = roomCode := (start_spec hstart).2.1
  unfold NeverListed
  simp only [run_notify_of_fits hfits]
  constructor
  · rintro hnever ⟨info, p, hmem, hp, hown⟩
    rw [← hroom] at hown
    exact hnever.2 p (peerAdded_mem_run hmem hp hown) (hostname_of_resolvedPeer hp)
  · intro hunreported
    have hempty := peers_of_start hstart (serviceName hostname)
    rw [← hroom] at hunreported
    refine ⟨?_, (not_listed_run hempty hunreported).2⟩
    intro k
    refine (not_listed_run hempty ?_).1
    rintro ⟨info, p, hmem, hp, hown⟩
    exact hunreported ⟨info, p, List.mem_of_mem_take hmem, hp, hown⟩

/-- With the zeroconf browser a started service never lists itself. -/
theorem neverListed (hbrowser : browser.Documented) {roomCode role hostname : PyStr} {port : ℕ}
    {localIp : IPv4} {s : DiscoveryService}
    (hstart : (start hostname localIp).call (new roomCode role port) = (.ok (), s))
    (notifications : List Notification) :
    s.info.map RegisteredService.name = some (serviceName hostname) ∧
      NeverListed browser (serviceName hostname) s notifications := by
  have hempty := peers_of_start hstart (serviceName hostname)
  refine ⟨(start_spec hstart).1, ?_, ?_⟩
  · intro k
    rw [run_notify_of_not_fits hbrowser.not_fits]
    exact hempty
  · intro p hp
    rw [run_notify_of_not_fits hbrowser.not_fits] at hp
    simp at hp

theorem neverListed_zeroconf :
    ((start [104] ⟨10, 0, 0, 1⟩).exec (new [65] [] 45320)).info.map RegisteredService.name =
      some (serviceName [104]) ∧
    NeverListed zeroconfBrowser (serviceName [104])
      ((start [104] ⟨10, 0, 0, 1⟩).exec (new [65] [] 45320))
      [.added (serviceName [104]) (announcement [65])] := by
  have hok : ((start [104] ⟨10, 0, 0, 1⟩).call (new [65] [] 45320)).1 = .ok () := by
    decide +kernel
  exact neverListed zeroconfBrowser_documented (Prod.ext hok rfl) _

end DiscoveryService

end Roomsync.Coordinator
