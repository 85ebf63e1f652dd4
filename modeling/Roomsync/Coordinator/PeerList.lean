import Roomsync.Coordinator.Discovery
import Roomsync.Lib.Run
/-!
# The coordinator's peer list

`run` in `coordinator/coordinator.py` keeps a list of its own: `on_peer_added` appends
to it and `on_peer_removed` filters it.  The zeroconf browser gets to neither.  Under a
browser that did, the list would be the table of the discovery service as long as no peer
that is listed is announced again.
-/

namespace Roomsync.Coordinator

open Roomsync.Lib

structure Room where
  discovery : DiscoveryService
  peers : List Peer

namespace Room

def start (roomCode role : PyStr) (port : ℕ) : Room where
  discovery := .new roomCode role port
  peers := []

def onPeerAdded (peers : List Peer) (p : Peer) : List Peer := peers ++ [p]

def onPeerRemoved (peers : List Peer) (name : PyStr) : List Peer :=
  peers.filter fun p => p.hostname ≠ name

def call (peers : List Peer) : Callback → List Peer
  | .peerAdded p => onPeerAdded peers p
  | .peerRemoved name => onPeerRemoved peers name

def step (browser : Browser) (r : Room) (n : Notification) : Room where
  discovery := (r.discovery.notify browser n).2
  peers := (r.discovery.notify browser n).1.foldl call r.peers

/-- The list holds the peers of the table, each once. -/
def Mirrors (r : Room) : Prop :=
  r.peers.Nodup ∧ ∀ p, p ∈ r.peers ↔ p ∈ r.discovery.peerList

def Keyed (r : Room) : Prop := ∀ k p, (k, p) ∈ r.discovery.peers.entries → p.hostname = k

/-- The notification does not announce, for this room, a peer that is listed. -/
def Fresh (r : Room) (n : Notification) : Prop :=
  ∀ name info p, n = .added name info → resolvedPeer name info = some p →
    p.roomCode = some r.discovery.roomCode → r.discovery.peers.get? name = none

variable {r : Room} {browser : Browser}

theorem step_of_not_fits (h : ¬ browser.Fits) (r : Room) (n : Notification) :
    r.step browser n = r := by
  unfold step
  rw [DiscoveryService.notify_of_not_fits h]
  rfl

theorem Keyed.step (h : r.Keyed) (hfits : browser.Fits) (n : Notification) :
    (r.step browser n).Keyed := by
  unfold Keyed Room.step
  rw [DiscoveryService.notify_of_fits hfits]
  rcases r.discovery.onChange_cases n with ⟨name, info, p, -, hp, -, hchange⟩ |
    ⟨name, p, -, -, hchange⟩ | ⟨hchange, -, -⟩
  · rw [hchange]
    intro k q hq
    rcases Dict.mem_entries_set.mp hq with ⟨rfl, rfl⟩ | ⟨-, hold⟩
    · exact hostname_of_resolvedPeer hp
    · exact h k q hold
  · rw [hchange]
    intro k q hq
    exact h k q (Dict.mem_entries_pop.mp hq).2
  · rw [hchange]
    exact h

theorem Keyed.mem_values_set (h : r.Keyed) (name : PyStr) (p q : Peer) :
    q ∈ (r.discovery.peers.set name p).values ↔
      q = p ∨ q.hostname ≠ name ∧ q ∈ r.discovery.peerList := by
  unfold DiscoveryService.peerList
  rw [Dict.mem_values, Dict.mem_values]
  constructor
  · rintro ⟨k, hk⟩
    rcases Dict.mem_entries_set.mp hk with ⟨-, hq⟩ | ⟨hne, hold⟩
    · exact .inl hq
    · exact .inr ⟨h k q hold ▸ hne, k, hold⟩
  · rintro (rfl | ⟨hne, k, hold⟩)
    · exact ⟨name, Dict.mem_entries_set.mpr (.inl ⟨rfl, rfl⟩)⟩
    · exact ⟨k, Dict.mem_entries_set.mpr (.inr ⟨h k q hold ▸ hne, hold⟩)⟩

theorem Keyed.mem_values_pop (h : r.Keyed) (name : PyStr) (q : Peer) :
    q ∈ (r.discovery.peers.pop name).values ↔
      q.hostname ≠ name ∧ q ∈ r.discovery.peerList := by
  unfold DiscoveryService.peerList
  rw [Dict.mem_values, Dict.mem_values]
  constructor
  · rintro ⟨k, hk⟩
    obtain ⟨hne, hold⟩ := Dict.mem_entries_pop.mp hk
    exact ⟨h k q hold ▸ hne, k, hold⟩
  · rintro ⟨hne, k, hold⟩
    exact ⟨k, Dict.mem_entries_pop.mpr ⟨h k q hold ▸ hne, hold⟩⟩

theorem Keyed.get?_hostname (h : r.Keyed) {p : Peer} (hp : p ∈ r.discovery.peerList) :
    r.discovery.peers.get? p.hostname = some p := by
  obtain ⟨k, hk⟩ := Dict.mem_values.mp hp
  rw [Dict.get?_eq_some_iff, h k p hk]
  exact hk

theorem Mirrors.added_iff (h : r.Mirrors) (hkeyed : r.Keyed) (p : Peer) :
    Mirrors ⟨{ r.discovery with peers := r.discovery.peers.set p.hostname p },
        r.peers ++ [p]⟩ ↔ r.discovery.peers.get? p.hostname = none := by
  constructor
  · rintro ⟨hnodup, hsame⟩
    by_contra hlisted
    obtain ⟨q, hq⟩ := Option.ne_none_iff_exists'.mp hlisted
    have hmem := Dict.get?_eq_some_iff.mp hq
    have hold : q ∈ r.peers := (h.2 q).mpr (Dict.mem_values.mpr ⟨_, hmem⟩)
    have hnew := (hsame q).mp (List.mem_append_left _ hold)
    rcases (hkeyed.mem_values_set p.hostname p q).mp hnew with rfl | ⟨hne, -⟩
    · exact List.disjoint_of_nodup_append hnodup hold (List.mem_singleton_self q)
    · exact hne (hkeyed _ q hmem)
  · intro hfresh
    have habsent : ∀ q ∈ r.peers, q.hostname ≠ p.hostname := by
      intro q hq hhost
      have hget := hkeyed.get?_hostname ((h.2 q).mp hq)
      rw [hhost, hfresh] at hget
      exact absurd hget (by simp)
    refine ⟨?_, ?_⟩
    · apply List.Nodup.append h.1 (List.nodup_singleton p)
      apply List.disjoint_singleton.mpr
      intro hp
      exact habsent p hp rfl
    · intro q
      rw [List.mem_append, List.mem_singleton]
      refine Iff.trans ?_ (hkeyed.mem_values_set p.hostname p q).symm
      rw [← h.2 q]
      constructor
      · rintro (hq | hq)
        · exact .inr ⟨habsent q hq, hq⟩
        · exact .inl hq
      · rintro (hq | ⟨-, hq⟩)
        · exact .inr hq
        · exact .inl hq

theorem Mirrors.removed (h : r.Mirrors) (hkeyed : r.Keyed) (name : PyStr) :
    Mirrors ⟨{ r.discovery with peers := r.discovery.peers.pop name },
      onPeerRemoved r.peers name⟩ := by
  refine ⟨h.1.filter _, ?_⟩
  intro q
  refine Iff.trans ?_ (hkeyed.mem_values_pop name q).symm
  unfold onPeerRemoved
  rw [List.mem_filter, h.2 q, decide_eq_true_iff, and_comm]

theorem Mirrors.step_iff (h : r.Mirrors) (hkeyed : r.Keyed) (hfits : browser.Fits)
    (n : Notification) : (r.step browser n).Mirrors ↔ r.Fresh n := by
  unfold Room.step Fresh
  rw [DiscoveryService.notify_of_fits hfits]
  rcases r.discovery.onChange_cases n with ⟨name, info, p, rfl, hp, hroom, hchange⟩ |
    ⟨name, p, rfl, -, hchange⟩ | ⟨hchange, hother, -⟩
  · have hhost := hostname_of_resolvedPeer hp
    subst hhost
    rw [hchange]
    refine (h.added_iff hkeyed p).trans ?_
    constructor
    · rintro hfresh name' info' p' ⟨⟩ - -
      exact hfresh
    · intro hfresh
      exact hfresh p.hostname info p rfl hp hroom
  · rw [hchange]
    constructor
    · intro _ name' info' p' hn
      exact absurd hn (by simp)
    · intro _
      exact h.removed hkeyed name
  · rw [hchange]
    constructor
    · intro _ name' info' p' hn hp hroom
      exact absurd hroom (hother name' info' p' hn hp)
    · intro _
      exact h

theorem mirrors_start (roomCode role : PyStr) (port : ℕ) :
    (start roomCode role port).Mirrors :=
  ⟨List.nodup_nil, fun _ => Iff.rfl⟩

/-- Under a browser that can call the handler the list is the table after every sequence of
notifications, exactly when none of them announces a peer that is listed. -/
theorem mirrors_iff_fresh (hfits : browser.Fits) (roomCode role : PyStr) (port : ℕ)
    (notifications : List Notification) :
    (∀ k, ((notifications.take k).foldl (step browser) (start roomCode role port)).Mirrors) ↔
      Along (step browser) Fresh (start roomCode role port) notifications := by
  apply forall_take_iff_along (K := Keyed)
  · intro r n hkeyed
    exact hkeyed.step hfits n
  · intro r n hkeyed hmirrors
    exact hmirrors.step_iff hkeyed hfits n
  · intro k p hp
    exact absurd hp (by simp [start, DiscoveryService.new, Dict.empty])
  · exact mirrors_start roomCode role port

/-- Under the zeroconf browser the list is the table after every sequence of notifications. -/
theorem mirrors_play (hbrowser : browser.Documented) (roomCode role : PyStr) (port : ℕ)
    (notifications : List Notification) :
    (notifications.foldl (step browser) (start roomCode role port)).Mirrors := by
  apply foldl_invariant (P := fun _ _ => True)
  · intro r n _ hmirrors _
    rw [step_of_not_fits hbrowser.not_fits]
    exact hmirrors
  · exact mirrors_start roomCode role port
  · exact along_of_forall (fun _ _ => trivial) _ _

theorem mirrors_play_zeroconf :
    (([.added [97] (announcement [65]), .added [97] (announcement [65])] :
        List Notification).foldl (step zeroconfBrowser) (start [65] [] 0)).Mirrors :=
  mirrors_play zeroconfBrowser_documented [65] [] 0 _

end Room

end Roomsync.Coordinator
