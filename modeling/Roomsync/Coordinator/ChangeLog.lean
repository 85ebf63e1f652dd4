import Roomsync.Coordinator.Discovery
import Roomsync.Lib.Run
/-!
# The callbacks as a log of the table

Whoever hears of every call of `on_peer_added` and `on_peer_removed` can keep the peer
table: an added peer goes under its own hostname, a removed name is deleted.
-/

namespace Roomsync.Coordinator

open Roomsync.Lib

/-- The table as the callbacks tell it. -/
def replay (table : Dict PyStr Peer) : Callback → Dict PyStr Peer
  | .peerAdded p => table.set p.hostname p
  | .peerRemoved name => table.pop name

def Callback.Allowed (roomCode : PyStr) (table : Dict PyStr Peer) : Callback → Prop
  | .peerAdded p => p.roomCode = some roomCode
  | .peerRemoved name => table.get? name ≠ none

namespace DiscoveryService

theorem onChange_logs {roomCode : PyStr} {s : DiscoveryService} (hroom : s.roomCode = roomCode)
    (n : Notification) :
    (s.onChange n).2.roomCode = roomCode ∧
      Along replay (Callback.Allowed roomCode) s.peers (s.onChange n).1 ∧
      (s.onChange n).1.foldl replay s.peers = (s.onChange n).2.peers := by
  refine ⟨(s.roomCode_onChange n).trans hroom, ?_⟩
  rcases s.onChange_cases n with ⟨name, info, p, -, hp, hown, hchange⟩ |
    ⟨name, p, -, hlisted, hchange⟩ | ⟨hchange, -, -⟩
  · rw [hchange]
    refine ⟨⟨hown.trans (congrArg some hroom), trivial⟩, ?_⟩
    show s.peers.set p.hostname p = s.peers.set name p
    rw [hostname_of_resolvedPeer hp]
  · rw [hchange]
    refine ⟨⟨?_, trivial⟩, rfl⟩
    show s.peers.get? name ≠ none
    rw [hlisted]
    exact Option.some_ne_none p
  · rw [hchange]
    exact ⟨trivial, rfl⟩

end DiscoveryService

/-! ## What the log tells -/

def Housed (roomCode : PyStr) (table : Dict PyStr Peer) : Prop :=
  ∀ name p, (name, p) ∈ table.entries → p.hostname = name ∧ p.roomCode = some roomCode

theorem Housed.replay {roomCode : PyStr} {table : Dict PyStr Peer} (h : Housed roomCode table)
    {call : Callback} (hcall : call.Allowed roomCode table) :
    Housed roomCode (replay table call) := by
  intro name p hp
  cases call with
  | peerAdded added =>
      rcases Dict.mem_entries_set.mp hp with ⟨hname, rfl⟩ | ⟨-, hold⟩
      · exact ⟨hname.symm, hcall⟩
      · exact h name p hold
  | peerRemoved removed => exact h name p (Dict.mem_entries_pop.mp hp).2

theorem exists_added {log : List Callback} {name : PyStr}
    (h : (log.foldl replay .empty).get? name ≠ none) :
    ∃ before p since, log = before ++ .peerAdded p :: since ∧ p.hostname = name ∧
      .peerRemoved name ∉ since := by
  induction log using List.reverseRecOn with
  | nil => exact absurd rfl h
  | append_singleton log call ih =>
      rw [List.foldl_append, List.foldl_cons, List.foldl_nil] at h
      cases call with
      | peerAdded p =>
          by_cases hname : p.hostname = name
          · exact ⟨log, p, [], rfl, hname, List.not_mem_nil⟩
          · unfold replay at h
            rw [Dict.get?_set_of_ne _ (Ne.symm hname)] at h
            obtain ⟨before, q, since, rfl, hq, hsince⟩ := ih h
            refine ⟨before, q, since ++ [.peerAdded p], by simp, hq, ?_⟩
            simpa using hsince
      | peerRemoved removed =>
          unfold replay at h
          by_cases hname : removed = name
          · rw [hname, Dict.get?_pop_self] at h
            exact absurd rfl h
          · rw [Dict.get?_pop_of_ne _ (Ne.symm hname)] at h
            obtain ⟨before, q, since, rfl, hq, hsince⟩ := ih h
            refine ⟨before, q, since ++ [.peerRemoved removed], by simp, hq, ?_⟩
            simpa [Ne.symm hname] using hsince

namespace DiscoveryService

theorem notify_logs {roomCode : PyStr} (browser : Browser) {s : DiscoveryService}
    (hroom : s.roomCode = roomCode) (n : Notification) :
    (s.notify browser n).2.roomCode = roomCode ∧
      Along replay (Callback.Allowed roomCode) s.peers (s.notify browser n).1 ∧
      (s.notify browser n).1.foldl replay s.peers = (s.notify browser n).2.peers := by
  rcases s.notify_cases browser n with h | h
  · rw [h]
    exact onChange_logs hroom n
  · rw [h]
    exact ⟨hroom, trivial, rfl⟩

/-- However the browser calls, after any notifications the callbacks so far tell the table
whole, its peers are of this room and under their own names, and a name was called removed
only where it had been called added and not removed since. -/
theorem callbacks_log_peers (browser : Browser) (roomCode role : PyStr) (port : ℕ)
    (info : Option RegisteredService) (notifications : List Notification) :
    (run (notify browser) { new roomCode role port with info := info }
        notifications).1.flatten.foldl replay .empty =
      (run (notify browser) { new roomCode role port with info := info } notifications).2.peers ∧
    Housed roomCode
      (run (notify browser) { new roomCode role port with info := info } notifications).2.peers ∧
    ∀ sofar name later,
      (run (notify browser) { new roomCode role port with info := info }
          notifications).1.flatten =
        sofar ++ .peerRemoved name :: later →
      ∃ before p since, sofar = before ++ .peerAdded p :: since ∧ p.hostname = name ∧
        .peerRemoved name ∉ since := by
  have hempty : Housed roomCode .empty := by
    intro name p hp
    exact absurd hp List.not_mem_nil
  obtain ⟨hallowed, htable⟩ := run_logs (fun s => s.roomCode = roomCode)
    DiscoveryService.peers (fun s n hs => notify_logs browser hs n)
    (s := { new roomCode role port with info := info }) rfl notifications
  refine ⟨htable, ?_, ?_⟩
  · rw [← htable]
    exact foldl_invariant (fun _ _ _ htold hcall => htold.replay hcall) hempty hallowed
  · intro sofar name later hlog
    rw [hlog, along_append_iff] at hallowed
    exact exists_added hallowed.2.1

end DiscoveryService

end Roomsync.Coordinator
