import Roomsync.Lib.Dict
import Roomsync.Lib.Python
/-!
# Discovery

`coordinator/discovery.py`: the service that an instance announces over mDNS, and the
table of the peers that the browser's notifications tell it of.
-/

namespace Roomsync.Coordinator

open Roomsync.Lib

def serviceType : PyStr := .ofString "_roomsync._udp.local."

structure IPv4 where
  a : UInt8
  b : UInt8
  c : UInt8
  d : UInt8

def inetNtoa (address : IPv4) : PyStr :=
  .ofString s!"{address.a}.{address.b}.{address.c}.{address.d}"

/-- A property without a value is decoded to `None`. -/
structure Peer where
  hostname : PyStr
  ip : PyStr
  port : ℕ
  roomCode : Option PyStr
  role : Option PyStr
  deriving DecidableEq

/-- What `ServiceInfo(service_type, name).request(zc)` finds out: no address where the
name does not resolve. -/
structure ServiceInfo where
  addresses : List IPv4
  port : ℕ
  decodedProperties : Dict PyStr (Option PyStr)

structure RegisteredService where
  name : PyStr
  address : IPv4
  port : ℕ
  properties : List (Bytes × Bytes)

inductive Callback
  | peerAdded (p : Peer)
  | peerRemoved (name : PyStr)

/-- A state change that the browser reports, with what the name resolves to just then. -/
inductive Notification
  | added (name : PyStr) (info : ServiceInfo)
  | updated (name : PyStr) (info : ServiceInfo)
  | removed (name : PyStr)

/-- The zeroconf browser: the keywords that it passes the arguments of a handler under. -/
structure Browser where
  keywords : List String

/-- Handlers are called as `handler(zeroconf=..., service_type=..., name=..., state_change=...)`. -/
def Browser.Documented (browser : Browser) : Prop :=
  browser.keywords = ["zeroconf", "service_type", "name", "state_change"]

def zeroconfBrowser : Browser := ⟨["zeroconf", "service_type", "name", "state_change"]⟩

structure DiscoveryService where
  roomCode : PyStr
  role : PyStr
  port : ℕ
  info : Option RegisteredService
  peers : Dict PyStr Peer

namespace DiscoveryService

def new (roomCode role : PyStr) (port : ℕ) : DiscoveryService where
  roomCode := roomCode
  role := role
  port := port
  info := none
  peers := .empty

def serviceName (hostname : PyStr) : PyStr :=
  .ofString "roomsync-" ++ hostname ++ .ofString "." ++ serviceType

/-- `start`, up to the browser that calls `on_change` from then on. -/
def start (hostname : PyStr) (localIp : IPv4) : Method DiscoveryService Unit := do
  let s ← get
  let room ← Method.ofOption .unicodeEncodeError s.roomCode.encode
  let role ← Method.ofOption .unicodeEncodeError s.role.encode
  set { s with
    info := some {
      name := serviceName hostname
      address := localIp
      port := s.port
      properties := [("room".toUTF8.toList, room), ("role".toUTF8.toList, role)] } }

def peerList (s : DiscoveryService) : List Peer := s.peers.values

def addPeer (s : DiscoveryService) (name : PyStr) (info : ServiceInfo) :
    List Callback × DiscoveryService :=
  match info.addresses with
  | [] => ([], s)
  | address :: _ =>
      let props := info.decodedProperties
      let roomCode := props.getD (.ofString "room") (some (.ofString ""))
      if roomCode ≠ some s.roomCode then ([], s)
      else
        let peer := {
          hostname := name
          ip := inetNtoa address
          port := info.port
          roomCode := roomCode
          role := props.getD (.ofString "role") (some (.ofString "peer")) }
        ([.peerAdded peer], { s with peers := s.peers.set name peer })

def removePeer (s : DiscoveryService) (name : PyStr) : List Callback × DiscoveryService :=
  match s.peers.get? name with
  | some _ => ([.peerRemoved name], { s with peers := s.peers.pop name })
  | none => ([], { s with peers := s.peers.pop name })

def onChange (s : DiscoveryService) : Notification → List Callback × DiscoveryService
  | .added name info => s.addPeer name info
  | .updated _ _ => ([], s)
  | .removed name => s.removePeer name

/-- The parameters of `_on_change`, behind `self`. -/
def onChangeParameters : List String := ["zc", "service_type", "name", "state_change"]

/-- The browser's call of `_on_change`, the handler that `start` gives it. -/
def fire (browser : Browser) (s : DiscoveryService) (n : Notification) :
    Except PyError (List Callback) × DiscoveryService :=
  if takesKeywords onChangeParameters browser.keywords then
    let (calls, s') := s.onChange n
    (.ok calls, s')
  else (.error .typeError, s)

/-- What the service makes of a notification.  A call that raises ends in the browser, and
every later one would raise as well. -/
def notify (browser : Browser) (s : DiscoveryService) (n : Notification) :
    List Callback × DiscoveryService :=
  match s.fire browser n with
  | (.ok calls, s') => (calls, s')
  | (.error _, s') => ([], s')

end DiscoveryService

def Browser.Fits (browser : Browser) : Prop :=
  takesKeywords DiscoveryService.onChangeParameters browser.keywords = true

def announcement (room : PyStr) : ServiceInfo where
  addresses := [⟨10, 0, 0, 1⟩]
  port := 45320
  decodedProperties := .set .empty (.ofString "room") (some room)

/-! ## What a notification does -/

/-- The peer that a record describes, whatever its room. -/
def resolvedPeer (name : PyStr) (info : ServiceInfo) : Option Peer :=
  match info.addresses with
  | [] => none
  | address :: _ => some {
      hostname := name
      ip := inetNtoa address
      port := info.port
      roomCode := info.decodedProperties.getD (.ofString "room") (some (.ofString ""))
      role := info.decodedProperties.getD (.ofString "role") (some (.ofString "peer")) }

theorem hostname_of_resolvedPeer {name : PyStr} {info : ServiceInfo} {p : Peer}
    (h : resolvedPeer name info = some p) : p.hostname = name := by
  unfold resolvedPeer at h
  cases haddresses : info.addresses with
  | nil => simp [haddresses] at h
  | cons address rest =>
      rw [haddresses] at h
      rw [← Option.some.inj h]

namespace DiscoveryService

variable {s : DiscoveryService} {name : PyStr} {info : ServiceInfo} {p : Peer}

theorem addPeer_eq (s : DiscoveryService) (name : PyStr) (info : ServiceInfo) :
    s.addPeer name info = match resolvedPeer name info with
      | none => ([], s)
      | some p =>
          if p.roomCode ≠ some s.roomCode then ([], s)
          else ([.peerAdded p], { s with peers := s.peers.set name p }) := by
  unfold addPeer resolvedPeer
  cases info.addresses with
  | nil => rfl
  | cons address rest => rfl

theorem addPeer_of_unresolved (h : resolvedPeer name info = none) :
    s.addPeer name info = ([], s) := by
  rw [addPeer_eq, h]

theorem addPeer_of_otherRoom (h : resolvedPeer name info = some p)
    (hroom : p.roomCode ≠ some s.roomCode) : s.addPeer name info = ([], s) := by
  rw [addPeer_eq, h]
  exact if_pos hroom

theorem addPeer_of_ownRoom (h : resolvedPeer name info = some p)
    (hroom : p.roomCode = some s.roomCode) :
    s.addPeer name info = ([.peerAdded p], { s with peers := s.peers.set name p }) := by
  rw [addPeer_eq, h]
  exact if_neg (not_not.mpr hroom)

theorem removePeer_of_listed (h : s.peers.get? name = some p) :
    s.removePeer name = ([.peerRemoved name], { s with peers := s.peers.pop name }) := by
  unfold removePeer
  rw [h]

theorem removePeer_of_absent (h : s.peers.get? name = none) : s.removePeer name = ([], s) := by
  unfold removePeer
  rw [h]
  simp only [Dict.pop_of_get?_eq_none h]

/-- All that a notification can do: list a peer, remove one, or nothing. -/
theorem onChange_cases (s : DiscoveryService) (n : Notification) :
    (∃ name info p, n = .added name info ∧ resolvedPeer name info = some p ∧
      p.roomCode = some s.roomCode ∧
      s.onChange n = ([.peerAdded p], { s with peers := s.peers.set name p })) ∨
    (∃ name p, n = .removed name ∧ s.peers.get? name = some p ∧
      s.onChange n = ([.peerRemoved name], { s with peers := s.peers.pop name })) ∨
    (s.onChange n = ([], s) ∧
      (∀ name info p, n = .added name info → resolvedPeer name info = some p →
        p.roomCode ≠ some s.roomCode) ∧
      ∀ name, n = .removed name → s.peers.get? name = none) := by
  cases n with
  | added name info =>
      rcases Option.eq_none_or_eq_some (resolvedPeer name info) with hp | ⟨p, hp⟩
      · right
        right
        refine ⟨addPeer_of_unresolved hp, ?_, by simp⟩
        rintro name' info' p ⟨⟩ hp'
        exact absurd (hp.symm.trans hp') (by simp)
      · by_cases hroom : p.roomCode = some s.roomCode
        · left
          exact ⟨name, info, p, rfl, hp, hroom, addPeer_of_ownRoom hp hroom⟩
        · right
          right
          refine ⟨addPeer_of_otherRoom hp hroom, ?_, by simp⟩
          rintro name' info' p' ⟨⟩ hp'
          rwa [← Option.some.inj (hp.symm.trans hp')]
  | updated name info =>
      right
      right
      exact ⟨rfl, by simp, by simp⟩
  | removed name =>
      right
      rcases Option.eq_none_or_eq_some (s.peers.get? name) with hp | ⟨p, hp⟩
      · right
        refine ⟨removePeer_of_absent hp, by simp, ?_⟩
        rintro name' ⟨⟩
        exact hp
      · left
        exact ⟨name, p, rfl, hp, removePeer_of_listed hp⟩

theorem roomCode_onChange (s : DiscoveryService) (n : Notification) :
    (s.onChange n).2.roomCode = s.roomCode := by
  rcases s.onChange_cases n with ⟨name, info, p, -, -, -, hchange⟩ |
    ⟨name, p, -, -, hchange⟩ | ⟨hchange, -, -⟩ <;>
  rw [hchange]

end DiscoveryService

/-! ## What the browser's call does -/

/-- `zeroconf` is none of the parameters. -/
theorem Browser.Documented.not_fits {browser : Browser} (h : browser.Documented) :
    ¬ browser.Fits := by
  unfold Fits
  rw [h]
  decide

theorem zeroconfBrowser_documented : zeroconfBrowser.Documented := rfl

namespace DiscoveryService

variable {browser : Browser}

theorem notify_of_fits (h : browser.Fits) (s : DiscoveryService) (n : Notification) :
    s.notify browser n = s.onChange n := by
  have hfire : s.fire browser n = (.ok (s.onChange n).1, (s.onChange n).2) := if_pos h
  unfold notify
  rw [hfire]

theorem fire_of_not_fits (h : ¬ browser.Fits) (s : DiscoveryService) (n : Notification) :
    s.fire browser n = (.error .typeError, s) :=
  if_neg h

theorem notify_of_not_fits (h : ¬ browser.Fits) (s : DiscoveryService) (n : Notification) :
    s.notify browser n = ([], s) := by
  unfold notify
  rw [fire_of_not_fits h]

theorem notify_cases (browser : Browser) (s : DiscoveryService) (n : Notification) :
    s.notify browser n = s.onChange n ∨ s.notify browser n = ([], s) := by
  by_cases h : browser.Fits
  · exact .inl (notify_of_fits h s n)
  · exact .inr (notify_of_not_fits h s n)

end DiscoveryService

end Roomsync.Coordinator
