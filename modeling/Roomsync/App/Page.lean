import Roomsync.App.RoomCode
import Roomsync.App.Stats
/-!
# The page and the backend

`App.tsx` with the commands that it invokes.  They run on the main thread of the app, in the
order in which they were invoked, and are answered in that order; meanwhile the page goes on
being clicked at.
-/

namespace Roomsync.App

noncomputable section

/-! ## The page -/

inductive AppStatus where
  | inactive
  | active
  | error
deriving DecidableEq

/-- The React state of `App`; its `DEFAULT_STATS` are the backend's. -/
structure Page where
  roomCode : JsString := []
  status : AppStatus := .inactive
  stats : PipelineStats := {}
  gpuEnabled : Bool := false
  e2eEnabled : Bool := true
  errorMsg : String := ""

/-- What was invoked; `none` if its arguments are not text. -/
abbrev Invocation := Option Command

inductive PageEvent where
  | roomCodeChanged (value : JsString)
  | gpuChanged (checked : Bool)
  | e2eChanged (checked : Bool)
  | joinClicked
  | leaveClicked
  /-- The interval of the polling effect. -/
  | pollDue

namespace Page

/-- While it is active, the inputs are disabled and the button leaves. -/
def handle (toUpperCase : JsString → JsString) (p : Page) : PageEvent → Page × List Invocation
  | .roomCodeChanged value =>
      if p.status = .active then (p, []) else ({ p with roomCode := setRoomCode value }, [])
  | .gpuChanged checked =>
      if p.status = .active then (p, []) else ({ p with gpuEnabled := checked }, [])
  | .e2eChanged checked =>
      if p.status = .active then (p, []) else ({ p with e2eEnabled := checked }, [])
  | .joinClicked =>
      if p.status = .active ∨ p.roomCode.length < 4 then (p, [])
      else (p, [handleJoin toUpperCase p.gpuEnabled p.e2eEnabled p.roomCode])
  | .leaveClicked => (p, if p.status = .active then [some .stopPipeline] else [])
  | .pollDue => (p, if p.status = .active then [some .getPipelineStats] else [])

/-- The page goes on after the `await` of an invocation. -/
def settled (p : Page) : Invocation × Reply → Page
  | (some .stopPipeline, _) => { p with status := .inactive, stats := {} }
  | (some .getPipelineStats, .stats stats) => { p with stats }
  | (some .getPipelineStats, _) => p
  | (_, .error message) => { p with status := .error, errorMsg := message }
  | (_, _) => { p with status := .active, errorMsg := "" }

end Page

/-! ## With the backend -/

structure Window where
  page : Page
  /-- Invoked, and not executed so far. -/
  invoked : List Invocation
  /-- Executed, and not known to the page so far. -/
  answered : List (Invocation × Reply)
  app : AppState

inductive WindowEvent where
  | page (e : PageEvent)
  /-- The main thread takes the next invocation, or rejects it with a message. -/
  | execute (rejection : String)
  | settle
  | worker (i : ℕ) (elapsed : ℝ)

namespace Window

def new : Window := ⟨{}, [], [], .new⟩

/-- Nobody hears of an invocation that panics. -/
def execute (w : Window) (rejection : String) : Window :=
  match w.invoked with
  | [] => w
  | none :: invoked =>
      { w with invoked, answered := w.answered ++ [(none, .error rejection)] }
  | some command :: invoked =>
      match w.app.execute command with
      | (.panicked, app) => { w with invoked, app }
      | (reply, app) => { w with invoked, answered := w.answered ++ [(some command, reply)], app }

def settle (w : Window) : Window :=
  match w.answered with
  | [] => w
  | answer :: answered => { w with page := w.page.settled answer, answered }

def step (toUpperCase : JsString → JsString) (w : Window) : WindowEvent → Window
  | .page e =>
      { w with
        page := (w.page.handle toUpperCase e).1
        invoked := w.invoked ++ (w.page.handle toUpperCase e).2 }
  | .execute rejection => w.execute rejection
  | .settle => w.settle
  | .worker i elapsed => { w with app := w.app.step (.worker i elapsed) }

/-- Who has left sees no stats; and when the page knows of everything that was executed, it is
active only over a backend that has stats to tell, and inactive only over one that has none. -/
structure Truthful (w : Window) : Prop where
  blank : w.page.status = .inactive → w.page.stats = {}
  active : w.answered = [] → w.page.status = .active → ∃ stats, w.app.heldStats = .stats stats
  inactive : w.answered = [] → w.page.status = .inactive →
    w.app.heldStats = .error "Pipeline not running"

end Window

/-! ## What the page will show -/

namespace AppState

def HoldsBridge (app : AppState) : Prop :=
  ∃ i w, app.bridge = some i ∧ app.workers[i]? = some w

theorem HoldsBridge.heldStats {app : AppState} (h : app.HoldsBridge) :
    ∃ stats, app.heldStats = .stats stats := by
  obtain ⟨i, w, hbridge, hworker⟩ := h
  unfold AppState.heldStats
  rw [hbridge, Option.bind_some, hworker]
  exact ⟨_, rfl⟩

theorem holdsBridge_hold (app : AppState) (w : Worker) : (app.hold w).HoldsBridge :=
  ⟨_, _, app.bridge_hold w, (app.hold_workers w).1⟩

theorem HoldsBridge.worker {app : AppState} (h : app.HoldsBridge) (k : ℕ) (elapsed : ℝ) :
    (app.step (.worker k elapsed)).HoldsBridge := by
  obtain ⟨i, w, hbridge, hworker⟩ := h
  refine ⟨i, if k = i then w.step elapsed else w, hbridge, ?_⟩
  show (app.workers.modify k (Worker.step · elapsed))[i]? = _
  rw [List.getElem?_modify, hworker]
  rfl

end AppState

namespace Page

variable {p q : Page} {app app' : AppState}

structure Agrees (p : Page) (app : AppState) : Prop where
  blank : p.status = .inactive → p.stats = {}
  active : p.status = .active → app.HoldsBridge
  inactive : p.status = .inactive → app.bridge = none

/-- The page agrees with the backend in the end, and shows no stats in between unless it has
joined. -/
def Settles (app : AppState) : Page → List (Invocation × Reply) → Prop
  | p, [] => p.Agrees app
  | p, answer :: answered => (p.status = .inactive → p.stats = {}) ∧
      Settles app (p.settled answer) answered

theorem Settles.blank {answered : List (Invocation × Reply)} (h : Settles app p answered) :
    p.status = .inactive → p.stats = {} := by
  cases answered with
  | nil => exact Agrees.blank h
  | cons answer answered => exact h.1

theorem Settles.concat {answer : Invocation × Reply} {answered : List (Invocation × Reply)}
    (h : Settles app p answered)
    (hanswer : ∀ q : Page, q.Agrees app → (q.settled answer).Agrees app') :
    Settles app' p (answered ++ [answer]) := by
  induction answered generalizing p with
  | nil => exact ⟨Agrees.blank h, hanswer p h⟩
  | cons first answered ih => exact ⟨h.1, ih h.2⟩

theorem Settles.imp {answered : List (Invocation × Reply)} (h : Settles app p answered)
    (happ : ∀ q : Page, q.Agrees app → q.Agrees app') : Settles app' p answered := by
  induction answered generalizing p with
  | nil => exact happ p h
  | cons answer answered ih => exact ⟨h.1, ih h.2⟩

theorem settled_same (hstatus : p.status = q.status) (hstats : p.stats = q.stats)
    (answer : Invocation × Reply) : (p.settled answer).status = (q.settled answer).status ∧
      (p.settled answer).stats = (q.settled answer).stats := by
  obtain ⟨invocation, reply⟩ := answer
  rcases invocation with _ | ⟨⟩ | _ | _ <;> cases reply <;>
    exact ⟨by first | rfl | exact hstatus, by first | rfl | exact hstats⟩

theorem Settles.same {answered : List (Invocation × Reply)} (h : Settles app p answered)
    (hstatus : q.status = p.status) (hstats : q.stats = p.stats) : Settles app q answered := by
  induction answered generalizing p q with
  | nil =>
      refine ⟨?_, ?_, ?_⟩
      · rw [hstatus, hstats]
        exact Agrees.blank h
      · rw [hstatus]
        exact Agrees.active h
      · rw [hstatus]
        exact Agrees.inactive h
  | cons answer answered ih =>
      obtain ⟨hstatus', hstats'⟩ := settled_same hstatus hstats answer
      refine ⟨?_, ih h.2 hstatus' hstats'⟩
      rw [hstatus, hstats]
      exact h.1

theorem handle_same (toUpperCase : JsString → JsString) (p : Page) (e : PageEvent) :
    (p.handle toUpperCase e).1.status = p.status ∧
      (p.handle toUpperCase e).1.stats = p.stats := by
  cases e with
  | leaveClicked => exact ⟨rfl, rfl⟩
  | pollDue => exact ⟨rfl, rfl⟩
  | _ =>
      unfold handle
      dsimp only
      split <;> exact ⟨rfl, rfl⟩

/-! ## One answer -/

theorem Agrees.worker (h : p.Agrees app) (k : ℕ) (elapsed : ℝ) :
    p.Agrees (app.step (.worker k elapsed)) :=
  ⟨h.blank, fun hactive => (h.active hactive).worker k elapsed, h.inactive⟩

theorem agrees_rejected (p : Page) (app : AppState) (message : String) :
    (p.settled (none, .error message)).Agrees app :=
  ⟨nofun, nofun, nofun⟩

theorem agrees_stopped (p : Page) (app : AppState) (reply : Reply) :
    (p.settled (some .stopPipeline, reply)).Agrees app.stopHeld := by
  have hsettled : p.settled (some .stopPipeline, reply) =
      { p with status := .inactive, stats := {} } := by
    cases reply <;> rfl
  rw [hsettled]
  exact ⟨fun _ => rfl, nofun, fun _ => app.bridge_stopHeld⟩

theorem agrees_started (p : Page) (app : AppState) (w : Worker) (roomCode : String)
    (useGpu useE2e : Bool) :
    (p.settled (some (.startPipeline roomCode useGpu useE2e), .done)).Agrees (app.hold w) :=
  ⟨nofun, fun _ => app.holdsBridge_hold w, nofun⟩

theorem Agrees.polled (h : p.Agrees app) :
    (p.settled (some .getPipelineStats, app.heldStats)).Agrees app := by
  cases hstatus : p.status with
  | inactive =>
      rw [AppState.heldStats_of_none (h.inactive hstatus)]
      exact h
  | active =>
      obtain ⟨stats, hstats⟩ := (h.active hstatus).heldStats
      rw [hstats]
      exact ⟨fun hinactive => absurd (hstatus.symm.trans hinactive) nofun, h.active, h.inactive⟩
  | error =>
      unfold AppState.heldStats
      split
      · exact h
      · exact ⟨fun hinactive => absurd (hstatus.symm.trans hinactive) nofun, h.active,
          h.inactive⟩

end Page

/-! ## Every run -/

namespace Window

variable {w : Window}

def Sound (w : Window) : Prop := w.page.Settles w.app w.answered

theorem sound_new : new.Sound := ⟨fun _ => rfl, nofun, fun _ => rfl⟩

theorem Sound.settle (h : w.Sound) : w.settle.Sound := by
  unfold Sound at h
  unfold Window.settle
  cases hanswered : w.answered with
  | nil => exact h
  | cons answer answered =>
      rw [hanswered] at h
      exact h.2

theorem Sound.execute (h : w.Sound) (rejection : String) : (w.execute rejection).Sound := by
  unfold Window.execute
  rcases w.invoked with _ | ⟨_ | command, invoked⟩
  · exact h
  · exact h.concat fun q _ => q.agrees_rejected w.app rejection
  · cases command with
    | getPipelineStats =>
        have hpolled : w.page.Settles w.app
            (w.answered ++ [(some .getPipelineStats, w.app.heldStats)]) :=
          h.concat fun q hq => hq.polled
        unfold AppState.execute
        dsimp only
        cases hstats : w.app.heldStats with
        | panicked => exact h
        | _ =>
            rw [hstats] at hpolled
            exact hpolled
    | stopPipeline => exact h.concat fun q _ => q.agrees_stopped w.app .done
    | startPipeline roomCode useGpu useE2e =>
        unfold AppState.execute
        dsimp only
        cases startBridge roomCode useGpu with
        | none => exact h
        | some worker =>
            exact h.concat fun q _ => q.agrees_started w.app worker roomCode useGpu useE2e

theorem Sound.step (h : w.Sound) (toUpperCase : JsString → JsString) (e : WindowEvent) :
    (w.step toUpperCase e).Sound := by
  cases e with
  | page e =>
      obtain ⟨hstatus, hstats⟩ := w.page.handle_same toUpperCase e
      exact h.same hstatus hstats
  | execute rejection => exact h.execute rejection
  | settle => exact h.settle
  | worker i elapsed => exact h.imp fun q hq => hq.worker i elapsed

theorem Sound.truthful (h : w.Sound) : w.Truthful := by
  have hagrees : w.answered = [] → w.page.Agrees w.app := by
    intro hanswered
    unfold Sound at h
    rw [hanswered] at h
    exact h
  refine ⟨h.blank, ?_, ?_⟩
  · intro hanswered hactive
    exact ((hagrees hanswered).active hactive).heldStats
  · intro hanswered hinactive
    exact AppState.heldStats_of_none ((hagrees hanswered).inactive hinactive)

end Window

/-- However clicks, polls, commands and threads interleave, the page tells the truth as soon as
it knows of what was executed, and after leaving no stats are left over. -/
theorem page_truthful (toUpperCase : JsString → JsString) (events : List WindowEvent) :
    (events.foldl (Window.step toUpperCase) .new).Truthful := by
  have hsound : (events.foldl (Window.step toUpperCase) .new).Sound :=
    List.foldlRecOn events (Window.step toUpperCase) Window.sound_new fun _ h e _ =>
      h.step toUpperCase e
  exact hsound.truthful

end

end Roomsync.App
