import Roomsync.App.OneWorker
/-!
# The stats that are polled

Each bridge shares its stats with its own worker.  A worker that runs on without its bridge
writes to stats that nobody reads any more.
-/

namespace Roomsync.App

open Roomsync.Lib

noncomputable section

/-- What `PipelineBridge::start` puts in place of stats. -/
def freshStats (code : List Char) (useGpu : Bool) : PipelineStats :=
  { gpuActive := useGpu, peers := ["laptop-" ++ String.ofList code] }

/-- The first bytes of the room code and the wish for a GPU of the start that is in force: the
last one that did not panic, unless it was stopped. -/
def inForce (current : Option (List Char × Bool)) : Event → Option (List Char × Bool)
  | .command (.startPipeline roomCode useGpu _) =>
      match bytePrefix 2 roomCode.toList with
      | none => current
      | some code => some (code, useGpu)
  | .command .stopPipeline => none
  | _ => current

theorem startBridge_of_some {roomCode : String} {code : List Char}
    (hcode : bytePrefix 2 roomCode.toList = some code) (useGpu : Bool) :
    startBridge roomCode useGpu = some ⟨freshStats code useGpu, .new, .checking⟩ := by
  unfold startBridge
  rw [hcode]
  rfl

theorem startBridge_of_none {roomCode : String} (hcode : bytePrefix 2 roomCode.toList = none)
    (useGpu : Bool) : startBridge roomCode useGpu = none := by
  unfold startBridge
  rw [hcode]
  rfl

theorem inForce_of_some {roomCode : String} {code : List Char}
    (hcode : bytePrefix 2 roomCode.toList = some code) (useGpu useE2e : Bool)
    (current : Option (List Char × Bool)) :
    inForce current (.command (.startPipeline roomCode useGpu useE2e)) = some (code, useGpu) := by
  unfold inForce
  dsimp only
  rw [hcode]

theorem inForce_of_none {roomCode : String} (hcode : bytePrefix 2 roomCode.toList = none)
    (useGpu useE2e : Bool) (current : Option (List Char × Bool)) :
    inForce current (.command (.startPipeline roomCode useGpu useE2e)) = current := by
  unfold inForce
  dsimp only
  rw [hcode]

theorem PipelineStats.update_update (s : PipelineStats) (elapsed later : ℝ) :
    (s.update elapsed).update later = s.update later := rfl

def PipelineStats.updatedLast (fresh : PipelineStats) (times : List ℝ) : PipelineStats :=
  match times.getLast? with
  | none => fresh
  | some elapsed => fresh.update elapsed

theorem PipelineStats.update_updatedLast (fresh : PipelineStats) (times : List ℝ)
    (elapsed : ℝ) :
    (fresh.updatedLast times).update elapsed = fresh.updatedLast (times ++ [elapsed]) := by
  unfold updatedLast
  rw [List.getLast?_concat]
  cases times.getLast? with
  | none => rfl
  | some earlier => exact PipelineStats.update_update fresh earlier elapsed

/-- The time that the next step of a thread writes the stats for, if it is one that does. -/
def Worker.write? (w : Worker) (elapsed : ℝ) : Option ℝ :=
  if w.phase = .updating then some elapsed else none

theorem Worker.stats_step (w : Worker) (elapsed : ℝ) :
    (w.step elapsed).stats = match w.write? elapsed with
      | none => w.stats
      | some time => w.stats.update time := by
  unfold step write?
  cases hphase : w.phase with
  | checking =>
      dsimp only
      unfold check
      split <;> rfl
  | updating => rfl
  | sleeping => rfl
  | finished => rfl

def AppState.write? (i : ℕ) (app : AppState) : Event → Option ℝ
  | .command _ => none
  | .worker k elapsed => if k = i then app.workers[i]?.bind (Worker.write? · elapsed) else none

/-- The times that worker `i` writes its stats for in the course of the events. -/
def writes (i : ℕ) (events : List Event) : List ℝ :=
  (run (fun app e => (app.write? i e, app.step e)) AppState.new events).1.reduceOption

theorem writes_concat (i : ℕ) (events : List Event) (e : Event) :
    writes i (events ++ [e]) =
      writes i events ++ ((events.foldl AppState.step .new).write? i e).toList := by
  unfold writes
  rw [run_append_fst, List.reduceOption_append, run_snd_eq_foldl, run_cons, run_nil,
    List.reduceOption_singleton]

namespace AppState

variable {app : AppState} {code : List Char} {useGpu : Bool}

structure Reports (events : List Event) (code : List Char) (useGpu : Bool) (i : ℕ) (w : Worker)
    (app : AppState) : Prop where
  bridge : app.bridge = some i
  worker : app.workers[i]? = some w
  stats : w.stats = (freshStats code useGpu).updatedLast (writes i events)

def UpToDate (events : List Event) (app : AppState) : Option (List Char × Bool) → Prop
  | none => app.bridge = none
  | some (code, useGpu) => ∃ i w, app.Reports events code useGpu i w

theorem Reports.heldStats {events : List Event} {i : ℕ} {w : Worker}
    (h : app.Reports events code useGpu i w) : app.heldStats = .stats w.stats := by
  unfold AppState.heldStats
  rw [h.bridge, Option.bind_some, h.worker]

theorem heldStats_of_none (h : app.bridge = none) :
    app.heldStats = .error "Pipeline not running" := by
  unfold AppState.heldStats
  rw [h, Option.bind_none]

theorem bridge_stopHeld (app : AppState) : app.stopHeld.bridge = none := by
  unfold stopHeld
  split
  · assumption
  · rfl

namespace Reports

variable {events : List Event} {i : ℕ} {w : Worker}

theorem command (h : app.Reports events code useGpu i w) (c : Command) :
    app.Reports (events ++ [.command c]) code useGpu i w where
  bridge := h.bridge
  worker := h.worker
  stats := by
    rw [writes_concat]
    exact h.stats.trans (congrArg _ (List.append_nil _).symm)

theorem worker_step (h : (events.foldl step new).Reports events code useGpu i w) (k : ℕ)
    (elapsed : ℝ) : ∃ w', ((events.foldl step new).step (.worker k elapsed)).Reports
      (events ++ [.worker k elapsed]) code useGpu i w' := by
  have hworker : ((events.foldl step new).workers.modify k (Worker.step · elapsed))[i]? =
      some (if k = i then w.step elapsed else w) := by
    rw [List.getElem?_modify, h.worker]
    rfl
  refine ⟨_, h.bridge, hworker, ?_⟩
  rw [writes_concat]
  unfold AppState.write?
  dsimp only
  by_cases hki : k = i
  · subst hki
    rw [if_pos rfl, if_pos rfl, h.worker, Option.bind_some, w.stats_step]
    cases w.write? elapsed with
    | none => exact h.stats.trans (congrArg _ (List.append_nil _).symm)
    | some time =>
        dsimp only [Option.toList_some]
        rw [h.stats, PipelineStats.update_updatedLast]
  · rw [if_neg hki, if_neg hki]
    exact h.stats.trans (congrArg _ (List.append_nil _).symm)

end Reports

theorem length_workers_step_le (app : AppState) (e : Event) :
    app.workers.length ≤ (app.step e).workers.length := by
  cases e with
  | worker k elapsed => exact (List.length_modify _ _ _).ge
  | command c =>
      cases c with
      | getPipelineStats => exact le_rfl
      | stopPipeline =>
          show app.workers.length ≤ app.stopHeld.workers.length
          unfold stopHeld
          split
          · exact le_rfl
          · exact (List.length_modify _ _ _).ge
      | startPipeline roomCode useGpu useE2e =>
          rw [step_startPipeline]
          cases startBridge roomCode useGpu with
          | none => exact le_rfl
          | some w =>
              have hlength : (app.hold w).workers[app.workers.length]? = some w :=
                (app.hold_workers w).1
              exact (List.getElem?_eq_some_iff.mp hlength).1.le

theorem writes_of_length_le {events : List Event} {i : ℕ}
    (h : (events.foldl step new).workers.length ≤ i) : writes i events = [] := by
  induction events using List.reverseRecOn with
  | nil => rfl
  | append_singleton events e ih =>
      rw [List.foldl_append, List.foldl_cons, List.foldl_nil] at h
      have hbefore := (length_workers_step_le _ e).trans h
      rw [writes_concat, ih hbefore, List.nil_append]
      cases e with
      | command c => rfl
      | worker k elapsed =>
          unfold AppState.write?
          dsimp only
          rw [List.getElem?_eq_none hbefore, Option.bind_none, ite_self]
          rfl

theorem UpToDate.command {events : List Event} {current : Option (List Char × Bool)}
    (h : app.UpToDate events current) (c : Command) :
    app.UpToDate (events ++ [.command c]) current := by
  cases current with
  | none => exact h
  | some start =>
      obtain ⟨i, w, hreports⟩ := h
      exact ⟨i, w, hreports.command c⟩

theorem UpToDate.step {events : List Event} {current : Option (List Char × Bool)}
    (h : (events.foldl AppState.step new).UpToDate events current) (e : Event) :
    ((events.foldl AppState.step new).step e).UpToDate (events ++ [e]) (inForce current e) := by
  cases e with
  | worker k elapsed =>
      cases current with
      | none => exact h
      | some start =>
          obtain ⟨i, w, hreports⟩ := h
          exact ⟨i, hreports.worker_step k elapsed⟩
  | command c =>
      cases c with
      | getPipelineStats => exact h.command _
      | stopPipeline => exact (events.foldl AppState.step new).bridge_stopHeld
      | startPipeline roomCode useGpu useE2e =>
          rw [step_startPipeline]
          cases hcode : bytePrefix 2 roomCode.toList with
          | none =>
              rw [inForce_of_none hcode, startBridge_of_none hcode]
              exact h.command _
          | some code =>
              rw [inForce_of_some hcode, startBridge_of_some hcode]
              refine ⟨_, _, AppState.bridge_hold _ _, (AppState.hold_workers _ _).1, ?_⟩
              rw [writes_concat, writes_of_length_le le_rfl]
              rfl

theorem upToDate (events : List Event) :
    (events.foldl step new).UpToDate events (events.foldl inForce none) := by
  induction events using List.reverseRecOn with
  | nil => rfl
  | append_singleton events e ih =>
      rw [List.foldl_append, List.foldl_append]
      exact ih.step e

end AppState

/-- However threads and commands interleave, polling gets the stats of the start that is in
force, as the last write of its own worker left them, and an error if there is none. -/
theorem stats_of_start_in_force (events : List Event) :
    match events.foldl inForce none with
    | none => (events.foldl AppState.step .new).heldStats = .error "Pipeline not running"
    | some (code, useGpu) => ∃ i, (events.foldl AppState.step .new).bridge = some i ∧
        (events.foldl AppState.step .new).heldStats =
          .stats ((freshStats code useGpu).updatedLast (writes i events)) := by
  have h := AppState.upToDate events
  cases hcurrent : events.foldl inForce none with
  | none =>
      rw [hcurrent] at h
      exact AppState.heldStats_of_none h
  | some start =>
      rw [hcurrent] at h
      obtain ⟨i, w, hreports⟩ := h
      exact ⟨i, hreports.bridge, hreports.heldStats.trans (congrArg _ hreports.stats)⟩

end

end Roomsync.App
