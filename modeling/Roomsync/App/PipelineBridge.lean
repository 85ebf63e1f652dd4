import Roomsync.Lib.Channel
import Mathlib.Analysis.SpecialFunctions.Trigonometric.Basic
/-!
# The bridge to the pipeline

`PipelineBridge` of `pipeline_bridge.rs` with the threads it spawns, and the commands of
`main.rs`.  A command runs to its end before the next one; the workers take their steps in
between, in any order.
-/

namespace Roomsync.App

open Roomsync.Lib

/-- `&s[..n.min(s.len())]`, which panics if byte `n` is inside of a character. -/
def bytePrefix : ℕ → List Char → Option (List Char)
  | 0, _ => some []
  | _, [] => some []
  | n, c :: cs => if c.utf8Size ≤ n then (bytePrefix (n - c.utf8Size) cs).map (c :: ·) else none

noncomputable section

structure PipelineStats where
  latencyMs : ℝ := 0
  erleDb : ℝ := 0
  noiseReductionDb : ℝ := 0
  packetLoss : ℝ := 0
  gpuActive : Bool := false
  peers : List String := []

def PipelineStats.update (s : PipelineStats) (elapsed : ℝ) : PipelineStats :=
  let warmup := min (elapsed / 2.0) 1
  { s with
    latencyMs := 3.5 + warmup * 4.5 + |Real.sin elapsed * 0.8|
    erleDb := warmup * 47.0
    noiseReductionDb := warmup * 8.5 + |Real.sin (elapsed * 0.7)| * 3.0
    packetLoss := if elapsed > 5.0 then 1.2 else 0 }

/-! ## Workers -/

inductive Phase where
  | checking
  | updating
  | sleeping
  | finished
deriving DecidableEq

/-- A thread, with what it shares with the bridge: the stats and the stop channel. -/
structure Worker where
  stats : PipelineStats
  stop : Channel Unit
  phase : Phase

namespace Worker

/-- Only a message makes it leave the loop, no error does. -/
def check (w : Worker) : Worker :=
  match w.stop.tryRecv with
  | (.ok _, stop) => { w with stop := stop.dropReceiver, phase := .finished }
  | (.error _, stop) => { w with stop, phase := .updating }

def step (w : Worker) (elapsed : ℝ) : Worker :=
  match w.phase with
  | .checking => w.check
  | .updating => { w with stats := w.stats.update elapsed, phase := .sleeping }
  | .sleeping => { w with phase := .checking }
  | .finished => w

def bridgeDropped (w : Worker) : Worker := { w with stop := w.stop.dropSender }

/-- `PipelineBridge::stop`, which consumes the bridge. -/
def bridgeStopped (w : Worker) : Worker :=
  match w.stop.send () with
  | .ok stop => { w with stop := stop.dropSender }
  | .error _ => w.bridgeDropped

end Worker

/-! ## Commands -/

/-- The threads that were spawned, and whose bridge the state of the app holds. -/
structure AppState where
  workers : List Worker
  bridge : Option ℕ

inductive Command where
  | startPipeline (roomCode : String) (useGpu useE2e : Bool)
  | stopPipeline
  | getPipelineStats

inductive Reply where
  | done
  | stats (stats : PipelineStats)
  | error (message : String)
  | panicked

/-- The worker that `PipelineBridge::start` spawns, unless it panics. -/
def startBridge (roomCode : String) (useGpu : Bool) : Option Worker := do
  let code ← bytePrefix 2 roomCode.toList
  let stats : PipelineStats :=
    { gpuActive := useGpu, peers := ["laptop-" ++ String.ofList code] }
  return { stats, stop := .new, phase := .checking }

namespace AppState

def new : AppState := ⟨[], none⟩

def hold (app : AppState) (w : Worker) : AppState where
  workers :=
    (match app.bridge with
      | none => app.workers
      | some i => app.workers.modify i Worker.bridgeDropped) ++ [w]
  bridge := some app.workers.length

def stopHeld (app : AppState) : AppState :=
  match app.bridge with
  | none => app
  | some i => ⟨app.workers.modify i Worker.bridgeStopped, none⟩

def heldStats (app : AppState) : Reply :=
  match app.bridge.bind fun i => app.workers[i]? with
  | none => .error "Pipeline not running"
  | some w => .stats w.stats

def execute (app : AppState) : Command → Reply × AppState
  | .startPipeline roomCode useGpu _ =>
      match startBridge roomCode useGpu with
      | none => (.panicked, app)
      | some w => (.done, app.hold w)
  | .stopPipeline => (.done, app.stopHeld)
  | .getPipelineStats => (app.heldStats, app)

end AppState

inductive Event where
  | command (c : Command)
  | worker (i : ℕ) (elapsed : ℝ)

def AppState.step (app : AppState) : Event → AppState
  | .command c => (app.execute c).2
  | .worker i elapsed => { app with workers := app.workers.modify i (Worker.step · elapsed) }

end

end Roomsync.App
