import Roomsync.Pipeline.Plc.Conceal
import Roomsync.Lib.Run
/-!
# What the history keeps

Of all frames since the last reset, of whatever lengths, the last twenty; of their samples
concealment looks back on the last 320.
-/

namespace Roomsync.Pipeline.Plc

open Roomsync.Lib

noncomputable section

inductive Call where
  | pushGoodFrame (frame : List ℝ)
  | reset

/-- A processor, with the frames since its last reset, the oldest first. -/
structure Recorded where
  processor : PlcProcessor
  frames : List (List ℝ)

namespace Recorded

def new : Recorded := ⟨.new, []⟩

def step (r : Recorded) : Call → Option Recorded
  | .pushGoodFrame frame => do
      let s ← r.processor.pushGoodFrame (some frame) frame.length
      return ⟨s, r.frames ++ [frame]⟩
  | .reset => some ⟨r.processor.reset, []⟩

def run (calls : List Call) : Option Recorded := calls.foldlM step new

end Recorded

theorem PlcProcessor.pushGoodFrame_of_history {s : PlcProcessor} {frames : List (List ℝ)}
    (h : s.history = frames.drop (frames.length - historyFrames)) (frame : List ℝ) :
    s.pushGoodFrame (some frame) frame.length =
      some ⟨(frames ++ [frame]).drop ((frames ++ [frame]).length - historyFrames)⟩ := by
  rw [PlcProcessor.pushGoodFrame_eq_some, h, drop_concat_of_bound]

namespace Recorded

def KeepsLast (r : Recorded) : Prop :=
  r.processor.history = r.frames.drop (r.frames.length - historyFrames)

theorem KeepsLast.step {r : Recorded} (h : KeepsLast r) (call : Call) :
    ∃ r', r.step call = some r' ∧ KeepsLast r' := by
  cases call with
  | pushGoodFrame frame =>
      refine ⟨⟨⟨(r.frames ++ [frame]).drop ((r.frames ++ [frame]).length - historyFrames)⟩,
        r.frames ++ [frame]⟩, ?_, rfl⟩
      unfold Recorded.step
      dsimp only
      rw [PlcProcessor.pushGoodFrame_of_history h]
      rfl
  | reset => exact ⟨_, rfl, rfl⟩

/-- The context is the most recent audio, the oldest sample first. -/
theorem context_recent (calls : List Call) :
    ∃ r, run calls = some r ∧
      r.processor.history <:+ r.frames ∧
      r.processor.history.length = min 20 r.frames.length ∧
      r.processor.flat <:+ r.processor.history.flatten ∧
      r.processor.flat.length = min 320 r.processor.history.flatten.length := by
  have hstart : KeepsLast new := rfl
  obtain ⟨r, hrun, hr⟩ := foldlM_invariant (fun _ call hr => hr.step call) hstart calls
  unfold KeepsLast at hr
  refine ⟨r, hrun, ?_, ?_, ?_, r.processor.length_flat⟩
  · rw [hr]
    exact List.drop_suffix _ _
  · have htwenty : historyFrames = 20 := rfl
    rw [hr, List.length_drop, htwenty]
    omega
  · rw [PlcProcessor.flat_eq]
    exact List.drop_suffix _ _

end Recorded

end

end Roomsync.Pipeline.Plc
