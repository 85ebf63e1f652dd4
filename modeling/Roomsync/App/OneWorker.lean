import Roomsync.App.PipelineBridge
import Roomsync.Lib.Run
/-!
# At most one worker runs

A worker leaves its loop for a message only.  `stop_pipeline` sends one to the worker whose
bridge it takes; `start_pipeline` drops the bridge that it replaces, and the worker of that
bridge runs on.
-/

namespace Roomsync.App

open Roomsync.Lib

noncomputable section

/-! ## One worker -/

namespace Worker

variable {w : Worker}

/-- It left its loop, or leaves it at its next check. -/
def Leaves (w : Worker) : Prop := w.phase = .finished ∨ w.check.phase = .finished

instance : DecidablePred Leaves := fun w =>
  inferInstanceAs (Decidable (w.phase = .finished ∨ w.check.phase = .finished))

theorem leaves_iff : w.Leaves ↔ w.phase = .finished ∨ w.stop.queue ≠ [] := by
  unfold Leaves check
  cases hqueue : w.stop.queue with
  | nil =>
      rw [Channel.tryRecv_of_nil hqueue]
      simp
  | cons message queue =>
      rw [Channel.tryRecv_of_cons hqueue]
      simp

theorem leaves_of_step {elapsed : ℝ} : (w.step elapsed).Leaves ↔ w.Leaves := by
  cases hphase : w.phase with
  | checking =>
      have hstep : w.step elapsed = w.check := by
        unfold step
        rw [hphase]
      cases hqueue : w.stop.queue with
      | nil =>
          have hcheck : w.check = { w with phase := .updating } := by
            unfold check
            rw [Channel.tryRecv_of_nil hqueue]
          simp [hstep, hcheck, leaves_iff, hphase]
      | cons message queue =>
          have hcheck : w.check.phase = .finished := by
            unfold check
            rw [Channel.tryRecv_of_cons hqueue]
          simp [hstep, leaves_iff, hcheck, hqueue]
  | updating => simp [step, leaves_iff, hphase]
  | sleeping => simp [step, leaves_iff, hphase]
  | finished => simp [step, hphase]

theorem leaves_bridgeDropped : w.bridgeDropped.Leaves ↔ w.Leaves := by
  rw [leaves_iff, leaves_iff]
  rfl

structure Running (w : Worker) : Prop where
  phase : w.phase ≠ .finished
  queue : w.stop.queue = []
  receiver : w.stop.receiver = true

namespace Running

theorem not_leaves (h : Running w) : ¬ w.Leaves := by
  rw [leaves_iff]
  rintro (hphase | hqueue)
  · exact h.phase hphase
  · exact hqueue h.queue

theorem step (h : Running w) (elapsed : ℝ) : Running (w.step elapsed) := by
  unfold Worker.step
  split
  · unfold check
    rw [Channel.tryRecv_of_nil h.queue]
    exact ⟨nofun, h.queue, h.receiver⟩
  · exact ⟨nofun, h.queue, h.receiver⟩
  · exact ⟨nofun, h.queue, h.receiver⟩
  · exact h

theorem leaves_bridgeStopped (h : Running w) : w.bridgeStopped.Leaves := by
  unfold bridgeStopped
  rw [Channel.send_eq_ok h.receiver, leaves_iff]
  simp

end Running

end Worker

theorem running_of_startBridge {roomCode : String} {useGpu : Bool} {w : Worker}
    (h : startBridge roomCode useGpu = some w) : w.Running := by
  obtain ⟨code, -, hw⟩ := Option.bind_eq_some_iff.mp h
  obtain rfl := Option.some.inj hw
  exact ⟨nofun, rfl, rfl⟩

/-! ## All workers -/

theorem of_getElem?_modify {α : Type*} {l : List α} {f : α → α} {i j : ℕ} {b : α}
    (h : (l.modify i f)[j]? = some b) : ∃ a, l[j]? = some a ∧ b = if i = j then f a else a := by
  rw [List.getElem?_modify] at h
  obtain ⟨a, ha, hb⟩ := Option.map_eq_some_iff.mp h
  exact ⟨a, ha, hb.symm⟩

theorem countP_eq_one {α : Type*} {p : α → Bool} {l : List α} {i : ℕ} {a : α}
    (hi : l[i]? = some a) (ha : p a = true)
    (hothers : ∀ j b, l[j]? = some b → j ≠ i → p b = false) : l.countP p = 1 := by
  induction l generalizing i with
  | nil => exact absurd hi.symm (Option.some_ne_none a)
  | cons x l ih =>
      cases i with
      | zero =>
          obtain rfl := Option.some.inj hi
          have hrest : l.countP p = 0 := by
            rw [List.countP_eq_zero]
            intro b hb
            obtain ⟨j, hj⟩ := List.mem_iff_getElem?.mp hb
            rw [hothers (j + 1) b hj (by omega)]
            exact Bool.false_ne_true
          rw [List.countP_cons_of_pos ha, hrest]
      | succ i =>
          have hx : p x = false := hothers 0 x rfl (by omega)
          rw [List.countP_cons_of_neg (by rw [hx]; exact Bool.false_ne_true)]
          exact ih hi fun j b hb hj => hothers (j + 1) b hb (by omega)

namespace AppState

variable {app : AppState}

def Sound (app : AppState) : Prop :=
  ∀ i, app.bridge = some i → ∃ w, app.workers[i]? = some w ∧ w.Running

/-- As many workers run on as the state holds bridges, and each worker whose bridge it does
not hold leaves its loop. -/
structure OneWorker (app : AppState) : Prop where
  count : (app.workers.countP fun w => ¬ w.Leaves) = if app.bridge.isSome then 1 else 0
  released : ∀ i w, app.workers[i]? = some w → app.bridge ≠ some i → w.Leaves

/-- The command spawns no second worker next to the one of a bridge. -/
def SingleStart (app : AppState) : Event → Prop
  | .command (.startPipeline roomCode _ _) =>
      (bytePrefix 2 roomCode.toList).isSome → app.bridge = none
  | _ => True

theorem step_startPipeline (app : AppState) (roomCode : String) (useGpu useE2e : Bool) :
    app.step (.command (.startPipeline roomCode useGpu useE2e)) =
      match startBridge roomCode useGpu with
      | none => app
      | some w => app.hold w := by
  unfold step execute
  dsimp only
  cases startBridge roomCode useGpu with
  | none => rfl
  | some w => rfl

theorem step_cases (app : AppState) (e : Event) :
    (∃ w, app.step e = app.hold w ∧ w.Running ∧ (app.SingleStart e ↔ app.bridge = none)) ∨
    (∃ i, app.step e = ⟨app.workers.modify i Worker.bridgeStopped, none⟩ ∧
      app.bridge = some i ∧ app.SingleStart e) ∨
    (∃ k elapsed, app.step e =
      { app with workers := app.workers.modify k (Worker.step · elapsed) } ∧ app.SingleStart e) ∨
    (app.step e = app ∧ app.SingleStart e) := by
  cases e with
  | worker k elapsed => exact Or.inr (Or.inr (Or.inl ⟨k, elapsed, rfl, trivial⟩))
  | command c =>
      cases c with
      | startPipeline roomCode useGpu useE2e =>
          rw [step_startPipeline]
          cases hcode : bytePrefix 2 roomCode.toList with
          | none =>
              have hstart : startBridge roomCode useGpu = none := by
                unfold startBridge
                rw [hcode]
                rfl
              refine Or.inr (Or.inr (Or.inr ⟨by rw [hstart], ?_⟩))
              show (bytePrefix 2 roomCode.toList).isSome → app.bridge = none
              rw [hcode]
              exact nofun
          | some code =>
              obtain ⟨w, hstart⟩ : ∃ w, startBridge roomCode useGpu = some w := by
                unfold startBridge
                rw [hcode]
                exact ⟨_, rfl⟩
              refine Or.inl ⟨w, by rw [hstart], running_of_startBridge hstart, ?_⟩
              show ((bytePrefix 2 roomCode.toList).isSome → app.bridge = none) ↔ _
              rw [hcode]
              exact ⟨fun h => h rfl, fun h _ => h⟩
      | stopPipeline =>
          cases hbridge : app.bridge with
          | none =>
              refine Or.inr (Or.inr (Or.inr ⟨?_, trivial⟩))
              show app.stopHeld = app
              unfold stopHeld
              rw [hbridge]
          | some i =>
              refine Or.inr (Or.inl ⟨i, ?_, rfl, trivial⟩)
              show app.stopHeld = _
              unfold stopHeld
              rw [hbridge]
      | getPipelineStats => exact Or.inr (Or.inr (Or.inr ⟨rfl, trivial⟩))

theorem oneWorker_of_released (hsound : app.Sound)
    (h : ∀ i w, app.workers[i]? = some w → app.bridge ≠ some i → w.Leaves) : app.OneWorker := by
  refine ⟨?_, h⟩
  cases hbridge : app.bridge with
  | none =>
      rw [Option.isSome_none, if_neg Bool.false_ne_true, List.countP_eq_zero]
      intro w hw
      obtain ⟨i, hi⟩ := List.mem_iff_getElem?.mp hw
      have hleaves := h i w hi (by rw [hbridge]; exact nofun)
      simpa using hleaves
  | some i =>
      obtain ⟨w, hw, hrunning⟩ := hsound i hbridge
      rw [Option.isSome_some, if_pos rfl]
      apply countP_eq_one hw (decide_eq_true hrunning.not_leaves)
      intro j v hv hji
      have hleaves := h j v hv (by rw [hbridge]; exact fun heq => hji (Option.some.inj heq).symm)
      simpa using hleaves

theorem sound_new : new.Sound := fun _ hbridge => absurd hbridge.symm (Option.some_ne_none _)

theorem hold_workers (app : AppState) (w : Worker) :
    (app.hold w).workers[app.workers.length]? = some w ∧
      ∀ (i : ℕ) (v : Worker), app.workers[i]? = some v → ∃ v', (app.hold w).workers[i]? = some v' ∧
        (v'.Leaves ↔ v.Leaves) := by
  unfold hold
  cases app.bridge with
  | none =>
      refine ⟨List.getElem?_concat_length, fun i v hv => ⟨v, ?_, Iff.rfl⟩⟩
      exact getElem?_append_some hv [w]
  | some j =>
      refine ⟨?_, fun i v hv => ?_⟩
      · dsimp only
        rw [List.getElem?_append_right (by rw [List.length_modify]), List.length_modify,
          Nat.sub_self]
        rfl
      · refine ⟨if j = i then v.bridgeDropped else v, ?_, ?_⟩
        · apply getElem?_append_some
          rw [List.getElem?_modify, hv]
          rfl
        · split
          · exact Worker.leaves_bridgeDropped
          · exact Iff.rfl

theorem bridge_hold (app : AppState) (w : Worker) :
    (app.hold w).bridge = some app.workers.length := rfl

theorem Sound.step (hsound : app.Sound) (e : Event) : (app.step e).Sound := by
  rcases app.step_cases e with ⟨w, hstep, hw, -⟩ | ⟨i, hstep, -, -⟩ | ⟨k, elapsed, hstep, -⟩ |
    ⟨hstep, -⟩
  · rw [hstep]
    intro i hbridge
    obtain rfl := Option.some.inj hbridge
    exact ⟨w, (app.hold_workers w).1, hw⟩
  · rw [hstep]
    exact fun _ hbridge => absurd hbridge.symm (Option.some_ne_none _)
  · rw [hstep]
    intro i hbridge
    obtain ⟨w, hw, hrunning⟩ := hsound i hbridge
    refine ⟨if k = i then w.step elapsed else w, ?_, ?_⟩
    · dsimp only
      rw [List.getElem?_modify, hw]
      rfl
    · split
      · exact hrunning.step elapsed
      · exact hrunning
  · rw [hstep]
    exact hsound

theorem step_unheld {i : ℕ} {w : Worker} (hw : app.workers[i]? = some w)
    (hbridge : app.bridge ≠ some i) (e : Event) :
    (app.step e).bridge ≠ some i ∧
      ∃ w', (app.step e).workers[i]? = some w' ∧ (w'.Leaves ↔ w.Leaves) := by
  rcases app.step_cases e with ⟨v, hstep, -, -⟩ | ⟨j, hstep, hj, -⟩ | ⟨k, elapsed, hstep, -⟩ |
    ⟨hstep, -⟩
  · have hi : i < app.workers.length := (List.getElem?_eq_some_iff.mp hw).1
    rw [hstep, bridge_hold]
    exact ⟨fun heq => absurd (Option.some.inj heq) (by omega), (app.hold_workers v).2 i w hw⟩
  · have hji : j ≠ i := fun heq => hbridge (heq ▸ hj)
    rw [hstep]
    refine ⟨(Option.some_ne_none i).symm, w, ?_, Iff.rfl⟩
    dsimp only
    rw [List.getElem?_modify_ne _ _ hji]
    exact hw
  · rw [hstep]
    refine ⟨hbridge, if k = i then w.step elapsed else w, ?_, ?_⟩
    · dsimp only
      rw [List.getElem?_modify, hw]
      rfl
    · split
      · exact Worker.leaves_of_step
      · exact Iff.rfl
  · rw [hstep]
    exact ⟨hbridge, w, hw, Iff.rfl⟩

theorem orphan_never_leaves {i : ℕ} {w : Worker} (hw : app.workers[i]? = some w)
    (hbridge : app.bridge ≠ some i) (hrunning : ¬ w.Leaves) (events : List Event) :
    ∃ w', (events.foldl step app).workers[i]? = some w' ∧ ¬ w'.Leaves := by
  induction events generalizing app w with
  | nil => exact ⟨w, hw, hrunning⟩
  | cons e events ih =>
      obtain ⟨hbridge', w', hw', hleaves⟩ := step_unheld hw hbridge e
      exact ih hw' hbridge' fun h => hrunning (hleaves.mp h)

theorem not_oneWorker_hold (hsound : app.Sound) {i : ℕ} (hbridge : app.bridge = some i)
    (w : Worker) : ¬ (app.hold w).OneWorker := by
  intro h
  obtain ⟨v, hv, hrunning⟩ := hsound i hbridge
  obtain ⟨v', hv', hleaves⟩ := (app.hold_workers w).2 i v hv
  have hi : i < app.workers.length := (List.getElem?_eq_some_iff.mp hv).1
  apply hrunning.not_leaves
  apply hleaves.mp
  apply h.released i v' hv'
  rw [bridge_hold]
  exact fun heq => absurd (Option.some.inj heq) (by omega)

namespace OneWorker

theorem hold (h : app.OneWorker) (hbridge : app.bridge = none) {w : Worker}
    (hsound : (app.hold w).Sound) : (app.hold w).OneWorker := by
  apply oneWorker_of_released hsound
  intro i v hv hne
  rw [bridge_hold] at hne
  unfold AppState.hold at hv
  rw [hbridge] at hv
  rcases getElem?_concat_eq_some_iff.mp hv with hv | ⟨hi, -⟩
  · exact h.released i v hv (by rw [hbridge]; exact nofun)
  · exact absurd (by rw [hi]) hne

theorem stopHeld (h : app.OneWorker) (hsound : app.Sound) {i : ℕ} (hbridge : app.bridge = some i) :
    OneWorker ⟨app.workers.modify i Worker.bridgeStopped, none⟩ := by
  apply oneWorker_of_released fun _ hnone => absurd hnone.symm (Option.some_ne_none _)
  intro j v hv _
  obtain ⟨u, hu, rfl⟩ := of_getElem?_modify hv
  by_cases hij : i = j
  · subst hij
    obtain ⟨w, hw, hrunning⟩ := hsound i hbridge
    obtain rfl : u = w := Option.some.inj (hu.symm.trans hw)
    rw [if_pos rfl]
    exact hrunning.leaves_bridgeStopped
  · rw [if_neg hij]
    apply h.released j u hu
    rw [hbridge]
    exact fun heq => hij (Option.some.inj heq)

theorem worker (h : app.OneWorker) {k : ℕ} {elapsed : ℝ}
    (hsound : Sound { app with workers := app.workers.modify k (Worker.step · elapsed) }) :
    OneWorker { app with workers := app.workers.modify k (Worker.step · elapsed) } := by
  apply oneWorker_of_released hsound
  intro j v hv hne
  obtain ⟨u, hu, rfl⟩ := of_getElem?_modify hv
  have hleaves := h.released j u hu hne
  split
  · exact Worker.leaves_of_step.mpr hleaves
  · exact hleaves

theorem step_iff (hsound : app.Sound) (h : app.OneWorker) (e : Event) :
    (app.step e).OneWorker ↔ app.SingleStart e := by
  have hsound' := hsound.step e
  rcases app.step_cases e with ⟨w, hstep, -, hsingle⟩ | ⟨i, hstep, hbridge, hsingle⟩ |
    ⟨k, elapsed, hstep, hsingle⟩ | ⟨hstep, hsingle⟩
  · rw [hstep] at hsound' ⊢
    rw [hsingle]
    constructor
    · intro h'
      by_contra hne
      obtain ⟨i, hbridge⟩ := Option.ne_none_iff_exists'.mp hne
      exact not_oneWorker_hold hsound hbridge w h'
    · exact fun hbridge => h.hold hbridge hsound'
  · rw [hstep]
    exact iff_of_true (h.stopHeld hsound hbridge) hsingle
  · rw [hstep] at hsound' ⊢
    exact iff_of_true (h.worker hsound') hsingle
  · rw [hstep]
    exact iff_of_true h hsingle

end OneWorker

end AppState

/-- In every state of a run one worker runs if a bridge is held, and none if not, exactly if
no command starts a worker while a bridge is held. -/
theorem one_worker_iff (events : List Event) :
    (∀ n, ((events.take n).foldl AppState.step .new).OneWorker) ↔
      Along AppState.step AppState.SingleStart .new events := by
  apply forall_take_iff_along (K := AppState.Sound)
  · exact fun app e hsound => hsound.step e
  · exact fun app e hsound h => h.step_iff hsound e
  · exact AppState.sound_new
  · exact AppState.oneWorker_of_released AppState.sound_new fun i w hw _ =>
      absurd hw.symm (Option.some_ne_none w)

def startTwice : List Event :=
  [.command (.startPipeline "AB12" true true), .command (.startPipeline "AB12" true true)]

/-- After a second start two workers run, and the first one will whatever comes. -/
theorem second_start_leaks :
    ((startTwice.foldl AppState.step .new).workers.countP fun w => ¬ w.Leaves) = 2 ∧
      (startTwice.foldl AppState.step .new).bridge.isSome ∧
      ∀ more : List Event, ∃ w, (more.foldl AppState.step
        (startTwice.foldl AppState.step .new)).workers[0]? = some w ∧ ¬ w.Leaves := by
  have hcode : bytePrefix 2 "AB12".toList = some ['A', 'B'] := by decide
  obtain ⟨w, hstart⟩ : ∃ w, startBridge "AB12" true = some w := by
    unfold startBridge
    rw [hcode]
    exact ⟨_, rfl⟩
  have hrunning := (running_of_startBridge hstart).not_leaves
  have hdropped : ¬ w.bridgeDropped.Leaves := by
    rw [Worker.leaves_bridgeDropped]
    exact hrunning
  have hrun : startTwice.foldl AppState.step .new = ⟨[w.bridgeDropped, w], some 1⟩ := by
    unfold startTwice
    simp only [List.foldl_cons, List.foldl_nil, AppState.step_startPipeline, hstart]
    rfl
  rw [hrun]
  refine ⟨?_, rfl, AppState.orphan_never_leaves rfl ?_ hdropped⟩
  · simp [hdropped, hrunning]
  · exact fun heq => absurd (Option.some.inj heq) (by omega)

end

end Roomsync.App
