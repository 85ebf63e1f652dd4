import Mathlib.Data.List.ReduceOption
import Mathlib.Order.Basic
import Mathlib.Tactic.Common
/-!
# Runs of a machine with outputs

A machine is a step function `σ → ε → ω × σ`: what one input answers and the
state it leaves.  `run` feeds it a list of inputs.  A machine whose answers are
kept in its state, or of no interest, is a step function `σ → ε → σ` and its runs
are folds; `Along` says of such a run what its inputs meet, and `foldl_invariant`
is the induction over it.
-/

namespace Roomsync.Lib

variable {σ ε ω : Type*}

def run (step : σ → ε → ω × σ) : σ → List ε → List ω × σ
  | s, [] => ([], s)
  | s, e :: es =>
      ((step s e).1 :: (run step (step s e).2 es).1, (run step (step s e).2 es).2)

variable (step : σ → ε → ω × σ)

@[simp] theorem run_nil (s : σ) : run step s [] = ([], s) := rfl

@[simp] theorem run_cons (s : σ) (e : ε) (es : List ε) :
    run step s (e :: es) =
      ((step s e).1 :: (run step (step s e).2 es).1,
        (run step (step s e).2 es).2) := rfl

@[simp] theorem length_run (s : σ) (es : List ε) : (run step s es).1.length = es.length := by
  induction es generalizing s with
  | nil => rfl
  | cons e es ih => rw [run_cons, List.length_cons, List.length_cons, ih]

theorem run_append_snd (s : σ) (es fs : List ε) :
    (run step s (es ++ fs)).2 = (run step (run step s es).2 fs).2 := by
  induction es generalizing s with
  | nil => rfl
  | cons e es ih =>
      rw [List.cons_append, run_cons, run_cons]
      exact ih (step s e).2

theorem run_append_fst (s : σ) (es fs : List ε) :
    (run step s (es ++ fs)).1 = (run step s es).1 ++ (run step (run step s es).2 fs).1 := by
  induction es generalizing s with
  | nil => rfl
  | cons e es ih =>
      rw [List.cons_append, run_cons, run_cons, List.cons_append, ih]

theorem run_snd_eq_foldl (answer : σ → ε → ω) (next : σ → ε → σ) (s : σ) (es : List ε) :
    (run (fun s e => (answer s e, next s e)) s es).2 = es.foldl next s := by
  induction es generalizing s with
  | nil => rfl
  | cons e es ih => exact ih (next s e)

theorem getElem?_run (s : σ) (es : List ε) (i : ℕ) :
    (run step s es).1[i]? =
      es[i]?.map fun e => (step (run step s (es.take i)).2 e).1 := by
  induction es generalizing s i with
  | nil => simp
  | cons e es ih =>
      cases i with
      | zero => simp
      | succ i => simp [ih]

/-! ## Steps that need not answer -/

section Answers

variable {step : σ → ε → Option ω × σ}

theorem forall_answers {Q : ω → Prop} (hQ : ∀ s e a, (step s e).1 = some a → Q a) (s : σ)
    (es : List ε) : ∀ a ∈ (run step s es).1.reduceOption, Q a := by
  intro a ha
  obtain ⟨i, hi⟩ := List.mem_iff_getElem?.mp (List.reduceOption_mem_iff.mp ha)
  rw [getElem?_run] at hi
  obtain ⟨e, -, he⟩ := Option.map_eq_some_iff.mp hi
  exact hQ _ e a he

/-- The answers of a machine ascend if its states do, each step that answers passing the
answer on its way up. -/
theorem pairwise_answers {ρ : Type*} [Preorder ρ] {position : σ → ρ} {place : ω → ρ}
    (hclimb : ∀ s e, position s ≤ position (step s e).2)
    (hpass : ∀ s e a, (step s e).1 = some a →
      position s ≤ place a ∧ place a < position (step s e).2)
    (s : σ) (es : List ε) :
    (run step s es).1.reduceOption.Pairwise fun a b => place a < place b := by
  suffices h : (∀ a ∈ (run step s es).1.reduceOption, position s ≤ place a) ∧
      (run step s es).1.reduceOption.Pairwise fun a b => place a < place b by exact h.2
  induction es generalizing s with
  | nil => exact ⟨by simp, .nil⟩
  | cons e es ih =>
      obtain ⟨habove, hpairwise⟩ := ih (step s e).2
      rw [run_cons]
      cases hanswer : (step s e).1 with
      | none =>
          rw [List.reduceOption_cons_of_none]
          refine ⟨fun a ha => ?_, hpairwise⟩
          exact (hclimb s e).trans (habove a ha)
      | some a =>
          obtain ⟨hbelow, hpassed⟩ := hpass s e a hanswer
          rw [List.reduceOption_cons_of_some]
          constructor
          · refine List.forall_mem_cons.mpr ⟨hbelow, fun b hb => ?_⟩
            exact (hclimb s e).trans (habove b hb)
          · refine List.pairwise_cons.mpr ⟨fun b hb => ?_, hpairwise⟩
            exact hpassed.trans_le (habove b hb)

end Answers

/-! ## Runs without answers -/

section Along

variable {step : σ → ε → σ} {P : σ → ε → Prop}

/-- `P` holds of each input and the state that the run meets it in. -/
def Along (step : σ → ε → σ) (P : σ → ε → Prop) : σ → List ε → Prop
  | _, [] => True
  | s, e :: es => P s e ∧ Along step P (step s e) es

theorem foldl_invariant {I : σ → Prop} {s : σ} {es : List ε}
    (hstep : ∀ s, ∀ e ∈ es, I s → P s e → I (step s e)) (hs : I s)
    (halong : Along step P s es) : I (es.foldl step s) := by
  induction es generalizing s with
  | nil => exact hs
  | cons e es ih =>
      apply ih
      · intro s' e' he' hs' hP
        exact hstep s' e' (List.mem_cons_of_mem _ he') hs' hP
      · exact hstep s e List.mem_cons_self hs halong.1
      · exact halong.2

theorem along_of_forall (h : ∀ s e, P s e) (s : σ) (es : List ε) : Along step P s es := by
  induction es generalizing s with
  | nil => trivial
  | cons e es ih => exact ⟨h s e, ih (step s e)⟩

theorem foldl_counts (I : σ → Prop) (count : σ → ℕ) {limit : ℕ}
    (hstep : ∀ s e, I s → P s e → I (step s e) ∧ count (step s e) = min (count s + 1) limit)
    {s : σ} {es : List ε} (hs : I s) (hlimit : count s ≤ limit) (halong : Along step P s es) :
    I (es.foldl step s) ∧ count (es.foldl step s) = min (count s + es.length) limit := by
  induction es generalizing s with
  | nil => exact ⟨hs, (Nat.min_eq_left hlimit).symm⟩
  | cons e es ih =>
      obtain ⟨hnext, hcount⟩ := hstep s e hs halong.1
      obtain ⟨hend, htotal⟩ := ih hnext (by omega) halong.2
      refine ⟨hend, ?_⟩
      rw [List.foldl_cons, htotal, hcount, List.length_cons]
      omega

/-- A property that each step keeps or breaks, as `P` says, holds all along a run
exactly when `P` does.  `K` is what the steps keep in any case. -/
theorem forall_take_iff_along {K I : σ → Prop} (hK : ∀ s e, K s → K (step s e))
    (hstep : ∀ s e, K s → I s → (I (step s e) ↔ P s e)) {s : σ} (hKs : K s) (hs : I s)
    (es : List ε) : (∀ n, I ((es.take n).foldl step s)) ↔ Along step P s es := by
  induction es generalizing s with
  | nil =>
      simp only [List.take_nil, List.foldl_nil, Along, iff_true]
      exact fun _ => hs
  | cons e es ih =>
      constructor
      · intro hall
        have hnext : I (step s e) := hall 1
        refine ⟨(hstep s e hKs hs).mp hnext, ?_⟩
        apply (ih (hK s e hKs) hnext).mp
        intro n
        exact hall (n + 1)
      · rintro ⟨hP, htail⟩ n
        have hnext := (hstep s e hKs hs).mpr hP
        cases n with
        | zero => exact hs
        | succ n => exact (ih (hK s e hKs) hnext).mpr htail n

/-- A property that no step restores, and that a step keeps as `P` says, holds at the end
of a run exactly when it held at the start and `P` does all along. -/
theorem foldl_iff_along {K I : σ → Prop} (hK : ∀ s e, K s → K (step s e))
    (hstep : ∀ s e, K s → (I (step s e) ↔ I s ∧ P s e)) {s : σ} (hKs : K s) (es : List ε) :
    I (es.foldl step s) ↔ I s ∧ Along step P s es := by
  induction es generalizing s with
  | nil => exact (and_iff_left trivial).symm
  | cons e es ih =>
      rw [List.foldl_cons, ih (hK s e hKs), hstep s e hKs, and_assoc]
      rfl

theorem foldlM_invariant {step : σ → ε → Option σ} {I : σ → Prop}
    (hstep : ∀ s e, I s → ∃ s', step s e = some s' ∧ I s') {s : σ} (hs : I s) (es : List ε) :
    ∃ s', es.foldlM step s = some s' ∧ I s' := by
  induction es generalizing s with
  | nil => exact ⟨s, rfl, hs⟩
  | cons e es ih =>
      obtain ⟨t, ht, hIt⟩ := hstep s e hs
      rw [List.foldlM_cons, ht]
      exact ih hIt

end Along

/-! ## Logs

What a machine puts out is a log of its state if a view of the state can be kept by
folding the log alone.
-/

section Log

theorem along_append_iff {ρ : Type*} {fold : ρ → ω → ρ} {G : ρ → ω → Prop} {v : ρ}
    {log more : List ω} :
    Along fold G v (log ++ more) ↔ Along fold G v log ∧ Along fold G (log.foldl fold v) more := by
  induction log generalizing v with
  | nil => exact (and_iff_right trivial).symm
  | cons o log ih =>
      show G v o ∧ Along fold G (fold v o) (log ++ more) ↔
        (G v o ∧ Along fold G (fold v o) log) ∧ Along fold G (log.foldl fold (fold v o)) more
      rw [ih, and_assoc]

/-- If each step logs what it does to the view, and logs it where `G` allows it, so does
the run. -/
theorem run_logs {step : σ → ε → List ω × σ} {ρ : Type*} {fold : ρ → ω → ρ}
    {G : ρ → ω → Prop} (K : σ → Prop) (view : σ → ρ)
    (hstep : ∀ s e, K s → K (step s e).2 ∧ Along fold G (view s) (step s e).1 ∧
      (step s e).1.foldl fold (view s) = view (step s e).2)
    {s : σ} (hs : K s) (es : List ε) :
    Along fold G (view s) (run step s es).1.flatten ∧
      (run step s es).1.flatten.foldl fold (view s) = view (run step s es).2 := by
  induction es generalizing s with
  | nil => exact ⟨trivial, rfl⟩
  | cons e es ih =>
      obtain ⟨hnext, hallowed, hfold⟩ := hstep s e hs
      obtain ⟨hrest, hview⟩ := ih hnext
      rw [run_cons, List.flatten_cons]
      constructor
      · rw [along_append_iff, hfold]
        exact ⟨hallowed, hrest⟩
      · rw [List.foldl_append, hfold]
        exact hview

end Log

/-! ## Runs that may fail -/

section Fallible

/-- The answers and the state reached, unless a step fails. -/
def runM (step : σ → ε → Option (ω × σ)) : σ → List ε → Option (List ω × σ)
  | s, [] => some ([], s)
  | s, e :: es => do
      let (a, t) ← step s e
      let (as, u) ← runM step t es
      return (a :: as, u)

variable {step : σ → ε → Option (ω × σ)}

theorem runM_cons {s t u : σ} {e : ε} {es : List ε} {a : ω} {as : List ω}
    (he : step s e = some (a, t)) (hes : runM step t es = some (as, u)) :
    runM step s (e :: es) = some (a :: as, u) := by
  rw [runM, he, Option.bind_eq_bind, Option.bind_some]
  dsimp only
  rw [hes]
  rfl

theorem runM_append {s t u : σ} {es fs : List ε} {as bs : List ω}
    (hes : runM step s es = some (as, t)) (hfs : runM step t fs = some (bs, u)) :
    runM step s (es ++ fs) = some (as ++ bs, u) := by
  induction es generalizing s as with
  | nil =>
      obtain ⟨rfl, rfl⟩ := Prod.mk.inj (Option.some.inj hes)
      exact hfs
  | cons e es ih =>
      rw [runM] at hes
      obtain ⟨⟨a, s'⟩, he, hrest⟩ := Option.bind_eq_some_iff.mp hes
      obtain ⟨⟨as', t'⟩, hes', hpair⟩ := Option.bind_eq_some_iff.mp hrest
      obtain ⟨rfl, rfl⟩ := Prod.mk.inj (Option.some.inj hpair)
      exact runM_cons he (ih hes')

/-- What each step keeps, for inputs that it is promised, holds at the end, and what each
answer meets all of them do. -/
theorem runM_invariant {I : σ → Prop} {A : ε → ω → Prop} {es : List ε}
    (hstep : ∀ s, ∀ e ∈ es, I s → ∃ a t, step s e = some (a, t) ∧ A e a ∧ I t) {s : σ}
    (hs : I s) : ∃ as t, runM step s es = some (as, t) ∧ List.Forall₂ A es as ∧ I t := by
  induction es generalizing s with
  | nil => exact ⟨[], s, rfl, List.Forall₂.nil, hs⟩
  | cons e es ih =>
      obtain ⟨a, t, he, ha, ht⟩ := hstep s e List.mem_cons_self hs
      obtain ⟨as, u, hes, has, hu⟩ :=
        ih (fun s' e' he' => hstep s' e' (List.mem_cons_of_mem _ he')) ht
      exact ⟨a :: as, u, runM_cons he hes, List.Forall₂.cons ha has, hu⟩

/-- A machine that keeps to another one, never failing, answers as that one does. -/
theorem runM_refines {τ : Type*} {spec : τ → ε → ω × τ} {R : σ → τ → Prop}
    (hstep : ∀ s t e, R s t → ∃ s', step s e = some ((spec t e).1, s') ∧ R s' (spec t e).2)
    {s : σ} {t : τ} (hst : R s t) (es : List ε) :
    ∃ s', runM step s es = some ((run spec t es).1, s') ∧ R s' (run spec t es).2 := by
  induction es generalizing s t with
  | nil => exact ⟨s, rfl, hst⟩
  | cons e es ih =>
      obtain ⟨s', he, hs'⟩ := hstep s t e hst
      obtain ⟨u, hes, hu⟩ := ih hs'
      exact ⟨u, runM_cons he hes, hu⟩

theorem runM_related {E : ε → ε → Prop} {R : σ → σ → Prop} {A : ω → ω → Prop}
    (hstep : ∀ s t e f, R s t → E e f →
      ∃ a s' b t', step s e = some (a, s') ∧ step t f = some (b, t') ∧ A a b ∧ R s' t')
    {s t : σ} (hst : R s t) {es fs : List ε} (hes : List.Forall₂ E es fs) :
    ∃ as s' bs t', runM step s es = some (as, s') ∧ runM step t fs = some (bs, t') ∧
      List.Forall₂ A as bs ∧ R s' t' := by
  induction hes generalizing s t with
  | nil => exact ⟨[], s, [], t, rfl, rfl, List.Forall₂.nil, hst⟩
  | cons hef hrest ih =>
      obtain ⟨a, s', b, t', hs, ht, hab, hst'⟩ := hstep s t _ _ hst hef
      obtain ⟨as, s'', bs, t'', hss, hts, hall, hend⟩ := ih hst'
      exact ⟨a :: as, s'', b :: bs, t'', runM_cons hs hss, runM_cons ht hts,
        List.Forall₂.cons hab hall, hend⟩

/-- Two machines whose steps keep their states related answer the same inputs alike. -/
theorem runM_simulates {τ ω' : Type*} {step' : τ → ε → Option (ω' × τ)} {R : σ → τ → Prop}
    {A : ω → ω' → Prop}
    (hstep : ∀ s t e, R s t →
      ∃ a s' b t', step s e = some (a, s') ∧ step' t e = some (b, t') ∧ A a b ∧ R s' t')
    {s : σ} {t : τ} (hst : R s t) (es : List ε) :
    ∃ as s' bs t', runM step s es = some (as, s') ∧ runM step' t es = some (bs, t') ∧
      List.Forall₂ A as bs ∧ R s' t' := by
  induction es generalizing s t with
  | nil => exact ⟨[], s, [], t, rfl, rfl, List.Forall₂.nil, hst⟩
  | cons e es ih =>
      obtain ⟨a, s', b, t', hs, ht, hab, hst'⟩ := hstep s t e hst
      obtain ⟨as, s'', bs, t'', hss, hts, hall, hend⟩ := ih hst'
      exact ⟨a :: as, s'', b :: bs, t'', runM_cons hs hss, runM_cons ht hts,
        List.Forall₂.cons hab hall, hend⟩

theorem runM_mapped {R : σ → σ → Prop} {f : ε → ε} {g : ω → ω}
    (hstep : ∀ s t e, R s t →
      ∃ a s' t', step s e = some (a, s') ∧ step t (f e) = some (g a, t') ∧ R s' t')
    {s t : σ} (hst : R s t) (es : List ε) :
    ∃ as s' t', runM step s es = some (as, s') ∧
      runM step t (es.map f) = some (as.map g, t') ∧ R s' t' := by
  induction es generalizing s t with
  | nil => exact ⟨[], s, t, rfl, rfl, hst⟩
  | cons e es ih =>
      obtain ⟨a, s', t', hs, ht, hst'⟩ := hstep s t e hst
      obtain ⟨as, s'', t'', hss, hts, hend⟩ := ih hst'
      exact ⟨a :: as, s'', t'', runM_cons hs hss, runM_cons ht hts, hend⟩

/-- A machine in which another one alone answers and moves runs as that one does. -/
theorem runM_part {τ δ : Type*} {part : τ → δ → Option (ω × τ)} (whole : τ → σ) (view : ε → δ)
    {I : τ → Prop}
    (hstep : ∀ t e, I t → ∃ a t', part t (view e) = some (a, t') ∧
      step (whole t) e = some (a, whole t') ∧ I t') {t : τ} (ht : I t) (es : List ε) :
    ∃ as t', runM part t (es.map view) = some (as, t') ∧
      runM step (whole t) es = some (as, whole t') ∧ I t' := by
  induction es generalizing t with
  | nil => exact ⟨[], t, rfl, rfl, ht⟩
  | cons e es ih =>
      obtain ⟨a, t', hpart, hwhole, ht'⟩ := hstep t e ht
      obtain ⟨as, u, hparts, hwholes, hu⟩ := ih ht'
      exact ⟨a :: as, u, runM_cons hpart hparts, runM_cons hwhole hwholes, hu⟩

/-- Where that holds of failures too, it holds of the runs without any promise. -/
theorem runM_embeds {τ : Type*} {part : τ → ε → Option (ω × τ)} {whole : τ → σ}
    (hstep : ∀ t e, step (whole t) e = (part t e).map (Prod.map id whole)) (t : τ)
    (es : List ε) : runM step (whole t) es = (runM part t es).map (Prod.map id whole) := by
  induction es generalizing t with
  | nil => rfl
  | cons e es ih =>
      rw [runM, runM, hstep]
      cases part t e with
      | none => rfl
      | some at' =>
          obtain ⟨a, t'⟩ := at'
          simp only [Option.map_some, Option.bind_eq_bind, Option.bind_some, Prod.map_apply, id_eq,
            ih]
          cases runM part t' es <;> rfl

def AlongM (step : σ → ε → Option (ω × σ)) (P : σ → ε → Prop) : σ → List ε → Prop
  | _, [] => True
  | s, e :: es => P s e ∧ ∀ a t, step s e = some (a, t) → AlongM step P t es

theorem alongM_cons_iff {P : σ → ε → Prop} {s t : σ} {e : ε} {a : ω}
    (he : step s e = some (a, t)) (es : List ε) :
    AlongM step P s (e :: es) ↔ P s e ∧ AlongM step P t es := by
  rw [AlongM]
  apply and_congr_right
  intro _
  constructor
  · intro hrest
    exact hrest a t he
  · intro hrest a' t' he'
    rw [← (Prod.mk.inj (Option.some.inj (he.symm.trans he'))).2]
    exact hrest

def answersTo (keep : ε → Bool) (es : List ε) (as : List ω) : List ω :=
  ((es.zip as).filter fun ea => keep ea.1).map Prod.snd

/-- Inputs that keep two runs related when only one of them meets them can be left out. -/
theorem runM_filter {keep : ε → Bool} {R : σ → σ → Prop} {A : ω → ω → Prop}
    (hdrop : ∀ s t e, keep e = false → R s t → ∃ a s', step s e = some (a, s') ∧ R s' t)
    (hkeep : ∀ s t e, keep e = true → R s t →
      ∃ a s' b t', step s e = some (a, s') ∧ step t e = some (b, t') ∧ A a b ∧ R s' t')
    {s t : σ} (hst : R s t) (es : List ε) :
    ∃ as s' bs t', runM step s es = some (as, s') ∧
      runM step t (es.filter keep) = some (bs, t') ∧
      List.Forall₂ A (answersTo keep es as) bs ∧ R s' t' := by
  induction es generalizing s t with
  | nil => exact ⟨[], s, [], t, rfl, rfl, List.Forall₂.nil, hst⟩
  | cons e es ih =>
      cases he : keep e with
      | false =>
          obtain ⟨a, s', hs, hst'⟩ := hdrop s t e he hst
          obtain ⟨as, s'', bs, t'', hss, hts, hall, hend⟩ := ih hst'
          refine ⟨a :: as, s'', bs, t'', runM_cons hs hss, ?_, ?_, hend⟩
          · rw [List.filter_cons_of_neg (by rw [he]; exact Bool.false_ne_true)]
            exact hts
          · unfold answersTo
            rw [List.zip_cons_cons,
              List.filter_cons_of_neg (by dsimp only; rw [he]; exact Bool.false_ne_true)]
            exact hall
      | true =>
          obtain ⟨a, s', b, t', hs, ht, hab, hst'⟩ := hkeep s t e he hst
          obtain ⟨as, s'', bs, t'', hss, hts, hall, hend⟩ := ih hst'
          refine ⟨a :: as, s'', b :: bs, t'', runM_cons hs hss, ?_, ?_, hend⟩
          · rw [List.filter_cons_of_pos he]
            exact runM_cons ht hts
          · unfold answersTo
            rw [List.zip_cons_cons, List.filter_cons_of_pos (by exact he), List.map_cons]
            exact List.Forall₂.cons hab hall

end Fallible

/-! ## Histories

A history only grows, so what stands at a position stays there.
-/

section History

variable {α : Type*}

theorem getElem?_append_some {l : List α} {i : ℕ} {x : α} (h : l[i]? = some x)
    (new : List α) : (l ++ new)[i]? = some x := by
  have hi : i < l.length := (List.getElem?_eq_some_iff.mp h).1
  rw [List.getElem?_append_left hi]
  exact h

theorem getElem?_concat_eq_some_iff {l : List α} {i : ℕ} {x y : α} :
    (l ++ [x])[i]? = some y ↔ l[i]? = some y ∨ i = l.length ∧ x = y := by
  rcases Nat.lt_trichotomy i l.length with h | h | h
  · rw [List.getElem?_append_left h]
    constructor
    · exact Or.inl
    · rintro (hold | ⟨hi, -⟩)
      · exact hold
      · omega
  · subst h
    simp
  · rw [List.getElem?_eq_none (by rw [List.length_append, List.length_singleton]; omega),
      List.getElem?_eq_none (by omega)]
    simp only [reduceCtorEq, false_or, false_iff, not_and]
    omega

end History

end Roomsync.Lib
