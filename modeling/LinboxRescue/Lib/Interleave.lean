import Mathlib.Logic.Function.Basic

/-!
# Interleaved processes

Processes share a state and have one of their own. In each step one of them runs, with an outcome of
what it calls.

1. `World.step`, `World.run`: one step and a run.
2. `World.Along`: a condition that each step of a run meets in the world it is taken in.
3. `World.run_induction`: what each such step keeps holds after the run.
4. `Meets`, `foldl_of_meets`: the same for a machine of any kind.
-/

namespace LinboxRescue

/-! ## Machines -/

section Machine

variable {σ ε : Type*} {step : σ → ε → σ} {ok : σ → ε → Prop}

/-- Each step of a run meets the condition, in the state it is taken in. -/
def Meets (step : σ → ε → σ) (ok : σ → ε → Prop) : σ → List ε → Prop
  | _, [] => True
  | s, e :: es => ok s e ∧ Meets step ok (step s e) es

theorem foldl_of_meets {I : σ → Prop} (hstep : ∀ s e, ok s e → I s → I (step s e)) {s : σ} (h0 : I s)
    {es : List ε} (hes : Meets step ok s es) : I (es.foldl step s) := by
  induction es generalizing s with
  | nil => exact h0
  | cons e es ih => exact ih (hstep s e hes.1 h0) hes.2

theorem Meets.and {ok' : σ → ε → Prop} {s : σ} {es : List ε} (h : Meets step ok s es)
    (h' : Meets step ok' s es) : Meets step (fun s e => ok s e ∧ ok' s e) s es := by
  induction es generalizing s with
  | nil => trivial
  | cons e es ih => exact ⟨⟨h.1, h'.1⟩, ih h.2 h'.2⟩

end Machine

/-! ## Processes -/

/-- The shared state, and the state of each process. -/
@[ext]
structure World (ι σ π : Type*) where
  shared : σ
  procs : ι → π

namespace World

variable {ι σ π L : Type*} [DecidableEq ι]

/-- A process runs. -/
def step (prog : ι → L → σ × π → σ × π) (w : World ι σ π) (e : ι × L) : World ι σ π :=
  ⟨(prog e.1 e.2 (w.shared, w.procs e.1)).1,
    Function.update w.procs e.1 (prog e.1 e.2 (w.shared, w.procs e.1)).2⟩

def run (prog : ι → L → σ × π → σ × π) (w : World ι σ π) (es : List (ι × L)) : World ι σ π :=
  es.foldl (step prog) w

/-- Each step of a run meets the condition. -/
def Along (prog : ι → L → σ × π → σ × π) (ok : World ι σ π → ι × L → Prop) :
    World ι σ π → List (ι × L) → Prop
  | _, [] => True
  | w, e :: es => ok w e ∧ Along prog ok (w.step prog e) es

variable {prog : ι → L → σ × π → σ × π} {w : World ι σ π}

theorem step_eq {i : ι} {l : L} {s : σ} {p : π} (h : prog i l (w.shared, w.procs i) = (s, p)) :
    w.step prog (i, l) = ⟨s, Function.update w.procs i p⟩ := by
  unfold step
  dsimp only
  rw [h]

theorem step_eq_self {i : ι} {l : L} (h : prog i l (w.shared, w.procs i) = (w.shared, w.procs i)) :
    w.step prog (i, l) = w := by
  rw [step_eq h, Function.update_eq_self]

theorem step_self (e : ι × L) :
    (w.step prog e).procs e.1 = (prog e.1 e.2 (w.shared, w.procs e.1)).2 :=
  Function.update_self ..

theorem step_of_ne (e : ι × L) {j : ι} (h : j ≠ e.1) : (w.step prog e).procs j = w.procs j :=
  Function.update_of_ne h ..

/-- **Runs**: what each step keeps holds at the end. -/
theorem run_induction {ok : World ι σ π → ι × L → Prop} {I : World ι σ π → Prop}
    (hstep : ∀ w e, ok w e → I w → I (w.step prog e)) (h0 : I w) {es : List (ι × L)}
    (hes : Along prog ok w es) : I (w.run prog es) := by
  induction es generalizing w with
  | nil => exact h0
  | cons e es ih => exact ih (hstep w e hes.1 h0) hes.2

end World

end LinboxRescue
