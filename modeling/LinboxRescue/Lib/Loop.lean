import Mathlib.Tactic

/-!
# Loops that only write

A loop whose turns do nothing to a store but write items to it, and move on a state of their own that
does not depend on the store, writes the list `outputs` of all items. Nested loops are such loops
again, so that a whole nest becomes one list.
-/

namespace LinboxRescue

variable {α β γ σ : Type}

/-- The items that the turns write, from state `s` on. -/
def outputs (next : σ → β → σ) (write : σ → β → List γ) : σ → List β → List γ
  | _, [] => []
  | s, x :: xs => write s x ++ outputs next write (next s x) xs

theorem outputs_append (next : σ → β → σ) (write : σ → β → List γ) (xs ys : List β) : ∀ s,
    outputs next write s (xs ++ ys) =
      outputs next write s xs ++ outputs next write (xs.foldl next s) ys := by
  induction xs with
  | nil => exact fun _ => rfl
  | cons x xs ih =>
    intro s
    rw [List.cons_append, outputs, ih, outputs, List.append_assoc, List.foldl_cons]

/-- A loop of such turns writes the list. -/
theorem foldlM_outputs {set : α → γ → Option α} {next : σ → β → σ} {write : σ → β → List γ}
    {turn : α × σ → β → Option (α × σ)} {xs : List β}
    (h : ∀ x ∈ xs, ∀ a s, turn (a, s) x = ((write s x).foldlM set a).map (·, next s x)) :
    ∀ a s, xs.foldlM turn (a, s) =
      ((outputs next write s xs).foldlM set a).map (·, xs.foldl next s) := by
  induction xs with
  | nil => exact fun _ _ => rfl
  | cons x xs ih =>
    intro a s
    obtain ⟨hx, hxs⟩ := List.forall_mem_cons.mp h
    rw [List.foldlM_cons, hx, outputs, List.foldlM_append, List.foldl_cons]
    cases (write s x).foldlM set a with
    | none => rfl
    | some a' => exact ih hxs a' _

/-- Where a turn writes does not depend on the ones before it. -/
theorem outputs_eq_flatMap (next : σ → β → σ) (write : β → List γ) (xs : List β) : ∀ s,
    outputs next (fun _ x => write x) s xs = xs.flatMap write := by
  induction xs with
  | nil => exact fun _ => rfl
  | cons x xs ih =>
    intro s
    rw [outputs, ih, List.flatMap_cons]

/-- After `n + 1` turns of a counted loop. -/
theorem outputs_range_succ (next : σ → ℕ → σ) (write : σ → ℕ → List γ) (s : σ) (n : ℕ) :
    outputs next write s (List.range (n + 1)) = outputs next write s (List.range n) ++
      write ((List.range n).foldl next s) n := by
  rw [List.range_succ, outputs_append]
  show _ ++ (write _ n ++ []) = _
  rw [List.append_nil]

theorem foldl_range_succ (next : σ → ℕ → σ) (s : σ) (n : ℕ) :
    (List.range (n + 1)).foldl next s = next ((List.range n).foldl next s) n := by
  rw [List.range_succ, List.foldl_append]
  rfl

theorem foldlM_range_succ {m : Type → Type} [Monad m] [LawfulMonad m] (turn : σ → ℕ → m σ) (s : σ)
    (n : ℕ) : (List.range (n + 1)).foldlM turn s =
      (List.range n).foldlM turn s >>= fun s => turn s n := by
  rw [List.range_succ, List.foldlM_append]
  congr 1
  funext s
  rw [List.foldlM_cons]
  exact bind_pure _

/-- Turns that have no state of their own. -/
theorem foldlM_writes {m : Type → Type} [Monad m] [LawfulMonad m] {set : α → γ → m α}
    {write : β → List γ} {turn : α → β → m α} {xs : List β}
    (h : ∀ x ∈ xs, ∀ a, turn a x = (write x).foldlM set a) :
    ∀ a, xs.foldlM turn a = (xs.flatMap write).foldlM set a := by
  induction xs with
  | nil => exact fun _ => rfl
  | cons x xs ih =>
    intro a
    obtain ⟨hx, hxs⟩ := List.forall_mem_cons.mp h
    rw [List.foldlM_cons, List.flatMap_cons, List.foldlM_append, hx]
    congr 1
    funext a'
    exact ih hxs a'

end LinboxRescue
