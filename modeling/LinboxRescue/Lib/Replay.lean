import Mathlib.Tactic

/-!
# Replaying a log of writes

A log is a list of addresses with what was written there. `replay` writes it onto a memory, so that a
cell ends with the last value written to it, and with its old one when none was.
-/

namespace LinboxRescue

variable {α β : Type} [DecidableEq α]

/-- The memory after the writes of a log. -/
def replay (cells : α → β) (log : List (α × β)) : α → β :=
  log.foldl (fun cells r => Function.update cells r.1 r.2) cells

@[simp] theorem replay_nil (cells : α → β) : replay cells [] = cells := rfl

theorem replay_cons (cells : α → β) (r : α × β) (log : List (α × β)) :
    replay cells (r :: log) = replay (Function.update cells r.1 r.2) log := rfl

/-- A cell that no write addresses keeps its value. -/
theorem replay_of_not_mem {log : List (α × β)} {q : α} (hq : q ∉ log.map Prod.fst) :
    ∀ cells : α → β, replay cells log q = cells q := by
  induction log with
  | nil => exact fun _ => rfl
  | cons r log ih =>
    intro cells
    rw [List.map_cons, List.mem_cons, not_or] at hq
    rw [replay_cons, ih hq.2, Function.update_of_ne hq.1]

/-- A cell that is addressed, always with the same value, ends with this value. -/
theorem replay_of_mem {log : List (α × β)} {q : α} {v : β} (hv : ∀ r ∈ log, r.1 = q → r.2 = v)
    (hq : q ∈ log.map Prod.fst) : ∀ cells : α → β, replay cells log q = v := by
  induction log with
  | nil => exact absurd hq List.not_mem_nil
  | cons r log ih =>
    intro cells
    obtain ⟨hr, hlog⟩ := List.forall_mem_cons.mp hv
    rw [replay_cons]
    by_cases hmem : q ∈ log.map Prod.fst
    · exact ih hlog hmem _
    · have hrq : q = r.1 := (List.mem_cons.mp hq).resolve_right hmem
      rw [replay_of_not_mem hmem, hrq, Function.update_self, hr hrq.symm]

end LinboxRescue
