import Mathlib.Data.Set.Lattice
import LinboxRescue.Lib.Fuel

/-!
# Copying parts of a memory

A step that copies the cells of a set from one memory to another and leaves the others alone. Steps of
this kind compose: a run copies the union of their sets, whatever their order and however much the
sets overlap, since all of them copy from the same memory.
-/

namespace LinboxRescue

section Copies

variable {ι α : Type*}

/-- `T'` is `T` with the cells of `S` taken from `D`. -/
structure Copies (S : Set ι) (D T T' : ι → α) : Prop where
  copied : ∀ q ∈ S, T' q = D q
  kept : ∀ q ∉ S, T' q = T q

variable {S S' : Set ι} {D T T' T'' : ι → α}

theorem Copies.refl (D T : ι → α) : Copies ∅ D T T :=
  ⟨fun _ h => absurd h (Set.notMem_empty _), fun _ _ => rfl⟩

/-- Cells that are copied twice have the same value both times. -/
theorem Copies.trans (h : Copies S D T T') (h' : Copies S' D T' T'') : Copies (S ∪ S') D T T'' := by
  constructor
  · intro q hq
    by_cases hq' : q ∈ S'
    · exact h'.copied q hq'
    · rw [h'.kept q hq', h.copied q (hq.resolve_right hq')]
  · intro q hq
    rw [Set.mem_union, not_or] at hq
    rw [h'.kept q hq.2, h.kept q hq.1]

end Copies

/-! ## Runs -/

section Run

variable {ι α : Type*} {σ β ε : Type}

/-- The steps `turn`, numbered from `k` on. -/
def runFrom (turn : ℕ → σ → β → Except ε σ) : ℕ → σ → List β → Except ε σ
  | _, s, [] => .ok s
  | k, s, b :: bs => turn k s b >>= fun s => runFrom turn (k + 1) s bs

variable (cells : σ → ι → α) (inv : σ → Prop) {D : ι → α} {S : β → Set ι}

/-- **A run of copying steps** copies what any of them copies. -/
theorem runFrom_copies {turn : ℕ → ℕ → σ → β → Except ε σ} {bs : List β}
    (hstep : ∀ b ∈ bs, ∀ k s, inv s → ∃ s', Returns (fun fuel => turn fuel k s b) s' ∧ inv s' ∧
      Copies (S b) D (cells s) (cells s')) : ∀ (k : ℕ) (s : σ), inv s →
    ∃ s', Returns (fun fuel => runFrom (turn fuel) k s bs) s' ∧ inv s' ∧
      Copies {q | ∃ b ∈ bs, q ∈ S b} D (cells s) (cells s') := by
  induction bs with
  | nil =>
    intro k s hs
    refine ⟨s, Returns.pure s, hs, ?_⟩
    have hempty : {q : ι | ∃ b ∈ ([] : List β), q ∈ S b} = ∅ := by
      ext q
      simp
    rw [hempty]
    exact Copies.refl D _
  | cons b bs ih =>
    intro k s hs
    obtain ⟨hb, hbs⟩ := List.forall_mem_cons.mp hstep
    obtain ⟨s₁, hret, hs₁, hcopy⟩ := hb k s hs
    obtain ⟨s', hret', hs', hcopy'⟩ := ih hbs (k + 1) s₁ hs₁
    refine ⟨s', hret.bind hret', hs', ?_⟩
    have hunion : {q | ∃ b' ∈ b :: bs, q ∈ S b'} = S b ∪ {q | ∃ b' ∈ bs, q ∈ S b'} := by
      ext q
      simp
    rw [hunion]
    exact hcopy.trans hcopy'

end Run

end LinboxRescue
