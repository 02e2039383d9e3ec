import Mathlib.Tactic

/-!
# Results that do not depend on the fuel

A loop that the source does not bound is modelled with a number of steps it may take. `Returns f a`
says that the loop ends by itself: with enough fuel, and with any amount beyond that, the result is
`a`.
-/

namespace LinboxRescue

variable {ε α β : Type}

/-- With enough fuel the result is `a`. -/
def Returns (f : ℕ → Except ε α) (a : α) : Prop := ∃ n, ∀ fuel, n ≤ fuel → f fuel = .ok a

theorem Returns.pure (a : α) : Returns (fun _ => (.ok a : Except ε α)) a := ⟨0, fun _ _ => rfl⟩

/-- A result is unique. -/
theorem Returns.unique {f : ℕ → Except ε α} {a b : α} (ha : Returns f a) (hb : Returns f b) :
    a = b := by
  obtain ⟨n, hn⟩ := ha
  obtain ⟨k, hk⟩ := hb
  have h := (hn (max n k) (le_max_left _ _)).symm.trans (hk (max n k) (le_max_right _ _))
  exact Except.ok.inj h

theorem Returns.bind {f : ℕ → Except ε α} {g : ℕ → α → Except ε β} {a : α} {b : β}
    (hf : Returns f a) (hg : Returns (fun fuel => g fuel a) b) :
    Returns (fun fuel => f fuel >>= g fuel) b := by
  obtain ⟨n, hn⟩ := hf
  obtain ⟨k, hk⟩ := hg
  refine ⟨max n k, fun fuel h => ?_⟩
  show (f fuel >>= g fuel) = _
  rw [hn fuel (le_trans (le_max_left _ _) h)]
  exact hk fuel (le_trans (le_max_right _ _) h)

/-- One step of a loop. -/
theorem Returns.step {f g : ℕ → Except ε α} {a : α} (h : ∀ fuel, f (fuel + 1) = g fuel)
    (hg : Returns g a) : Returns f a := by
  obtain ⟨n, hn⟩ := hg
  refine ⟨n + 1, fun fuel hf => ?_⟩
  obtain ⟨k, rfl⟩ : ∃ k, fuel = k + 1 := ⟨fuel - 1, by omega⟩
  rw [h, hn k (by omega)]

/-- The last step of a loop. -/
theorem Returns.last {f : ℕ → Except ε α} {a : α} (h : ∀ fuel, f (fuel + 1) = .ok a) :
    Returns f a :=
  Returns.step (g := fun _ => .ok a) h (Returns.pure a)

theorem Returns.congr {f g : ℕ → Except ε α} {a : α} (h : ∀ fuel, f fuel = g fuel)
    (hg : Returns g a) : Returns f a := by
  obtain ⟨n, hn⟩ := hg
  exact ⟨n, fun fuel hf => (h fuel).trans (hn fuel hf)⟩

/-- With enough fuel the run ends with the error `e`. -/
def Stops (f : ℕ → Except ε α) (e : ε) : Prop := ∃ n, ∀ fuel, n ≤ fuel → f fuel = .error e

theorem Stops.not_returns {f : ℕ → Except ε α} {e : ε} (h : Stops f e) (a : α) : ¬ Returns f a := by
  rintro ⟨k, hk⟩
  obtain ⟨n, hn⟩ := h
  have := (hn (max n k) (le_max_left _ _)).symm.trans (hk (max n k) (le_max_right _ _))
  cases this

theorem Stops.bind {f : ℕ → Except ε α} {e : ε} (h : Stops f e) (g : ℕ → α → Except ε β) :
    Stops (fun fuel => f fuel >>= g fuel) e := by
  obtain ⟨n, hn⟩ := h
  exact ⟨n, fun fuel hf => by show (f fuel >>= g fuel) = _; rw [hn fuel hf]; rfl⟩

/-- The run `f` goes on as `g`. -/
def Leads (f g : ℕ → Except ε α) : Prop := ∃ n d, ∀ fuel, n ≤ fuel → f (fuel + d) = g fuel

theorem Leads.refl (f : ℕ → Except ε α) : Leads f f := ⟨0, 0, fun _ _ => rfl⟩

theorem Leads.trans {f g h : ℕ → Except ε α} (hfg : Leads f g) (hgh : Leads g h) : Leads f h := by
  obtain ⟨n, d, hn⟩ := hfg
  obtain ⟨k, e, hk⟩ := hgh
  refine ⟨max n k, e + d, fun fuel hf => ?_⟩
  rw [← Nat.add_assoc, hn _ (by omega), hk _ (by omega)]

theorem Leads.step {f g : ℕ → Except ε α} (h : ∀ fuel, f (fuel + 1) = g fuel) : Leads f g :=
  ⟨0, 1, fun fuel _ => h fuel⟩

theorem Leads.bind {f : ℕ → Except ε α} {g : ℕ → α → Except ε β} {a : α} (hf : Returns f a) :
    Leads (fun fuel => f fuel >>= g fuel) fun fuel => g fuel a := by
  obtain ⟨n, hn⟩ := hf
  refine ⟨n, 0, fun fuel h => ?_⟩
  show (f fuel >>= g fuel) = _
  rw [hn fuel h]
  rfl

theorem Leads.congr {f g h : ℕ → Except ε α} (hfg : Leads f g) (hgh : ∀ fuel, g fuel = h fuel) :
    Leads f h := by
  rwa [← funext hgh]

theorem Leads.returns {f g : ℕ → Except ε α} (h : Leads f g) {a : α} (hg : Returns g a) :
    Returns f a := by
  obtain ⟨n, d, hn⟩ := h
  obtain ⟨k, hk⟩ := hg
  refine ⟨max n k + d, fun fuel hf => ?_⟩
  rw [show fuel = fuel - d + d by omega, hn _ (by omega), hk _ (by omega)]

theorem Leads.stops {f g : ℕ → Except ε α} (h : Leads f g) {e : ε} (hg : Stops g e) : Stops f e := by
  obtain ⟨n, d, hn⟩ := h
  obtain ⟨k, hk⟩ := hg
  refine ⟨max n k + d, fun fuel hf => ?_⟩
  rw [show fuel = fuel - d + d by omega, hn _ (by omega), hk _ (by omega)]

theorem ok_bind (a : α) (f : α → Except ε β) : (.ok a >>= f) = f a := rfl

theorem map_ok (f : α → β) (a : α) : (.ok a : Except ε α).map f = .ok (f a) := rfl

/-- What a bind that ends well went through. -/
theorem bind_eq_ok {x : Except ε α} {f : α → Except ε β} {b : β} (h : (x >>= f) = .ok b) :
    ∃ a, x = .ok a ∧ f a = .ok b := by
  cases x with
  | error e => cases h
  | ok a => exact ⟨a, rfl, h⟩

/-- A loop that has a result has one in every turn. -/
theorem foldlM_eq_ok {turn : α → β → Except ε α} {xs : List β} : ∀ {a b : α},
    xs.foldlM turn a = .ok b → ∀ x ∈ xs, ∃ a' b', turn a' x = .ok b' := by
  induction xs with
  | nil => exact fun _ _ hx => absurd hx List.not_mem_nil
  | cons y ys ih =>
    intro a b h
    rw [List.foldlM_cons] at h
    obtain ⟨a1, h1, h2⟩ := bind_eq_ok h
    exact List.forall_mem_cons.mpr ⟨⟨a, a1, h1⟩, ih h2⟩

/-- A bind keeps its result when its second part does. -/
theorem bind_ok_mono {x : Except ε α} {f g : α → Except ε β} {b : β} (h : (x >>= f) = .ok b)
    (hfg : ∀ a, f a = .ok b → g a = .ok b) : (x >>= g) = .ok b := by
  obtain ⟨a, rfl, h⟩ := bind_eq_ok h
  exact hfg a h

/-- More fuel does not change a result. -/
def Steady (f : ℕ → Except ε α) : Prop := ∀ fuel a, f fuel = .ok a → f (fuel + 1) = .ok a

theorem Steady.returns {f : ℕ → Except ε α} (hf : Steady f) {n : ℕ} {a : α} (h : f n = .ok a) :
    Returns f a := by
  refine ⟨n, fun fuel hn => ?_⟩
  induction fuel, hn using Nat.le_induction with
  | base => exact h
  | succ k _ ih => exact hf k a ih

theorem Steady.bind {f : ℕ → Except ε α} (hf : Steady f) (g : α → Except ε β) :
    Steady fun fuel => f fuel >>= g := by
  intro fuel b h
  obtain ⟨a, hx, h⟩ := bind_eq_ok h
  simp only [hf fuel a hx]
  exact h

end LinboxRescue
