import Mathlib.Data.Nat.Notation
import Mathlib.Logic.Function.Basic

/-!
# Programs that share a state

A program accesses a state that others change too, and asks for what comes from outside. An access
is atomic: it changes the state, and the rest of the program gets the state as it was found.

1. `Script.step`: one access, or one answer.
2. `Script.Safe R G Q p s`: if the others change the state within `R`, each access of `p` is within
   `G`, and `Q` holds at the end. `Safe.bind`, `Safe.access`, `Safe.ask`: one rule for each form.
3. `Safe.rely`, `Safe.step`: it holds for the rest of the program, after a change by others and
   after a step.
4. `Keeps I C A p B`: with an invariant `I` that the others keep too, while they make changes `C`:
   from `A`, the program keeps `I` and ends with `B`. Both are to be stable under `C`.
5. `Untouched others outs p`: the same for one schedule, in which the others are known and no access
   changes anything.
6. `Ends Q p`: the program runs alone, and `Q` holds at the end.
7. `Leads R p`: the program runs alone, and the state that it leaves is related to the one it found.
-/

namespace LinboxRescue

inductive Script (σ ω α : Type) : Type
  | done (a : α)
  | access (f : σ → σ) (k : σ → Script σ ω α)
  | ask (k : ω → Script σ ω α)

namespace Script

variable {σ ω α β : Type}

protected def bind : Script σ ω α → (α → Script σ ω β) → Script σ ω β
  | .done a, g => g a
  | .access f k, g => .access f fun s => (k s).bind g
  | .ask k, g => .ask fun o => (k o).bind g

instance : Monad (Script σ ω) where
  pure := .done
  bind := .bind

/-- The state as it is found. -/
def read : Script σ ω σ := .access id .done

def write (f : σ → σ) : Script σ ω Unit := .access f fun _ => .done ()

/-- What comes from outside. -/
def answer : Script σ ω ω := .ask .done

/-- One step of a program. -/
def step (o : ω) : σ × Script σ ω α → σ × Script σ ω α
  | (s, .done a) => (s, .done a)
  | (s, .access f k) => (f s, k s)
  | (s, .ask k) => (s, k o)

/-- The result, if the program is over. -/
def result? : Script σ ω α → Option α
  | .done a => some a
  | _ => none

/-! ## Rely and guarantee -/

/-- From the state `s` on. -/
def Safe (R G : σ → σ → Prop) (Q : α → σ → Prop) : Script σ ω α → σ → Prop
  | .done a, s => ∀ s', R s s' → Q a s'
  | .access f k, s => ∀ s', R s s' → G s' (f s') ∧ Safe R G Q (k s') (f s')
  | .ask k, s => ∀ o, Safe R G Q (k o) s

variable {R G : σ → σ → Prop} {Q : α → σ → Prop}

theorem Safe.pure {a : α} {s : σ} (h : ∀ s', R s s' → Q a s') :
    Safe R G Q (Pure.pure a : Script σ ω α) s := h

theorem Safe.access {f : σ → σ} {k : σ → Script σ ω α} {s : σ}
    (h : ∀ s', R s s' → G s' (f s') ∧ Safe R G Q (k s') (f s')) : Safe R G Q (.access f k) s := h

/-- What others do before the next step does not matter. -/
theorem Safe.rely (hR : ∀ a b c, R a b → R b c → R a c) {p : Script σ ω α} {s s' : σ}
    (hs : R s s') (h : Safe R G Q p s) : Safe R G Q p s' := by
  induction p with
  | done a => exact fun t ht => h t (hR _ _ _ hs ht)
  | access f k ih => exact fun t ht => h t (hR _ _ _ hs ht)
  | ask k ih => exact fun o => ih o (h o)

/-- **One step** of the program. -/
theorem Safe.step (hrefl : ∀ a, R a a) {p : Script σ ω α} {s : σ} (h : Safe R G Q p s) (o : ω) :
    ((step o (s, p)).1 = s ∨ G s (step o (s, p)).1) ∧ Safe R G Q (step o (s, p)).2 (step o (s, p)).1 := by
  cases p with
  | done a => exact ⟨.inl rfl, h⟩
  | access f k => exact ⟨.inr (h s (hrefl s)).1, (h s (hrefl s)).2⟩
  | ask k => exact ⟨.inl rfl, h o⟩

/-- **One program after the other**. -/
theorem Safe.bind (hrefl : ∀ a, R a a) {p : Script σ ω α} {g : α → Script σ ω β} {Q : β → σ → Prop}
    {s : σ} (h : Safe R G (fun a s => Safe R G Q (g a) s) p s) : Safe R G Q (p >>= g) s := by
  change Safe R G Q (Script.bind p g) s
  induction p generalizing s with
  | done a => exact h s (hrefl s)
  | access f k ih => exact fun t ht => ⟨(h t ht).1, ih t (h t ht).2⟩
  | ask k ih => exact fun o => ih o (h o)

theorem Safe.mono {Q' : α → σ → Prop} (hQ : ∀ a s, Q a s → Q' a s) {p : Script σ ω α} {s : σ}
    (h : Safe R G Q p s) : Safe R G Q' p s := by
  induction p generalizing s with
  | done a => exact fun t ht => hQ a t (h t ht)
  | access f k ih => exact fun t ht => ⟨(h t ht).1, ih t (h t ht).2⟩
  | ask k ih => exact fun o => ih o (h o)

/-! ## Invariants -/

section Keeps

variable {I : σ → Prop} {C : σ → σ → Prop}

/-- The others keep the invariant, and change the state within `C`. -/
def Rely (I : σ → Prop) (C : σ → σ → Prop) (s s' : σ) : Prop := I s → I s' ∧ C s s'

/-- An access keeps the invariant. -/
def Guarantee (I : σ → Prop) (s s' : σ) : Prop := I s → I s'

/-- A program that keeps the invariant. -/
def Keeps (I : σ → Prop) (C : σ → σ → Prop) (A : σ → Prop) (p : Script σ ω α) (B : α → σ → Prop) :
    Prop :=
  ∀ s, I s → A s → Safe (Rely I C) (Guarantee I) (fun a s => I s ∧ B a s) p s

/-- What the others do not change. -/
def Stable (I : σ → Prop) (C : σ → σ → Prop) (A : σ → Prop) : Prop :=
  ∀ s s', I s → I s' → C s s' → A s → A s'

theorem stable_true : Stable I C fun _ => True := fun _ _ _ _ _ _ => trivial

theorem Stable.and {A B : σ → Prop} (hA : Stable I C A) (hB : Stable I C B) :
    Stable I C fun s => A s ∧ B s := fun s s' h h' hc hs =>
  ⟨hA s s' h h' hc hs.1, hB s s' h h' hc hs.2⟩

theorem Stable.imp {A : σ → Prop} {c : Prop} (hA : Stable I C A) : Stable I C fun s => c → A s :=
  fun s s' h h' hc hs hp => hA s s' h h' hc (hs hp)

theorem rely_refl (hC : ∀ s, C s s) (s : σ) : Rely I C s s := fun h => ⟨h, hC s⟩

theorem rely_trans (hC : ∀ a b c, C a b → C b c → C a c) (a b c : σ) (h : Rely I C a b)
    (h' : Rely I C b c) : Rely I C a c := fun ha =>
  ⟨(h' (h ha).1).1, hC a b c (h ha).2 (h' (h ha).1).2⟩

variable {A : σ → Prop}

theorem Keeps.pure {a : α} {B : α → σ → Prop} (hB : Stable I C (B a)) (h : ∀ s, I s → A s → B a s) :
    Keeps I C A (Pure.pure a : Script σ ω α) B := by
  intro s hs hA s' hr
  obtain ⟨hs', hc⟩ := hr hs
  exact ⟨hs', hB s s' hs hs' hc (h s hs hA)⟩

theorem Keeps.bind (hC : ∀ s, C s s) {p : Script σ ω α} {g : α → Script σ ω β} {B : α → σ → Prop}
    {D : β → σ → Prop} (hp : Keeps I C A p B) (hg : ∀ a, Keeps I C (B a) (g a) D) :
    Keeps I C A (p >>= g) D := fun s hs hA =>
  Safe.bind (rely_refl hC) ((hp s hs hA).mono fun a t ht => hg a t ht.1 ht.2)

theorem Keeps.weaken (D : σ → Prop) {p : Script σ ω α} {B : α → σ → Prop} (hp : Keeps I C D p B)
    (h : ∀ s, I s → A s → D s) : Keeps I C A p B := fun s hs hA => hp s hs (h s hs hA)

theorem Keeps.write {f : σ → σ} {B : σ → Prop} (hA : Stable I C A) (hB : Stable I C B)
    (h : ∀ s, I s → A s → I (f s) ∧ B (f s)) :
    Keeps I C A (Script.write f : Script σ ω Unit) fun _ => B := by
  intro s hs hAs
  refine Safe.access fun s' hr => ⟨fun hs' => (h s' hs' (hA s s' hs hs' (hr hs).2 hAs)).1, fun t ht => ?_⟩
  obtain ⟨hs', hc⟩ := hr hs
  obtain ⟨hf, hb⟩ := h s' hs' (hA s s' hs hs' hc hAs)
  obtain ⟨ht', hc'⟩ := ht hf
  exact ⟨ht', hB _ t hf ht' hc' hb⟩

/-- What was read is still true if it is stable. -/
theorem Keeps.read {B : σ → σ → Prop} (hA : Stable I C A) (hB : ∀ r, Stable I C (B r))
    (h : ∀ s, I s → A s → B s s) : Keeps I C A (Script.read : Script σ ω σ) B := by
  intro s hs hAs
  refine Safe.access fun s' hr => ⟨id, fun t ht => ?_⟩
  obtain ⟨hs', hc⟩ := hr hs
  obtain ⟨ht', hc'⟩ := ht hs'
  exact ⟨ht', hB s' s' t hs' ht' hc' (h s' hs' (hA s s' hs hs' hc hAs))⟩

theorem Keeps.answer (hA : Stable I C A) :
    Keeps I C A (Script.answer : Script σ ω ω) fun _ => A := by
  intro s hs hAs o s' hr
  obtain ⟨hs', hc⟩ := hr hs
  exact ⟨hs', hA s s' hs hs' hc hAs⟩

theorem Keeps.ite {c : Prop} [Decidable c] {p q : Script σ ω α} {B : α → σ → Prop}
    (hp : c → Keeps I C A p B) (hq : ¬c → Keeps I C A q B) : Keeps I C A (if c then p else q) B := by
  by_cases h : c
  · rw [if_pos h]
    exact hp h
  · rw [if_neg h]
    exact hq h

end Keeps

/-! ## One schedule -/

section Schedule

variable (others : ℕ → σ → σ) (outs : ℕ → ω)

/-- No access changes the state. The others change it before each one; `m` accesses and `n` answers
are over. -/
def Untouched : Script σ ω α → ℕ → ℕ → σ → Prop
  | .done _, _, _, _ => True
  | .access f k, m, n, s =>
    f (others m s) = others m s ∧ Untouched (k (others m s)) (m + 1) n (f (others m s))
  | .ask k, m, n, s => Untouched (k (outs n)) m (n + 1) s

/-- What comes after does not matter if it changes nothing. -/
theorem untouched_bind {g : α → Script σ ω β} (hg : ∀ a m n s, Untouched others outs (g a) m n s)
    (p : Script σ ω α) (m n : ℕ) (s : σ) :
    Untouched others outs (p >>= g) m n s ↔ Untouched others outs p m n s := by
  induction p generalizing m n s with
  | done a => exact ⟨fun _ => trivial, fun _ => hg a m n s⟩
  | access f k ih => exact and_congr_right fun _ => ih _ _ _ _
  | ask k ih => exact ih _ _ _ _

/-- The states that are found, if the program changes nothing. -/
def found (s : σ) : ℕ → σ
  | 0 => others 0 s
  | n + 1 => others (n + 1) (found s n)

end Schedule

/-! ## Alone -/

section Alone

/-- The result and the state at the end, when no other program runs; `n` answers are over. -/
def alone (outs : ℕ → ω) : Script σ ω α → ℕ → σ → α × σ
  | .done a, _, s => (a, s)
  | .access f k, n, s => (k s).alone outs n (f s)
  | .ask k, n, s => (k (outs n)).alone outs (n + 1) s

/-- How a program ends that runs alone. -/
def Ends (Q : α → σ → Prop) (p : Script σ ω α) (s : σ) : Prop := Safe Eq (fun _ _ => True) Q p s

variable {s : σ}

theorem Ends.alone {p : Script σ ω α} (h : Ends Q p s) (outs : ℕ → ω) (n : ℕ) :
    Q (p.alone outs n s).1 (p.alone outs n s).2 := by
  induction p generalizing n s with
  | done a => exact h s rfl
  | access f k ih => exact ih s (h s rfl).2 n
  | ask k ih => exact ih (outs n) (h (outs n)) (n + 1)

theorem Ends.pure {a : α} (h : Q a s) : Ends Q (Pure.pure a : Script σ ω α) s := by
  rintro _ rfl
  exact h

theorem Ends.bind {p : Script σ ω α} {g : α → Script σ ω β} {Q : β → σ → Prop}
    (h : Ends (fun a s => Ends Q (g a) s) p s) : Ends Q (p >>= g) s := Safe.bind Eq.refl h

theorem Ends.mono {Q' : α → σ → Prop} {p : Script σ ω α} (h : Ends Q p s) (hQ : ∀ a s, Q a s → Q' a s) :
    Ends Q' p s := Safe.mono hQ h

theorem Ends.write {f : σ → σ} {g : Unit → Script σ ω α} (h : Ends Q (g ()) (f s)) :
    Ends Q (Script.write f >>= g) s := by
  rintro _ rfl
  exact ⟨trivial, h⟩

theorem Ends.answer {g : ω → Script σ ω α} (h : ∀ o, Ends Q (g o) s) :
    Ends Q (Script.answer >>= g) s := h

theorem Ends.ite {c : Prop} [Decidable c] {p q : Script σ ω α} (hp : c → Ends Q p s)
    (hq : ¬c → Ends Q q s) : Ends Q (if c then p else q) s := by
  by_cases h : c
  · rw [if_pos h]
    exact hp h
  · rw [if_neg h]
    exact hq h

/-- One program after the other: some answers are over when the second one begins. -/
theorem alone_bind (outs : ℕ → ω) (p : Script σ ω α) (g : α → Script σ ω β) (n : ℕ) (s : σ) :
    ∃ m, (p >>= g).alone outs n s = (g (p.alone outs n s).1).alone outs m (p.alone outs n s).2 := by
  induction p generalizing n s with
  | done a => exact ⟨n, rfl⟩
  | access f k ih => exact ih s n (f s)
  | ask k ih => exact ih (outs n) (n + 1) s

end Alone

/-! ## What a program leaves -/

section Leads

variable {R : σ → σ → Prop}

/-- From each state, the program ends in one that is related to it. -/
def Leads (R : σ → σ → Prop) (p : Script σ ω α) : Prop := ∀ s, Ends (fun _ => R s) p s

theorem Leads.pure (hR : ∀ s, R s s) (a : α) : Leads R (Pure.pure a : Script σ ω α) := fun s =>
  Ends.pure (hR s)

theorem Leads.bind (hR : ∀ a b c, R a b → R b c → R a c) {p : Script σ ω α} {g : α → Script σ ω β}
    (hp : Leads R p) (hg : ∀ a, Leads R (g a)) : Leads R (p >>= g) := fun s =>
  Ends.bind ((hp s).mono fun a t ht => (hg a t).mono fun _ u hu => hR s t u ht hu)

theorem Leads.ite {c : Prop} [Decidable c] {p q : Script σ ω α} (hp : Leads R p) (hq : Leads R q) :
    Leads R (if c then p else q) := fun s => Ends.ite (fun _ => hp s) fun _ => hq s

theorem Leads.write {f : σ → σ} (h : ∀ s, R s (f s)) : Leads R (Script.write f : Script σ ω Unit) := by
  rintro s _ rfl
  exact ⟨trivial, Ends.pure (h s)⟩

theorem Leads.answer (hR : ∀ s, R s s) : Leads R (Script.answer : Script σ ω ω) := fun s _ =>
  Ends.pure (hR s)

end Leads

end Script

end LinboxRescue
