import LinboxRescue.Server.Lrsd

/-!
# The start barrier of the multicast transfers

Clients that restore the same image ask the daemon how long to wait before each file, so that they
all start together. The answers come from two static variables (`Barrier.wait`).

1. `window`: which file is the highest one asked for, and since when, from the requests alone.
2. `after_eq`: the static variables follow it, and the answers can be read off it (`wait_window`).
3. `Synchronised`: what the answers are for. It holds of a run exactly when no timeout is out of
   range and no client asks while the first client of the session is still held back for the extra
   ten seconds, which the others are not told about.
-/

namespace LinboxRescue

/-- A `T` request: the clock counts the seconds since the Epoch and is not about to run out of its 31
bits, the timeout is an `int`. -/
structure Request where
  now : ℕ
  file : ℕ
  timeout : ℤ
  now_pos : 0 < now
  now_lt : now + 10 ≤ 2 ^ 31
  timeout_ge : -2 ^ 31 ≤ timeout
  timeout_lt : timeout < 2 ^ 31
  deriving DecidableEq

variable {b : Barrier} {r o : Request}

/-- The answer to a request. -/
def Barrier.answer (b : Barrier) (r : Request) : ℤ := (b.wait r.now r.file r.timeout).1

def Barrier.next (b : Barrier) (r : Request) : Barrier := (b.wait r.now r.file r.timeout).2

/-- The static variables after some requests. -/
def Barrier.after (b : Barrier) (rs : List Request) : Barrier := rs.foldl Barrier.next b

/-- The requests with their answers. -/
def Barrier.answers : Barrier → List Request → List (Request × ℤ)
  | _, [] => []
  | b, r :: rs => (r, b.answer r) :: (b.next r).answers rs

/-- The variables when the daemon starts, and after a restoration was completed. -/
def Barrier.start : Barrier := ⟨0, 0⟩

/-! ## Windows -/

/-- The highest file asked for, and when it was first asked for. -/
structure Window where
  file : ℕ
  opened : ℕ
  deriving DecidableEq, Repr

/-- The window that is still open at a time. -/
def live (w : Option Window) (now : ℕ) : Option Window := w.filter fun v => now ≤ v.opened + 3600

/-- A higher file opens a window of its own, as does any file once the last window is over. -/
def Window.ask (w : Option Window) (r : Request) : Option Window :=
  match live w r.now with
  | none => some ⟨r.file, r.now⟩
  | some v => if v.file < r.file then some ⟨r.file, r.now⟩ else some v

def window (hs : List Request) : Option Window := hs.foldl Window.ask none

/-- The static variables of a window. The file number 0 is never remembered. -/
def Window.code : Option Window → Barrier
  | none => ⟨0, 0⟩
  | some v => if v.file = 0 then ⟨0, 0⟩ else ⟨v.file, v.opened⟩

theorem live_some {v : Window} {now : ℕ} (h : now ≤ v.opened + 3600) : live (some v) now = some v := by
  simp [live, h]

theorem live_over {v : Window} {now : ℕ} (h : v.opened + 3600 < now) : live (some v) now = none := by
  simp [live, h]

theorem code_zero {v : Window} (h : v.file = 0) : Window.code (some v) = ⟨0, 0⟩ := if_pos h

theorem code_pos {v : Window} (h : v.file ≠ 0) : Window.code (some v) = ⟨v.file, v.opened⟩ := if_neg h

/-- The window was opened before `now`. -/
def Before (w : Option Window) (now : ℕ) : Prop := ∀ v ∈ w, v.opened ≤ now

theorem Before.live {w : Option Window} {now : ℕ} (h : Before w now) : Before (live w now) now := by
  intro v hv
  exact h v (Option.mem_filter_iff.mp hv).1

theorem Before.ask {w : Option Window} (h : Before w r.now) : Before (Window.ask w r) r.now := by
  intro v hv
  unfold Window.ask at hv
  split at hv
  · obtain rfl := Option.some.inj hv
    exact le_rfl
  · rename_i u hu
    split_ifs at hv
    · obtain rfl := Option.some.inj hv
      exact le_rfl
    · obtain rfl := Option.some.inj hv
      exact h.live _ hu

theorem Before.mono {w : Option Window} {s t : ℕ} (h : Before w s) (hst : s ≤ t) : Before w t :=
  fun v hv => le_trans (h v hv) hst

/-- The reset of the static variables. -/
theorem code_live {w : Option Window} {now : ℕ} (h : Before w now) (hnow : now < 2 ^ 31) :
    (if 3600 < ((now : ℤ) - (Window.code w).lasttime) % 2 ^ 32 then ⟨0, 0⟩ else Window.code w) =
      Window.code (live w now) := by
  cases w with
  | none => simp [Window.code, live]
  | some v =>
    have hv : v.opened ≤ now := h v rfl
    rcases Nat.lt_or_ge (v.opened + 3600) now with hl | hl
    · rw [live_over hl]
      by_cases hf : v.file = 0
      · rw [code_zero hf, ite_self]
        rfl
      · have hmod : ((now : ℤ) - (v.opened : ℕ)) % 2 ^ 32 = now - v.opened := by omega
        rw [code_pos hf]
        simp only [hmod]
        rw [if_pos (by omega)]
        rfl
    · rw [live_some hl]
      by_cases hf : v.file = 0
      · rw [code_zero hf, ite_self]
      · have hmod : ((now : ℤ) - (v.opened : ℕ)) % 2 ^ 32 = now - v.opened := by omega
        rw [code_pos hf]
        simp only [hmod]
        rw [if_neg (by omega)]

/-- The answer to a request, from the window it comes in. -/
theorem wait_window {w : Option Window} (h : Before w r.now) :
    (Window.code w).wait r.now r.file r.timeout =
      (let c := Window.code (live w r.now)
       if r.file = c.lastfile then
         (max 0 (wrapInt (r.timeout + (c.lasttime - r.now))), c)
       else if r.file < c.lastfile then (0, c)
       else (wrapInt (if c.lasttime = 0 then r.timeout + 10 else r.timeout), ⟨r.file, r.now⟩)) := by
  have hnow : r.now % 2 ^ 32 = r.now := Nat.mod_eq_of_lt (by have := r.now_lt; omega)
  unfold Barrier.wait
  rw [code_live h (by have := r.now_lt; omega)]
  simp only [hnow]
  split_ifs
  · congr 1
    omega
  · congr 1
    omega
  all_goals rfl

theorem next_code {w : Option Window} (h : Before w r.now) :
    (Window.code w).next r = Window.code (Window.ask w r) := by
  unfold Barrier.next Window.ask
  rw [wait_window h]
  cases hl : live w r.now with
  | none =>
    by_cases hf : r.file = 0 <;> simp [Window.code, hf]
  | some v =>
    by_cases hv : v.file = 0
    · by_cases hf : r.file = 0
      · simp [Window.code, hv, hf]
      · simp [Window.code, hv, hf, Nat.pos_of_ne_zero hf]
    · rw [code_pos hv]
      dsimp only
      split_ifs with h1 h2 h3 h4
      all_goals first
        | omega
        | exact (code_pos hv).symm
        | exact (code_pos (v := ⟨r.file, r.now⟩) (show r.file ≠ 0 by omega)).symm

/-- The times of a run do not decrease. -/
def Timed (hs : List Request) : Prop := hs.Pairwise fun r s => r.now ≤ s.now

theorem before_window {hs : List Request} : ∀ {t : ℕ}, (∀ r ∈ hs, r.now ≤ t) → Timed hs →
    Before (window hs) t := by
  induction hs using List.reverseRecOn with
  | nil => intro t _ _ v hv; cases hv
  | append_singleton hs r ih =>
    intro t ht hs'
    unfold window
    rw [List.foldl_append]
    obtain ⟨h1, -, h2⟩ := List.pairwise_append.mp hs'
    have : Before (window hs) r.now := ih (fun s hs => h2 s hs r (by simp)) h1
    exact (Before.ask this).mono (ht r (by simp))

/-- **The static variables follow the window.** -/
theorem after_eq {hs : List Request} : Timed hs → Barrier.start.after hs = Window.code (window hs) := by
  induction hs using List.reverseRecOn with
  | nil => intro _; rfl
  | append_singleton hs r ih =>
    intro hs'
    obtain ⟨h1, -, h2⟩ := List.pairwise_append.mp hs'
    unfold Barrier.after window at *
    rw [List.foldl_append, List.foldl_append, ih h1]
    exact next_code (before_window (fun s hs => h2 s hs r (by simp)) h1)

/-! ## Answers -/

/-- The request opens the first barrier of a session: nothing else is remembered. -/
def Extended (w : Option Window) (r : Request) : Prop :=
  r.file ≠ 0 ∧ ∀ v ∈ live w r.now, v.file = 0

/-- The request is for a higher file than the one remembered. -/
def Raises (w : Option Window) (r : Request) : Prop :=
  ∃ v ∈ live w r.now, v.file ≠ 0 ∧ v.file < r.file

/-- The timeout is one that the code can deal with: it is not below -10, and where a barrier is
opened the answer is an `int` that is not negative. -/
def InRange (w : Option Window) (r : Request) : Prop :=
  -10 ≤ r.timeout ∧ (Extended w r → r.timeout ≤ 2 ^ 31 - 11) ∧ (Raises w r → 0 ≤ r.timeout)

/-- The three kinds of requests. -/
inductive Asks (w : Option Window) (r : Request) : Prop
  | first (h : Extended w r)
  | higher (h : Raises w r)
  | lower (v : Window) (hv : v ∈ live w r.now) (h : r.file < v.file)
  | same (h : (Window.code (live w r.now)).lastfile = r.file)

theorem asks (w : Option Window) (r : Request) : Asks w r := by
  cases hl : live w r.now with
  | none =>
    by_cases hf : r.file = 0
    · exact .same (by rw [hl, hf]; rfl)
    · exact .first ⟨hf, fun v hv => by rw [hl] at hv; cases hv⟩
  | some v =>
    by_cases hv : v.file = 0
    · by_cases hf : r.file = 0
      · exact .same (by rw [hl, code_zero hv, hf])
      · refine .first ⟨hf, fun u hu => ?_⟩
        rw [hl] at hu
        obtain rfl := Option.some.inj hu
        exact hv
    · rcases lt_trichotomy r.file v.file with hlt | heq | hgt
      · exact .lower v hl hlt
      · exact .same (by rw [hl, code_pos hv, heq])
      · exact .higher ⟨v, hl, hv, hgt⟩

theorem code_live_of_extended {w : Option Window} (h : Extended w r) :
    Window.code (live w r.now) = ⟨0, 0⟩ := by
  cases hl : live w r.now with
  | none => rfl
  | some v => exact code_zero (h.2 v hl)

theorem answer_first {w : Option Window} (hw : Before w r.now) (h : Extended w r) :
    (Window.code w).answer r = wrapInt (r.timeout + 10) := by
  unfold Barrier.answer
  rw [wait_window hw, code_live_of_extended h]
  simp [h.1]

theorem answer_higher {w : Option Window} (hw : Before w r.now) (h : Raises w r)
    (hopen : ∀ v ∈ w, 0 < v.opened) : (Window.code w).answer r = r.timeout := by
  obtain ⟨v, hv, hf, hlt⟩ := h
  have hpos : v.opened ≠ 0 := (hopen v (Option.mem_filter_iff.mp hv).1).ne'
  unfold Barrier.answer
  rw [wait_window hw, show live w r.now = some v from hv, code_pos hf]
  simp only [hpos, if_false]
  rw [if_neg hlt.ne', if_neg (by omega), wrapInt_of_range r.timeout_ge r.timeout_lt]

theorem answer_lower {w : Option Window} (hw : Before w r.now) {v : Window}
    (hv : v ∈ live w r.now) (h : r.file < v.file) : (Window.code w).answer r = 0 := by
  unfold Barrier.answer
  rw [wait_window hw, show live w r.now = some v from hv, code_pos (by omega)]
  simp only []
  rw [if_neg h.ne, if_pos h]

theorem lasttime_le {w : Option Window} (hw : Before w r.now) :
    (Window.code (live w r.now)).lasttime ≤ r.now := by
  cases hl : live w r.now with
  | none => exact Nat.zero_le _
  | some v =>
    by_cases hv : v.file = 0
    · rw [code_zero hv]; exact Nat.zero_le _
    · rw [code_pos hv]; exact hw.live v hl

/-- Clients that ask for the same file are told the time that is left. -/
theorem answer_same {w : Option Window} (hw : Before w r.now) (ht : -10 ≤ r.timeout)
    (h : (Window.code (live w r.now)).lastfile = r.file) : (Window.code w).answer r =
      max 0 (r.timeout + (Window.code (live w r.now)).lasttime - r.now) := by
  have hle : (Window.code (live w r.now)).lasttime ≤ r.now := lasttime_le hw
  have h1 := r.now_lt
  have h2 := r.timeout_lt
  unfold Barrier.answer
  rw [wait_window hw]
  simp only []
  rw [if_pos h.symm]
  rw [wrapInt_of_range (by omega) (by omega), add_sub_assoc]

/-- The clock is never 0. -/
theorem window_opened_pos (hs : List Request) : ∀ v ∈ window hs, 0 < v.opened := by
  induction hs using List.reverseRecOn with
  | nil => intro v hv; cases hv
  | append_singleton hs r ih =>
    intro v hv
    unfold window at hv
    rw [List.foldl_append] at hv
    replace hv : Window.ask (window hs) r = some v := hv
    unfold Window.ask at hv
    split at hv
    · obtain rfl := Option.some.inj hv
      exact r.now_pos
    · rename_i u hu
      split_ifs at hv
      · obtain rfl := Option.some.inj hv
        exact r.now_pos
      · obtain rfl := Option.some.inj hv
        exact ih _ (Option.mem_filter_iff.mp hu).1

/-- An answer is between 0 and the timeout plus 10 exactly when the timeout is in range. -/
theorem answer_bounds_iff {w : Option Window} (hw : Before w r.now) (hopen : ∀ v ∈ w, 0 < v.opened) :
    (0 ≤ (Window.code w).answer r ∧ (Window.code w).answer r ≤ r.timeout + 10) ↔ InRange w r := by
  have hge := r.timeout_ge
  have hlt := r.timeout_lt
  cases asks w r with
  | first h =>
    have hn : ¬ Raises w r := by
      rintro ⟨v, hv, hf, -⟩
      exact hf (h.2 v hv)
    rw [answer_first hw h]
    unfold InRange wrapInt
    constructor
    · intro hb
      exact ⟨by omega, fun _ => by omega, fun h => absurd h hn⟩
    · rintro ⟨h1, h2, -⟩
      have := h2 h
      omega
  | higher h =>
    have hn : ¬ Extended w r := by
      obtain ⟨v, hv, hf, -⟩ := h
      exact fun he => hf (he.2 v hv)
    rw [answer_higher hw h hopen]
    constructor
    · intro hb
      exact ⟨by omega, fun h => absurd h hn, fun _ => hb.1⟩
    · intro hr
      have := hr.2.2 h
      omega
  | lower v hv h =>
    have hn : ¬ Extended w r := fun he => by have := he.2 v hv; omega
    have hr : ¬ Raises w r := by
      rintro ⟨u, hu, -, hlt⟩
      obtain rfl : v = u := Option.mem_unique hv hu
      omega
    rw [answer_lower hw hv h]
    constructor
    · intro hb
      exact ⟨by omega, fun h => absurd h hn, fun h => absurd h hr⟩
    · intro h
      have := h.1
      omega
  | same h =>
    have hn : ¬ Extended w r := fun he => by
      rw [code_live_of_extended he] at h
      exact he.1 h.symm
    have hr : ¬ Raises w r := by
      rintro ⟨u, hu, hf, hlt⟩
      rw [show live w r.now = some u from hu, code_pos hf] at h
      exact hlt.ne h
    constructor
    · intro hb
      exact ⟨by omega, fun h => absurd h hn, fun h => absurd h hr⟩
    · rintro ⟨h1, -, -⟩
      rw [answer_same hw h1 h]
      have : (Window.code (live w r.now)).lasttime ≤ r.now := lasttime_le hw
      omega

/-! ## One barrier -/

/-- The requests come while the window `v` is open, for no higher file. -/
def Within (v : Window) (rs : List Request) : Prop :=
  ∀ r ∈ rs, r.file ≤ v.file ∧ r.now ≤ v.opened + 3600

theorem ask_within {v : Window} (hf : r.file ≤ v.file) (ht : r.now ≤ v.opened + 3600) :
    Window.ask (some v) r = some v := by
  unfold Window.ask
  rw [live_some ht]
  exact if_neg (by omega)

/-- Nothing changes while the window is open. -/
theorem answers_within {v : Window} {rs : List Request} (h : Within v rs)
    (hb : ∀ r ∈ rs, v.opened ≤ r.now) : (Window.code (some v)).answers rs =
      rs.map fun r => (r, (Window.code (some v)).answer r) := by
  induction rs with
  | nil => rfl
  | cons r rs ih =>
    have hw : Before (some v) r.now := by
      intro u hu
      obtain rfl := Option.some.inj hu
      exact hb r (by simp)
    obtain ⟨hf, ht⟩ := h r (by simp)
    rw [Barrier.answers, next_code hw, ask_within hf ht,
      ih (fun s hs => h s (by simp [hs])) fun s hs => hb s (by simp [hs])]
    rfl

theorem lastfile_code (v : Window) : (Window.code (some v)).lastfile = v.file := by
  by_cases h : v.file = 0
  · rw [code_zero h, h]
  · rw [code_pos h]

/-- The answer to a client that asks for the file of the window. -/
theorem answer_within {v : Window} (ht : -10 ≤ r.timeout) (hf : r.file = v.file)
    (hb : v.opened ≤ r.now) (hl : r.now ≤ v.opened + 3600) : (Window.code (some v)).answer r =
      max 0 (r.timeout + (Window.code (some v)).lasttime - r.now) := by
  have hw : Before (some v) r.now := by
    intro u hu
    obtain rfl := Option.some.inj hu
    exact hb
  have := @answer_same r (some v) hw ht (by rw [live_some hl, lastfile_code, hf])
  rwa [live_some hl] at this

theorem ask_first {w : Option Window} (h : Extended w o) : Window.ask w o = some ⟨o.file, o.now⟩ := by
  unfold Window.ask
  split
  · rfl
  · rename_i v hv
    rw [h.2 v hv, if_pos (Nat.pos_of_ne_zero h.1)]

theorem ask_higher {w : Option Window} (h : Raises w o) : Window.ask w o = some ⟨o.file, o.now⟩ := by
  obtain ⟨v, hv, -, hlt⟩ := h
  unfold Window.ask
  rw [show live w o.now = some v from hv]
  exact if_pos hlt

/-- A client that asks for the remembered file changes nothing. -/
theorem code_ask_same {w : Option Window} (hw : Before w o.now)
    (h : (Window.code (live w o.now)).lastfile = o.file) :
    Window.code (Window.ask w o) = Window.code (live w o.now) := by
  rw [← next_code hw]
  unfold Barrier.next
  rw [wait_window hw]
  simp only []
  rw [if_pos h.symm]

/-! ## Runs -/

/-- What the barrier is for: clients that ask for the same file with the same timeout, while it is
the highest one asked for, are told waits that end at the same time `D`, or 0 once it has passed;
lower files do not wait; and no wait is negative or longer than the timeout and ten seconds. -/
structure Synchronised (hs : List Request) : Prop where
  agree : ∀ pre o rs post v, hs = pre ++ o :: (rs ++ post) → window (pre ++ [o]) = some v →
    v.file = o.file → Within v rs → ∀ timeout : ℤ, ∃ D : ℤ,
      ∀ p ∈ (Barrier.start.after pre).answers (o :: rs), p.1.file = o.file →
        p.1.timeout = timeout → p.2 = max 0 (D - p.1.now)
  lower : ∀ pre r post v, hs = pre ++ r :: post → window (pre ++ [r]) = some v → r.file < v.file →
    (Barrier.start.after pre).answer r = 0
  bounds : ∀ pre r post, hs = pre ++ r :: post → 0 ≤ (Barrier.start.after pre).answer r ∧
    (Barrier.start.after pre).answer r ≤ r.timeout + 10

/-- The timeouts are in range, and while the client that opens the first barrier of a session waits,
no other one asks for its file with its timeout. -/
structure Unhurried (hs : List Request) : Prop where
  range : ∀ pre r post, hs = pre ++ r :: post → InRange (window pre) r
  alone : ∀ pre o rs post, hs = pre ++ o :: (rs ++ post) → Extended (window pre) o →
    Within ⟨o.file, o.now⟩ rs → ∀ r ∈ rs, r.file = o.file → r.timeout = o.timeout →
      o.now + o.timeout + 10 ≤ r.now

section Runs

variable {hs pre rs post : List Request}

theorem Timed.before (h : Timed hs) (he : hs = pre ++ r :: post) : Before (window pre) r.now := by
  subst he
  obtain ⟨h1, -, h2⟩ := List.pairwise_append.mp h
  exact before_window (fun s hs => h2 s hs r (by simp)) h1

theorem Timed.after_eq (h : Timed hs) (he : hs = pre ++ r :: post) :
    Barrier.start.after pre = Window.code (window pre) := by
  subst he
  exact LinboxRescue.after_eq (List.pairwise_append.mp h).1

theorem Timed.le_of_mem (h : Timed hs) (he : hs = pre ++ o :: (rs ++ post)) :
    ∀ r ∈ rs, o.now ≤ r.now := by
  subst he
  intro r hr
  exact List.rel_of_pairwise_cons (List.pairwise_append.mp h).2.1 (by simp [hr])

theorem window_snoc (pre : List Request) (o : Request) :
    window (pre ++ [o]) = Window.ask (window pre) o := by
  unfold window
  rw [List.foldl_append]
  rfl

/-- The answers to the clients of one barrier: to the one that is looked at, and to the later
ones. -/
theorem mem_answers_iff (h : Timed hs) (he : hs = pre ++ o :: (rs ++ post)) {v : Window}
    (hv : window (pre ++ [o]) = some v) (hw : Within v rs) (p : Request × ℤ) :
    p ∈ (Barrier.start.after pre).answers (o :: rs) ↔ p = (o, (Window.code (window pre)).answer o) ∨
      ∃ r ∈ rs, p = (r, (Window.code (some v)).answer r) := by
  have hb := h.before he
  have hopen : v.opened ≤ o.now := by
    rw [window_snoc] at hv
    exact hb.ask v hv
  have hle : ∀ r ∈ rs, v.opened ≤ r.now := fun r hr => le_trans hopen (h.le_of_mem he r hr)
  rw [h.after_eq he, Barrier.answers, next_code hb, ← window_snoc, hv, answers_within hw hle]
  simp only [List.mem_cons, List.mem_map]
  refine or_congr Iff.rfl ⟨?_, ?_⟩
  · rintro ⟨r, hr, rfl⟩
    exact ⟨r, hr, rfl⟩
  · rintro ⟨r, hr, rfl⟩
    exact ⟨r, hr, rfl⟩

/-- A run that is synchronised is unhurried: the first client of a session is told ten seconds more
than the others. -/
theorem Synchronised.unhurried (h : Timed hs) (hsync : Synchronised hs) : Unhurried hs := by
  have hrange : ∀ pre r post, hs = pre ++ r :: post → InRange (window pre) r := by
    intro pre r post he
    have hb := hsync.bounds pre r post he
    rw [h.after_eq he] at hb
    exact (answer_bounds_iff (h.before he) (window_opened_pos pre)).mp hb
  refine ⟨hrange, fun pre o rs post he hext hw r hr hf ht => ?_⟩
  obtain ⟨hmin, hmax, -⟩ := hrange pre o _ he
  have hmax := hmax hext
  have hv : window (pre ++ [o]) = some ⟨o.file, o.now⟩ := by rw [window_snoc, ask_first hext]
  obtain ⟨D, hD⟩ := hsync.agree pre o rs post _ he hv rfl hw o.timeout
  have hmem := mem_answers_iff h he hv hw
  have ho := hD _ ((hmem _).mpr (.inl rfl)) rfl rfl
  have hr' := hD _ ((hmem _).mpr (.inr ⟨r, hr, rfl⟩)) hf ht
  have hle := h.le_of_mem he r hr
  dsimp only at ho hr'
  rw [answer_first (h.before he) hext, wrapInt_of_range (by omega) (by omega)] at ho
  rw [answer_within (by omega) hf hle (hw r hr).2, code_pos hext.1] at hr'
  dsimp only at hr'
  omega

/-- The time at which the waits of a barrier end. -/
theorem Unhurried.agree (h : Timed hs) (hu : Unhurried hs) {v : Window}
    (he : hs = pre ++ o :: (rs ++ post)) (hv : window (pre ++ [o]) = some v) (hf : v.file = o.file)
    (hw : Within v rs) (timeout : ℤ) : ∃ D : ℤ,
      ∀ p ∈ (Barrier.start.after pre).answers (o :: rs), p.1.file = o.file →
        p.1.timeout = timeout → p.2 = max 0 (D - p.1.now) := by
  have hb := h.before he
  obtain ⟨hmin, hmax, hpos⟩ := hu.range pre o _ he
  have hask : Window.ask (window pre) o = some v := by rw [← window_snoc, hv]
  have hopen : v.opened ≤ o.now := hb.ask v hask
  have hlater : ∀ r ∈ rs, r.file = o.file → (Window.code (some v)).answer r =
      max 0 (r.timeout + (Window.code (some v)).lasttime - r.now) := by
    intro r hr hrf
    obtain ⟨s, t, hst⟩ := List.append_of_mem hr
    have hr' := hu.range (pre ++ o :: s) r (t ++ post) (by rw [he, hst]; simp)
    exact answer_within hr'.1 (by rw [hrf, hf]) (le_trans hopen (h.le_of_mem he r hr)) (hw r hr).2
  have key : ∀ D : ℤ, (o.timeout = timeout → (Window.code (window pre)).answer o = max 0 (D - o.now)) →
      (∀ r ∈ rs, r.file = o.file → r.timeout = timeout →
        max 0 (timeout + (Window.code (some v)).lasttime - r.now) = max 0 (D - r.now)) →
      ∃ D : ℤ, ∀ p ∈ (Barrier.start.after pre).answers (o :: rs), p.1.file = o.file →
        p.1.timeout = timeout → p.2 = max 0 (D - p.1.now) := by
    intro D ho hr
    refine ⟨D, fun p hp hpf hpt => ?_⟩
    rcases (mem_answers_iff h he hv hw p).mp hp with rfl | ⟨r, hr', rfl⟩
    · exact ho hpt
    · dsimp only at hpf hpt ⊢
      rw [hlater r hr' hpf, hpt]
      exact hr r hr' hpf hpt
  cases asks (window pre) o with
  | first hext =>
    obtain rfl := Option.some.inj (hask.symm.trans (ask_first hext))
    have hmax := hmax hext
    rw [code_pos hext.1] at key
    by_cases ht : o.timeout = timeout
    · refine key (o.now + timeout + 10) (fun _ => ?_) fun r hr hrf hrt => ?_
      · rw [answer_first hb hext, wrapInt_of_range (by omega) (by omega)]
        omega
      · have := hu.alone pre o rs post he hext hw r hr hrf (hrt.trans ht.symm)
        dsimp only
        omega
    · refine key (o.now + timeout) (fun h => absurd h ht) fun r hr hrf hrt => ?_
      dsimp only
      rw [add_comm]
  | higher hr =>
    obtain rfl := Option.some.inj (hask.symm.trans (ask_higher hr))
    have hpos := hpos hr
    obtain ⟨u, -, -, hlt⟩ := id hr
    rw [code_pos (v := ⟨o.file, o.now⟩) (by show o.file ≠ 0; omega)] at key
    refine key (o.now + timeout) (fun ht => ?_) fun r _ _ _ => ?_
    · rw [answer_higher hb hr (window_opened_pos pre)]
      omega
    · dsimp only
      rw [add_comm]
  | lower u hu' hlt =>
    have hstay : Window.ask (window pre) o = some u := by
      unfold Window.ask
      rw [show live (window pre) o.now = some u from hu']
      exact if_neg (by omega)
    obtain rfl := Option.some.inj (hask.symm.trans hstay)
    omega
  | same hsame =>
    have hcode := code_ask_same hb hsame
    rw [hask] at hcode
    refine key (timeout + (Window.code (some v)).lasttime) (fun ht => ?_) fun r _ _ _ => rfl
    rw [answer_same hb hmin hsame, ← hcode, ht]

/-- **The start barrier.** The answers of a run are synchronised exactly when the run is
unhurried. -/
theorem synchronised_iff (h : Timed hs) : Synchronised hs ↔ Unhurried hs := by
  refine ⟨Synchronised.unhurried h, fun hu => ⟨?_, ?_, ?_⟩⟩
  · intro pre o rs post v he hv hf hw timeout
    exact hu.agree h he hv hf hw timeout
  · intro pre r post v he hv hlt
    have hb := h.before he
    rw [h.after_eq he]
    rw [window_snoc] at hv
    unfold Window.ask at hv
    split at hv
    · obtain rfl := Option.some.inj hv
      exact absurd hlt (lt_irrefl _)
    · rename_i u hu'
      split_ifs at hv
      · obtain rfl := Option.some.inj hv
        exact absurd hlt (lt_irrefl _)
      · obtain rfl := Option.some.inj hv
        exact answer_lower hb hu' hlt
  · intro pre r post he
    rw [h.after_eq he]
    exact (answer_bounds_iff (h.before he) (window_opened_pos pre)).mpr (hu.range pre r post he)

/-- A client that asks for file 1 with a timeout of 60 s. -/
def askOne (now : ℕ) (h : 0 < now) (h' : now + 10 ≤ 2 ^ 31) : Request :=
  ⟨now, 1, 60, h, h', by norm_num, by norm_num⟩

/-- The first client asks at 1000 s and is told to wait until 1070 s, the second one asks five
seconds later and is told to wait until 1060 s. -/
theorem not_synchronised_first : ¬ Synchronised
    [askOne 1000 (by decide) (by decide), askOne 1005 (by decide) (by decide)] := by
  intro h
  obtain ⟨D, hD⟩ := h.agree [] (askOne 1000 (by decide) (by decide))
    [askOne 1005 (by decide) (by decide)] [] ⟨1, 1000⟩ rfl rfl rfl (by
      intro r hr
      obtain rfl := List.mem_singleton.mp hr
      exact ⟨le_rfl, by show 1005 ≤ 4600; omega⟩) 60
  have h1 := hD (askOne 1000 (by decide) (by decide), 70) (by decide) rfl rfl
  have h2 := hD (askOne 1005 (by decide) (by decide), 55) (by decide) rfl rfl
  have e1 : (askOne 1000 (by decide) (by decide)).now = 1000 := rfl
  have e2 : (askOne 1005 (by decide) (by decide)).now = 1005 := rfl
  dsimp only at h1 h2
  rw [e1] at h1
  rw [e2] at h2
  omega

theorem synchronised_iff_two :
    Timed [askOne 1000 (by decide) (by decide), askOne 1075 (by decide) (by decide)] ∧
    (Synchronised [askOne 1000 (by decide) (by decide), askOne 1075 (by decide) (by decide)] ↔
      Unhurried [askOne 1000 (by decide) (by decide), askOne 1075 (by decide) (by decide)]) := by
  have h : Timed [askOne 1000 (by decide) (by decide), askOne 1075 (by decide) (by decide)] := by
    simp [Timed, askOne]
  exact ⟨h, synchronised_iff h⟩

end Runs

/-! ## The requests of the daemon -/

/-- A `T` request is answered with the wait, as a number. -/
theorem processPacket_time (env : Env) (d : Daemon) (mac smac : Bytes)
    (hb : command (byteAt d.buf 0) = .time)
    (hr : timeRequest (strAt env d.buf 0) = some (r.file, r.timeout)) (ht : env.now = r.now) :
    (processPacket env d mac smac).1 = [.send (decInt (d.barrier.answer r))] ∧
      (processPacket env d mac smac).2.barrier = d.barrier.next r := by
  unfold processPacket
  rw [hb]
  dsimp only
  rw [hr, ht]
  exact ⟨rfl, rfl⟩

end LinboxRescue
