import LinboxRescue.Lsc.Launcher

/-!
# A row that is stopped or paused

`execute` is to leave a row that the operator has stopped or paused as it is. It looks at the state
of `commond_on_host`, a member that is not there, so it goes on.

1. `Idle`: the dates of the row are fine, but each step of `execute` finds nothing to do.
2. `untouched_execute`: with such rows, when the dates are not fine, or when the script dies for want of
   a session, nothing is changed.
3. `idle_of_untouched`: nothing else keeps a stopped row as it is.
4. `keepsRead_of_noRepeat`, `not_keepsRead`: `connection_init` gives a stopped row that it has read
   another state only when it repeats a command whose last attempt has failed.
-/

namespace LinboxRescue

/-- The operator has stopped or paused the row. -/
def Stopped (s : Lsc) : Prop := s.row.currentState = .stop ∨ s.row.currentState = .pause

instance (s : Lsc) : Decidable (Stopped s) := inferInstanceAs (Decidable (_ ∨ _))

/-! ## `execute` -/

/-- What the steps of `execute` read after the first `refresh`: there is nothing to do. -/
structure Idle (cmd : LscCommand) (now : ℕ) (rows : ℕ → Coh) : Prop where
  upload : (rows 1).uploaded ≠ .todo
  execution : ¬((rows 2).uploaded.isOver = true ∧ (rows 2).executed = .todo)
  deletion : ¬((rows 3).uploaded = .done ∧ (rows 3).executed.isOver = true ∧ (rows 3).deleted = .todo)
  ignored : ¬((rows 3).uploaded = .ignored ∧ (rows 3).executed.isOver = true)
  inventory : cmd.startInventoryEnable = false
  finish : ¬((rows 5).uploaded.isOver = true ∧ (rows 5).executed.isOver = true ∧
    (rows 5).deleted.isOver = true)
  again : cmd.repeatHours = 0 ∨ (rows 5).endDate ≠ 0 ∧ (rows 5).endDate < now

section Execute

variable {others : ℕ → Lsc → Lsc} {outs : ℕ → ℕ} {s : Lsc} {m n : ℕ} {α : Type}

/-- What is left of a program is untouched. -/
abbrev Rest (others : ℕ → Lsc → Lsc) (outs : ℕ → ℕ) (s : Lsc) (p : LscM α) (m n : ℕ) : Prop :=
  Script.Untouched others outs p (m + 1) n (Script.found others s m)

abbrev rowAt (others : ℕ → Lsc → Lsc) (s : Lsc) (m : ℕ) : Coh := (Script.found others s m).row

theorem rest_refresh {g : Coh → LscM α} : Rest others outs s (refresh >>= g) m n ↔
    Rest others outs s (g (rowAt others s (m + 1))) (m + 1) n := ⟨And.right, fun h => ⟨rfl, h⟩⟩

theorem rest_refresh_bind {β : Type} {k : Coh → LscM β} {g : β → LscM α} :
    Rest others outs s ((refresh >>= k) >>= g) m n ↔
      Rest others outs s (k (rowAt others s (m + 1)) >>= g) (m + 1) n :=
  ⟨And.right, fun h => ⟨rfl, h⟩⟩

theorem rest_answer {g : ℕ → LscM α} : Rest others outs s (Script.answer >>= g) m n ↔
    Rest others outs s (g (outs n)) m (n + 1) := Iff.rfl

/-- A stopped row does not keep its state. -/
theorem not_rest_setCurrentState (hs : Stopped (Script.found others s (m + 1))) {st : CohState}
    (hst : st ≠ .stop ∧ st ≠ .pause) {g : Unit → LscM α} :
    ¬Rest others outs s (setCurrentState st >>= g) m n := by
  rintro ⟨h, -⟩
  have hstate : st = (Script.found others s (m + 1)).row.currentState :=
    congrArg (fun t : Lsc => t.row.currentState) h
  obtain hs | hs := hs
  · exact hst.1 (hstate.trans hs)
  · exact hst.2 (hstate.trans hs)

theorem not_rest_setCurrentState_bind {β : Type} (hs : Stopped (Script.found others s (m + 1)))
    {st : CohState} (hst : st ≠ .stop ∧ st ≠ .pause) {k : Unit → LscM β} {g : β → LscM α} :
    ¬Rest others outs s ((setCurrentState st >>= k) >>= g) m n := fun h =>
  not_rest_setCurrentState (g := fun u => k u >>= g) hs hst h

/-- A deed is always seen. -/
theorem not_rest_perform {d : Deed} {g : Unit → LscM α} :
    ¬Rest others outs s (perform d >>= g) m n := by
  rintro ⟨h, -⟩
  have hlog : (Script.found others s (m + 1)).log ++ [d] = (Script.found others s (m + 1)).log :=
    congrArg Lsc.log h
  exact absurd (congrArg List.length hlog) (by simp)

variable (cmd : LscCommand)

theorem rest_uploadStep {g : Bool → LscM α} (h : (rowAt others s (m + 1)).uploaded ≠ .todo) :
    Rest others outs s (uploadStep cmd >>= g) m n ↔ Rest others outs s (g false) (m + 1) n := by
  unfold uploadStep
  rw [rest_refresh_bind, if_neg fun hc => h hc.1]
  exact Iff.rfl

theorem not_rest_uploadStep {g : Bool → LscM α} (h : (rowAt others s (m + 1)).uploaded = .todo)
    (hs : Stopped (Script.found others s (m + 2))) :
    ¬Rest others outs s (uploadStep cmd >>= g) m n := by
  have hst : stateMember ≠ some .uploadInProgress := by decide
  unfold uploadStep
  rw [rest_refresh_bind, if_pos ⟨h, hst⟩]
  by_cases hfiles : cmd.files ≠ []
  · unfold filesCopy
    rw [if_pos hfiles, if_pos hfiles]
    exact not_rest_setCurrentState_bind hs (by decide)
  · rw [if_neg hfiles]
    exact not_rest_setCurrentState_bind hs (by decide)

theorem rest_executionStep {g : Bool → LscM α} (h : ¬((rowAt others s (m + 1)).uploaded.isOver = true ∧
    (rowAt others s (m + 1)).executed = .todo)) :
    Rest others outs s (executionStep cmd >>= g) m n ↔ Rest others outs s (g false) (m + 1) n := by
  unfold executionStep
  rw [rest_refresh_bind, if_neg fun hc => h ⟨hc.1, hc.2.1⟩]
  exact Iff.rfl

theorem not_rest_executionStep {g : Bool → LscM α} (h : (rowAt others s (m + 1)).uploaded.isOver = true ∧
    (rowAt others s (m + 1)).executed = .todo) (hs : Stopped (Script.found others s (m + 2))) :
    ¬Rest others outs s (executionStep cmd >>= g) m n := by
  have hst : stateMember ≠ some .executionInProgress := by decide
  unfold executionStep
  rw [rest_refresh_bind, if_pos ⟨h.1, h.2, hst⟩]
  by_cases hscript : cmd.startScriptEnable = true
  · unfold fileStart
    rw [if_pos hscript, if_pos hscript]
    exact not_rest_setCurrentState_bind hs (by decide)
  · rw [if_neg hscript]
    exact not_rest_setCurrentState_bind hs (by decide)

theorem rest_deletionStep {g : Bool → LscM α} (h : ¬((rowAt others s (m + 1)).uploaded = .done ∧
    (rowAt others s (m + 1)).executed.isOver = true ∧ (rowAt others s (m + 1)).deleted = .todo))
    (h' : ¬((rowAt others s (m + 1)).uploaded = .ignored ∧
      (rowAt others s (m + 1)).executed.isOver = true)) :
    Rest others outs s (deletionStep cmd >>= g) m n ↔ Rest others outs s (g false) (m + 1) n := by
  unfold deletionStep
  rw [rest_refresh_bind, if_neg fun hc => h ⟨hc.1, hc.2.1, hc.2.2.2⟩, if_neg h']
  exact Iff.rfl

theorem not_rest_deletionStep {g : Bool → LscM α} (h : (rowAt others s (m + 1)).uploaded = .done ∧
    (rowAt others s (m + 1)).executed.isOver = true ∧ (rowAt others s (m + 1)).deleted = .todo ∨
    (rowAt others s (m + 1)).uploaded = .ignored ∧ (rowAt others s (m + 1)).executed.isOver = true)
    (hs : Stopped (Script.found others s (m + 2))) :
    ¬Rest others outs s (deletionStep cmd >>= g) m n := by
  have hst : stateMember ≠ some .deleteInProgress := by decide
  unfold deletionStep
  rw [rest_refresh_bind]
  obtain h | h := h
  · rw [if_pos ⟨h.1, h.2.1, hst, h.2.2⟩]
    split_ifs
    · exact not_rest_setCurrentState_bind hs (by decide)
    · exact not_rest_setCurrentState_bind hs (by decide)
  · have hne : ¬((rowAt others s (m + 1)).uploaded = .done ∧
        (rowAt others s (m + 1)).executed.isOver = true ∧ stateMember ≠ some .deleteInProgress ∧
        (rowAt others s (m + 1)).deleted = .todo) := fun hc => absurd (h.1.symm.trans hc.1) (by decide)
    rw [if_neg hne, if_pos h]
    exact not_rest_setCurrentState_bind hs (by decide)

theorem rest_inventoryStep {g : Unit → LscM α} (h : cmd.startInventoryEnable = false) :
    Rest others outs s (inventoryStep cmd >>= g) m n ↔ Rest others outs s (g ()) (m + 1) n := by
  unfold inventoryStep
  rw [rest_refresh_bind, if_neg (by rw [h]; exact Bool.false_ne_true)]
  exact Iff.rfl

theorem not_rest_inventoryStep {g : Unit → LscM α} (h : cmd.startInventoryEnable = true) :
    ¬Rest others outs s (inventoryStep cmd >>= g) m n := by
  unfold inventoryStep
  rw [rest_refresh_bind, if_pos h]
  exact not_rest_perform

/-- The row is repeated, and that is noted. -/
theorem rest_repeatResched {coh : Coh} : Rest others outs s (repeatResched cmd coh) m n ↔
    cmd.repeatHours = 0 ∨ coh.endDate ≠ 0 ∧ coh.endDate < outs n := by
  unfold repeatResched
  by_cases h0 : cmd.repeatHours = 0
  · rw [if_pos h0]
    exact ⟨fun _ => .inl h0, fun _ => trivial⟩
  rw [if_neg h0]
  refine rest_answer.trans ?_
  by_cases hend : coh.endDate ≠ 0 ∧ coh.endDate < outs n
  · rw [if_pos hend]
    exact ⟨fun _ => .inr hend, fun _ => trivial⟩
  rw [if_neg hend]
  refine ⟨?_, fun h => absurd h (not_or.mpr ⟨h0, hend⟩)⟩
  rintro ⟨-, -, hlog, -⟩
  exact absurd (congrArg (fun t : Lsc => t.log.length) hlog) (by simp)

theorem rest_finishStep (hs : Stopped (Script.found others s (m + 2))) :
    Rest others outs s (finishStep cmd) m n ↔
    ¬((rowAt others s (m + 1)).uploaded.isOver = true ∧ (rowAt others s (m + 1)).executed.isOver = true ∧
      (rowAt others s (m + 1)).deleted.isOver = true) ∧
    (cmd.repeatHours = 0 ∨ (rowAt others s (m + 1)).endDate ≠ 0 ∧
      (rowAt others s (m + 1)).endDate < outs n) := by
  unfold finishStep
  rw [rest_refresh]
  split_ifs with hover
  · exact ⟨fun h => absurd h (not_rest_setCurrentState hs (by decide)), fun h => absurd hover h.1⟩
  · exact (rest_repeatResched cmd).trans ⟨fun h => ⟨hover, h⟩, And.right⟩

/-- The steps change nothing if there is nothing to do. -/
theorem rest_executeSteps (h : Idle cmd (outs 2) (rowAt others s)) :
    Rest others outs s (executeSteps cmd) 0 2 := by
  unfold executeSteps
  refine (rest_uploadStep cmd h.upload).mpr ?_
  refine (rest_executionStep cmd h.execution).mpr ?_
  refine (rest_deletionStep cmd h.deletion h.ignored).mpr ?_
  refine (rest_inventoryStep cmd h.inventory).mpr ?_
  unfold finishStep
  rw [rest_refresh, if_neg h.finish]
  exact (rest_repeatResched cmd).mpr h.again

/-- Otherwise a stopped row does not stay as it is. -/
theorem idle_of_rest (hs : ∀ m, Stopped (Script.found others s m))
    (h : Rest others outs s (executeSteps cmd) 0 2) : Idle cmd (outs 2) (rowAt others s) := by
  unfold executeSteps at h
  have hup : (rowAt others s 1).uploaded ≠ .todo := fun hc => not_rest_uploadStep cmd hc (hs 2) h
  replace h := (rest_uploadStep cmd hup).mp h
  have hex : ¬((rowAt others s 2).uploaded.isOver = true ∧ (rowAt others s 2).executed = .todo) :=
    fun hc => not_rest_executionStep cmd hc (hs 3) h
  replace h := (rest_executionStep cmd hex).mp h
  have hdel := not_or.mp fun hc => not_rest_deletionStep cmd hc (hs 4) h
  replace h := (rest_deletionStep cmd hdel.1 hdel.2).mp h
  have hinv : cmd.startInventoryEnable = false := by
    rw [Bool.eq_false_iff]
    exact fun hc => not_rest_inventoryStep cmd hc h
  replace h := (rest_inventoryStep cmd hinv).mp h
  obtain ⟨hfin, hagain⟩ := (rest_finishStep cmd (hs 6)).mp h
  exact ⟨hup, hex, hdel.1, hdel.2, hinv, hfin, hagain⟩

/-- Nothing is done after the steps. -/
theorem rest_return (others : ℕ → Lsc → Lsc) (outs : ℕ → ℕ) {s : Lsc} {m n : ℕ} {p : LscM Unit} :
    Rest others outs s (do p; return false) m n ↔ Rest others outs s p m n :=
  Script.untouched_bind others outs (g := fun _ => pure false) (fun _ _ _ _ => trivial) _ _ _ _

/-- The script dies: there is no destination and no session. -/
def Dies (session : Bool) : Prop := cmd.pathDestination = [] ∧ session = false

instance (session : Bool) : Decidable (Dies cmd session) := inferInstanceAs (Decidable (_ ∧ _))

theorem untouched_execute {session : Bool} (h : inDates (rowAt others s 0) (outs 0) (outs 1) = false ∨
    Dies cmd session ∨ Idle cmd (outs 2) (rowAt others s)) :
    Script.Untouched others outs (execute cmd session) 0 0 s := by
  refine ⟨rfl, ?_⟩
  change Rest others outs s (if inDates (rowAt others s 0) (outs 0) (outs 1) = true then
    (if Dies cmd session then _ else _) else _) 0 2
  split_ifs with hdates hdies
  · trivial
  · have hidle := (h.resolve_left (by rw [hdates]; exact Bool.false_ne_true.symm)).resolve_left hdies
    exact (rest_return others outs).mpr
      (rest_executeSteps cmd hidle)
  · trivial

theorem idle_of_untouched {session : Bool} (hs : ∀ m, Stopped (Script.found others s m))
    (h : Script.Untouched others outs (execute cmd session) 0 0 s) :
    inDates (rowAt others s 0) (outs 0) (outs 1) = false ∨ Dies cmd session ∨
      Idle cmd (outs 2) (rowAt others s) := by
  obtain ⟨-, h⟩ := h
  change Rest others outs s (if inDates (rowAt others s 0) (outs 0) (outs 1) = true then
    (if Dies cmd session then _ else _) else _) 0 2 at h
  split_ifs at h with hdates hdies
  · exact .inr (.inl hdies)
  · right
    right
    exact idle_of_rest cmd hs ((rest_return others outs).mp h)
  · exact .inl (Bool.eq_false_iff.mpr hdates)

end Execute

/-! ## `connection_init` -/

/-- Once an access that only reads has found the row stopped, no access changes the state of a row
that it finds stopped. -/
def KeepsRead {α : Type} (others : ℕ → Lsc → Lsc) (outs : ℕ → ℕ) :
    LscM α → Prop → ℕ → ℕ → Lsc → Prop
  | .done _, _, _, _, _ => True
  | .access f k, seen, m, n, s =>
    (seen → Stopped (others m s) → (f (others m s)).row.currentState = (others m s).row.currentState) ∧
      KeepsRead others outs (k (others m s)) (seen ∨ f = id ∧ Stopped (others m s)) (m + 1) n
        (f (others m s))
  | .ask k, seen, m, n, s => KeepsRead others outs (k (outs n)) seen m (n + 1) s

section ConnectionInit

variable {others : ℕ → Lsc → Lsc} {outs : ℕ → ℕ} (cmd : LscCommand) (coh : Coh)

/-- The command is not repeated by `connection_init`: it is not to be repeated, it has no attempt
left or more than one, or only its date is set. -/
def NoRepeat : Prop :=
  cmd.repeatHours = 0 ∨ coh.attempts ≠ 1 ∨ coh.nextLaunchDate = 0 ∧ coh.startDate ≠ 0

/-- A program that gives no row another state. -/
def StateKept {α : Type} (p : LscM α) : Prop :=
  ∀ others outs seen m n s, KeepsRead others outs p seen m n s

section StateKept

variable {α β : Type}

theorem stateKept_pure (a : α) : StateKept (pure a : LscM α) := fun _ _ _ _ _ _ => trivial

theorem stateKept_bind {p : LscM α} {g : α → LscM β} (hp : StateKept p) (hg : ∀ a, StateKept (g a)) :
    StateKept (p >>= g) := by
  intro others outs seen m n s
  have h := hp others outs seen m n s
  clear hp
  induction p generalizing seen m n s with
  | done a => exact hg a others outs seen m n s
  | access f k ih => exact ⟨h.1, ih _ _ _ _ _ h.2⟩
  | ask k ih => exact ih _ _ _ _ _ h

theorem stateKept_ite {c : Prop} [Decidable c] {p q : LscM α} (hp : c → StateKept p)
    (hq : ¬c → StateKept q) : StateKept (if c then p else q) := by
  split_ifs with h
  · exact hp h
  · exact hq h

theorem stateKept_updateRow {f : Coh → Coh} (hf : ∀ r, (f r).currentState = r.currentState) :
    StateKept (updateRow f) := fun _ _ _ _ _ _ => ⟨fun _ _ => hf _, trivial⟩

theorem stateKept_refresh : StateKept refresh := fun _ _ _ _ _ _ => ⟨fun _ _ => rfl, trivial⟩

theorem stateKept_answer : StateKept (Script.answer : LscM ℕ) := fun _ _ _ _ _ _ => trivial

end StateKept

theorem keepsRead_connectionError (h : cmd.repeatHours = 0 ∨ coh.attempts - 1 > 0) (m n : ℕ) (s : Lsc) :
    KeepsRead others outs (do connectionError cmd coh; return (none : Option Bool)) False m n s := by
  have hrest : StateKept (do
      if coh.attempts - 1 > 0 then
        updateRow fun r => { r with nextLaunchDate := r.nextLaunchDate + 60 * cmd.nextConnectionDelay }
        let _ ← refresh
      else
        repeatResched cmd coh) := by
    refine stateKept_ite (fun _ => ?_) fun hmore => ?_
    · exact stateKept_bind (stateKept_updateRow fun _ => rfl) fun _ =>
        stateKept_bind stateKept_refresh fun _ => stateKept_pure _
    · unfold repeatResched
      rw [if_pos (h.resolve_right hmore)]
      exact stateKept_pure _
  have hdate : StateKept (do
      setRemainsConnectionAttempt (coh.attempts - 1)
      if coh.nextLaunchDate = 0 then
        setNextLaunchDate (← Script.answer)
      if coh.attempts - 1 > 0 then
        updateRow fun r => { r with nextLaunchDate := r.nextLaunchDate + 60 * cmd.nextConnectionDelay }
        let _ ← refresh
      else
        repeatResched cmd coh) := by
    refine stateKept_bind (stateKept_updateRow fun _ => rfl) fun _ => stateKept_ite (fun _ => ?_) fun _ =>
      hrest
    exact stateKept_bind stateKept_answer fun now =>
      stateKept_bind (stateKept_updateRow fun _ => rfl) fun _ => hrest
  exact ⟨False.elim, stateKept_bind hdate (fun _ => stateKept_pure none) _ _ _ _ _ _⟩

theorem keepsRead_newSession {α : Type} {g : Bool × Bool → LscM α} {seen : Prop} {m n : ℕ} {s : Lsc} :
    KeepsRead others outs (newSession >>= g) seen m n s ↔
      KeepsRead others outs (g (decide (outs n ≠ 0), decide (outs (n + 1) ≠ 0))) seen m (n + 2) s := Iff.rfl

theorem keepsRead_of_noRepeat (h : NoRepeat cmd coh) (s : Lsc) :
    KeepsRead others outs (connectionInit cmd coh) False 0 0 s := by
  change KeepsRead others outs (if outs 0 = 0 then _ else _) False 0 1 s
  by_cases hmac : outs 0 = 0
  · rw [if_pos hmac]
    exact ⟨False.elim, trivial⟩
  rw [if_neg hmac]
  by_cases hnone : coh.attempts ≤ 0
  · rw [if_pos hnone]
    trivial
  rw [if_neg hnone]
  refine ⟨fun _ _ => rfl, ?_⟩
  change KeepsRead others outs (if _ = CohState.stop ∨ _ = CohState.pause then _ else _) _ 1 1 _
  by_cases hstop : (others 0 s).row.currentState = .stop ∨ (others 0 s).row.currentState = .pause
  · rw [if_pos hstop]
    trivial
  -- so far nothing stopped was read
  have hseen : (False ∨ (id : Lsc → Lsc) = id ∧ Stopped (others 0 s)) = False :=
    eq_false fun hc => hc.elim id fun hc => hstop hc.2
  rw [if_neg hstop, hseen]
  by_cases hdate : coh.nextLaunchDate = 0 ∧ coh.startDate ≠ 0
  · rw [if_pos hdate]
    exact ⟨False.elim, trivial⟩
  rw [if_neg hdate, keepsRead_newSession]
  have herror := @keepsRead_connectionError others outs cmd coh
    (h.imp_right fun h => by have := h.resolve_right hdate; omega)
  dsimp only
  split_ifs
  · exact ⟨False.elim, trivial⟩
  · rw [keepsRead_newSession]
    dsimp only
    split_ifs
    · exact ⟨False.elim, trivial⟩
    · exact herror _ _ _
  · exact herror _ _ _

/-- The operator pauses the row when it is not reachable. -/
def pauseSecond (m : ℕ) (s : Lsc) : Lsc := if m = 2 then s.setRow setPause else s

theorem not_keepsRead_repeatResched (h0 : cmd.repeatHours ≠ 0) {m n : ℕ} (hm : 2 < m) {seen : Prop}
    {s : Lsc} (hs : Stopped s) :
    ¬KeepsRead pauseSecond (fun _ => 1) (do repeatResched cmd coh; return (none : Option Bool))
      seen m n s := by
  have hothers : ∀ k s, 2 < k → pauseSecond k s = s := fun k s hk => if_neg (by omega)
  have hend : ¬(coh.endDate ≠ 0 ∧ coh.endDate < 1) := by omega
  unfold repeatResched
  rw [if_neg h0]
  change ¬KeepsRead pauseSecond (fun _ => 1) (do
    (if coh.endDate ≠ 0 ∧ coh.endDate < 1 then _ else _)
    return (none : Option Bool)) _ m (n + 1) s
  rw [if_neg hend]
  rintro ⟨-, -, hw, -⟩
  rw [hothers m s hm, hothers (m + 1) _ (by omega), hothers (m + 2) _ (by omega)] at hw
  have hstate := hw (.inr ⟨rfl, hs⟩) hs
  obtain hs | hs := hs
  · exact absurd (hstate.trans hs) CohState.noConfusion
  · exact absurd (hstate.trans hs) CohState.noConfusion

theorem not_keepsRead_connectionError (h0 : cmd.repeatHours ≠ 0) (h1 : coh.attempts = 1) {n : ℕ} {seen : Prop}
    {s : Lsc} :
    ¬KeepsRead pauseSecond (fun _ => 1) (do connectionError cmd coh; return (none : Option Bool))
      seen 1 n s := by
  have hlast : ¬coh.attempts - 1 > 0 := by omega
  unfold connectionError
  rw [if_neg hlast]
  by_cases hdate : coh.nextLaunchDate = 0
  · rw [if_pos hdate]
    rintro ⟨-, -, -, h⟩
    refine not_keepsRead_repeatResched cmd coh h0 ?_ ?_ h
    · decide
    · exact .inr rfl
  · rw [if_neg hdate]
    rintro ⟨-, -, h⟩
    refine not_keepsRead_repeatResched cmd coh h0 ?_ ?_ h
    · decide
    · exact .inr rfl

theorem not_keepsRead (h : ¬NoRepeat cmd coh) :
    ¬KeepsRead pauseSecond (fun _ => 1) (connectionInit cmd coh) False 0 0
      ⟨{ coh with currentState := .scheduled }, [], []⟩ := by
  obtain ⟨h0, h⟩ := not_or.mp h
  obtain ⟨h1, h2⟩ := not_or.mp h
  rw [not_not] at h1
  have hnone : ¬coh.attempts ≤ 0 := by omega
  change ¬KeepsRead pauseSecond (fun _ => 1) (if coh.attempts ≤ 0 then _ else _) False 0 1 _
  rw [if_neg hnone]
  rintro ⟨-, h⟩
  change KeepsRead pauseSecond (fun _ => 1) (if coh.nextLaunchDate = 0 ∧ coh.startDate ≠ 0 then _ else _)
    _ 1 1 _ at h
  rw [if_neg h2] at h
  change KeepsRead pauseSecond (fun _ => 1) (if true = true ∧ cmd.wakeOnLanEnable = true then _ else _)
    _ 1 3 _ at h
  split_ifs at h
  · exact not_keepsRead_connectionError cmd coh h0 h1 h
  · exact not_keepsRead_connectionError cmd coh h0 h1 h

end ConnectionInit

/-! ## Stopped rows -/

/-- **When a stopped row is left as it is**. Whatever the others do, `execute` changes nothing if
the dates of the row are not fine, the script dies for want of a session, or its steps find nothing to
do; and as long as the others leave the row stopped, only then. `connection_init` keeps a stopped state
that it has read if and only if it does not repeat the command. -/
theorem stopped_row_kept (cmd : LscCommand) :
    (∀ (session : Bool) (others : ℕ → Lsc → Lsc) (outs : ℕ → ℕ) (s : Lsc),
      (inDates (rowAt others s 0) (outs 0) (outs 1) = false ∨ Dies cmd session ∨
          Idle cmd (outs 2) (rowAt others s) →
        Script.Untouched others outs (execute cmd session) 0 0 s) ∧
      ((∀ m, Stopped (Script.found others s m)) →
        Script.Untouched others outs (execute cmd session) 0 0 s →
          inDates (rowAt others s 0) (outs 0) (outs 1) = false ∨ Dies cmd session ∨
            Idle cmd (outs 2) (rowAt others s))) ∧
    ∀ coh : Coh, (∀ (others : ℕ → Lsc → Lsc) (outs : ℕ → ℕ) (s : Lsc),
      KeepsRead others outs (connectionInit cmd coh) False 0 0 s) ↔ NoRepeat cmd coh := by
  refine ⟨fun session others outs s => ⟨untouched_execute cmd, idle_of_untouched cmd⟩,
    fun coh => ⟨fun h => ?_, ?_⟩⟩
  · by_contra hc
    exact not_keepsRead cmd coh hc (h _ _ _)
  · exact fun h others outs s => keepsRead_of_noRepeat cmd coh h s

/-- A row that was stopped. -/
def stoppedRow (uploaded : StepState) : Lsc :=
  ⟨{ dispatchedRow copyAndStart with currentState := .stop, uploaded := uploaded }, [], []⟩

/-- A row whose copy has failed, and that the operator has stopped. -/
theorem stopped_row_kept_failed :
    Script.Untouched (fun _ s => s) (fun _ => 0) (execute copyAndStart false) 0 0 (stoppedRow .failed) := by
  refine ((stopped_row_kept copyAndStart).1 _ _ _ _).1 (.inr (.inr ⟨?_, ?_, ?_, ?_, rfl, ?_, .inl rfl⟩)) <;>
    decide

/-- A row that is stopped before its files are copied: they are copied all the same. -/
theorem stopped_row_started :
    ¬∀ (cmd : LscCommand) (session : Bool) (others : ℕ → Lsc → Lsc) (outs : ℕ → ℕ) (s : Lsc),
    Stopped (others 0 s) → Script.Untouched others outs (execute cmd session) 0 0 s := by
  intro h
  have hs := h copyAndStart false (fun _ s => s) (fun _ => 0) (stoppedRow .todo) (.inl rfl)
  exact absurd hs.2.2.1 (by decide)

end LinboxRescue
