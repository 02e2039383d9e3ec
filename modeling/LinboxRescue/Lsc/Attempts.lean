import LinboxRescue.Lsc.Progress

/-!
# Connection attempts (`connection_init`, `src/webmin/lsc/include/command_launcher.inc.php`)

A launch that fails to connect is to use up one of the attempts of its row. There are two exits of
`connection_init` at which it does not: a host that is not in the list, and a session with errors
after the host was woken up, in which the steps are started.

1. `leads_execute`: the steps leave the attempts as they are.
2. `launch_spared`, `launch_failed`: how a launch ends, for each exit.
3. `attempts_bounded_iff`: in which runs every failed launch is counted.
-/

namespace LinboxRescue

/-! ## Launches -/

/-- A launch by the scheduler: its process, the time, and what it is answered. -/
structure Launch where
  pid : ℤ
  now : ℕ
  answers : ℕ → ℕ

/-- The row after the launch. -/
def Launch.after (l : Launch) (cmd : LscCommand) (s : Lsc) : Lsc :=
  ((startCommandOnHost cmd l.pid).alone l.answers 0 s).2

/-- A session with `ping_error` false and `errors` 0 is obtained: the host is in the list, the date of
the row is not left to be set, and the first session is one, or the one after waking up the host. -/
def Launch.Connects (l : Launch) (cmd : LscCommand) (r : Coh) : Prop :=
  l.answers 0 ≠ 0 ∧ ¬(r.nextLaunchDate = 0 ∧ r.startDate ≠ 0) ∧
    (l.answers 1 = 0 ∧ l.answers 2 = 0 ∨
      l.answers 1 ≠ 0 ∧ cmd.wakeOnLanEnable = true ∧ l.answers 3 = 0 ∧ l.answers 4 = 0)

instance (l : Launch) (cmd : LscCommand) (r : Coh) : Decidable (l.Connects cmd r) :=
  inferInstanceAs (Decidable (_ ∧ _))

/-- The host is in the list; and it is not one that answers after it was woken up, in a session that has
errors. -/
def Launch.Counted (l : Launch) (cmd : LscCommand) : Prop :=
  l.answers 0 ≠ 0 ∧
    ¬(l.answers 1 ≠ 0 ∧ cmd.wakeOnLanEnable = true ∧ l.answers 3 = 0 ∧ l.answers 4 ≠ 0)

instance (l : Launch) (cmd : LscCommand) : Decidable (l.Counted cmd) :=
  inferInstanceAs (Decidable (_ ∧ _))

/-- Each launch is one of a row that is selected, and does not repeat the command. -/
def Launched (cmd : LscCommand) : Lsc → List Launch → Prop
  | _, [] => True
  | s, l :: ls => s.row.selected l.now = true ∧ .repeated ∉ (l.after cmd s).log ∧
    Launched cmd (l.after cmd s) ls

/-- One attempt is used up, and nothing is started on the host. -/
def Lowers (s s' : Lsc) : Prop := s'.row.attempts = s.row.attempts - 1 ∧ s'.log = s.log

/-- Attempts are never negative, and a launch that does not connect uses one up. -/
def CountsAttempts (cmd : LscCommand) : Lsc → List Launch → Prop
  | s, [] => 0 ≤ s.row.attempts
  | s, l :: ls => 0 ≤ s.row.attempts ∧ (¬l.Connects cmd s.row → Lowers s (l.after cmd s)) ∧
    CountsAttempts cmd (l.after cmd s) ls

/-- How many launches do not connect. -/
def failures (cmd : LscCommand) : Lsc → List Launch → ℕ
  | _, [] => 0
  | s, l :: ls => (if l.Connects cmd s.row then 0 else 1) + failures cmd (l.after cmd s) ls

/-- The row as it was dispatched. -/
def Lsc.dispatched (cmd : LscCommand) : Lsc := ⟨dispatchedRow cmd, [], []⟩

/-! ## The steps -/

/-- Unless the command is repeated, the attempts and the dates stay as they are. -/
def Spared (s s' : Lsc) : Prop :=
  s.log <+: s'.log ∧ (.repeated ∈ s'.log ∨ (s'.row.attempts = s.row.attempts ∧
    s'.row.startDate = s.row.startDate ∧ s'.row.nextLaunchDate = s.row.nextLaunchDate))

theorem Spared.refl (s : Lsc) : Spared s s := ⟨List.prefix_rfl, .inr ⟨rfl, rfl, rfl⟩⟩

theorem Spared.trans (a b c : Lsc) (h : Spared a b) (h' : Spared b c) : Spared a c := by
  refine ⟨h.1.trans h'.1, ?_⟩
  obtain hr | ⟨hatt, hstart, hnext⟩ := h.2
  · exact .inl (h'.1.subset hr)
  · obtain hr | ⟨hatt', hstart', hnext'⟩ := h'.2
    · exact .inl hr
    · exact .inr ⟨hatt'.trans hatt, hstart'.trans hstart, hnext'.trans hnext⟩

section Steps

variable {α β : Type} (cmd : LscCommand)

abbrev Spares (p : LscM α) : Prop := Script.Leads Spared p

theorem spares_pure (a : α) : Spares (pure a : LscM α) := .pure Spared.refl a

theorem spares_bind {p : LscM α} {g : α → LscM β} (hp : Spares p) (hg : ∀ a, Spares (g a)) :
    Spares (p >>= g) := .bind Spared.trans hp hg

theorem spares_answer : Spares (Script.answer : LscM ℕ) := .answer Spared.refl

theorem spares_refresh : Spares refresh := by
  rintro s _ rfl
  exact ⟨trivial, Script.Ends.pure (Spared.refl s)⟩

/-- An update of another column. -/
theorem spares_updateRow {f : Coh → Coh} {g : Unit → LscM α} (hatt : ∀ r, (f r).attempts = r.attempts)
    (hstart : ∀ r, (f r).startDate = r.startDate)
    (hnext : ∀ r, (f r).nextLaunchDate = r.nextLaunchDate) (hg : Spares (g ())) :
    Spares (updateRow f >>= g) :=
  spares_bind (.write fun s =>
    ⟨List.prefix_rfl, .inr ⟨hatt s.row, hstart s.row, hnext s.row⟩⟩) fun _ => hg

theorem spares_setState {st : CohState} {g : Unit → LscM α} (hg : Spares (g ())) :
    Spares (setCurrentState st >>= g) :=
  spares_updateRow (fun _ => rfl) (fun _ => rfl) (fun _ => rfl) hg

theorem spares_perform (d : Deed) : Spares (perform d) :=
  .write fun _ => ⟨List.prefix_append _ _, .inr ⟨rfl, rfl, rfl⟩⟩

/-- A step with its state: started, and marked by its result. -/
theorem spares_attempt {d : Deed} {st st' : CohState} {x x' : StepState} {a b : α}
    {set : StepState → LscM Unit} (hset : ∀ x {β : Type} {g : Unit → LscM β}, Spares (g ()) →
      Spares (set x >>= g)) : Spares (do
        perform d
        if (← Script.answer) = 0 then
          setCurrentState st
          set x
          return a
        else
          setCurrentState st'
          set x'
          return b) :=
  spares_bind (spares_perform d) fun _ => spares_bind spares_answer fun _ => .ite
    (spares_setState (hset x (spares_pure a))) (spares_setState (hset x' (spares_pure b)))

theorem spares_setUploadedState (x : StepState) {g : Unit → LscM α} (hg : Spares (g ())) :
    Spares (setUploadedState x >>= g) :=
  spares_updateRow (fun _ => rfl) (fun _ => rfl) (fun _ => rfl) hg

theorem spares_setExecutedState (x : StepState) {g : Unit → LscM α} (hg : Spares (g ())) :
    Spares (setExecutedState x >>= g) :=
  spares_updateRow (fun _ => rfl) (fun _ => rfl) (fun _ => rfl) hg

theorem spares_setDeletedState (x : StepState) {g : Unit → LscM α} (hg : Spares (g ())) :
    Spares (setDeletedState x >>= g) :=
  spares_updateRow (fun _ => rfl) (fun _ => rfl) (fun _ => rfl) hg

theorem leads_uploadStep : Spares (uploadStep cmd) := by
  have hcopy : Spares (filesCopy cmd) := .ite
    (spares_setState (spares_setUploadedState _
      (spares_attempt fun x _ _ => spares_setUploadedState x)))
    (spares_pure _)
  exact spares_bind spares_refresh fun coh => .ite
    (.ite hcopy (spares_setState (spares_setUploadedState _ (spares_pure _)))) (spares_pure _)

theorem leads_executionStep : Spares (executionStep cmd) := by
  have hstart : Spares (fileStart cmd) := .ite
    (spares_setState (spares_setExecutedState _
      (spares_attempt fun x _ _ => spares_setExecutedState x)))
    (spares_pure _)
  exact spares_bind spares_refresh fun coh => .ite
    (.ite hstart (spares_setState (spares_setExecutedState _ (spares_pure _)))) (spares_pure _)

theorem leads_deletionStep : Spares (deletionStep cmd) := by
  have hdelete : Spares filesDelete :=
    spares_setState (spares_setDeletedState _ (spares_attempt fun x _ _ => spares_setDeletedState x))
  have hignored : Spares (do setCurrentState .deleteDone; setDeletedState .ignored; return false) :=
    spares_setState (spares_setDeletedState _ (spares_pure _))
  exact spares_bind spares_refresh fun coh =>
    .ite (.ite hdelete hignored) (.ite hignored (spares_pure _))

theorem leads_inventoryStep : Spares (inventoryStep cmd) :=
  spares_bind spares_refresh fun _ => .ite
    (spares_bind (spares_perform _) fun _ => spares_bind spares_answer fun _ => spares_pure _)
    (spares_pure _)

/-- Nothing is done, or the whole row is written and the repeat is logged. -/
theorem ends_repeatResched (coh : Coh) (s : Lsc) :
    Script.Ends (fun _ s' => s' = s ∨ (s.log <+: s'.log ∧ .repeated ∈ s'.log))
      (repeatResched cmd coh) s := by
  refine .ite (fun _ => .pure (.inl rfl)) fun _ => .answer fun now => .ite (fun _ => .pure (.inl rfl))
    fun _ => Script.Ends.write (ends_refresh ?_)
  rintro _ rfl
  refine ⟨trivial, Script.Ends.pure (.inr ⟨List.prefix_append _ _, ?_⟩)⟩
  exact List.mem_append_right _ (List.mem_singleton_self _)

theorem leads_repeatResched (coh : Coh) : Spares (repeatResched cmd coh) := fun s =>
  (ends_repeatResched cmd coh s).mono fun _ s' h => by
    obtain rfl | ⟨hlog, hr⟩ := h
    · exact Spared.refl s'
    · exact ⟨hlog, .inl hr⟩

theorem leads_finishStep : Spares (finishStep cmd) :=
  spares_bind spares_refresh fun coh => .ite (spares_setState (leads_repeatResched cmd coh))
    (leads_repeatResched cmd coh)

theorem leads_executeSteps : Spares (executeSteps cmd) := by
  unfold executeSteps
  refine spares_bind (leads_uploadStep cmd) fun _ => .ite (spares_pure _) ?_
  refine spares_bind (leads_executionStep cmd) fun _ => .ite (spares_pure _) ?_
  refine spares_bind (leads_deletionStep cmd) fun _ => .ite (spares_pure _) ?_
  exact spares_bind (leads_inventoryStep cmd) fun _ => leads_finishStep cmd

theorem leads_execute (session : Bool) : Spares (execute cmd session) := by
  unfold execute
  refine spares_bind spares_refresh fun coh => .ite (spares_pure _) ?_
  refine spares_bind spares_answer fun now => spares_bind spares_answer fun now' => ?_
  refine .ite (.ite (spares_pure _) ?_) (spares_pure _)
  exact spares_bind (leads_executeSteps cmd) fun _ => spares_pure _

theorem leads_free (pid : ℤ) : Spares (free pid) :=
  .write fun _ => ⟨List.prefix_rfl, .inr ⟨rfl, rfl, rfl⟩⟩

theorem leads_free_free (pid : ℤ) : Spares (do free pid; free pid : LscM Unit) :=
  spares_bind (leads_free pid) fun _ => leads_free pid

theorem leads_launch (pid : ℤ) (session : Bool) : Spares (launch cmd pid session) :=
  spares_bind (leads_execute cmd session) fun _ => .ite
    (.write fun _ => ⟨List.prefix_rfl, .inr ⟨rfl, rfl, rfl⟩⟩) (leads_free_free pid)

end Steps

/-! ## The exits of `connection_init` -/

/-- After a failed connection: unless the command is repeated, one attempt is used up, the start date
stays as it is, and a date that was there is not taken away. -/
def Failed (s s' : Lsc) : Prop :=
  s.log <+: s'.log ∧ (.repeated ∈ s'.log ∨ (Lowers s s' ∧ s'.row.startDate = s.row.startDate ∧
    (s'.row.nextLaunchDate = 0 → s.row.nextLaunchDate = 0)))

section Exits

variable {cmd : LscCommand} {s : Lsc} {outs : ℕ → ℕ}

theorem ends_failed {coh : Coh} (hatt : coh.attempts = s.row.attempts)
    (hnext : coh.nextLaunchDate = s.row.nextLaunchDate) :
    Script.Ends (fun _ => Failed s) (connectionError cmd coh) s := by
  -- from the state in which the attempts and perhaps the date are set
  have hrest : ∀ t : Lsc, Lowers s t → t.row.startDate = s.row.startDate →
      (t.row.nextLaunchDate = 0 → s.row.nextLaunchDate = 0) → Script.Ends (fun _ => Failed s) (do
        if coh.attempts - 1 > 0 then
          updateRow fun r =>
            { r with nextLaunchDate := r.nextLaunchDate + 60 * cmd.nextConnectionDelay }
          let _ ← refresh
        else
          repeatResched cmd coh : LscM Unit) t := by
    intro t hlow hstart hdate
    refine Script.Ends.ite (fun _ => ?_) fun _ => ?_
    · refine Script.Ends.write (ends_refresh (Script.Ends.pure ⟨?_, .inr ⟨hlow, hstart, fun h => ?_⟩⟩))
      · exact hlow.2 ▸ List.prefix_rfl
      · exact hdate (Nat.eq_zero_of_add_eq_zero_right h)
    · refine (ends_repeatResched cmd coh t).mono fun _ u hu => ?_
      obtain rfl | ⟨hlog, hr⟩ := hu
      · exact ⟨hlow.2 ▸ List.prefix_rfl, .inr ⟨hlow, hstart, hdate⟩⟩
      · exact ⟨hlow.2 ▸ hlog, .inl hr⟩
  unfold connectionError
  refine Script.Ends.write (Script.Ends.write ?_)
  refine Script.Ends.ite (fun hzero => ?_) fun _ => ?_
  · refine Script.Ends.answer fun now => Script.Ends.write (hrest _ ⟨?_, rfl⟩ rfl fun _ => ?_)
    · exact congrArg (· - 1) hatt
    · exact hnext ▸ hzero
  · exact hrest _ ⟨congrArg (· - 1) hatt, rfl⟩ rfl id

/-- The host is not in the list. -/
theorem connectionInit_unknown {coh : Coh} (h : outs 0 = 0) :
    (connectionInit cmd coh).alone outs 0 s =
      (none, s.setRow fun r => { r with currentState := .notReachable }) := by
  show Script.alone outs (if outs 0 = 0 then _ else _) 1 s = _
  rw [if_pos h]
  rfl

/-- The row waits for a session: it has attempts left, is not stopped, and its date is set. -/
structure Coh.Waiting (r : Coh) : Prop where
  attempts : 0 < r.attempts
  running : ¬(r.currentState = .stop ∨ r.currentState = .pause)
  dated : ¬(r.nextLaunchDate = 0 ∧ r.startDate ≠ 0)

/-- The rest of `connection_init`, from the first session on. -/
def askSession (cmd : LscCommand) (coh : Coh) : LscM (Option Bool) := do
  let (pingError, errors) ← newSession
  if pingError = false ∧ errors = false then
    setCurrentState .scheduled
    return some true
  if pingError ∧ cmd.wakeOnLanEnable then
    let (pingError, _) ← newSession
    if pingError = false then
      setCurrentState .scheduled
      return some true
    else
      connectionError cmd coh
      return none
  else
    connectionError cmd coh
    return none

theorem connectionInit_known {coh : Coh} (h : outs 0 ≠ 0) (hw : coh.Waiting)
    (hrun : ¬(s.row.currentState = .stop ∨ s.row.currentState = .pause)) :
    (connectionInit cmd coh).alone outs 0 s = (askSession cmd coh).alone outs 1 s := by
  show Script.alone outs (if outs 0 = 0 then _ else if coh.attempts ≤ 0 then _ else _) 1 s = _
  rw [if_neg h, if_neg (not_le.mpr hw.attempts)]
  show Script.alone outs (if s.row.currentState = .stop ∨ s.row.currentState = .pause then _ else
    if coh.nextLaunchDate = 0 ∧ coh.startDate ≠ 0 then _ else _) 1 s = _
  rw [if_neg hrun, if_neg hw.dated]
  rfl

/-- The first session is good, or the host answers after it was woken up. -/
def Answered (cmd : LscCommand) (outs : ℕ → ℕ) : Prop :=
  outs 1 = 0 ∧ outs 2 = 0 ∨ outs 1 ≠ 0 ∧ cmd.wakeOnLanEnable = true ∧ outs 3 = 0

theorem askSession_answered {coh : Coh} (h : Answered cmd outs) :
    (askSession cmd coh).alone outs 1 s =
      (some true, s.setRow fun r => { r with currentState := .scheduled }) := by
  show Script.alone outs (if decide (outs 1 ≠ 0) = false ∧ decide (outs 2 ≠ 0) = false then _ else
    if decide (outs 1 ≠ 0) = true ∧ cmd.wakeOnLanEnable = true then _ else _) 3 s = _
  obtain ⟨h1, h2⟩ | ⟨h1, hwake, h3⟩ := h
  · rw [if_pos ⟨by simpa using h1, by simpa using h2⟩]
    rfl
  · rw [if_neg (fun hc => h1 (by simpa using hc.1)), if_pos ⟨by simpa using h1, hwake⟩]
    show Script.alone outs (if decide (outs 3 ≠ 0) = false then _ else _) 5 s = _
    rw [if_pos (by simpa using h3)]
    rfl

theorem askSession_failed {coh : Coh} (h : ¬Answered cmd outs) :
    ∃ n, (askSession cmd coh).alone outs 1 s =
      (none, ((connectionError cmd coh).alone outs n s).2) := by
  have herror : ∀ n, ∃ m, ((do connectionError cmd coh; return none : LscM (Option Bool)).alone outs n s) =
      (none, ((connectionError cmd coh).alone outs m s).2) := by
    intro n
    obtain ⟨m, hm⟩ := Script.alone_bind outs (connectionError cmd coh)
      (fun _ => (pure none : LscM (Option Bool))) n s
    exact ⟨n, hm⟩
  show ∃ n, Script.alone outs (if decide (outs 1 ≠ 0) = false ∧ decide (outs 2 ≠ 0) = false then _ else
    if decide (outs 1 ≠ 0) = true ∧ cmd.wakeOnLanEnable = true then _ else _) 3 s = _
  rw [if_neg fun hc => h (.inl ⟨by simpa using hc.1, by simpa using hc.2⟩)]
  split_ifs with hwake
  · show ∃ n, Script.alone outs (if decide (outs 3 ≠ 0) = false then _ else _) 5 s = _
    rw [if_neg fun hc => h (.inr ⟨by simpa using hwake.1, hwake.2, by simpa using hc⟩)]
    exact herror 5
  · exact herror 3

end Exits

/-! ## Launches, one by one -/

section Launches

variable {cmd : LscCommand} {s : Lsc} {l : Launch}

/-- What `selected` says of a row. -/
theorem selected_spec {r : Coh} {now : ℕ} (h : r.selected now = true) :
    r.currentState ∉ CohState.kept ∧ 0 < r.attempts ∧ r.currentPid = -1 := by
  unfold Coh.selected at h
  simp only [Bool.and_eq_true, Bool.not_eq_true', decide_eq_true_eq] at h
  exact ⟨fun hc => Bool.false_ne_true (h.1.1.1 ▸ List.contains_iff_mem.mpr hc), h.1.1.2, h.1.2⟩

/-- The row with the pid of the launcher. -/
def Lsc.held (s : Lsc) (pid : ℤ) : Lsc :=
  { s with row := { s.row with currentPid := pid }, holders := pid :: s.holders }

/-- The rest of a launch after `connection_init`. -/
def afterInit (cmd : LscCommand) (pid : ℤ) : Option Bool → LscM Unit
  | none => do
    free pid
    free pid
  | some session => launch cmd pid session

theorem leads_afterInit (pid : ℤ) (connection : Option Bool) : Spares (afterInit cmd pid connection) := by
  cases connection with
  | none => exact leads_free_free pid
  | some session => exact leads_launch cmd pid session

/-- A launch is `connection_init`, and what its result leads to. -/
theorem after_of_init (h : s.row.selected l.now = true) {t : Lsc} {b : Option Bool}
    (ht : (connectionInit cmd s.row).alone l.answers 0 (s.held l.pid) = (b, t)) :
    ∃ m, l.after cmd s = ((afterInit cmd l.pid b).alone l.answers m t).2 := by
  obtain ⟨hstate, -, hpid⟩ := selected_spec h
  have hdone : s.row.currentState ≠ .done := fun e => hstate (e ▸ by decide)
  have hstart : l.after cmd s =
      ((connectionInit cmd s.row >>= afterInit cmd l.pid).alone l.answers 0 (s.held l.pid)).2 := by
    unfold Launch.after startCommandOnHost
    show (Script.alone l.answers (if s.row.currentState = .done then _ else _) 0 s).2 = _
    rw [if_neg hdone]
    show (Script.alone l.answers (if s.row.currentPid = -1 then _ else _) 0
      (if s.row.currentPid = -1 then _ else _)).2 = _
    rw [if_pos hpid, if_pos hpid]
    rfl
  obtain ⟨m, hm⟩ := Script.alone_bind l.answers (connectionInit cmd s.row) (afterInit cmd l.pid) 0
    (s.held l.pid)
  exact ⟨m, by rw [hstart, hm, ht]⟩

theorem Coh.Waiting.of_selected (h : s.row.selected l.now = true)
    (hd : ¬(s.row.nextLaunchDate = 0 ∧ s.row.startDate ≠ 0)) : s.row.Waiting := by
  obtain ⟨hstate, hatt, -⟩ := selected_spec h
  refine ⟨hatt, ?_, hd⟩
  rintro (e | e) <;> exact hstate (e ▸ by decide)

/-- Nothing is counted if the host is not in the list, or if it answers. -/
theorem launch_spared (h : s.row.selected l.now = true)
    (hd : ¬(s.row.nextLaunchDate = 0 ∧ s.row.startDate ≠ 0))
    (ha : l.answers 0 = 0 ∨ Answered cmd l.answers) : Spared s (l.after cmd s) := by
  have hinit : ∃ b st, (connectionInit cmd s.row).alone l.answers 0 (s.held l.pid) =
      (b, (s.held l.pid).setRow fun r => { r with currentState := st }) := by
    by_cases h0 : l.answers 0 = 0
    · exact ⟨_, _, connectionInit_unknown h0⟩
    · have hw := Coh.Waiting.of_selected h hd
      exact ⟨_, _, (connectionInit_known (s := s.held l.pid) h0 hw hw.running).trans
        (askSession_answered (ha.resolve_left h0))⟩
  obtain ⟨b, st, hinit⟩ := hinit
  obtain ⟨m, hm⟩ := after_of_init h hinit
  have hrow : Spared s ((s.held l.pid).setRow fun r => { r with currentState := st }) :=
    ⟨List.prefix_rfl, .inr ⟨rfl, rfl, rfl⟩⟩
  rw [hm]
  exact hrow.trans _ _ _ ((leads_afterInit l.pid b _).alone l.answers m)

/-- Otherwise one attempt is used up. -/
theorem launch_failed (h : s.row.selected l.now = true)
    (hd : ¬(s.row.nextLaunchDate = 0 ∧ s.row.startDate ≠ 0))
    (h0 : l.answers 0 ≠ 0) (ha : ¬Answered cmd l.answers) : Failed s (l.after cmd s) := by
  have hw := Coh.Waiting.of_selected h hd
  obtain ⟨n, hn⟩ := @askSession_failed cmd (s.held l.pid) l.answers s.row ha
  obtain ⟨m, hm⟩ := after_of_init h ((connectionInit_known (s := s.held l.pid) h0 hw
    hw.running).trans hn)
  have herror : Failed (s.held l.pid)
      ((connectionError cmd s.row).alone l.answers n (s.held l.pid)).2 :=
    (ends_failed rfl rfl).alone l.answers n
  rw [hm]
  -- the pid is taken out of the row
  exact herror

/-! ## Runs -/

/-- A launch of a row whose date is set. -/
theorem launch_step (h : s.row.selected l.now = true)
    (hd : ¬(s.row.nextLaunchDate = 0 ∧ s.row.startDate ≠ 0)) (hr : .repeated ∉ (l.after cmd s).log) :
    ¬((l.after cmd s).row.nextLaunchDate = 0 ∧ (l.after cmd s).row.startDate ≠ 0) ∧
      (if l.Counted cmd ∧ ¬l.Connects cmd s.row then Lowers s (l.after cmd s)
        else (l.after cmd s).row.attempts = s.row.attempts) ∧
      (¬l.Counted cmd → ¬l.Connects cmd s.row) := by
  have hlost : ¬l.Counted cmd → ¬l.Connects cmd s.row := by
    rintro hc ⟨h0, -, hs⟩
    refine hc ⟨h0, fun hbad => ?_⟩
    obtain ⟨h1, -⟩ | ⟨-, -, -, h4⟩ := hs
    · exact hbad.1 h1
    · exact hbad.2.2.2 h4
  by_cases hspared : l.answers 0 = 0 ∨ Answered cmd l.answers
  · obtain ⟨hatt, hstart, hnext⟩ := (launch_spared h hd hspared).2.resolve_left hr
    refine ⟨by rwa [hstart, hnext], ?_, hlost⟩
    rw [if_neg, hatt]
    rintro ⟨⟨h0, hbad⟩, hcon⟩
    refine hcon ⟨h0, hd, (hspared.resolve_left h0).imp id fun ⟨h1, hwake, h3⟩ => ⟨h1, hwake, h3, ?_⟩⟩
    by_contra h4
    exact hbad ⟨h1, hwake, h3, h4⟩
  · obtain ⟨h0, ha⟩ := not_or.mp hspared
    obtain ⟨hlow, hstart, hnext⟩ := (launch_failed h hd h0 ha).2.resolve_left hr
    refine ⟨fun hc => hd ⟨hnext hc.1, hstart ▸ hc.2⟩, ?_, hlost⟩
    rw [if_pos]
    · exact hlow
    · refine ⟨⟨h0, fun hbad => ha (.inr ⟨hbad.1, hbad.2.1, hbad.2.2.1⟩)⟩, ?_⟩
      rintro ⟨-, -, hs⟩
      exact ha (hs.imp id fun hs => ⟨hs.1, hs.2.1, hs.2.2.1⟩)

theorem countsAttempts_iff {ls : List Launch} (hd : ¬(s.row.nextLaunchDate = 0 ∧ s.row.startDate ≠ 0))
    (h0 : 0 ≤ s.row.attempts) (h : Launched cmd s ls) :
    CountsAttempts cmd s ls ∧ (failures cmd s ls : ℤ) ≤ s.row.attempts ↔ ∀ l ∈ ls, l.Counted cmd := by
  induction ls generalizing s with
  | nil => exact iff_of_true ⟨h0, h0⟩ (List.forall_mem_nil _)
  | cons l ls ih =>
    obtain ⟨hsel, hr, hls⟩ := h
    obtain ⟨hd', hstep, hlost⟩ := launch_step hsel hd hr
    have hatt := (selected_spec hsel).2.1
    rw [List.forall_mem_cons]
    unfold CountsAttempts failures
    by_cases hcon : l.Connects cmd s.row
    · -- the session is good, and the attempts are as before
      have hcounted : l.Counted cmd := by
        by_contra hc
        exact hlost hc hcon
      rw [if_neg fun hc => hc.2 hcon] at hstep
      have hrest := ih hd' (hstep ▸ h0) hls
      rw [if_pos hcon, Nat.zero_add, ← hstep, and_iff_right hcounted, ← hrest, hstep]
      constructor
      · exact fun hc => ⟨hc.1.2.2, hc.2⟩
      · exact fun hc => ⟨⟨h0, fun hn => absurd hcon hn, hc.1⟩, hc.2⟩
    · rw [if_neg hcon]
      by_cases hcounted : l.Counted cmd
      · -- one attempt less, and one failure less
        rw [if_pos ⟨hcounted, hcon⟩] at hstep
        have hrest := ih hd' (by rw [hstep.1]; omega) hls
        rw [and_iff_right hcounted, ← hrest, hstep.1]
        push_cast
        constructor
        · exact fun hc => ⟨hc.1.2.2, by omega⟩
        · exact fun hc => ⟨⟨h0, fun _ => hstep, hc.1⟩, by omega⟩
      · -- the attempts are as before, although the launch has failed
        rw [if_neg fun hc => hcounted hc.1] at hstep
        refine iff_of_false (fun hc => ?_) fun hc => hcounted hc.1
        have hlow := (hc.1.2.1 hcon).1
        omega

end Launches

/-- **Attempts are counted** in a run exactly if each of its launches finds the host in the list, and
none gets a session with errors after the host was woken up. -/
theorem attempts_bounded_iff (cmd : LscCommand) (hm : 0 ≤ cmd.maxConnectionAttempt) (ls : List Launch)
    (h : Launched cmd (.dispatched cmd) ls) :
    CountsAttempts cmd (.dispatched cmd) ls ∧
        (failures cmd (.dispatched cmd) ls : ℤ) ≤ cmd.maxConnectionAttempt ↔
      ∀ l ∈ ls, l.Counted cmd :=
  countsAttempts_iff (fun hc => hc.2 hc.1) hm h

/-- The host does not answer. -/
def silentHost : Launch := ⟨100, 1, fun _ => 1⟩

/-- An hour later it does. -/
def answeringHost : Launch := ⟨101, 3601, fun n => if n = 0 then 1 else 0⟩

theorem attempts_bounded_iff_silentHost :
    CountsAttempts copyAndStart (.dispatched copyAndStart) [silentHost, answeringHost] ∧
        (failures copyAndStart (.dispatched copyAndStart) [silentHost, answeringHost] : ℤ) ≤ 3 ↔
      ∀ l ∈ [silentHost, answeringHost], l.Counted copyAndStart :=
  attempts_bounded_iff copyAndStart (by decide) [silentHost, answeringHost]
    ⟨by decide, by decide, by decide, by decide, trivial⟩

/-- The host is not in the list. -/
def unknownHost : Launch := ⟨100, 1, fun _ => 0⟩

/-- The host answers after it was woken up, but the session has errors. -/
def wokenHost : Launch := ⟨100, 1, fun n => if n = 0 ∨ n = 1 ∨ n = 4 then 1 else 0⟩

/-- The host is to be woken up. -/
def wakeAndCopy : LscCommand := { copyAndStart with wakeOnLanEnable := true }

/-- With three attempts, a fourth launch does not find the host either; and files are copied to a host
with which there is no good session. -/
theorem attempts_not_counted :
    (Launched copyAndStart (.dispatched copyAndStart) (List.replicate 4 unknownHost) ∧
      failures copyAndStart (.dispatched copyAndStart) (List.replicate 4 unknownHost) = 4 ∧
      ¬CountsAttempts copyAndStart (.dispatched copyAndStart) (List.replicate 4 unknownHost)) ∧
    (Lsc.dispatched wakeAndCopy).row.selected 1 = true ∧
    ¬wokenHost.Connects wakeAndCopy (Lsc.dispatched wakeAndCopy).row ∧
    Deed.upload ∈ (wokenHost.after wakeAndCopy (.dispatched wakeAndCopy)).log := by
  refine ⟨⟨?_, by decide, fun h => absurd (h.2.1 (by decide)).1 (by decide)⟩, by decide⟩
  exact ⟨by decide, by decide, by decide, by decide, by decide, by decide, by decide, by decide,
    trivial⟩

end LinboxRescue
