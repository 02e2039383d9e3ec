import LinboxRescue.Lsc.Scheduler

/-!
# Rows that are launched again and again

A step that fails is noted in its own column and in the state of the row. `set_play` makes such a
step `TODO` again if the state says that it has failed.

1. `AtRest`: a row between two actions. It is to be launched, a step has failed and the state says
   so, or all is done.
2. `ends_uploadStep`, …, `ends_startCommandOnHost`: how a launcher that runs alone leaves a row that
   is to be launched.
3. `selected_has_work`: a row that is selected has a step to do and none that has failed, if a row
   with a failed step is neither paused nor launched.
-/

namespace LinboxRescue

/-! ## Rows between two actions -/

/-- The row is to be launched. -/
structure Pending (r : Coh) : Prop where
  uploaded : r.uploaded = .todo ∨ r.uploaded.isOver = true
  executed : r.executed = .todo ∨ r.executed.isOver = true ∧ r.uploaded.isOver = true
  deleted : r.deleted = .todo
  state : r.currentState.plain = true

def UploadFailed (r : Coh) : Prop :=
  r.currentState = .uploadFailed ∧ r.uploaded = .failed ∧ r.executed = .todo ∧ r.deleted = .todo

def ExecutionFailed (r : Coh) : Prop :=
  r.currentState = .executionFailed ∧ r.uploaded.isOver = true ∧ r.executed = .failed ∧ r.deleted = .todo

def DeleteFailed (r : Coh) : Prop :=
  r.currentState = .deleteFailed ∧ r.uploaded.isOver = true ∧ r.executed.isOver = true ∧ r.deleted = .failed

/-- A row between two actions. -/
def AtRest (r : Coh) : Prop :=
  Pending r ∨ UploadFailed r ∨ ExecutionFailed r ∨ DeleteFailed r ∨ r.currentState = .done

variable {r : Coh}

theorem Pending.setState (h : Pending r) {st : CohState} (hst : st.plain = true) :
    Pending { r with currentState := st } := ⟨h.uploaded, h.executed, h.deleted, hst⟩

/-- An update of the other columns. -/
theorem Pending.congr {r' : Coh} (h : Pending r) (hst : r'.currentState = r.currentState)
    (hu : r'.uploaded = r.uploaded) (he : r'.executed = r.executed) (hd : r'.deleted = r.deleted) :
    Pending r' := by
  obtain ⟨h1, h2, h3, h4⟩ := h
  constructor <;> simp only [hst, hu, he, hd] <;> assumption

/-! ## The launcher, alone -/

section Launcher

variable (cmd : LscCommand) {s : Lsc}

theorem ends_refresh {α : Type} {Q : α → Lsc → Prop} {g : Coh → LscM α} (h : Script.Ends Q (g s.row) s) :
    Script.Ends Q (refresh >>= g) s := by
  rintro _ rfl
  exact ⟨trivial, h⟩

theorem ends_filesCopy (hf : cmd.files ≠ []) (he : s.row.executed = .todo) (hd : s.row.deleted = .todo) :
    Script.Ends (fun failed s => (failed = true ∧ UploadFailed s.row) ∨
      (failed = false ∧ Pending s.row ∧ s.row.uploaded.isOver = true)) (filesCopy cmd) s := by
  unfold filesCopy
  rw [if_pos hf]
  refine .write (.write (.write (.answer fun o => ?_)))
  split_ifs
  · exact .write (.write (.pure (.inr ⟨rfl, ⟨.inr rfl, .inl he, hd, rfl⟩, rfl⟩)))
  · exact .write (.write (.pure (.inl ⟨rfl, rfl, rfl, he, hd⟩)))

theorem ends_fileStart (hs : cmd.startScriptEnable = true) (hu : s.row.uploaded.isOver = true)
    (hd : s.row.deleted = .todo) :
    Script.Ends (fun failed s => (failed = true ∧ ExecutionFailed s.row) ∨
      (failed = false ∧ Pending s.row ∧ s.row.executed.isOver = true)) (fileStart cmd) s := by
  unfold fileStart
  rw [if_pos hs]
  refine .write (.write (.write (.answer fun o => ?_)))
  split_ifs
  · exact .write (.write (.pure (.inr ⟨rfl, ⟨.inr hu, .inr ⟨rfl, hu⟩, hd, rfl⟩, rfl⟩)))
  · exact .write (.write (.pure (.inl ⟨rfl, rfl, hu, rfl, hd⟩)))

/-- All three steps are over. -/
def AllOver (r : Coh) : Prop :=
  r.uploaded.isOver = true ∧ r.executed.isOver = true ∧ r.deleted.isOver = true

theorem ends_filesDelete (hu : s.row.uploaded.isOver = true) (he : s.row.executed.isOver = true) :
    Script.Ends (fun failed s => (failed = true ∧ DeleteFailed s.row) ∨ (failed = false ∧ AllOver s.row))
      filesDelete s := by
  unfold filesDelete
  refine .write (.write (.write (.answer fun o => ?_)))
  split_ifs
  · exact .write (.write (.pure (.inr ⟨rfl, hu, he, rfl⟩)))
  · exact .write (.write (.pure (.inl ⟨rfl, rfl, hu, he, rfl⟩)))

theorem ends_uploadStep (h : Pending s.row) :
    Script.Ends (fun failed s => (failed = true ∧ UploadFailed s.row) ∨
      (failed = false ∧ Pending s.row ∧ s.row.uploaded.isOver = true)) (uploadStep cmd) s := by
  have hex : s.row.uploaded = .todo → s.row.executed = .todo := by
    refine fun hu => h.executed.resolve_right fun hc => ?_
    rw [hu] at hc
    exact absurd hc.2 (by decide)
  unfold uploadStep
  refine ends_refresh ?_
  split_ifs with hu hf
  · exact ends_filesCopy cmd hf (hex hu.1) h.deleted
  · exact .write (.write (.pure (.inr ⟨rfl, ⟨.inr rfl, .inl (hex hu.1), h.deleted, rfl⟩, rfl⟩)))
  · refine .pure (.inr ⟨rfl, h, h.uploaded.resolve_left fun hc => hu ⟨hc, by decide⟩⟩)

theorem ends_executionStep (h : Pending s.row) (hu : s.row.uploaded.isOver = true) :
    Script.Ends (fun failed s => (failed = true ∧ ExecutionFailed s.row) ∨
      (failed = false ∧ Pending s.row ∧ s.row.executed.isOver = true)) (executionStep cmd) s := by
  unfold executionStep
  refine ends_refresh ?_
  split_ifs with he hs
  · exact ends_fileStart cmd hs hu h.deleted
  · exact .write (.write (.pure (.inr ⟨rfl, ⟨.inr hu, .inr ⟨rfl, hu⟩, h.deleted, rfl⟩, rfl⟩)))
  · refine .pure (.inr ⟨rfl, h, (h.executed.resolve_left fun hc => he ⟨hu, hc, by decide⟩).1⟩)

theorem ends_deletionStep (h : Pending s.row) (hu : s.row.uploaded.isOver = true)
    (he : s.row.executed.isOver = true) :
    Script.Ends (fun failed s => (failed = true ∧ DeleteFailed s.row) ∨ (failed = false ∧ AllOver s.row))
      (deletionStep cmd) s := by
  unfold deletionStep
  refine ends_refresh ?_
  split_ifs with hd hdel hi
  · exact ends_filesDelete hu he
  · exact .write (.write (.pure (.inr ⟨rfl, hu, he, rfl⟩)))
  · exact .write (.write (.pure (.inr ⟨rfl, hu, he, rfl⟩)))
  · exfalso
    obtain hdone | hignored := isOver_iff.mp hu
    · exact hd ⟨hdone, he, by decide, h.deleted⟩
    · exact hi ⟨hignored, he⟩

theorem ends_inventoryStep {P : Coh → Prop} (h : P s.row) :
    Script.Ends (fun _ s => P s.row) (inventoryStep cmd) s := by
  unfold inventoryStep
  refine ends_refresh ?_
  split_ifs
  · exact .write (.answer fun _ => .pure h)
  · exact .pure h

variable {cmd} (h0 : cmd.repeatHours = 0)

include h0 in
theorem ends_finishStep (h : AllOver s.row) :
    Script.Ends (fun _ s => s.row.currentState = .done) (finishStep cmd) s := by
  obtain ⟨hu, he, hd⟩ := h
  unfold finishStep repeatResched
  refine ends_refresh ?_
  rw [if_pos ⟨hu, he, hd⟩, if_pos h0]
  exact .write (.pure rfl)

include h0 in
theorem ends_executeSteps (h : Pending s.row) :
    Script.Ends (fun _ s => AtRest s.row) (executeSteps cmd) s := by
  unfold executeSteps
  refine .bind ((ends_uploadStep cmd h).mono ?_)
  rintro _ s (⟨rfl, hf⟩ | ⟨rfl, h, hu⟩)
  · exact .pure (.inr (.inl hf))
  refine .bind ((ends_executionStep cmd h hu).mono ?_)
  rintro _ s (⟨rfl, hf⟩ | ⟨rfl, h, he⟩)
  · exact .pure (.inr (.inr (.inl hf)))
  have hu : s.row.uploaded.isOver = true := (h.executed.resolve_left fun hc => by
    rw [hc] at he
    exact absurd he (by decide)).2
  refine .bind ((ends_deletionStep cmd h hu he).mono ?_)
  rintro _ s (⟨rfl, hf⟩ | ⟨rfl, hall⟩)
  · exact .pure (.inr (.inr (.inr (.inl hf))))
  refine .bind ((ends_inventoryStep cmd hall).mono fun _ s hall => ?_)
  exact (ends_finishStep h0 hall).mono fun _ _ hd => .inr (.inr (.inr (.inr hd)))

include h0 in
/-- What `execute` leaves. -/
theorem ends_execute {session : Bool} (h : Pending s.row) :
    Script.Ends (fun _ s => AtRest s.row) (execute cmd session) s := by
  unfold execute
  refine ends_refresh ?_
  rw [if_neg (by decide)]
  refine .answer fun now => .answer fun now' => .ite (fun _ => ?_) fun _ => .pure (.inl h)
  refine .ite (fun _ => .pure (.inl h)) fun _ => ?_
  exact .bind ((ends_executeSteps h0 h).mono fun _ _ hrest => .pure hrest)

include h0 in
theorem ends_connectionError (coh : Coh) (h : Pending s.row) :
    Script.Ends (fun _ s => Pending s.row) (connectionError cmd coh) s := by
  have hrest : ∀ s : Lsc, Pending s.row → Script.Ends (fun _ s => Pending s.row) (do
      if coh.attempts - 1 > 0 then
        updateRow fun r => { r with nextLaunchDate := r.nextLaunchDate + 60 * cmd.nextConnectionDelay }
        let _ ← refresh
      else
        repeatResched cmd coh : LscM Unit) s := by
    intro s hs
    split_ifs
    · exact .write (ends_refresh (.pure (hs.congr rfl rfl rfl rfl)))
    · unfold repeatResched
      rw [if_pos h0]
      exact .pure hs
  unfold connectionError
  refine .write (.write ?_)
  by_cases hd : coh.nextLaunchDate = 0
  · rw [if_pos hd]
    exact .answer fun now => .write (hrest _ ⟨h.uploaded, h.executed, h.deleted, rfl⟩)
  · rw [if_neg hd]
    exact hrest _ ⟨h.uploaded, h.executed, h.deleted, rfl⟩

include h0 in
/-- What `connection_init` leaves. -/
theorem ends_connectionInit (coh : Coh) (h : Pending s.row) :
    Script.Ends (fun _ s => Pending s.row) (connectionInit cmd coh) s := by
  have herror : Script.Ends (fun _ s => Pending s.row) (do
      connectionError cmd coh
      return (none : Option Bool)) s :=
    .bind ((ends_connectionError h0 coh h).mono fun _ _ ht => .pure ht)
  unfold connectionInit newSession
  refine .answer fun mac => .ite (fun _ => .write (.pure (h.setState rfl))) fun _ => ?_
  refine .ite (fun _ => .pure h) fun _ => ends_refresh (.ite (fun _ => .pure h) fun _ => ?_)
  refine .ite (fun _ => .write (.pure (h.congr rfl rfl rfl rfl))) fun _ => ?_
  refine .answer fun ping => .answer fun err => ?_
  refine .ite (fun _ => .write (.pure (h.setState rfl))) fun _ => .ite (fun _ => ?_) fun _ => herror
  refine .answer fun ping' => .answer fun err' => ?_
  exact .ite (fun _ => .write (.pure (h.setState rfl))) fun _ => herror

theorem ends_free {me : ℤ} (h : AtRest s.row) :
    Script.Ends (fun _ s => AtRest s.row) (free me) s := by
  have hs : AtRest { s.row with currentPid := -1 } := h.imp_left fun h => h.congr rfl rfl rfl rfl
  exact .write (.pure hs)

theorem ends_free_free {me : ℤ} (h : AtRest s.row) :
    Script.Ends (fun _ s => AtRest s.row) (do free me; free me : LscM Unit) s :=
  .bind ((ends_free h).mono fun _ _ ht => ends_free ht)

include h0 in
/-- `execute`, and the row is given back, or the launcher dies. -/
theorem ends_launch {me : ℤ} {session : Bool} (h : Pending s.row) :
    Script.Ends (fun _ s => AtRest s.row) (launch cmd me session) s := by
  unfold launch
  refine .bind ((ends_execute h0 h).mono fun died u hu => ?_)
  cases died with
  | true => exact .write (.pure hu)
  | false => exact ends_free_free hu

include h0 in
/-- **A launcher** that runs alone. -/
theorem ends_startCommandOnHost {me : ℤ} (h : Pending s.row ∨ s.row.currentState = .done) :
    Script.Ends (fun _ s => AtRest s.row) (startCommandOnHost cmd me) s := by
  unfold startCommandOnHost
  refine ends_refresh ?_
  split_ifs with hdone
  · exact .pure (.inr (.inr (.inr (.inr hdone))))
  have hpending := h.resolve_right hdone
  unfold takeRow
  rintro _ rfl
  refine ⟨trivial, ?_⟩
  change Script.Ends _ (if s.row.currentPid = -1 then _ else _) (if s.row.currentPid = -1 then _ else _)
  by_cases hpid : s.row.currentPid = -1
  · rw [if_pos hpid, if_pos hpid]
    have htaken : Pending { s.row with currentPid := me } := hpending.congr rfl rfl rfl rfl
    refine .bind ((ends_connectionInit h0 s.row (by exact htaken)).mono fun connection t ht => ?_)
    cases connection with
    | none => exact ends_free_free (.inl ht)
    | some session => exact ends_launch h0 ht
  · rw [if_neg hpid, if_neg hpid]
    exact ends_free (.inl hpending)

end Launcher

/-! ## Actions -/

/-- `lsc_command_on_host_set_play`, whether the first updates meet the row or not. -/
def setPlay (hits : Bool) (r : Coh) : Coh :=
  playResume (playInventory (playDelete (playExecution (playUpload
    (if hits then playAttempts (playPid r) else r)))))

/-- What can happen: a launcher that runs to its end, and what the operator does. -/
inductive LscAction
  | launch (pid : ℤ) (outs : ℕ → ℕ)
  | pause
  | play (hits : Bool)

def Lsc.act (cmd : LscCommand) (s : Lsc) : LscAction → Lsc
  | .launch pid outs => ((startCommandOnHost cmd pid).alone outs 0 s).2
  | .pause => s.setRow setPause
  | .play hits => s.setRow (setPlay hits)

/-- A step has failed, and the state says so. -/
def CohState.isFailed (st : CohState) : Bool :=
  st == .uploadFailed || st == .executionFailed || st == .deleteFailed

/-- A row with a failed step is neither launched nor paused. -/
def Careful (s : Lsc) : LscAction → Prop
  | .play _ => True
  | _ => s.row.currentState.isFailed = false

section Actions

/-- A row that is to be launched, or is done. -/
theorem AtRest.pending (h : AtRest r) (hf : r.currentState.isFailed = false) :
    Pending r ∨ r.currentState = .done := by
  obtain h | h | h | h | h := h
  · exact .inl h
  · rw [h.1] at hf
    cases hf
  · rw [h.1] at hf
    cases hf
  · rw [h.1] at hf
    cases hf
  · exact .inr h

theorem atRest_setPause (h : Pending r ∨ r.currentState = .done) : AtRest (setPause r) := by
  unfold setPause
  obtain h | h := h
  · split_ifs
    · exact .inl (h.setState rfl)
    · exact .inl h
  · rw [if_neg (by rw [h]; decide)]
    exact .inr (.inr (.inr (.inr h)))

theorem Pending.ne (h : Pending r) {st : CohState} (hst : st.plain = false) :
    r.currentState ≠ st := by
  intro hc
  have hplain := h.state
  rw [hc, hst] at hplain
  cases hplain

/-- The first updates do not change what is looked at here. -/
theorem AtRest.hit (h : AtRest r) (hits : Bool) :
    AtRest (if hits then playAttempts (playPid r) else r) := by
  split_ifs
  · unfold playAttempts playPid
    split_ifs
    · exact h.imp_left fun h => h.congr rfl rfl rfl rfl
    · exact h.imp_left fun h => h.congr rfl rfl rfl rfl
  · exact h

theorem atRest_playUpload (h : AtRest r) : Pending (playUpload r) ∨ ExecutionFailed (playUpload r) ∨
    DeleteFailed (playUpload r) ∨ (playUpload r).currentState = .done := by
  unfold playUpload
  obtain h | ⟨hst, hu, he, hd⟩ | h | h | h := h
  · rw [if_neg (h.ne rfl)]
    exact .inl h
  · rw [if_pos hst]
    exact .inl ⟨.inl rfl, .inl he, hd, rfl⟩
  · rw [if_neg (by rw [h.1]; decide)]
    exact .inr (.inl h)
  · rw [if_neg (by rw [h.1]; decide)]
    exact .inr (.inr (.inl h))
  · rw [if_neg (by rw [h]; decide)]
    exact .inr (.inr (.inr h))

theorem atRest_playExecution (h : Pending r ∨ ExecutionFailed r ∨ DeleteFailed r ∨ r.currentState = .done) :
    Pending (playExecution r) ∨ DeleteFailed (playExecution r) ∨ (playExecution r).currentState = .done := by
  unfold playExecution
  obtain h | ⟨hst, hu, he, hd⟩ | h | h := h
  · rw [if_neg (h.ne rfl)]
    exact .inl h
  · rw [if_pos hst]
    exact .inl ⟨.inr hu, .inl rfl, hd, rfl⟩
  · rw [if_neg (by rw [h.1]; decide)]
    exact .inr (.inl h)
  · rw [if_neg (by rw [h]; decide)]
    exact .inr (.inr h)

theorem atRest_playDelete (h : Pending r ∨ DeleteFailed r ∨ r.currentState = .done) :
    Pending (playDelete r) ∨ (playDelete r).currentState = .done := by
  unfold playDelete
  obtain h | ⟨hst, hu, he, hd⟩ | h := h
  · rw [if_neg (h.ne rfl)]
    exact .inl h
  · rw [if_pos hst]
    exact .inl ⟨.inr hu, .inr ⟨he, hu⟩, rfl, rfl⟩
  · rw [if_neg (by rw [h]; decide)]
    exact .inr h

/-- The last updates schedule a row that is not done. -/
theorem atRest_schedule (h : Pending r ∨ r.currentState = .done) {c : Prop} [Decidable c]
    (hc : r.currentState = .done → ¬c) (r' : Coh)
    (hr : r' = if c then { r with currentState := .scheduled } else r) :
    Pending r' ∨ r'.currentState = .done := by
  subst hr
  obtain h | h := h
  · left
    split_ifs
    · exact h.setState rfl
    · exact h
  · rw [if_neg (hc h)]
    exact .inr h

/-- **Play**: what has failed is to be done again. -/
theorem atRest_setPlay (h : AtRest r) (hits : Bool) : AtRest (setPlay hits r) := by
  have hdel := atRest_playDelete (atRest_playExecution (atRest_playUpload (h.hit hits)))
  have hinv := atRest_schedule hdel (fun hd => by rw [hd]; decide) (playInventory _) rfl
  have hres := atRest_schedule hinv (fun hd => by rw [hd]; decide) (playResume _) rfl
  exact hres.imp_right fun hd => .inr (.inr (.inr hd))

/-- **One action**. -/
theorem atRest_act {cmd : LscCommand} (h0 : cmd.repeatHours = 0) {s : Lsc} {a : LscAction} (ha : Careful s a)
    (h : AtRest s.row) : AtRest (s.act cmd a).row := by
  cases a with
  | launch pid outs => exact (ends_startCommandOnHost h0 (h.pending ha)).alone outs 0
  | pause => exact atRest_setPause (h.pending ha)
  | play hits => exact atRest_setPlay h hits

/-- The row has a step to do, and none that has failed. -/
structure HasWork (r : Coh) : Prop where
  todo : r.uploaded = .todo ∨ r.executed = .todo ∨ r.deleted = .todo
  uploaded : r.uploaded ≠ .failed
  executed : r.executed ≠ .failed
  deleted : r.deleted ≠ .failed

theorem AtRest.hasWork (h : AtRest r) {now : ℕ} (hsel : r.selected now = true) : HasWork r := by
  have hstate : CohState.kept.contains r.currentState = false := by
    simp only [Coh.selected, Bool.and_eq_true, Bool.not_eq_true'] at hsel
    exact hsel.1.1.1
  have hp : Pending r := by
    obtain h | h | h | h | h := h
    · exact h
    · rw [h.1] at hstate
      cases hstate
    · rw [h.1] at hstate
      cases hstate
    · rw [h.1] at hstate
      cases hstate
    · rw [h] at hstate
      cases hstate
  refine ⟨.inr (.inr hp.deleted), fun hc => ?_, fun hc => ?_, fun hc => ?_⟩
  · obtain hu | hu := hp.uploaded <;> rw [hc] at hu <;> cases hu
  · obtain he | ⟨he, -⟩ := hp.executed <;> rw [hc] at he <;> cases he
  · have hd := hp.deleted
    rw [hc] at hd
    cases hd

/-- **A row that is selected** has a step to do and none that has failed, if a row with a failed
step is neither launched nor paused. -/
theorem selected_has_work (cmd : LscCommand) (h0 : cmd.repeatHours = 0) (as : List LscAction)
    (has : Meets (Lsc.act cmd) Careful ⟨dispatchedRow cmd, [], []⟩ as) (now : ℕ)
    (hsel : (as.foldl (Lsc.act cmd) ⟨dispatchedRow cmd, [], []⟩).row.selected now = true) :
    HasWork (as.foldl (Lsc.act cmd) ⟨dispatchedRow cmd, [], []⟩).row := by
  have hstart : AtRest (dispatchedRow cmd) := .inl ⟨.inl rfl, .inl rfl, rfl, rfl⟩
  exact (foldl_of_meets (I := fun s : Lsc => AtRest s.row) (fun _ _ => atRest_act h0) hstart has).hasWork hsel

/-- The answers of a host that can be reached, with the exit code of the copy. -/
def copyAnswers (exitCode : ℕ) (n : ℕ) : ℕ := if n = 0 then 1 else if n = 5 then exitCode else 0

/-- The copy fails, the operator presses play: the row is selected, and its files are copied
again. -/
theorem selected_has_work_retried :
    HasWork (([.launch 100 (copyAnswers 1), .play false] : List LscAction).foldl (Lsc.act copyAndStart)
      ⟨dispatchedRow copyAndStart, [], []⟩).row :=
  selected_has_work copyAndStart rfl _ ⟨rfl, trivial, trivial⟩ 0 (by decide)

/-- The copy fails, the operator presses pause and play: the row is selected, and there is nothing
that a launcher would do. -/
theorem selected_without_work :
    (([.launch 100 (copyAnswers 1), .pause, .play false] : List LscAction).foldl (Lsc.act copyAndStart)
      ⟨dispatchedRow copyAndStart, [], []⟩).row.selected 0 = true ∧
    ¬HasWork (([.launch 100 (copyAnswers 1), .pause, .play false] : List LscAction).foldl
      (Lsc.act copyAndStart) ⟨dispatchedRow copyAndStart, [], []⟩).row :=
  ⟨by decide, fun h => h.uploaded (by decide)⟩

end Actions

end LinboxRescue
