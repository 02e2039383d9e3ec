import LinboxRescue.Lib.Script
import LinboxRescue.Lib.Bytes

/-!
# Remote commands (`src/webmin/lsc`)

A row of `commands_on_host` is one command on one host. `start_command_on_host.php` takes the row by
writing its own pid into it, connects to the host, copies the files, starts the script and deletes
the files, and gives the row back. An operator can pause, stop and resume the row at any time.

Each statement of the database is one access. The scripts run under PHP 4, where an object that is
assigned is copied. `commands_history` is written only, and left out.
-/

namespace LinboxRescue

/-! ## Rows -/

/-- `current_state`. -/
inductive CohState
  | uploadInProgress | uploadDone | uploadFailed
  | executionInProgress | executionDone | executionFailed
  | deleteInProgress | deleteDone | deleteFailed
  | inventoryInProgress | inventoryFailed | inventoryDone
  | notReachable | done | pause | stop | scheduled
  deriving DecidableEq, Repr

/-- A state that says nothing about the steps. -/
def CohState.plain (st : CohState) : Bool :=
  st != .uploadFailed && st != .executionFailed && st != .deleteFailed && st != .done

/-- `uploaded`, `executed` and `deleted`. -/
inductive StepState
  | todo | ignored | done | failed | workInProgress
  deriving DecidableEq, Repr

/-- A row of `commands_on_host`. A date is `0` for `0000-00-00 00:00:00`, a pid `-1` for none. -/
structure Coh where
  startDate : ℕ
  endDate : ℕ
  currentState : CohState
  uploaded : StepState
  executed : StepState
  deleted : StepState
  nextLaunchDate : ℕ
  currentPid : ℤ
  attempts : ℤ
  deriving DecidableEq, Repr

/-- What a row of `commands` says. -/
structure LscCommand where
  pathDestination : Bytes
  files : List Bytes
  startScriptEnable : Bool
  deleteEnable : Bool
  startInventoryEnable : Bool
  wakeOnLanEnable : Bool
  startDate : ℕ
  endDate : ℕ
  nextConnectionDelay : ℕ
  maxConnectionAttempt : ℤ
  repeatHours : ℕ
  deriving DecidableEq, Repr

/-- What is done on the host; and what makes a row start again: a step that is played again, and the
next turn of a command that is repeated. -/
inductive Deed
  | upload | script | delete | inventory | played | repeated
  deriving DecidableEq, Repr

/-- The row, the processes that hold it (`I_hold_this_command`), and what was done. -/
structure Lsc where
  row : Coh
  holders : List ℤ
  log : List Deed
  deriving DecidableEq, Repr

/-- The answers from outside are exit codes and times. -/
abbrev LscM := Script Lsc ℕ

def Lsc.setRow (s : Lsc) (f : Coh → Coh) : Lsc := { s with row := f s.row }

/-! ## Statements -/

section Statements

/-- `refresh`. -/
def refresh : LscM Coh := do return (← Script.read).row

def updateRow (f : Coh → Coh) : LscM Unit := Script.write fun s => s.setRow f

def setCurrentState (st : CohState) : LscM Unit := updateRow fun r => { r with currentState := st }

def setUploadedState (st : StepState) : LscM Unit := updateRow fun r => { r with uploaded := st }

def setExecutedState (st : StepState) : LscM Unit := updateRow fun r => { r with executed := st }

def setDeletedState (st : StepState) : LscM Unit := updateRow fun r => { r with deleted := st }

def setRemainsConnectionAttempt (n : ℤ) : LscM Unit := updateRow fun r => { r with attempts := n }

def setNextLaunchDate (d : ℕ) : LscM Unit := updateRow fun r => { r with nextLaunchDate := d }

/-- Something is started on the host. -/
def perform (d : Deed) : LscM Unit := Script.write fun s => { s with log := s.log ++ [d] }

end Statements

/-! ## The launcher -/

section Launcher

variable (cmd : LscCommand)

/-- `files_copy`: whether it has failed. -/
def filesCopy : LscM Bool := do
  if cmd.files ≠ [] then
    setCurrentState .uploadInProgress
    setUploadedState .workInProgress
    perform .upload
    if (← Script.answer) = 0 then
      setCurrentState .uploadDone
      setUploadedState .done
      return false
    else
      setCurrentState .uploadFailed
      setUploadedState .failed
      return true
  else
    return false

/-- `file_start`. -/
def fileStart : LscM Bool := do
  if cmd.startScriptEnable then
    setCurrentState .executionInProgress
    setExecutedState .workInProgress
    perform .script
    if (← Script.answer) = 0 then
      setCurrentState .executionDone
      setExecutedState .done
      return false
    else
      setCurrentState .executionFailed
      setExecutedState .failed
      return true
  else
    return false

/-- `files_delete`. The answer is the exit code of the last try. -/
def filesDelete : LscM Bool := do
  setCurrentState .deleteInProgress
  setDeletedState .workInProgress
  perform .delete
  if (← Script.answer) = 0 then
    setCurrentState .deleteDone
    setDeletedState .done
    return false
  else
    setCurrentState .deleteFailed
    setDeletedState .failed
    return true

/-- The member `state`, which a row does not have. -/
def stateMember : Option CohState := none

/-- `DONE` or `IGNORED`. -/
def StepState.isOver (s : StepState) : Bool := s == .done || s == .ignored

theorem isOver_iff {x : StepState} : x.isOver = true ↔ x = .done ∨ x = .ignored := by
  cases x <;> decide

/-- The first step of `execute`: whether it returns. -/
def uploadStep : LscM Bool := do
  let coh ← refresh
  if coh.uploaded = .todo ∧ stateMember ≠ some .uploadInProgress then
    if cmd.files ≠ [] then
      filesCopy cmd
    else
      setCurrentState .uploadDone
      setUploadedState .ignored
      return false
  else
    return false

/-- The second one. -/
def executionStep : LscM Bool := do
  let coh ← refresh
  if coh.uploaded.isOver ∧ coh.executed = .todo ∧ stateMember ≠ some .executionInProgress then
    if cmd.startScriptEnable then
      fileStart cmd
    else
      setCurrentState .executionDone
      setExecutedState .ignored
      return false
  else
    return false

/-- The third one. -/
def deletionStep : LscM Bool := do
  let coh ← refresh
  if coh.uploaded = .done ∧ coh.executed.isOver ∧ stateMember ≠ some .deleteInProgress ∧
      coh.deleted = .todo then
    if cmd.deleteEnable then
      filesDelete
    else
      setCurrentState .deleteDone
      setDeletedState .ignored
      return false
  else if coh.uploaded = .ignored ∧ coh.executed.isOver then
    setCurrentState .deleteDone
    setDeletedState .ignored
    return false
  else
    return false

def inventoryStep : LscM Unit := do
  let _ ← refresh
  if cmd.startInventoryEnable then
    perform .inventory
    let _ ← Script.answer

/-- `start_date + interval … hour`: nothing is added to no date. -/
def addHours (d hours : ℕ) : ℕ := if d = 0 then 0 else d + 3600 * hours

/-- `repeat_resched`, for the row as it was last read. The whole row is written. -/
def repeatResched (coh : Coh) : LscM Unit := do
  if cmd.repeatHours = 0 then
    return ()
  let now ← Script.answer
  if coh.endDate ≠ 0 ∧ coh.endDate < now then
    return ()
  updateRow fun r => { r with nextLaunchDate := addHours r.startDate cmd.repeatHours }
  let c ← refresh
  Script.write fun s =>
    { s with
      row :=
        { c with
          startDate := c.nextLaunchDate
          attempts := cmd.maxConnectionAttempt
          currentState := .scheduled
          uploaded := .todo
          executed := .todo
          deleted := .todo }
      log := s.log ++ [.repeated] }

/-- The end of `execute`. -/
def finishStep : LscM Unit := do
  let coh ← refresh
  if coh.uploaded.isOver ∧ coh.executed.isOver ∧ coh.deleted.isOver then
    setCurrentState .done
  repeatResched cmd coh

/-- `$this->commond_on_host->current_state`, of a member that is not there. -/
def commondOnHostState : Option CohState := none

/-- The row may be started now. -/
def inDates (coh : Coh) (now now' : ℕ) : Bool :=
  !(coh.startDate ≠ 0 ∧ now < coh.startDate) && !(coh.endDate ≠ 0 ∧ coh.endDate < now')

/-- The steps of `execute`. -/
def executeSteps : LscM Unit := do
  if ← uploadStep cmd then
    return ()
  if ← executionStep cmd then
    return ()
  if ← deletionStep cmd then
    return ()
  inventoryStep cmd
  finishStep cmd

/-- `execute`, with a session or without one: whether the script has died. Without a destination it
calls `initialize_os_type` of the session, which is a fatal error if there is none. -/
def execute (session : Bool) : LscM Bool := do
  let coh ← refresh
  if commondOnHostState = some .pause ∨ commondOnHostState = some .stop then
    return false
  let now ← Script.answer
  let now' ← Script.answer
  if inDates coh now now' then
    if cmd.pathDestination = [] ∧ session = false then
      return true
    executeSteps cmd
  return false

/-- The end of `connection_init`, after a connection that has failed. -/
def connectionError (coh : Coh) : LscM Unit := do
  setCurrentState .notReachable
  setRemainsConnectionAttempt (coh.attempts - 1)
  if coh.nextLaunchDate = 0 then
    setNextLaunchDate (← Script.answer)
  if coh.attempts - 1 > 0 then
    updateRow fun r => { r with nextLaunchDate := r.nextLaunchDate + 60 * cmd.nextConnectionDelay }
    let _ ← refresh
  else
    repeatResched cmd coh

/-- `new LSC_Session`: `ping_error`, and whether there were other errors. -/
def newSession : LscM (Bool × Bool) := do
  return ((← Script.answer) ≠ 0, (← Script.answer) ≠ 0)

/-- `connection_init`, for the row that the constructor has read: `none` if it has failed, or whether
there is a session. -/
def connectionInit (coh : Coh) : LscM (Option Bool) := do
  let mac ← Script.answer
  if mac = 0 then
    setCurrentState .notReachable
    return none
  if coh.attempts ≤ 0 then
    return none
  let c ← refresh
  if c.currentState = .stop ∨ c.currentState = .pause then
    return some false
  if coh.nextLaunchDate = 0 ∧ coh.startDate ≠ 0 then
    setNextLaunchDate coh.startDate
    return some false
  let (pingError, errors) ← newSession
  if pingError = false ∧ errors = false then
    setCurrentState .scheduled
    return some true
  if pingError ∧ cmd.wakeOnLanEnable then
    let (pingError, _) ← newSession
    if pingError = false then
      setCurrentState .scheduled
      return some true
    else
      connectionError cmd coh
      return none
  else
    connectionError cmd coh
    return none

variable (pid : ℤ)

/-- The locked section of the constructor. -/
def takeRow : LscM Coh :=
  .access (fun s =>
    if s.row.currentPid = -1 then
      { s with row := { s.row with currentPid := pid }, holders := pid :: s.holders }
    else s) fun s => .done s.row

/-- `lsc_command_on_host_set_current_pid($id, -1)`, with `I_hold_this_command` set to false. -/
def free : LscM Unit := Script.write fun s =>
  { s with row := { s.row with currentPid := -1 }, holders := s.holders.erase pid }

/-- A fatal error: the launcher is over, and the row keeps the pid. -/
def die : LscM Unit := Script.write fun s => { s with holders := s.holders.erase pid }

/-- `execute` and what comes after it. -/
def launch (session : Bool) : LscM Unit := do
  if ← execute cmd session then
    die pid
  else
    free pid
    free pid

/-- `start_command_on_host.php`. -/
def startCommandOnHost : LscM Unit := do
  let row ← refresh
  if row.currentState = .done then
    return ()
  let coh ← takeRow pid
  if coh.currentPid = -1 then
    match ← connectionInit cmd coh with
    | none =>
      free pid
      free pid
    | some session => launch cmd pid session
  else
    free pid

end Launcher

/-! ## The operator -/

section Operator

/-- `lsc_command_on_host_set_pause`. -/
def setPause (r : Coh) : Coh :=
  if r.currentState = .notReachable ∨ r.currentState = .scheduled ∨ r.currentState = .uploadFailed ∨
      r.currentState = .executionFailed ∨ r.currentState = .deleteFailed ∨
      r.currentState = .inventoryFailed then
    { r with currentState := .pause }
  else r

/-- The update of `lsc_command_on_host_set_stop`, which is made if the row that was read is not
done. -/
def setStop (r : Coh) : Coh := { r with currentState := .stop, currentPid := -1 }

/-- The first updates of `lsc_command_on_host_set_play` look for the id of the row among those of
commands: they may meet this row or not. -/
def playPid (r : Coh) : Coh := { r with currentPid := -1 }

def playAttempts (r : Coh) : Coh := if r.attempts = 0 then { r with attempts := 1 } else r

def playUpload (r : Coh) : Coh :=
  if r.currentState = .uploadFailed then { r with currentState := .scheduled, uploaded := .todo } else r

def playExecution (r : Coh) : Coh :=
  if r.currentState = .executionFailed then { r with currentState := .scheduled, executed := .todo } else r

def playDelete (r : Coh) : Coh :=
  if r.currentState = .deleteFailed then { r with currentState := .scheduled, deleted := .todo } else r

def playInventory (r : Coh) : Coh :=
  if r.currentState = .inventoryFailed then { r with currentState := .scheduled } else r

def playResume (r : Coh) : Coh :=
  if r.currentState = .pause ∨ r.currentState = .notReachable then { r with currentState := .scheduled }
  else r

/-- The row that `dispatch` creates. -/
def dispatchedRow (cmd : LscCommand) : Coh where
  startDate := cmd.startDate
  endDate := cmd.endDate
  currentState := .scheduled
  uploaded := .todo
  executed := .todo
  deleted := .todo
  nextLaunchDate := cmd.startDate
  currentPid := -1
  attempts := cmd.maxConnectionAttempt

end Operator

/-- A command that copies a file and starts a script. -/
def copyAndStart : LscCommand where
  pathDestination := ascii "tmp/lsc/"
  files := [ascii "setup.sh"]
  startScriptEnable := true
  deleteEnable := true
  startInventoryEnable := false
  wakeOnLanEnable := false
  startDate := 0
  endDate := 0
  nextConnectionDelay := 60
  maxConnectionAttempt := 3
  repeatHours := 0

end LinboxRescue
