import LinboxRescue.Lib.Interleave
import LinboxRescue.Lsc.Launcher

/-!
# How many launchers run (`src/webmin/lsc/include/scheduler.inc.php`)

`start_all_commands` counts the rows with a pid. If there are fewer than the limit, it selects as
many rows as the limit again and starts a launcher for each. A launcher writes its pid later, when
it takes its row.

1. `Fleet.move`: one query of a scheduler run, one start, or one step of a launcher.
2. `Fleet.running_le_registered`: launchers that have registered are found by the count.
3. `Fleet.running_le_max`: the launchers that run are within the limit, if those before have registered
   when a run selects, and the rows with a pid and those that wait are not more than the limit, or the
   limit is reached.
-/

namespace LinboxRescue

/-- `MAX_COMMAND_LAUNCHER_PROCESSUS`. -/
def maxCommandLauncherProcessus : ℕ := 50

/-! ## `start_all_commands` -/

/-- The states that are not selected. -/
def CohState.kept : List CohState :=
  [.done, .pause, .stop, .uploadInProgress, .executionInProgress, .deleteInProgress, .inventoryInProgress,
    .uploadFailed, .executionFailed, .deleteFailed, .inventoryFailed]

/-- The row is selected for launching. -/
def Coh.selected (now : ℕ) (r : Coh) : Bool :=
  !CohState.kept.contains r.currentState && decide (0 < r.attempts) && decide (r.currentPid = -1) &&
    decide (r.nextLaunchDate ≤ now)

/-- Where a run of the scheduler is: the rows that are still to be started. -/
inductive SchedulerRun
  | counting | selecting | starting (ids : List ℕ)
  deriving DecidableEq, Repr

def SchedulerRun.planned : SchedulerRun → ℕ
  | .starting ids => ids.length
  | _ => 0

/-- The rows with their commands, in the order of `date_created`; the launchers, each with its row
and what is left of it; and the runs of the scheduler. -/
structure Fleet where
  rows : List (LscCommand × Lsc)
  launchers : List (ℕ × LscM Unit)
  runs : List SchedulerRun

/-- What can happen: a run of the scheduler begins or goes on, or a launcher makes a step. -/
inductive FleetMove
  | begin
  | scheduler (k now pid : ℕ)
  | launcher (j answer : ℕ)
  deriving DecidableEq, Repr

namespace Fleet

variable (w : Fleet)

/-- The rows with a pid. -/
def registered : ℕ := w.rows.countP fun x => x.2.row.currentPid != -1

/-- The rows that could be selected. -/
def eligible (now : ℕ) : List ℕ := (w.rows.zipIdx.filter fun x => x.1.2.row.selected now).map Prod.snd

/-- The rows that are selected. -/
def selection (now : ℕ) : List ℕ := (w.eligible now).take maxCommandLauncherProcessus

/-- A launcher is started for a row. -/
def spawn (i pid : ℕ) : List (ℕ × LscM Unit) :=
  match w.rows[i]? with
  | some x => w.launchers ++ [(i, startCommandOnHost x.1 pid)]
  | none => w.launchers

/-- Whether a run of the scheduler goes on. -/
def counted : SchedulerRun :=
  if w.registered < maxCommandLauncherProcessus then .selecting else .starting []

/-- The next step of a run of the scheduler. -/
def schedule (k now pid : ℕ) : SchedulerRun → Fleet
  | .counting => { w with runs := w.runs.set k w.counted }
  | .selecting => { w with runs := w.runs.set k (.starting (w.selection now)) }
  | .starting [] => w
  | .starting (i :: ids) => { w with launchers := w.spawn i pid, runs := w.runs.set k (.starting ids) }

/-- One step of a launcher, on its row. -/
def launch (j answer i : ℕ) (p : LscM Unit) : Fleet :=
  match w.rows[i]? with
  | some x =>
    { w with
      rows := w.rows.set i (x.1, (Script.step answer (x.2, p)).1)
      launchers := w.launchers.set j (i, (Script.step answer (x.2, p)).2) }
  | none => w

def move (w : Fleet) : FleetMove → Fleet
  | .begin => { w with runs := w.runs ++ [.counting] }
  | .scheduler k now pid => (w.runs[k]?.map (w.schedule k now pid)).getD w
  | .launcher j answer => (w.launchers[j]?.map fun l => w.launch j answer l.1 l.2).getD w

/-- The launcher is not over. -/
def isRunning (l : ℕ × LscM Unit) : Bool := l.2.result?.isNone

/-- The launchers that run. -/
def running : ℕ := w.launchers.countP isRunning

/-- The launchers that are about to be started. -/
def planned : ℕ := (w.runs.map SchedulerRun.planned).sum

/-- The rows of the launchers that run. -/
def launched : List ℕ := (w.launchers.filter isRunning).map Prod.fst

/-- The launchers that run have registered: each has a row of its own, with a pid. -/
structure AllRegistered : Prop where
  nodup : w.launched.Nodup
  pid : ∀ i ∈ w.launched, ∃ x ∈ w.rows[i]?, x.2.row.currentPid ≠ -1

/-- When a run selects, those before it have started their launchers and these have registered; and
unless the limit is reached, the rows with a pid and those that wait are not more than it. Between the
count of a run and its selection no launcher registers. -/
def Orderly : FleetMove → Prop
  | .begin => True
  | .scheduler k now _ => w.runs[k]? = some .selecting → w.planned = 0 ∧ w.AllRegistered ∧
    (w.registered < maxCommandLauncherProcessus →
      w.registered + min maxCommandLauncherProcessus (w.eligible now).length ≤
        maxCommandLauncherProcessus)
  | .launcher j answer => .selecting ∈ w.runs → (w.move (.launcher j answer)).registered ≤ w.registered

/-! ## Steps -/

variable {w}

theorem sum_map_set {α : Type*} (f : α → ℕ) {l : List α} {k : ℕ} {x : α} (h : l[k]? = some x) (y : α) :
    ((l.set k y).map f).sum + f x = (l.map f).sum + f y := by
  induction l generalizing k with
  | nil => cases h
  | cons a l ih =>
    cases k with
    | zero =>
      obtain rfl : a = x := by simpa using h
      simp only [List.set_cons_zero, List.map_cons, List.sum_cons]
      omega
    | succ k =>
      have hih := ih (k := k) (by simpa using h)
      simp only [List.set_cons_succ, List.map_cons, List.sum_cons]
      omega

theorem planned_set {k : ℕ} {r : SchedulerRun} (h : w.runs[k]? = some r) (r' : SchedulerRun) :
    ((w.runs.set k r').map SchedulerRun.planned).sum + r.planned = w.planned + r'.planned :=
  sum_map_set SchedulerRun.planned h r'

theorem countP_spawn_le (i pid : ℕ) : (w.spawn i pid).countP isRunning ≤ w.running + 1 := by
  unfold spawn running
  cases w.rows[i]? with
  | some x =>
    rw [List.countP_append]
    exact Nat.add_le_add_left List.countP_le_length _
  | none => exact Nat.le_succ _

/-- A launcher that is over does not start again. -/
theorem isRunning_of_step {i answer : ℕ} {s : Lsc} {p : LscM Unit}
    (h : isRunning (i, (Script.step answer (s, p)).2) = true) : isRunning (i, p) = true := by
  cases p with
  | done a => exact h
  | access f k => rfl
  | ask k => rfl

theorem countP_set_le {α : Type*} {f : α → Bool} {l : List α} {j : ℕ} {x y : α} (h : l[j]? = some x)
    (hf : f y = true → f x = true) : (l.set j y).countP f ≤ l.countP f := by
  obtain ⟨hj, rfl⟩ := List.getElem?_eq_some_iff.mp h
  rw [List.countP_set hj]
  have hpos : f l[j] = true → 0 < l.countP f := fun hx => List.countP_pos_iff.mpr ⟨_, l.getElem_mem hj, hx⟩
  split_ifs with h1 h2 h2
  · have := hpos h1
    omega
  · omega
  · exact absurd (hf h2) h1
  · omega

theorem registered_eq : w.registered =
    (w.rows.zipIdx.filter fun x => x.1.2.row.currentPid != -1).length := by
  unfold registered
  rw [← List.countP_eq_length_filter]
  conv_lhs => rw [← List.zipIdx_map_fst 0 w.rows, List.countP_map]
  rfl

/-- **Launchers that have registered** are counted. -/
theorem running_le_registered (h : w.AllRegistered) : w.running ≤ w.registered := by
  have hlen : w.running = w.launched.length := by
    unfold running launched
    rw [List.length_map, List.countP_eq_length_filter]
  rw [hlen, registered_eq, ← List.length_map (f := Prod.snd)]
  refine (List.subperm_of_subset h.nodup fun i hi => ?_).length_le
  obtain ⟨x, hx, hpid⟩ := h.pid i hi
  refine List.mem_map.mpr ⟨(x, i), List.mem_filter.mpr ⟨?_, bne_iff_ne.mpr hpid⟩, rfl⟩
  exact List.mk_mem_zipIdx_iff_getElem?.mpr hx

/-- The limit is kept, and a run that has counted is below it. -/
structure Within (w : Fleet) : Prop where
  running : w.running + w.planned ≤ maxCommandLauncherProcessus
  registered : .selecting ∈ w.runs → w.registered < maxCommandLauncherProcessus

theorem selecting_of_set {k : ℕ} {r : SchedulerRun} (hr : r ≠ .selecting)
    (h : .selecting ∈ w.runs.set k r) : .selecting ∈ w.runs :=
  (List.mem_or_eq_of_mem_set h).resolve_right hr.symm

/-- **One step** of a run of the scheduler. -/
theorem Within.schedule {k now pid : ℕ} (h : Within w) (hm : w.Orderly (.scheduler k now pid))
    {r : SchedulerRun} (hk : w.runs[k]? = some r) : Within (w.schedule k now pid r) := by
  obtain ⟨hrun, hreg⟩ := h
  cases r with
  | counting =>
    have hset := planned_set hk w.counted
    refine ⟨?_, fun hs => ?_⟩
    · have hzero : w.counted.planned = 0 := by
        unfold counted
        split_ifs <;> rfl
      rw [hzero] at hset
      change w.running + ((w.runs.set k w.counted).map SchedulerRun.planned).sum ≤ _
      omega
    · by_cases hlt : w.registered < maxCommandLauncherProcessus
      · exact hlt
      · have hstop : w.counted ≠ .selecting := by
          unfold counted
          rw [if_neg hlt]
          exact SchedulerRun.noConfusion
        exact hreg (selecting_of_set hstop hs)
  | selecting =>
    obtain ⟨hplanned, hall, htable⟩ := hm hk
    have hlt := hreg (List.mem_of_getElem? hk)
    have hroom := htable hlt
    have hle := running_le_registered hall
    have hset : _ + 0 = w.planned + (w.selection now).length := planned_set hk (.starting _)
    have hlen : (w.selection now).length = min maxCommandLauncherProcessus (w.eligible now).length :=
      List.length_take
    refine ⟨?_, fun _ => hlt⟩
    change w.running + ((w.runs.set k (.starting _)).map SchedulerRun.planned).sum ≤ _
    omega
  | starting ids =>
    cases ids with
    | nil => exact ⟨hrun, hreg⟩
    | cons i ids =>
      have hset : _ + (ids.length + 1) = w.planned + ids.length := planned_set hk (.starting ids)
      have hspawn := @countP_spawn_le w i pid
      refine ⟨?_, fun hs => hreg (selecting_of_set SchedulerRun.noConfusion hs)⟩
      change (w.spawn i pid).countP isRunning +
        ((w.runs.set k (.starting ids)).map SchedulerRun.planned).sum ≤ _
      omega

/-- **One move**. -/
theorem within_move {m : FleetMove} (hm : w.Orderly m) (h : Within w) : Within (w.move m) := by
  cases m with
  | begin =>
    have hp : (w.move .begin).planned = w.planned := by simp [planned, move, SchedulerRun.planned]
    refine ⟨by rw [hp]; exact h.running, fun hs => h.registered ?_⟩
    obtain hs | hs := List.mem_append.mp hs
    · exact hs
    · cases List.mem_singleton.mp hs
  | scheduler k now pid =>
    unfold move
    dsimp only
    cases hk : w.runs[k]? with
    | none => exact h
    | some r => exact h.schedule hm hk
  | launcher j answer =>
    have hruns : (w.move (.launcher j answer)).runs = w.runs := by
      unfold move launch
      dsimp only
      cases w.launchers[j]? with
      | none => rfl
      | some l =>
        dsimp only [Option.map_some, Option.getD_some]
        cases w.rows[l.1]? <;> rfl
    refine ⟨?_, fun hs => (hm (hruns ▸ hs)).trans_lt (h.registered (hruns ▸ hs))⟩
    unfold move
    dsimp only
    cases hj : w.launchers[j]? with
    | none => exact h.running
    | some l =>
      dsimp only [Option.map_some, Option.getD_some]
      unfold launch
      cases w.rows[l.1]? with
      | none => exact h.running
      | some x =>
        have hle := countP_set_le (f := isRunning) hj
          (y := (l.1, (Script.step answer (x.2, l.2)).2)) isRunning_of_step
        exact (Nat.add_le_add_right hle _).trans h.running

/-- The table, before the first run of the scheduler. -/
def initial (rows : List (LscCommand × Lsc)) : Fleet := ⟨rows, [], []⟩

/-- **The limit** holds in every orderly run. -/
theorem running_le_max (rows : List (LscCommand × Lsc)) (ms : List FleetMove)
    (hms : Meets move Orderly (initial rows) ms) :
    (ms.foldl move (initial rows)).running ≤ maxCommandLauncherProcessus := by
  have h0 : Within (initial rows) := ⟨Nat.zero_le _, fun hs => absurd hs List.not_mem_nil⟩
  have h := (foldl_of_meets (I := Within) (fun w m => within_move) h0 hms).running
  exact (Nat.le_add_right _ _).trans h

/-! ## Two runs of the scheduler -/

/-- Rows that were just dispatched. -/
def freshRows (n : ℕ) : List (LscCommand × Lsc) :=
  List.replicate n (copyAndStart, ⟨dispatchedRow copyAndStart, [], []⟩)

/-- A run of the scheduler that starts `n` launchers. -/
def schedulerMoves (k n : ℕ) : List FleetMove :=
  .begin :: List.replicate (n + 2) (.scheduler k 0 100)

/-- Both launchers of the first run take their rows, and the second run counts them. -/
def registeredMoves : List FleetMove :=
  schedulerMoves 0 2 ++ [.launcher 0 0, .launcher 0 0, .launcher 1 0, .launcher 1 0] ++ schedulerMoves 1 0

theorem running_le_max_two :
    (registeredMoves.foldl move (initial (freshRows 2))).running ≤ maxCommandLauncherProcessus := by
  have hnone : (SchedulerRun.selecting ∉ [SchedulerRun.starting []]) := by decide
  refine running_le_max _ _ ⟨trivial, ?_, ?_, ?_, ?_, ?_, ?_, ?_, ?_, trivial, ?_, ?_, trivial⟩
  · exact fun h => absurd h (by decide)
  · exact fun _ => ⟨by decide, ⟨by decide, by decide⟩, by decide⟩
  · exact fun h => absurd h (by decide)
  · exact fun h => absurd h (by decide)
  · exact fun h => absurd h hnone
  · exact fun h => absurd h hnone
  · exact fun h => absurd h hnone
  · exact fun h => absurd h hnone
  · exact fun h => absurd h (by decide)
  · exact fun _ => ⟨by decide, ⟨by decide, by decide⟩, by decide⟩

/-- The second run comes before the launchers of the first one have written their pids. -/
theorem running_beyond_max : ¬(List.foldl move (initial (freshRows 26))
    (schedulerMoves 0 26 ++ schedulerMoves 1 26)).running ≤ maxCommandLauncherProcessus := by
  decide +kernel

end Fleet

end LinboxRescue
