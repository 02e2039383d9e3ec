import LinboxRescue.Lsc.Dispatch

/-!
# Playing rows and commands (`lsc_command_on_host_set_play`, `lsc_command_set_play`)

Both functions are a series of updates of `commands_on_host`. The first two updates of
`lsc_command_on_host_set_play` look for the id of the row in the column `id_command`, and
`lsc_command_set_play` does not make them.

1. `onHostSetPlay_rows`: each row for itself.
2. `foldl_playRow`: what is left of a row when several rows are played, in any order.
3. `setPlay_iff`: when a row is played alone, and when a command is played row by row.
-/

namespace LinboxRescue

/-! ## The table -/

/-- The table `commands_on_host`, with its primary key. -/
structure CohTable where
  rows : List HostRow
  key : (rows.map HostRow.id).Nodup

/-- A row with other columns. -/
def HostRow.change (r : HostRow) (f : Coh → Coh) : HostRow := { r with coh := f r.coh }

/-- `UPDATE … SET … WHERE`. The key is not set. -/
def CohTable.update (t : CohTable) (p : HostRow → Bool) (f : Coh → Coh) : CohTable where
  rows := t.rows.map fun r => if p r then r.change f else r
  key := by
    have hid : (HostRow.id ∘ fun r : HostRow => if p r then r.change f else r) = HostRow.id := by
      funext r
      dsimp only [Function.comp_apply]
      split_ifs <;> rfl
    rw [List.map_map, hid]
    exact t.key

/-- The ids of the rows of a command. -/
def CohTable.idsOf (t : CohTable) (c : ℕ) : List ℕ :=
  (t.rows.filter fun r => r.idCommand = c).map HostRow.id

/-- `lsc_command_on_host_set_play`. -/
def lscCommandOnHostSetPlay (t : CohTable) (id : ℕ) : CohTable :=
  ((((((t.update (fun r => r.idCommand = id) playPid).update
    (fun r => r.idCommand = id) playAttempts).update
    (fun r => r.id = id) playUpload).update
    (fun r => r.id = id) playExecution).update
    (fun r => r.id = id) playDelete).update
    (fun r => r.id = id) playInventory).update
    (fun r => r.id = id) playResume

/-- `lsc_command_set_play`. -/
def lscCommandSetPlay (t : CohTable) (c : ℕ) : CohTable :=
  ((((t.update (fun r => r.idCommand = c) playUpload).update
    (fun r => r.idCommand = c) playExecution).update
    (fun r => r.idCommand = c) playDelete).update
    (fun r => r.idCommand = c) playInventory).update
    (fun r => r.idCommand = c) playResume

/-! ## Playing one row, and the rows of a command -/

/-- Playing row `id` changes no other row, and leaves it a connection attempt. -/
structure PlaysOne (t : CohTable) (id : ℕ) : Prop where
  others : List.Forall₂ (fun r r' => r.id ≠ id → r' = r) t.rows (lscCommandOnHostSetPlay t id).rows
  attempts : ∀ r ∈ (lscCommandOnHostSetPlay t id).rows, r.id = id → 1 ≤ r.coh.attempts

/-- Playing command `c` is playing its rows, in any order. -/
def PlaysEach (t : CohTable) (c : ℕ) : Prop :=
  ∀ ids : List ℕ, ids.Perm (t.idsOf c) → ids.foldl lscCommandOnHostSetPlay t = lscCommandSetPlay t c

/-- The updates that look for an id of a command find nothing to be changed. -/
def Coh.Ready (r : Coh) : Prop := r.currentPid = -1 ∧ r.attempts ≠ 0

/-- No row of the command with the number `id` needs the first two updates, but row `id` itself, if it
is of this command; and row `id` has attempts left, or is given one. -/
def AloneWith (t : CohTable) (id : ℕ) : Prop :=
  (∀ r ∈ t.rows, r.idCommand = id → r.id ≠ id → r.coh.Ready) ∧
    ∀ r ∈ t.rows, r.id = id → 1 ≤ r.coh.attempts ∨ r.coh.attempts = 0 ∧ r.idCommand = id

/-- No command has a number that is the id of a row of command `c`, but one whose rows do not need the
first two updates. -/
def EachReady (t : CohTable) (c : ℕ) : Prop :=
  ∀ q ∈ t.rows, q.idCommand = c → ∀ r ∈ t.rows, r.idCommand = q.id → r.coh.Ready

/-! ## One row -/

/-- The first two updates. -/
def playReset (r : Coh) : Coh := playAttempts (playPid r)

/-- The other ones. -/
def playSteps (r : Coh) : Coh :=
  playResume (playInventory (playDelete (playExecution (playUpload r))))

/-- What playing row `id` does to a row. -/
def playRow (r : HostRow) (id : ℕ) : HostRow :=
  (r.change fun c => if r.idCommand = id then playReset c else c).change fun c =>
    if r.id = id then playSteps c else c

@[simp] theorem playRow_id (r : HostRow) (id : ℕ) : (playRow r id).id = r.id := rfl
@[simp] theorem playRow_idCommand (r : HostRow) (id : ℕ) :
    (playRow r id).idCommand = r.idCommand := rfl

theorem HostRow.change_eq_self {r : HostRow} {f : Coh → Coh} : r.change f = r ↔ f r.coh = r.coh := by
  constructor
  · exact fun h => congrArg HostRow.coh h
  · intro h
    unfold HostRow.change
    rw [h]

/-- The state that is left in a state. -/
def CohState.played : CohState → CohState
  | .uploadFailed | .executionFailed | .deleteFailed | .inventoryFailed | .pause | .notReachable =>
    .scheduled
  | st => st

/-- The steps start from the state that was read: each sets its own column. -/
theorem playSteps_eq (r : Coh) : playSteps r = { r with
    currentState := r.currentState.played
    uploaded := if r.currentState = .uploadFailed then .todo else r.uploaded
    executed := if r.currentState = .executionFailed then .todo else r.executed
    deleted := if r.currentState = .deleteFailed then .todo else r.deleted } := by
  obtain ⟨_, _, st, _, _, _, _, _, _⟩ := r
  cases st <;> rfl

theorem playSteps_attempts (r : Coh) : (playSteps r).attempts = r.attempts := by rw [playSteps_eq]

theorem playSteps_pid (r : Coh) : (playSteps r).currentPid = r.currentPid := by rw [playSteps_eq]

theorem playReset_attempts (r : Coh) :
    (playReset r).attempts = if r.attempts = 0 then 1 else r.attempts := by
  unfold playReset playAttempts playPid
  split_ifs <;> rfl

theorem playReset_eq_self {r : Coh} : playReset r = r ↔ r.Ready := by
  unfold playReset playAttempts playPid Coh.Ready
  constructor
  · intro h
    have hpid := congrArg Coh.currentPid h
    have hatt := congrArg Coh.attempts h
    split_ifs at hpid hatt with h0
    · dsimp only at h0 hatt
      omega
    · exact ⟨hpid.symm, h0⟩
  · rintro ⟨hpid, hatt⟩
    rw [if_neg hatt, ← hpid]

theorem onHostSetPlay_rows (t : CohTable) (id : ℕ) :
    (lscCommandOnHostSetPlay t id).rows = t.rows.map fun r => playRow r id := by
  unfold lscCommandOnHostSetPlay CohTable.update
  simp only [List.map_map]
  refine List.map_congr_left fun r _ => ?_
  simp only [Function.comp_apply, decide_eq_true_eq]
  unfold playRow playReset playSteps HostRow.change
  by_cases hc : r.idCommand = id <;> by_cases hi : r.id = id <;> simp [hc, hi]

theorem setPlay_rows (t : CohTable) (c : ℕ) : (lscCommandSetPlay t c).rows =
    t.rows.map fun r => if r.idCommand = c then r.change playSteps else r := by
  unfold lscCommandSetPlay CohTable.update
  simp only [List.map_map]
  refine List.map_congr_left fun r _ => ?_
  simp only [Function.comp_apply, decide_eq_true_eq]
  unfold playSteps HostRow.change
  by_cases hc : r.idCommand = c <;> simp [hc]

/-! ## Several rows -/

theorem playReset_idem (r : Coh) : playReset (playReset r) = playReset r := by
  refine playReset_eq_self.mpr ⟨?_, ?_⟩
  · unfold playReset playAttempts playPid
    split_ifs <;> rfl
  · rw [playReset_attempts]
    split_ifs with h
    · exact one_ne_zero
    · exact h

theorem playSteps_idem (r : Coh) : playSteps (playSteps r) = playSteps r := by
  simp only [playSteps_eq]
  cases r.currentState <;> rfl

/-- The two parts set different columns. -/
theorem playSteps_playReset (r : Coh) : playSteps (playReset r) = playReset (playSteps r) := by
  unfold playReset playAttempts playPid
  simp only [playSteps_eq]
  split_ifs <;> rfl

/-- Each of the two parts is made if one of the rows calls for it, once or several times. -/
theorem foldl_playRow (r : HostRow) (ids : List ℕ) : ids.foldl playRow r =
    (r.change fun c => if r.idCommand ∈ ids then playReset c else c).change fun c =>
      if r.id ∈ ids then playSteps c else c := by
  induction ids using List.reverseRecOn with
  | nil => rfl
  | append_singleton ids i ih =>
    have hmem : ∀ n : ℕ, n ∈ ids ++ [i] ↔ n ∈ ids ∨ n = i := fun n => by simp
    rw [List.foldl_append, ih]
    simp only [List.foldl_cons, List.foldl_nil, hmem]
    unfold playRow HostRow.change
    dsimp only
    congr 1
    split_ifs <;> simp_all only [true_or, or_true, or_self, not_true_eq_false, playSteps_playReset,
      playReset_idem, playSteps_idem]

theorem foldl_setPlay_rows (t : CohTable) (ids : List ℕ) :
    (ids.foldl lscCommandOnHostSetPlay t).rows = t.rows.map fun r => ids.foldl playRow r := by
  induction ids generalizing t with
  | nil => exact (List.map_id _).symm
  | cons i ids ih =>
    rw [List.foldl_cons, ih, onHostSetPlay_rows, List.map_map]
    rfl

/-- A row of the table is one of the command if its id is. -/
theorem CohTable.mem_idsOf (t : CohTable) {r : HostRow} (hr : r ∈ t.rows) (c : ℕ) :
    r.id ∈ t.idsOf c ↔ r.idCommand = c := by
  unfold CohTable.idsOf
  rw [List.mem_map]
  constructor
  · rintro ⟨q, hq, hid⟩
    rw [List.mem_filter, decide_eq_true_eq] at hq
    rw [← List.inj_on_of_nodup_map t.key hq.1 hr hid]
    exact hq.2
  · exact fun h => ⟨r, List.mem_filter.mpr ⟨hr, decide_eq_true h⟩, rfl⟩

/-! ## The tables in which rows are played one by one -/

theorem CohTable.eq_iff {t t' : CohTable} : t = t' ↔ t.rows = t'.rows := by
  cases t
  cases t'
  exact CohTable.mk.injEq .. ▸ Iff.rfl

theorem playsOne_iff (t : CohTable) (id : ℕ) : PlaysOne t id ↔ AloneWith t id := by
  have hothers : List.Forall₂ (fun r r' => r.id ≠ id → r' = r) t.rows
      (lscCommandOnHostSetPlay t id).rows ↔
      ∀ r ∈ t.rows, r.idCommand = id → r.id ≠ id → r.coh.Ready := by
    rw [onHostSetPlay_rows, List.forall₂_map_right_iff, List.forall₂_same]
    refine forall₂_congr fun r _ => ?_
    rw [forall_comm]
    refine forall_congr' fun hid => ?_
    unfold playRow
    simp only [if_neg hid]
    show (r.change fun c => if r.idCommand = id then playReset c else c) = r ↔ _
    rw [HostRow.change_eq_self]
    by_cases hc : r.idCommand = id
    · rw [if_pos hc, playReset_eq_self]
      exact ⟨fun h _ => h, fun h => h hc⟩
    · simp [hc]
  have hattempts : (∀ r ∈ (lscCommandOnHostSetPlay t id).rows, r.id = id → 1 ≤ r.coh.attempts) ↔
      ∀ r ∈ t.rows, r.id = id → 1 ≤ r.coh.attempts ∨ r.coh.attempts = 0 ∧ r.idCommand = id := by
    rw [onHostSetPlay_rows, List.forall_mem_map]
    refine forall₂_congr fun r _ => forall_congr' fun hid => ?_
    rw [playRow_id] at hid
    unfold playRow HostRow.change
    simp only [if_pos hid, playSteps_attempts]
    split_ifs with hc
    · rw [playReset_attempts]
      split_ifs with h0
      · simp [h0, hc]
      · simp [h0]
    · simp [hc]
  exact ⟨fun h => ⟨hothers.mp h.others, hattempts.mp h.attempts⟩,
    fun h => ⟨hothers.mpr h.1, hattempts.mpr h.2⟩⟩

theorem playsEach_iff (t : CohTable) (c : ℕ) : PlaysEach t c ↔ EachReady t c := by
  -- a row after the rows of the command were played, in whatever order
  have hrow : ∀ ids : List ℕ, ids.Perm (t.idsOf c) → ∀ r ∈ t.rows, (ids.foldl playRow r =
      (if r.idCommand = c then r.change playSteps else r) ↔
        (r.idCommand ∈ t.idsOf c → r.coh.Ready)) := by
    intro ids hperm r hr
    have hmem : r.idCommand ∈ ids ↔ r.idCommand ∈ t.idsOf c := hperm.mem_iff
    have hid : r.id ∈ ids ↔ r.idCommand = c := hperm.mem_iff.trans (t.mem_idsOf hr c)
    rw [foldl_playRow]
    simp only [hmem, hid]
    by_cases hcoh : r.idCommand ∈ t.idsOf c
    · simp only [if_pos hcoh, forall_prop_of_true hcoh, ← playReset_eq_self]
      split_ifs with hc
      · -- the steps leave the two columns of `Coh.Ready` as they are
        show (r.change playReset).change playSteps = r.change playSteps ↔ _
        have hready : (playSteps r.coh).Ready ↔ r.coh.Ready := by
          unfold Coh.Ready
          rw [playSteps_pid, playSteps_attempts]
        rw [playReset_eq_self, ← hready, ← playReset_eq_self, ← playSteps_playReset]
        unfold HostRow.change
        simp
      · show r.change playReset = r ↔ _
        exact HostRow.change_eq_self
    · simp only [if_neg hcoh]
      refine iff_of_true ?_ fun h => absurd h hcoh
      split_ifs <;> rfl
  have htable : ∀ ids : List ℕ, ids.Perm (t.idsOf c) →
      (ids.foldl lscCommandOnHostSetPlay t = lscCommandSetPlay t c ↔
        ∀ r ∈ t.rows, r.idCommand ∈ t.idsOf c → r.coh.Ready) := by
    intro ids hperm
    rw [CohTable.eq_iff, foldl_setPlay_rows, setPlay_rows, List.map_inj_left]
    exact forall₂_congr fun r hr => hrow ids hperm r hr
  have hids : (∀ r ∈ t.rows, r.idCommand ∈ t.idsOf c → r.coh.Ready) ↔ EachReady t c := by
    unfold EachReady CohTable.idsOf
    simp only [List.mem_map, List.mem_filter, decide_eq_true_eq]
    constructor
    · exact fun h q hq hqc r hr hrq => h r hr ⟨q, ⟨hq, hqc⟩, hrq.symm⟩
    · rintro h r hr ⟨q, ⟨hq, hqc⟩, hrq⟩
      exact h q hq hqc r hr hrq.symm
  rw [← hids]
  constructor
  · exact fun h => (htable _ (List.Perm.refl _)).mp (h _ (List.Perm.refl _))
  · exact fun h ids hperm => (htable ids hperm).mpr h

/-- **When play is what it says.** Playing a row changes only this row and gives it an attempt exactly
if no row of the command with the same number is waiting for an attempt or has a process; playing a
command is playing its rows under the same condition for each of them. -/
theorem setPlay_iff (t : CohTable) :
    (∀ id, PlaysOne t id ↔ AloneWith t id) ∧ ∀ c, PlaysEach t c ↔ EachReady t c :=
  ⟨playsOne_iff t, playsEach_iff t⟩

/-- Row 1 of command 3 has no attempt left, and row 2 of command 1 has a process. -/
def twoCommandsRows : CohTable where
  rows := [
    { id := 1, idCommand := 3, host := [], coh := { dispatchedRow copyAndStart with attempts := 0 } },
    { id := 2, idCommand := 1, host := [],
      coh := { dispatchedRow copyAndStart with currentPid := 77 } }]
  key := by decide

/-- Row 1 is played: it still has no attempt, and row 2 has lost its process. Playing command 3 leaves
row 2 alone, and playing its only row does not. -/
theorem twoCommands_played :
    (lscCommandOnHostSetPlay twoCommandsRows 1).rows.map
      (fun r => (r.id, r.coh.attempts, r.coh.currentPid)) = [(1, 0, -1), (2, 3, -1)] ∧
    ¬ PlaysOne twoCommandsRows 1 ∧ ¬ PlaysEach twoCommandsRows 3 := by
  refine ⟨by decide, fun h => ?_, fun h => ?_⟩
  · exact absurd (h.attempts _ List.mem_cons_self rfl) (by decide)
  · have heq := congrArg CohTable.rows (h [1] (by decide))
    exact absurd heq (by decide)

end LinboxRescue
