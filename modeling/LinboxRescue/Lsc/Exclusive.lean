import LinboxRescue.Lib.Interleave
import LinboxRescue.Lsc.Launcher

/-!
# One launcher for a row

Any number of launchers run for one row. A launcher takes the row under a lock, if its `current_pid`
is `-1`, and `free` writes `-1` there again, whether the launcher holds the row or not.

1. `Mine`: what an access of a launcher does to the pid, to the holders and on the host.
2. `works_execute`, …: while a launcher holds the row and the others leave it the pid, it does so
   too.
3. `safe_startCommandOnHost`: so does each launcher, from its start.
4. `one_launcher`: as long as no launcher frees the row of another, there is one at most.
-/

namespace LinboxRescue

/-! ## Holding the row -/

/-- The launcher holds the row, and its pid is there. -/
def Held (me : ℤ) (s : Lsc) : Prop := s.row.currentPid = me ∧ me ∈ s.holders

/-- What the others do: they leave the row to the one that holds it. -/
def Others (me : ℤ) (s s' : Lsc) : Prop := Held me s → Held me s'

/-- What an access of a launcher does: it leaves the pid, takes the row or frees it, or the launcher
dies. It starts something on the host only if it holds the row. -/
def Mine (me : ℤ) (s s' : Lsc) : Prop :=
  (s'.row.currentPid = s.row.currentPid ∧ s'.holders = s.holders ∧ (s'.log ≠ s.log → Held me s)) ∨
  (s.row.currentPid = -1 ∧ s'.row.currentPid = me ∧ s'.holders = me :: s.holders ∧ s'.log = s.log) ∨
  (s'.row.currentPid = -1 ∧ s'.holders = s.holders.erase me ∧ s'.log = s.log) ∨
  (s'.row = s.row ∧ s'.holders = s.holders.erase me ∧ s'.log = s.log)

theorem others_refl (me : ℤ) (s : Lsc) : Others me s s := id

theorem others_trans (me : ℤ) (a b c : Lsc) (h : Others me a b) (h' : Others me b c) :
    Others me a c :=
  fun ha => h' (h ha)

/-- A launcher that holds the row to the end. -/
abbrev Works {α : Type} (me : ℤ) (p : LscM α) : Prop :=
  ∀ s, Held me s → Script.Safe (Others me) (Mine me) (fun _ s => Held me s) p s

section Rules

variable {me : ℤ} {α β : Type}

theorem works_pure (a : α) : Works me (pure a) := fun _ hs => Script.Safe.pure fun _ hr => hr hs

theorem works_bind {p : LscM α} {g : α → LscM β} (hp : Works me p) (hg : ∀ a, Works me (g a)) :
    Works me (p >>= g) := fun s hs =>
  .bind (others_refl me) ((hp s hs).mono fun a t ht => hg a t ht)

theorem works_ite {c : Prop} [Decidable c] {p q : LscM α} (hp : Works me p) (hq : Works me q) :
    Works me (if c then p else q) := by
  split_ifs
  · exact hp
  · exact hq

theorem works_write {f : Lsc → Lsc} (hpid : ∀ s, (f s).row.currentPid = s.row.currentPid)
    (hh : ∀ s, (f s).holders = s.holders) : Works me (Script.write f : LscM Unit) := by
  intro s hs
  refine Script.Safe.access fun s' hr => ⟨.inl ⟨hpid s', hh s', fun _ => hr hs⟩, fun t ht => ht ?_⟩
  obtain ⟨h1, h2⟩ := hr hs
  exact ⟨(hpid s').trans h1, (hh s').symm ▸ h2⟩

theorem works_updateRow {f : Coh → Coh} (hpid : ∀ r, (f r).currentPid = r.currentPid) :
    Works me (updateRow f) := works_write (fun s => hpid s.row) fun _ => rfl

theorem works_perform (d : Deed) : Works me (perform d) := works_write (fun _ => rfl) fun _ => rfl

theorem works_answer : Works me (Script.answer : LscM ℕ) := fun _ hs _ _ hr => hr hs

theorem works_refresh : Works me refresh := fun _ hs =>
  Script.Safe.access fun _ hr => ⟨.inl ⟨rfl, rfl, fun _ => hr hs⟩, fun _ ht => ht (hr hs)⟩

end Rules

/-! ## The launcher -/

section Launcher

variable {me : ℤ} (cmd : LscCommand)

/-- One of the updates of a step. -/
theorem works_step {α : Type} {f : Coh → Coh} {g : Unit → LscM α}
    (hpid : ∀ r, (f r).currentPid = r.currentPid) (hg : Works me (g ())) :
    Works me (updateRow f >>= g) := works_bind (works_updateRow hpid) fun _ => hg

/-- The two updates that end a step. -/
theorem works_marked {α : Type} {f g : Coh → Coh} {a : α} (hf : ∀ r, (f r).currentPid = r.currentPid)
    (hg : ∀ r, (g r).currentPid = r.currentPid) :
    Works me (do updateRow f; updateRow g; return a) := works_step hf (works_step hg (works_pure a))

/-- Something is started on the host, and its result decides. -/
theorem works_attempt {α : Type} {d : Deed} {p q : LscM α} (hp : Works me p) (hq : Works me q) :
    Works me (do perform d; if (← Script.answer) = 0 then p else q) :=
  works_bind (works_perform d) fun _ => works_bind works_answer fun _ => works_ite hp hq

theorem works_filesCopy : Works me (filesCopy cmd) := by
  unfold filesCopy
  refine works_ite ?_ (works_pure _)
  refine works_step (fun _ => rfl) (works_step (fun _ => rfl) (works_attempt ?_ ?_))
  · exact works_marked (fun _ => rfl) fun _ => rfl
  · exact works_marked (fun _ => rfl) fun _ => rfl

theorem works_fileStart : Works me (fileStart cmd) := by
  unfold fileStart
  refine works_ite ?_ (works_pure _)
  refine works_step (fun _ => rfl) (works_step (fun _ => rfl) (works_attempt ?_ ?_))
  · exact works_marked (fun _ => rfl) fun _ => rfl
  · exact works_marked (fun _ => rfl) fun _ => rfl

theorem works_filesDelete : Works me filesDelete := by
  unfold filesDelete
  refine works_step (fun _ => rfl) (works_step (fun _ => rfl) (works_attempt ?_ ?_))
  · exact works_marked (fun _ => rfl) fun _ => rfl
  · exact works_marked (fun _ => rfl) fun _ => rfl

theorem works_uploadStep : Works me (uploadStep cmd) := by
  unfold uploadStep
  refine works_bind works_refresh fun coh => works_ite (works_ite (works_filesCopy cmd) ?_) (works_pure _)
  exact works_marked (fun _ => rfl) fun _ => rfl

theorem works_executionStep : Works me (executionStep cmd) := by
  unfold executionStep
  refine works_bind works_refresh fun coh => works_ite (works_ite (works_fileStart cmd) ?_) (works_pure _)
  exact works_marked (fun _ => rfl) fun _ => rfl

theorem works_deletionStep : Works me (deletionStep cmd) := by
  have hignored : Works me (do setCurrentState .deleteDone; setDeletedState .ignored; return false) :=
    works_marked (fun _ => rfl) fun _ => rfl
  unfold deletionStep
  exact works_bind works_refresh fun coh => works_ite (works_ite works_filesDelete hignored)
    (works_ite hignored (works_pure _))

theorem works_inventoryStep : Works me (inventoryStep cmd) := by
  unfold inventoryStep
  refine works_bind works_refresh fun _ => works_ite ?_ (works_pure _)
  exact works_bind (works_perform _) fun _ => works_bind works_answer fun _ => works_pure _

/-- The row that `repeat_resched` writes has the pid it was read with: that of the launcher. -/
theorem works_repeatResched (coh : Coh) : Works me (repeatResched cmd coh) := by
  unfold repeatResched
  refine works_ite (works_pure _) (works_bind works_answer fun now => works_ite (works_pure _) ?_)
  refine works_step (fun _ => rfl) fun s hs => Script.Safe.access fun s' hr => ?_
  obtain ⟨hpid, hmem⟩ := hr hs
  refine ⟨.inl ⟨rfl, rfl, fun _ => ⟨hpid, hmem⟩⟩, Script.Safe.access fun t ht => ?_⟩
  obtain ⟨hpid', hmem'⟩ := ht ⟨hpid, hmem⟩
  exact ⟨.inl ⟨hpid.trans hpid'.symm, rfl, fun _ => ⟨hpid', hmem'⟩⟩, fun u hu => hu ⟨hpid, hmem'⟩⟩

theorem works_finishStep : Works me (finishStep cmd) := by
  unfold finishStep
  exact works_bind works_refresh fun coh => works_ite
    (works_step (fun _ => rfl) (works_repeatResched cmd coh)) (works_repeatResched cmd coh)

theorem works_executeSteps : Works me (executeSteps cmd) := by
  unfold executeSteps
  refine works_bind (works_uploadStep cmd) fun _ => works_ite (works_pure _) ?_
  refine works_bind (works_executionStep cmd) fun _ => works_ite (works_pure _) ?_
  refine works_bind (works_deletionStep cmd) fun _ => works_ite (works_pure _) ?_
  exact works_bind (works_inventoryStep cmd) fun _ => works_finishStep cmd

theorem works_execute (session : Bool) : Works me (execute cmd session) := by
  unfold execute
  refine works_bind works_refresh fun coh => works_ite (works_pure _) ?_
  refine works_bind works_answer fun now => works_bind works_answer fun now' => ?_
  refine works_ite (works_ite (works_pure _) ?_) (works_pure _)
  exact works_bind (works_executeSteps cmd) fun _ => works_pure _

theorem works_connectionError (coh : Coh) : Works me (connectionError cmd coh) := by
  have hrest : Works me (do
      if coh.attempts - 1 > 0 then
        updateRow fun r => { r with nextLaunchDate := r.nextLaunchDate + 60 * cmd.nextConnectionDelay }
        let _ ← refresh
      else
        repeatResched cmd coh) :=
    works_ite (works_step (fun _ => rfl) (works_bind works_refresh fun _ => works_pure _))
      (works_repeatResched cmd coh)
  unfold connectionError
  refine works_step (fun _ => rfl) (works_step (fun _ => rfl) (works_ite ?_ hrest))
  exact works_bind works_answer fun now => works_step (fun _ => rfl) hrest

theorem works_newSession : Works me newSession :=
  works_bind works_answer fun _ => works_bind works_answer fun _ => works_pure _

theorem works_connectionInit (coh : Coh) : Works me (connectionInit cmd coh) := by
  have herror : Works me (do connectionError cmd coh; return (none : Option Bool)) :=
    works_bind (works_connectionError cmd coh) fun _ => works_pure _
  unfold connectionInit
  refine works_bind works_answer fun mac => works_ite (works_step (fun _ => rfl) (works_pure _)) ?_
  refine works_ite (works_pure _) (works_bind works_refresh fun c => works_ite (works_pure _) ?_)
  refine works_ite (works_step (fun _ => rfl) (works_pure _)) (works_bind works_newSession fun x => ?_)
  obtain ⟨pingError, errors⟩ := x
  refine works_ite (works_step (fun _ => rfl) (works_pure _)) (works_ite ?_ herror)
  refine works_bind works_newSession fun x => ?_
  obtain ⟨pingError, errors⟩ := x
  exact works_ite (works_step (fun _ => rfl) (works_pure _)) herror

theorem safe_free (s : Lsc) : Script.Safe (Others me) (Mine me) (fun _ _ => True) (free me) s :=
  Script.Safe.access fun _ _ => ⟨.inr (.inr (.inl ⟨rfl, rfl, rfl⟩)), fun _ _ => trivial⟩

theorem safe_free_free (s : Lsc) :
    Script.Safe (Others me) (Mine me) (fun _ _ => True) (do free me; free me) s :=
  .bind (others_refl me) ((safe_free s).mono fun _ t _ => safe_free t)

theorem safe_die (s : Lsc) : Script.Safe (Others me) (Mine me) (fun _ _ => True) (die me) s :=
  Script.Safe.access fun _ _ => ⟨.inr (.inr (.inr ⟨rfl, rfl, rfl⟩)), fun _ _ => trivial⟩

theorem safe_launch {session : Bool} {s : Lsc} (hs : Held me s) :
    Script.Safe (Others me) (Mine me) (fun _ _ => True) (launch cmd me session) s := by
  unfold launch
  refine .bind (others_refl me) ((works_execute cmd session s hs).mono fun died t _ => ?_)
  cases died with
  | true => exact safe_die t
  | false => exact safe_free_free t

/-- **A launcher** takes the row, works while it holds it, and frees it or dies. -/
theorem safe_startCommandOnHost (s : Lsc) :
    Script.Safe (Others me) (Mine me) (fun _ _ => True) (startCommandOnHost cmd me) s := by
  unfold startCommandOnHost
  refine Script.Safe.access fun s₁ _ => ⟨.inl ⟨rfl, rfl, fun h => absurd rfl h⟩, ?_⟩
  change Script.Safe _ _ _ (if s₁.row.currentState = .done then _ else _) s₁
  split_ifs with hdone
  · exact fun _ _ => trivial
  refine Script.Safe.access fun s₂ _ => ?_
  by_cases hpid : s₂.row.currentPid = -1
  · dsimp only
    rw [if_pos hpid]
    refine ⟨.inr (.inl ⟨hpid, rfl, rfl, rfl⟩), ?_⟩
    change Script.Safe _ _ _ (if s₂.row.currentPid = -1 then _ else _) _
    rw [if_pos hpid]
    have hheld : Held me { s₂ with row := { s₂.row with currentPid := me }, holders := me :: s₂.holders } :=
      ⟨rfl, List.mem_cons_self⟩
    refine .bind (others_refl me) ((works_connectionInit cmd s₂.row _ hheld).mono ?_)
    intro connection t ht
    cases connection with
    | none => exact safe_free_free t
    | some session => exact safe_launch cmd ht
  · dsimp only
    rw [if_neg hpid]
    refine ⟨.inl ⟨rfl, rfl, fun h => absurd rfl h⟩, ?_⟩
    change Script.Safe _ _ _ (if s₂.row.currentPid = -1 then _ else _) _
    rw [if_neg hpid]
    exact safe_free s₂

end Launcher

/-! ## Runs -/

section Runs

variable {ι : Type} (cmd : LscCommand) (pids : ι → ℕ)

/-- The row and the launchers. -/
abbrev Launchers (ι : Type) := World ι Lsc (LscM Unit)

/-- One access of a launcher, or one answer. -/
def launcherStep (_ : ι) (answer : ℕ) : Lsc × LscM Unit → Lsc × LscM Unit := Script.step answer

/-- The launchers before they are started, for a row that none of them holds. -/
def Launchers.start (row : Coh) (log : List Deed) : Launchers ι :=
  ⟨⟨row, [], log⟩, fun i => startCommandOnHost cmd (pids i)⟩

/-- A launcher that is not started yet, or is over. -/
def Launchers.Idle (w : Launchers ι) (i : ι) : Prop :=
  w.procs i = startCommandOnHost cmd (pids i) ∨ (w.procs i).result?.isSome = true

/-- The launchers that run have pids of their own. If the next access of the launcher leaves the row
with no pid, no other launcher holds it. -/
structure Launchers.FreesOwn (w : Launchers ι) (e : ι × ℕ) : Prop where
  unlike : ∀ j, j ≠ e.1 → pids j = pids e.1 → Launchers.Idle cmd pids w j
  own : (Script.step e.2 (w.shared, w.procs e.1)).1.row.currentPid = -1 →
    ∀ p ∈ w.shared.holders, p = pids e.1

/-- One launcher holds the row at most, and only that one starts something on the host. -/
structure Launchers.Exclusive (w : Launchers ι) : Prop where
  one : w.shared.holders.length ≤ 1
  deeds : ∀ i answer, (Script.step answer (w.shared, w.procs i)).1.log ≠ w.shared.log →
    w.shared.holders = [(pids i : ℤ)]

/-- No launcher holds the row, or one does and its pid is there. -/
def AtMostOne (s : Lsc) : Prop :=
  s.holders = [] ∨ ∃ p : ℕ, s.holders = [(p : ℤ)] ∧ s.row.currentPid = p

theorem AtMostOne.eq_of_mem {s : Lsc} (h : AtMostOne s) {p : ℤ} (hp : p ∈ s.holders) :
    s.holders = [p] := by
  obtain h | ⟨q, h, -⟩ := h
  · rw [h] at hp
    exact absurd hp List.not_mem_nil
  · rw [h] at hp ⊢
    rw [List.mem_singleton.mp hp]

/-- What the launchers do in turn. -/
structure Launchers.InTurn (w : Launchers ι) : Prop where
  one : AtMostOne w.shared
  safe : ∀ i, Script.Safe (Others (pids i)) (Mine (pids i)) (fun _ _ => True) (w.procs i) w.shared

variable {cmd pids}

/-- A launcher that does not run is safe in any state. -/
theorem Launchers.Idle.safe {w : Launchers ι} {i : ι} (h : Launchers.Idle cmd pids w i) (s : Lsc) :
    Script.Safe (Others (pids i)) (Mine (pids i)) (fun _ _ => True) (w.procs i) s := by
  obtain h | h := h
  · rw [h]
    exact safe_startCommandOnHost cmd s
  · cases hp : w.procs i with
    | done a => exact fun _ _ => trivial
    | access f k => rw [hp] at h; cases h
    | ask k => rw [hp] at h; cases h

/-- What a launcher does leaves the row to another one that holds it. -/
theorem Mine.others {i j : ι} {s s' : Lsc} (h : Mine (pids i) s s') (hij : pids j ≠ pids i)
    (hown : s'.row.currentPid = -1 → ∀ p ∈ s.holders, p = pids i) : Others (pids j) s s' := by
  rintro ⟨hpid, hmem⟩
  obtain ⟨h1, h2, -⟩ | ⟨h1, -, -, -⟩ | ⟨h1, -, -⟩ | ⟨h1, h2, -⟩ := h
  · exact ⟨h1.trans hpid, h2 ▸ hmem⟩
  · rw [hpid] at h1
    omega
  · exact absurd (Int.natCast_inj.mp (hown h1 _ hmem)) hij
  · have hne : (pids j : ℤ) ≠ pids i := fun hc => hij (Int.natCast_inj.mp hc)
    exact ⟨h1 ▸ hpid, h2 ▸ (List.mem_erase_of_ne hne).mpr hmem⟩

/-- What a launcher does leaves one at most. -/
theorem Mine.atMostOne {i : ι} {s s' : Lsc} (h : Mine (pids i) s s') (hs : AtMostOne s)
    (hown : s'.row.currentPid = -1 → ∀ p ∈ s.holders, p = pids i) : AtMostOne s' := by
  obtain ⟨h1, h2, -⟩ | ⟨h1, h2, h3, -⟩ | ⟨h1, h2, -⟩ | ⟨h1, h2, -⟩ := h
  · unfold AtMostOne
    rw [h1, h2]
    exact hs
  · obtain hs | ⟨p, -, hp⟩ := hs
    · exact .inr ⟨pids i, by rw [h3, hs], h2⟩
    · rw [hp] at h1
      omega
  · refine .inl ?_
    obtain hs | ⟨p, hp, -⟩ := hs
    · rw [h2, hs, List.erase_nil]
    · have hmine := hown h1 p (hp ▸ List.mem_singleton.mpr rfl)
      rw [h2, hp, hmine, List.erase_cons_head]
  · obtain hs | ⟨p, hp, hpid⟩ := hs
    · exact .inl (by rw [h2, hs, List.erase_nil])
    · by_cases hmine : (p : ℤ) = pids i
      · exact .inl (by rw [h2, hp, hmine, List.erase_cons_head])
      · refine .inr ⟨p, ?_, h1 ▸ hpid⟩
        rw [h2, hp, List.erase_of_not_mem fun hc => hmine (List.mem_singleton.mp hc).symm]

theorem Launchers.InTurn.exclusive {w : Launchers ι} (h : Launchers.InTurn pids w) :
    Launchers.Exclusive pids w := by
  constructor
  · obtain hs | ⟨p, hs, -⟩ := h.one <;> rw [hs]
    · exact Nat.zero_le 1
    · exact le_refl 1
  · intro i answer hlog
    obtain ⟨hsame | hmine, -⟩ := (h.safe i).step (others_refl _) answer
    · exact absurd (congrArg Lsc.log hsame) hlog
    · obtain ⟨-, -, hheld⟩ | ⟨-, -, -, hl⟩ | ⟨-, -, hl⟩ | ⟨-, -, hl⟩ := hmine
      · exact h.one.eq_of_mem (hheld hlog).2
      · exact absurd hl hlog
      · exact absurd hl hlog
      · exact absurd hl hlog

variable [DecidableEq ι]

/-- **One step**. -/
theorem Launchers.InTurn.step {w : Launchers ι} {e : ι × ℕ} (hok : Launchers.FreesOwn cmd pids w e)
    (h : Launchers.InTurn pids w) : Launchers.InTurn pids (w.step launcherStep e) := by
  obtain ⟨i, answer⟩ := e
  obtain ⟨hstep, hsafe⟩ := (h.safe i).step (others_refl _) answer
  have hone : AtMostOne (Script.step answer (w.shared, w.procs i)).1 := by
    obtain hsame | hmine := hstep
    · rw [hsame]
      exact h.one
    · exact hmine.atMostOne h.one hok.own
  refine ⟨hone, fun j => ?_⟩
  by_cases hj : j = i
  · subst hj
    rw [World.step_self]
    exact hsafe
  · rw [World.step_of_ne _ hj]
    by_cases hpid : pids j = pids i
    · exact (hok.unlike j hj hpid).safe _
    · refine (h.safe j).rely (others_trans _) ?_
      obtain hsame | hmine := hstep
      · intro hheld
        change Held (pids j) (Script.step answer (w.shared, w.procs i)).1
        rwa [hsame]
      · exact hmine.others hpid hok.own

variable (cmd pids)

/-- **One launcher at most** holds the row, if no launcher frees the row of another. -/
theorem one_launcher (row : Coh) (log : List Deed) (es : List (ι × ℕ))
    (hes : World.Along launcherStep (Launchers.FreesOwn cmd pids) (Launchers.start cmd pids row log) es) :
    Launchers.Exclusive pids ((Launchers.start cmd pids row log).run launcherStep es) := by
  have h0 : Launchers.InTurn pids (Launchers.start cmd pids row log) :=
    ⟨.inl rfl, fun i => safe_startCommandOnHost cmd _⟩
  exact (World.run_induction (fun _ _ => Launchers.InTurn.step) h0 hes).exclusive

end Runs

/-! ## A launcher that frees the row of another -/

/-- The pids of three launchers. -/
def threePids (i : Fin 3) : ℕ := 100 * (i.val + 1)

/-- The second launcher comes while the first one holds the row, and does not free it. -/
theorem one_launcher_secondWaits :
    Launchers.Exclusive threePids ((Launchers.start copyAndStart threePids (dispatchedRow copyAndStart)
      []).run launcherStep [(0, 0), (0, 0), (1, 0), (1, 0), (0, 1)]) := by
  have hpids : ∀ i j : Fin 3, threePids j = threePids i → j = i := by decide
  refine one_launcher copyAndStart threePids _ _ _ ⟨?_, ?_, ?_, ?_, ?_, trivial⟩
  all_goals refine ⟨fun j hj hp => absurd (hpids _ j hp) hj, ?_⟩
  · exact fun _ p hp => absurd hp List.not_mem_nil
  · exact fun _ p hp => absurd hp List.not_mem_nil
  · exact fun h => absurd h (by decide)
  · exact fun h => absurd h (by decide)
  · exact fun h => absurd h (by decide)

/-- The first launcher takes the row, the second one finds it taken and frees it, and the third one
takes it. -/
theorem two_launchers : ¬Launchers.Exclusive threePids ((Launchers.start copyAndStart threePids
    (dispatchedRow copyAndStart) []).run launcherStep
      [(0, 0), (0, 0), (1, 0), (1, 0), (1, 0), (2, 0), (2, 0)]) := by
  intro h
  exact absurd h.one (by decide)

end LinboxRescue
