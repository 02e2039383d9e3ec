import LinboxRescue.Lsc.Launcher

/-!
# The steps of a remote command

One launcher runs at a time and may be killed between any two accesses; the operator may make any of
his updates between them.

1. `Ordered`: the order of the three steps, and that a script is not started again by itself.
2. `OperatorChange`: what the operator can change while the launcher runs. A step that is over stays
   over, and one that is to be done stays so.
3. `keeps_filesCopy`, …, `keeps_startCommandOnHost`: the launcher keeps the order under such
   changes.
4. `steps_in_order`: so does every run.
-/

namespace LinboxRescue

/-! ## Starts of the script -/

/-- The script was started, and the row was not made ready for another start since. -/
def started (log : List Deed) : Bool :=
  log.foldl (fun b d =>
    match d with
    | .script => true
    | .played | .repeated => false
    | _ => b) false

/-- Between two starts of the script the step is played again, or the command is repeated. -/
def Separated (log : List Deed) : Prop :=
  ∀ pre mid post, log = pre ++ .script :: (mid ++ .script :: post) → .played ∈ mid ∨ .repeated ∈ mid

theorem started_append (log : List Deed) (d : Deed) : started (log ++ [d]) =
    match d with
    | .script => true
    | .played | .repeated => false
    | _ => started log := by
  unfold started
  rw [List.foldl_append]
  cases d <;> rfl

/-- A start that nothing came after. -/
theorem started_of_start {pre mid : List Deed} (hp : Deed.played ∉ mid) (hr : Deed.repeated ∉ mid) :
    started (pre ++ .script :: mid) = true := by
  induction mid using List.reverseRecOn with
  | nil => exact started_append pre .script
  | append_singleton mid d ih =>
    rw [List.mem_append, not_or] at hp hr
    have hih := ih hp.1 hr.1
    rw [← List.cons_append, ← List.append_assoc, started_append]
    cases d with
    | played => exact absurd (List.mem_singleton.mpr rfl) hp.2
    | repeated => exact absurd (List.mem_singleton.mpr rfl) hr.2
    | script => rfl
    | upload => exact hih
    | delete => exact hih
    | inventory => exact hih

theorem Separated.append {log : List Deed} (h : Separated log) {d : Deed}
    (hd : d = .script → started log = false) : Separated (log ++ [d]) := by
  intro pre mid post he
  obtain rfl | ⟨post', x, rfl⟩ := List.eq_nil_or_concat post
  · -- the second start is the last deed
    have hlast : log ++ [d] = (pre ++ .script :: mid) ++ [.script] := by
      rw [he, List.append_assoc, List.cons_append]
    obtain ⟨rfl, hd'⟩ := List.append_inj' hlast rfl
    have hno := hd (List.cons.inj hd').1
    by_contra hc
    rw [not_or] at hc
    rw [started_of_start hc.1 hc.2] at hno
    exact absurd hno (by decide)
  · have hlast : log ++ [d] = (pre ++ .script :: (mid ++ .script :: post')) ++ [x] := by
      rw [he]
      simp
    exact h pre mid post' (List.append_inj' hlast rfl).1

/-! ## The invariant -/

structure Ordered (s : Lsc) : Prop where
  executed : s.row.executed ≠ .todo → s.row.uploaded.isOver = true
  deleted : s.row.deleted ≠ .todo → s.row.executed.isOver = true
  done : s.row.currentState = .done →
    s.row.uploaded.isOver = true ∧ s.row.executed.isOver = true ∧ s.row.deleted.isOver = true
  uploadFailed : s.row.currentState = .uploadFailed → s.row.uploaded.isOver = false
  executionFailed : s.row.currentState = .executionFailed → s.row.executed.isOver = false
  deleteFailed : s.row.currentState = .deleteFailed → s.row.deleted.isOver = false
  once : Separated s.log
  fresh : started s.log = true → s.row.executed ≠ .todo

/-- What happens to a step: it stays over or not, and if it is to be done. -/
structure StepChange (a b : StepState) : Prop where
  same : a.isOver = true → b = a
  open_ : a.isOver = false → b.isOver = false
  todo : a = .todo → b = .todo

theorem StepChange.refl (a : StepState) : StepChange a a := ⟨fun _ => rfl, id, id⟩

theorem StepChange.trans {a b c : StepState} (h : StepChange a b) (h' : StepChange b c) :
    StepChange a c := by
  refine ⟨fun ha => ?_, fun ha => h'.open_ (h.open_ ha), fun ha => h'.todo (h.todo ha)⟩
  have hb := h.same ha
  rw [h'.same (hb ▸ ha), hb]

theorem StepChange.to_todo {a : StepState} (h : a.isOver = false) : StepChange a .todo :=
  ⟨fun ha => absurd (ha.symm.trans h) (by decide), fun _ => rfl, fun _ => rfl⟩

/-- What the operator can do. -/
structure OperatorChange (s s' : Lsc) : Prop where
  uploaded : StepChange s.row.uploaded s'.row.uploaded
  executed : StepChange s.row.executed s'.row.executed
  deleted : StepChange s.row.deleted s'.row.deleted
  state : ∀ st, st = .uploadFailed ∨ st = .executionFailed ∨ st = .deleteFailed ∨ st = .done →
    s'.row.currentState = st → s.row.currentState = st
  running : s.row.currentState ≠ .executionFailed → s'.row.executed = s.row.executed
  started : started s'.log = true → started s.log = true

theorem OperatorChange.refl (s : Lsc) : OperatorChange s s :=
  ⟨.refl _, .refl _, .refl _, fun _ _ h => h, fun _ => rfl, id⟩

theorem OperatorChange.trans (a b c : Lsc) (h : OperatorChange a b) (h' : OperatorChange b c) :
    OperatorChange a c := by
  refine ⟨h.uploaded.trans h'.uploaded, h.executed.trans h'.executed, h.deleted.trans h'.deleted,
    fun st hst hc => h.state st hst (h'.state st hst hc), fun ha => ?_, fun hc => h.started (h'.started hc)⟩
  have hb : b.row.currentState ≠ .executionFailed := fun hb => ha (h.state _ (.inr (.inl rfl)) hb)
  rw [h'.running hb, h.running ha]

/-! ## Updates that keep the order -/

theorem Ordered.setPlain {s : Lsc} (h : Ordered s) {st : CohState} (hst : st.plain = true) :
    Ordered (s.setRow fun r => { r with currentState := st }) := by
  have hne : ∀ x, CohState.plain x = false → st ≠ x := fun x hx hc => by
    rw [hc, hx] at hst
    cases hst
  exact ⟨h.executed, h.deleted, fun hc => absurd hc (hne _ rfl), fun hc => absurd hc (hne _ rfl),
    fun hc => absurd hc (hne _ rfl), fun hc => absurd hc (hne _ rfl), h.once, h.fresh⟩

/-- An update of the other columns. -/
theorem Ordered.congr {s s' : Lsc} (h : Ordered s) (hst : s'.row.currentState = s.row.currentState)
    (hu : s'.row.uploaded = s.row.uploaded) (he : s'.row.executed = s.row.executed)
    (hd : s'.row.deleted = s.row.deleted) (hl : s'.log = s.log) : Ordered s' := by
  obtain ⟨h1, h2, h3, h4, h5, h6, h7, h8⟩ := h
  constructor <;> simp only [hst, hu, he, hd, hl] <;> assumption

theorem Ordered.perform {s : Lsc} (h : Ordered s) {d : Deed}
    (hd : d = .script → started s.log = false ∧ s.row.executed ≠ .todo) :
    Ordered { s with log := s.log ++ [d] } := by
  refine ⟨h.executed, h.deleted, h.done, h.uploadFailed, h.executionFailed, h.deleteFailed,
    h.once.append fun hs => (hd hs).1, ?_⟩
  dsimp only
  rw [started_append]
  cases d with
  | script => exact fun _ => (hd rfl).2
  | played => exact fun hc => absurd hc Bool.false_ne_true
  | repeated => exact fun hc => absurd hc Bool.false_ne_true
  | upload => exact h.fresh
  | delete => exact h.fresh
  | inventory => exact h.fresh

/-! ## What the operator does not change -/

abbrev Lasting (A : Lsc → Prop) : Prop := Script.Stable Ordered OperatorChange A

abbrev KeepsOrder {α : Type} (A : Lsc → Prop) (p : LscM α) (B : α → Lsc → Prop) : Prop :=
  Script.Keeps Ordered OperatorChange A p B

def UpOver (s : Lsc) : Prop := s.row.uploaded.isOver = true

def UpOpen (s : Lsc) : Prop := s.row.uploaded.isOver = false

def ExOver (s : Lsc) : Prop := s.row.executed.isOver = true

def ExOpen (s : Lsc) : Prop := s.row.executed.isOver = false

def ExTodo (s : Lsc) : Prop := s.row.executed = .todo

/-- The script is about to be started. -/
def ExReady (s : Lsc) : Prop :=
  s.row.executed = .workInProgress ∧ s.row.currentState ≠ .executionFailed ∧ started s.log = false

def DeOver (s : Lsc) : Prop := s.row.deleted.isOver = true

def DeOpen (s : Lsc) : Prop := s.row.deleted.isOver = false

/-- The state is not the one that marks a failed step. -/
def NotState (st : CohState) (s : Lsc) : Prop := s.row.currentState ≠ st

theorem lasting_upOver : Lasting UpOver := fun s s' _ _ hc h => by
  unfold UpOver at *
  rw [hc.uploaded.same h]
  exact h

theorem lasting_upOpen : Lasting UpOpen := fun _ _ _ _ hc h => hc.uploaded.open_ h

theorem lasting_exOver : Lasting ExOver := fun s s' _ _ hc h => by
  unfold ExOver at *
  rw [hc.executed.same h]
  exact h

theorem lasting_exOpen : Lasting ExOpen := fun _ _ _ _ hc h => hc.executed.open_ h

theorem lasting_exTodo : Lasting ExTodo := fun _ _ _ _ hc h => hc.executed.todo h

theorem lasting_exReady : Lasting ExReady := by
  rintro s s' - - hc ⟨h1, h2, h3⟩
  refine ⟨(hc.running h2).trans h1, fun h => h2 (hc.state _ (.inr (.inl rfl)) h), ?_⟩
  rw [Bool.eq_false_iff]
  intro h
  rw [hc.started h] at h3
  cases h3

theorem lasting_deOver : Lasting DeOver := fun s s' _ _ hc h => by
  unfold DeOver at *
  rw [hc.deleted.same h]
  exact h

theorem lasting_deOpen : Lasting DeOpen := fun _ _ _ _ hc h => hc.deleted.open_ h

theorem lasting_notState {st : CohState}
    (hst : st = .uploadFailed ∨ st = .executionFailed ∨ st = .deleteFailed ∨ st = .done) :
    Lasting (NotState st) := fun _ _ _ _ hc h h' => h (hc.state st hst h')

/-! ## Updates of the steps -/

section Updates

variable {s : Lsc}

theorem Ordered.notDone_of_upOpen (h : Ordered s) (hu : UpOpen s) : s.row.currentState ≠ .done := by
  intro hd
  have := (h.done hd).1
  rw [hu] at this
  cases this

theorem Ordered.notDone_of_exOpen (h : Ordered s) (he : ExOpen s) : s.row.currentState ≠ .done := by
  intro hd
  have := (h.done hd).2.1
  rw [he] at this
  cases this

theorem Ordered.deleted_todo (h : Ordered s) (he : ExOpen s) : s.row.deleted = .todo := by
  by_contra hd
  have := h.deleted hd
  rw [he] at this
  cases this

theorem Ordered.executed_todo (h : Ordered s) (hu : UpOpen s) : s.row.executed = .todo := by
  by_contra he
  have := h.executed he
  rw [hu] at this
  cases this

theorem Ordered.setUploaded (h : Ordered s) (hu : UpOpen s) {x : StepState}
    (hx : x.isOver = true → NotState .uploadFailed s) :
    Ordered (s.setRow fun r => { r with uploaded := x }) := by
  refine ⟨fun he => absurd (h.executed_todo hu) he, h.deleted,
    fun hd => absurd hd (h.notDone_of_upOpen hu), fun hf => ?_, h.executionFailed, h.deleteFailed, h.once,
    h.fresh⟩
  exact Bool.eq_false_iff.mpr fun ho => hx ho hf

theorem Ordered.setExecuted (h : Ordered s) (hu : UpOver s) (he : ExOpen s) {x : StepState}
    (hx : x.isOver = true → NotState .executionFailed s) (hne : x ≠ .todo) :
    Ordered (s.setRow fun r => { r with executed := x }) := by
  refine ⟨fun _ => hu, fun hd => absurd (h.deleted_todo he) hd,
    fun hd => absurd hd (h.notDone_of_exOpen he), h.uploadFailed, fun hf => ?_, h.deleteFailed, h.once,
    fun _ => hne⟩
  exact Bool.eq_false_iff.mpr fun ho => hx ho hf

theorem Ordered.setDeleted (h : Ordered s) (he : ExOver s) {x : StepState}
    (hd : x.isOver = true ∨ DeOpen s) (hx : x.isOver = true → NotState .deleteFailed s) :
    Ordered (s.setRow fun r => { r with deleted := x }) := by
  refine ⟨h.executed, fun _ => he, fun hdone => ?_, h.uploadFailed, h.executionFailed, fun hf => ?_, h.once,
    h.fresh⟩
  · obtain ⟨h1, h2, h3⟩ := h.done hdone
    refine ⟨h1, h2, hd.resolve_right fun hopen => ?_⟩
    rw [hopen] at h3
    cases h3
  · exact Bool.eq_false_iff.mpr fun ho => hx ho hf

/-- A state that marks a failed step, or that all are over. -/
theorem Ordered.setState (h : Ordered s) {st : CohState} (h1 : st = .uploadFailed → UpOpen s)
    (h2 : st = .executionFailed → ExOpen s) (h3 : st = .deleteFailed → DeOpen s)
    (h4 : st = .done → UpOver s ∧ ExOver s ∧ DeOver s) :
    Ordered (s.setRow fun r => { r with currentState := st }) :=
  ⟨h.executed, h.deleted, h4, h1, h2, h3, h.once, h.fresh⟩

end Updates

/-! ## The launcher keeps the order -/

section Launcher

variable (cmd : LscCommand)

theorem keeps_seq {α β : Type} {A : Lsc → Prop} {p : LscM α} {g : α → LscM β} {B : α → Lsc → Prop}
    {D : β → Lsc → Prop} (hp : KeepsOrder A p B) (hg : ∀ a, KeepsOrder (B a) (g a) D) :
    KeepsOrder A (p >>= g) D := Script.Keeps.bind OperatorChange.refl hp hg

/-- One update, and the rest. -/
theorem keeps_then {α : Type} {A : Lsc → Prop} (B : Lsc → Prop) {f : Lsc → Lsc} {g : Unit → LscM α}
    {D : α → Lsc → Prop} (hA : Lasting A) (hB : Lasting B)
    (hf : ∀ s, Ordered s → A s → Ordered (f s) ∧ B (f s)) (hg : KeepsOrder B (g ()) D) :
    KeepsOrder A (Script.write f >>= g) D := keeps_seq (.write hA hB hf) fun _ => hg

/-- A program that ends. -/
theorem keeps_return {α : Type} {A : Lsc → Prop} (a : α) :
    KeepsOrder A (pure a : LscM α) fun _ _ => True := .pure Script.stable_true fun _ _ _ => trivial

theorem keeps_last {A : Lsc → Prop} {f : Lsc → Lsc} {b : Bool} (hA : Lasting A)
    (hf : ∀ s, Ordered s → A s → Ordered (f s)) :
    KeepsOrder A (Script.write f >>= fun _ => pure b) fun _ _ => True :=
  keeps_then (fun _ => True) hA Script.stable_true (fun s hs h => ⟨hf s hs h, trivial⟩) (keeps_return b)

theorem keeps_filesCopy : KeepsOrder UpOpen (filesCopy cmd) fun _ _ => True := by
  have hst : Lasting (NotState .uploadFailed) := lasting_notState (.inl rfl)
  unfold filesCopy
  refine .ite (fun _ => ?_) fun _ => keeps_return _
  refine keeps_then UpOpen lasting_upOpen lasting_upOpen (fun s hs h => ⟨hs.setPlain rfl, h⟩) ?_
  refine keeps_then UpOpen lasting_upOpen lasting_upOpen (fun s hs h => ⟨hs.setUploaded h ?_, rfl⟩) ?_
  · exact fun hc => absurd hc (by decide)
  refine keeps_then UpOpen lasting_upOpen lasting_upOpen (fun s hs h => ⟨hs.perform ?_, h⟩) ?_
  · exact fun hc => (by cases hc)
  refine keeps_seq (.answer lasting_upOpen) fun o => .ite (fun _ => ?_) fun _ => ?_
  · refine keeps_then (fun s => UpOpen s ∧ NotState .uploadFailed s) lasting_upOpen
      (lasting_upOpen.and hst) (fun s hs h => ⟨hs.setPlain rfl, h, CohState.noConfusion⟩) ?_
    exact keeps_last (lasting_upOpen.and hst) fun s hs h => hs.setUploaded h.1 fun _ => h.2
  · refine keeps_then UpOpen lasting_upOpen lasting_upOpen (fun s hs h => ⟨hs.setState ?_ ?_ ?_ ?_, h⟩) ?_
    · exact fun _ => h
    · exact fun hc => (by cases hc)
    · exact fun hc => (by cases hc)
    · exact fun hc => (by cases hc)
    exact keeps_last lasting_upOpen fun s hs h => hs.setUploaded h fun hc => absurd hc (by decide)

theorem keeps_fileStart :
    KeepsOrder (fun s => UpOver s ∧ ExTodo s) (fileStart cmd) fun _ _ => True := by
  have hst : Lasting (NotState .executionFailed) := lasting_notState (.inr (.inl rfl))
  have hopen : Lasting fun s => UpOver s ∧ ExOpen s := lasting_upOver.and lasting_exOpen
  unfold fileStart
  refine .ite (fun _ => ?_) fun _ => keeps_return _
  -- from now on the operator does not change `executed`
  refine keeps_then (fun s => UpOver s ∧ ExTodo s ∧ NotState .executionFailed s)
    (lasting_upOver.and lasting_exTodo) (lasting_upOver.and (lasting_exTodo.and hst))
    (fun s hs h => ⟨hs.setPlain rfl, h.1, h.2, CohState.noConfusion⟩) ?_
  refine keeps_then (fun s => UpOver s ∧ ExReady s) (lasting_upOver.and (lasting_exTodo.and hst))
    (lasting_upOver.and lasting_exReady) (fun s hs h => ?_) ?_
  · have hex : ExOpen s := by
      unfold ExOpen
      rw [h.2.1]
      rfl
    have hstart : started s.log = false := Bool.eq_false_iff.mpr fun hc => hs.fresh hc h.2.1
    exact ⟨hs.setExecuted h.1 hex (fun hc => absurd hc (by decide)) StepState.noConfusion, h.1, rfl, h.2.2,
      hstart⟩
  refine keeps_then (fun s => UpOver s ∧ ExOpen s) (lasting_upOver.and lasting_exReady) hopen
    (fun s hs h => ⟨hs.perform fun _ => ⟨h.2.2.2, ?_⟩, h.1, ?_⟩) ?_
  · rw [h.2.1]
    exact StepState.noConfusion
  · change s.row.executed.isOver = false
    rw [h.2.1]
    rfl
  refine keeps_seq (.answer hopen) fun o => .ite (fun _ => ?_) fun _ => ?_
  · refine keeps_then (fun s => (UpOver s ∧ ExOpen s) ∧ NotState .executionFailed s) hopen
      (hopen.and hst) (fun s hs h => ⟨hs.setPlain rfl, h, CohState.noConfusion⟩) ?_
    exact keeps_last (hopen.and hst) fun s hs h =>
      hs.setExecuted h.1.1 h.1.2 (fun _ => h.2) StepState.noConfusion
  · refine keeps_then (fun s => UpOver s ∧ ExOpen s) hopen hopen
      (fun s hs h => ⟨hs.setState ?_ ?_ ?_ ?_, h⟩) ?_
    · exact fun hc => (by cases hc)
    · exact fun _ => h.2
    · exact fun hc => (by cases hc)
    · exact fun hc => (by cases hc)
    exact keeps_last hopen fun s hs h =>
      hs.setExecuted h.1 h.2 (fun hc => absurd hc (by decide)) StepState.noConfusion

theorem keeps_filesDelete :
    KeepsOrder (fun s => ExOver s ∧ DeOpen s) filesDelete fun _ _ => True := by
  have hst : Lasting (NotState .deleteFailed) := lasting_notState (.inr (.inr (.inl rfl)))
  have hopen : Lasting fun s => ExOver s ∧ DeOpen s := lasting_exOver.and lasting_deOpen
  unfold filesDelete
  refine keeps_then _ hopen hopen (fun s hs h => ⟨hs.setPlain rfl, h⟩) ?_
  refine keeps_then _ hopen hopen (fun s hs h => ⟨hs.setDeleted h.1 (.inr h.2) ?_, h.1, rfl⟩) ?_
  · exact fun hc => absurd hc (by decide)
  refine keeps_then _ hopen hopen (fun s hs h => ⟨hs.perform fun hc => (by cases hc), h⟩) ?_
  refine keeps_seq (.answer hopen) fun o => .ite (fun _ => ?_) fun _ => ?_
  · refine keeps_then (fun s => (ExOver s ∧ DeOpen s) ∧ NotState .deleteFailed s) hopen
      (hopen.and hst) (fun s hs h => ⟨hs.setPlain rfl, h, CohState.noConfusion⟩) ?_
    exact keeps_last (hopen.and hst) fun s hs h => hs.setDeleted h.1.1 (.inl rfl) fun _ => h.2
  · refine keeps_then _ hopen hopen (fun s hs h => ⟨hs.setState ?_ ?_ ?_ ?_, h⟩) ?_
    · exact fun hc => (by cases hc)
    · exact fun hc => (by cases hc)
    · exact fun _ => h.2
    · exact fun hc => (by cases hc)
    exact keeps_last hopen fun s hs h => hs.setDeleted h.1 (.inr h.2) fun hc => absurd hc (by decide)

theorem keeps_refresh {B : Coh → Lsc → Prop} (hB : ∀ r, Lasting (B r)) (h : ∀ s, Ordered s → B s.row s) :
    KeepsOrder (fun _ => True) refresh B := by
  refine keeps_seq (B := fun r => B r.row) (.read Script.stable_true (fun r => hB r.row) ?_) fun r => ?_
  · exact fun s hs _ => h s hs
  · exact .pure (hB r.row) fun _ _ h => h

theorem upOpen_of_todo {s : Lsc} (h : s.row.uploaded = .todo) : UpOpen s := by
  unfold UpOpen
  rw [h]
  rfl

theorem exOpen_of_todo {s : Lsc} (h : s.row.executed = .todo) : ExOpen s := by
  unfold ExOpen
  rw [h]
  rfl

theorem keeps_uploadStep : KeepsOrder (fun _ => True) (uploadStep cmd) fun _ _ => True := by
  have hst : Lasting (NotState .uploadFailed) := lasting_notState (.inl rfl)
  unfold uploadStep
  refine keeps_seq (keeps_refresh (B := fun r s => r.uploaded = .todo → UpOpen s)
    (fun _ => lasting_upOpen.imp) fun s _ => upOpen_of_todo) fun r => ?_
  refine .ite (fun hc => ?_) fun _ => keeps_return _
  refine .weaken (UpOpen) ?_ fun s _ h => h hc.1
  refine .ite (fun _ => keeps_filesCopy cmd) fun _ => ?_
  refine keeps_then (fun s => UpOpen s ∧ NotState .uploadFailed s) lasting_upOpen (lasting_upOpen.and hst)
    (fun s hs h => ⟨hs.setPlain rfl, h, CohState.noConfusion⟩) ?_
  exact keeps_last (lasting_upOpen.and hst) fun s hs h => hs.setUploaded h.1 fun _ => h.2

theorem keeps_executionStep : KeepsOrder (fun _ => True) (executionStep cmd) fun _ _ => True := by
  have hst : Lasting (NotState .executionFailed) := lasting_notState (.inr (.inl rfl))
  have hready : Lasting fun s => UpOver s ∧ ExTodo s := lasting_upOver.and lasting_exTodo
  unfold executionStep
  refine keeps_seq (keeps_refresh (B := fun r s => r.uploaded.isOver = true ∧ r.executed = .todo →
    UpOver s ∧ ExTodo s) (fun _ => hready.imp) fun s _ h => h) fun r => ?_
  refine .ite (fun hc => ?_) fun _ => keeps_return _
  refine .weaken (fun s => UpOver s ∧ ExTodo s) ?_ fun s _ h => h ⟨hc.1, hc.2.1⟩
  refine .ite (fun _ => keeps_fileStart cmd) fun _ => ?_
  refine keeps_then (fun s => (UpOver s ∧ ExTodo s) ∧ NotState .executionFailed s) hready (hready.and hst)
    (fun s hs h => ⟨hs.setPlain rfl, h, CohState.noConfusion⟩) ?_
  exact keeps_last (hready.and hst) fun s hs h =>
    hs.setExecuted h.1.1 (exOpen_of_todo h.1.2) (fun _ => h.2) StepState.noConfusion

/-- The third step is passed over. -/
theorem keeps_ignoreDelete : KeepsOrder ExOver
    (do setCurrentState .deleteDone; setDeletedState .ignored; return false) fun _ _ => True := by
  have hst : Lasting (NotState .deleteFailed) := lasting_notState (.inr (.inr (.inl rfl)))
  refine keeps_then (fun s => ExOver s ∧ NotState .deleteFailed s) lasting_exOver (lasting_exOver.and hst)
    (fun s hs h => ⟨hs.setPlain rfl, h, CohState.noConfusion⟩) ?_
  exact keeps_last (lasting_exOver.and hst) fun s hs h => hs.setDeleted h.1 (.inl rfl) fun _ => h.2

theorem keeps_deletionStep : KeepsOrder (fun _ => True) (deletionStep cmd) fun _ _ => True := by
  have hopen : Lasting fun s => ExOver s ∧ DeOpen s := lasting_exOver.and lasting_deOpen
  unfold deletionStep
  refine keeps_seq (keeps_refresh (B := fun r s => (r.executed.isOver = true → ExOver s) ∧
    (r.executed.isOver = true ∧ r.deleted = .todo → ExOver s ∧ DeOpen s))
    (fun _ => lasting_exOver.imp.and hopen.imp) fun s _ => ⟨id, fun h => ⟨h.1, ?_⟩⟩) fun r => ?_
  · unfold DeOpen
    rw [h.2]
    rfl
  refine .ite (fun hc => ?_) fun _ => .ite (fun hc => ?_) fun _ => keeps_return _
  · refine .weaken (fun s => ExOver s ∧ DeOpen s) ?_ fun s _ h => h.2 ⟨hc.2.1, hc.2.2.2⟩
    refine .ite (fun _ => keeps_filesDelete) fun _ => ?_
    exact .weaken _ keeps_ignoreDelete fun s _ h => h.1
  · exact .weaken _ keeps_ignoreDelete fun s _ h => h.1 hc.2

theorem keeps_inventoryStep : KeepsOrder (fun _ => True) (inventoryStep cmd) fun _ _ => True := by
  unfold inventoryStep
  refine keeps_seq (keeps_refresh (B := fun _ _ => True) (fun _ => Script.stable_true) fun _ _ => trivial)
    fun r => .ite (fun _ => ?_) fun _ => keeps_return _
  refine keeps_then (fun _ => True) Script.stable_true Script.stable_true
    (fun s hs h => ⟨hs.perform fun hc => (by cases hc), trivial⟩) ?_
  exact keeps_seq (.answer Script.stable_true) fun _ => keeps_return _

theorem keeps_update {α : Type} {f : Coh → Coh} {g : Unit → LscM α}
    (hst : ∀ r, (f r).currentState = r.currentState) (hu : ∀ r, (f r).uploaded = r.uploaded)
    (he : ∀ r, (f r).executed = r.executed) (hd : ∀ r, (f r).deleted = r.deleted)
    (hg : KeepsOrder (fun _ => True) (g ()) fun _ _ => True) :
    KeepsOrder (fun _ => True) (updateRow f >>= g) fun _ _ => True :=
  keeps_then (fun _ => True) Script.stable_true Script.stable_true
    (fun _ hs _ => ⟨hs.congr (hst _) (hu _) (he _) (hd _) rfl, trivial⟩) hg

/-- The row that is written when the command is repeated. -/
theorem ordered_repeat {s : Lsc} (h : Ordered s) {r : Coh} (hst : r.currentState = .scheduled)
    (he : r.executed = .todo) (hd : r.deleted = .todo) :
    Ordered { s with row := r, log := s.log ++ [.repeated] } := by
  refine ⟨fun hc => absurd he hc, fun hc => absurd hd hc, fun hc => ?_, fun hc => ?_, fun hc => ?_,
    fun hc => ?_, h.once.append fun hc => (by cases hc), fun hc => ?_⟩
  · exact absurd (hst.symm.trans hc) (by decide)
  · exact absurd (hst.symm.trans hc) (by decide)
  · exact absurd (hst.symm.trans hc) (by decide)
  · exact absurd (hst.symm.trans hc) (by decide)
  · dsimp only at hc
    rw [started_append] at hc
    exact absurd hc Bool.false_ne_true

theorem keeps_repeatResched (coh : Coh) :
    KeepsOrder (fun _ => True) (repeatResched cmd coh) fun _ _ => True := by
  unfold repeatResched
  refine .ite (fun _ => keeps_return _) fun _ => ?_
  refine keeps_seq (.answer Script.stable_true) fun now => .ite (fun _ => keeps_return _) fun _ => ?_
  refine keeps_update (fun _ => rfl) (fun _ => rfl) (fun _ => rfl) (fun _ => rfl) ?_
  refine keeps_seq (keeps_refresh (B := fun _ _ => True) (fun _ => Script.stable_true) fun _ _ => trivial)
    fun c => ?_
  exact .write Script.stable_true Script.stable_true fun s hs _ => ⟨ordered_repeat hs rfl rfl rfl, trivial⟩

theorem keeps_finishStep : KeepsOrder (fun _ => True) (finishStep cmd) fun _ _ => True := by
  have hall : Lasting fun s => UpOver s ∧ ExOver s ∧ DeOver s :=
    lasting_upOver.and (lasting_exOver.and lasting_deOver)
  unfold finishStep
  refine keeps_seq (keeps_refresh (B := fun r s => r.uploaded.isOver = true ∧ r.executed.isOver = true ∧
    r.deleted.isOver = true → UpOver s ∧ ExOver s ∧ DeOver s) (fun _ => hall.imp) fun s _ h => h)
    fun r => ?_
  refine .ite (fun hc => ?_) fun _ => ?_
  · refine .weaken (fun s => UpOver s ∧ ExOver s ∧ DeOver s) ?_ fun s _ h => h hc
    refine keeps_then (fun _ => True) hall Script.stable_true
      (fun s hs h => ⟨hs.setState ?_ ?_ ?_ fun _ => h, trivial⟩) (keeps_repeatResched cmd r)
    · exact fun hc => (by cases hc)
    · exact fun hc => (by cases hc)
    · exact fun hc => (by cases hc)
  · exact .weaken _ (keeps_repeatResched cmd r) fun _ _ _ => trivial

theorem keeps_executeSteps : KeepsOrder (fun _ => True) (executeSteps cmd) fun _ _ => True := by
  unfold executeSteps
  refine keeps_seq (keeps_uploadStep cmd) fun _ => .ite (fun _ => keeps_return _) fun _ => ?_
  refine keeps_seq (keeps_executionStep cmd) fun _ => .ite (fun _ => keeps_return _) fun _ => ?_
  refine keeps_seq (keeps_deletionStep cmd) fun _ => .ite (fun _ => keeps_return _) fun _ => ?_
  exact keeps_seq (keeps_inventoryStep cmd) fun _ => keeps_finishStep cmd

theorem keeps_execute (session : Bool) :
    KeepsOrder (fun _ => True) (execute cmd session) fun _ _ => True := by
  unfold execute
  refine keeps_seq (keeps_refresh (B := fun _ _ => True) (fun _ => Script.stable_true) fun _ _ => trivial)
    fun coh => .ite (fun _ => keeps_return _) fun _ => ?_
  refine keeps_seq (.answer Script.stable_true) fun now => ?_
  refine keeps_seq (.answer Script.stable_true) fun now' => .ite (fun _ => ?_) fun _ => keeps_return _
  refine .ite (fun _ => keeps_return _) fun _ => ?_
  exact keeps_seq (keeps_executeSteps cmd) fun _ => keeps_return _

theorem keeps_setPlain {α : Type} {st : CohState} {g : Unit → LscM α} (hst : st.plain = true)
    (hg : KeepsOrder (fun _ => True) (g ()) fun _ _ => True) :
    KeepsOrder (fun _ => True) (setCurrentState st >>= g) fun _ _ => True :=
  keeps_then (fun _ => True) Script.stable_true Script.stable_true
    (fun _ hs _ => ⟨hs.setPlain hst, trivial⟩) hg

theorem keeps_connectionError (coh : Coh) :
    KeepsOrder (fun _ => True) (connectionError cmd coh) fun _ _ => True := by
  have hrest : KeepsOrder (fun _ => True) (do
      if coh.attempts - 1 > 0 then
        updateRow fun r => { r with nextLaunchDate := r.nextLaunchDate + 60 * cmd.nextConnectionDelay }
        let _ ← refresh
      else
        repeatResched cmd coh) fun _ _ => True := by
    refine .ite (fun _ => ?_) fun _ => keeps_repeatResched cmd coh
    refine keeps_update (fun _ => rfl) (fun _ => rfl) (fun _ => rfl) (fun _ => rfl) ?_
    exact keeps_seq (keeps_refresh (B := fun _ _ => True) (fun _ => Script.stable_true) fun _ _ => trivial)
      fun _ => keeps_return _
  unfold connectionError
  refine keeps_setPlain rfl ?_
  refine keeps_update (fun _ => rfl) (fun _ => rfl) (fun _ => rfl) (fun _ => rfl) ?_
  refine .ite (fun _ => ?_) fun _ => hrest
  refine keeps_seq (.answer Script.stable_true) fun now => ?_
  exact keeps_update (fun _ => rfl) (fun _ => rfl) (fun _ => rfl) (fun _ => rfl) hrest

theorem keeps_newSession : KeepsOrder (fun _ => True) newSession fun _ _ => True :=
  keeps_seq (.answer Script.stable_true) fun _ => keeps_seq (.answer Script.stable_true) fun _ =>
    keeps_return _

theorem keeps_connectionInit (coh : Coh) :
    KeepsOrder (fun _ => True) (connectionInit cmd coh) fun _ _ => True := by
  have herror : KeepsOrder (fun _ => True) (do
      connectionError cmd coh
      return (none : Option Bool)) fun _ _ => True :=
    keeps_seq (keeps_connectionError cmd coh) fun _ => keeps_return _
  unfold connectionInit
  refine keeps_seq (.answer Script.stable_true) fun mac => .ite (fun _ => ?_) fun _ => ?_
  · exact keeps_setPlain rfl (keeps_return _)
  refine .ite (fun _ => keeps_return _) fun _ => ?_
  refine keeps_seq (keeps_refresh (B := fun _ _ => True) (fun _ => Script.stable_true) fun _ _ => trivial)
    fun c => .ite (fun _ => keeps_return _) fun _ => .ite (fun _ => ?_) fun _ => ?_
  · exact keeps_update (fun _ => rfl) (fun _ => rfl) (fun _ => rfl) (fun _ => rfl) (keeps_return _)
  refine keeps_seq keeps_newSession fun x => ?_
  obtain ⟨pingError, errors⟩ := x
  refine .ite (fun _ => keeps_setPlain rfl (keeps_return _)) fun _ => .ite (fun _ => ?_) fun _ => herror
  refine keeps_seq keeps_newSession fun x => ?_
  obtain ⟨pingError, errors⟩ := x
  exact .ite (fun _ => keeps_setPlain rfl (keeps_return _)) fun _ => herror

theorem keeps_takeRow (pid : ℤ) : KeepsOrder (fun _ => True) (takeRow pid) fun _ _ => True := by
  intro s hs _
  refine Script.Safe.access fun s' hr => ⟨fun hs' => ?_, fun t ht => ⟨(ht ?_).1, trivial⟩⟩
  · dsimp only
    split_ifs
    · exact hs'.congr rfl rfl rfl rfl rfl
    · exact hs'
  · dsimp only
    split_ifs
    · exact (hr hs).1.congr rfl rfl rfl rfl rfl
    · exact (hr hs).1

theorem keeps_free (pid : ℤ) : KeepsOrder (fun _ => True) (free pid) fun _ _ => True :=
  .write Script.stable_true Script.stable_true fun _ hs _ => ⟨hs.congr rfl rfl rfl rfl rfl, trivial⟩

theorem keeps_die (pid : ℤ) : KeepsOrder (fun _ => True) (die pid) fun _ _ => True :=
  .write Script.stable_true Script.stable_true fun _ hs _ => ⟨hs.congr rfl rfl rfl rfl rfl, trivial⟩

theorem keeps_launch (pid : ℤ) (session : Bool) :
    KeepsOrder (fun _ => True) (launch cmd pid session) fun _ _ => True := by
  unfold launch
  refine keeps_seq (keeps_execute cmd session) fun died => .ite (fun _ => keeps_die pid) fun _ => ?_
  exact keeps_seq (keeps_free pid) fun _ => keeps_free pid

/-- **The launcher** keeps the order. -/
theorem keeps_startCommandOnHost (pid : ℤ) :
    KeepsOrder (fun _ => True) (startCommandOnHost cmd pid) fun _ _ => True := by
  have hfree : KeepsOrder (fun _ => True) (do free pid; free pid) fun _ _ => True :=
    keeps_seq (keeps_free pid) fun _ => keeps_free pid
  unfold startCommandOnHost
  refine keeps_seq (keeps_refresh (B := fun _ _ => True) (fun _ => Script.stable_true) fun _ _ => trivial)
    fun row => .ite (fun _ => keeps_return _) fun _ => ?_
  refine keeps_seq (keeps_takeRow pid) fun coh => .ite (fun _ => ?_) fun _ => keeps_free pid
  refine keeps_seq (keeps_connectionInit cmd coh) fun connection => ?_
  cases connection with
  | none => exact hfree
  | some session => exact keeps_launch cmd pid session

end Launcher

/-! ## Runs -/

/-- The row, and the launcher that is running. -/
structure LscRun where
  db : Lsc
  launcher : Option (LscM Unit)

/-- What can happen: a launcher is started, makes a step with an answer from outside or is killed,
or the operator makes one of his updates. -/
inductive LscMove
  | start (pid : ℤ) | step (answer : ℕ) | kill
  | pause | stop
  | playPid | playAttempts | playUpload | playExecution | playDelete | playInventory | playResume
  deriving DecidableEq, Repr

/-- There is no launcher, or it is over. -/
def LscRun.free (w : LscRun) : Bool :=
  match w.launcher with
  | none => true
  | some p => p.result?.isSome

def LscRun.operator (w : LscRun) (f : Coh → Coh) : LscRun := { w with db := w.db.setRow f }

/-- One launcher at a time. That a failed script is played again is noted. -/
def LscRun.move (cmd : LscCommand) (w : LscRun) : LscMove → LscRun
  | .start pid => if w.free then { w with launcher := some (startCommandOnHost cmd pid) } else w
  | .step answer =>
    match w.launcher with
    | none => w
    | some p => ⟨(Script.step answer (w.db, p)).1, some (Script.step answer (w.db, p)).2⟩
  | .kill => { w with launcher := none }
  | .pause => w.operator setPause
  | .stop => w.operator setStop
  | .playPid => w.operator LinboxRescue.playPid
  | .playAttempts => w.operator LinboxRescue.playAttempts
  | .playUpload => w.operator LinboxRescue.playUpload
  | .playExecution =>
    if w.db.row.currentState = .executionFailed then
      { w with db := { w.db.setRow LinboxRescue.playExecution with log := w.db.log ++ [.played] } }
    else w
  | .playDelete => w.operator LinboxRescue.playDelete
  | .playInventory => w.operator LinboxRescue.playInventory
  | .playResume => w.operator LinboxRescue.playResume

def LscRun.run (cmd : LscCommand) (w : LscRun) (ms : List LscMove) : LscRun :=
  ms.foldl (LscRun.move cmd) w

/-- A row that was just created. -/
def LscRun.fresh (cmd : LscCommand) : LscRun := ⟨⟨dispatchedRow cmd, [], []⟩, none⟩

/-- What the operator may do to the row. -/
def Permitted (s s' : Lsc) : Prop := Ordered s' ∧ OperatorChange s s'

section Operator

variable {s : Lsc}

theorem permitted_plain (h : Ordered s) {st : CohState} (hst : st.plain = true) :
    Permitted s (s.setRow fun r => { r with currentState := st }) := by
  refine ⟨h.setPlain hst, .refl _, .refl _, .refl _, fun x hx hc => ?_, fun _ => rfl, id⟩
  obtain rfl : st = x := hc
  obtain rfl | rfl | rfl | rfl := hx <;> cases hst

theorem permitted_congr (h : Ordered s) {f : Coh → Coh} (hst : (f s.row).currentState = s.row.currentState)
    (hu : (f s.row).uploaded = s.row.uploaded) (he : (f s.row).executed = s.row.executed)
    (hd : (f s.row).deleted = s.row.deleted) : Permitted s (s.setRow f) := by
  refine ⟨h.congr hst hu he hd rfl, ?_, ?_, ?_, fun x _ hc => hst.symm.trans hc, fun _ => he, id⟩
  · exact (show (s.setRow f).row.uploaded = s.row.uploaded from hu) ▸ .refl _
  · exact (show (s.setRow f).row.executed = s.row.executed from he) ▸ .refl _
  · exact (show (s.setRow f).row.deleted = s.row.deleted from hd) ▸ .refl _

theorem permitted_refl (h : Ordered s) : Permitted s s := ⟨h, .refl s⟩

/-- The operator's update of the state, where it applies. -/
theorem permitted_ite (h : Ordered s) (c : Coh → Prop) [DecidablePred c] {st : CohState}
    (hst : st.plain = true) :
    Permitted s (s.setRow fun r => if c r then { r with currentState := st } else r) := by
  unfold Lsc.setRow
  dsimp only
  split_ifs
  · exact permitted_plain h hst
  · exact permitted_refl h

theorem permitted_playUpload (h : Ordered s) : Permitted s (s.setRow playUpload) := by
  unfold Lsc.setRow playUpload
  split_ifs with hf
  · have hopen : UpOpen s := h.uploadFailed hf
    refine ⟨⟨fun he => absurd (h.executed_todo hopen) he, h.deleted, fun hc => (by cases hc),
      fun hc => (by cases hc), fun hc => (by cases hc), fun hc => (by cases hc), h.once, h.fresh⟩,
      .to_todo hopen, .refl _, .refl _, ?_, fun _ => rfl, id⟩
    rintro x (rfl | rfl | rfl | rfl) hc <;> cases hc
  · exact permitted_refl h

theorem permitted_playExecution (h : Ordered s) (hf : s.row.currentState = .executionFailed) :
    Permitted s { s.setRow playExecution with log := s.log ++ [.played] } := by
  have hopen : ExOpen s := h.executionFailed hf
  have hstart : ¬started (s.log ++ [.played]) = true := by
    rw [started_append]
    exact Bool.false_ne_true
  unfold Lsc.setRow playExecution
  rw [if_pos hf]
  refine ⟨⟨fun he => absurd rfl he, fun hd => absurd (h.deleted_todo hopen) hd, fun hc => (by cases hc),
    fun hc => (by cases hc), fun hc => (by cases hc), fun hc => (by cases hc),
    h.once.append fun hc => (by cases hc), fun hc => absurd hc hstart⟩,
    .refl _, .to_todo hopen, .refl _, ?_, fun hc => absurd hf hc, fun hc => absurd hc hstart⟩
  rintro x (rfl | rfl | rfl | rfl) hc <;> cases hc

theorem permitted_playDelete (h : Ordered s) : Permitted s (s.setRow playDelete) := by
  unfold Lsc.setRow playDelete
  split_ifs with hf
  · have hopen : DeOpen s := h.deleteFailed hf
    refine ⟨⟨h.executed, fun hd => absurd rfl hd, fun hc => (by cases hc), fun hc => (by cases hc),
      fun hc => (by cases hc), fun hc => (by cases hc), h.once, h.fresh⟩,
      .refl _, .refl _, .to_todo hopen, ?_, fun _ => rfl, id⟩
    rintro x (rfl | rfl | rfl | rfl) hc <;> cases hc
  · exact permitted_refl h

end Operator

/-- The order, and that the launcher keeps it. -/
structure LscRun.InOrder (w : LscRun) : Prop where
  ordered : Ordered w.db
  safe : ∀ p, w.launcher = some p →
    Script.Safe (Script.Rely Ordered OperatorChange) (Script.Guarantee Ordered)
      (fun _ s => Ordered s ∧ True) p w.db

/-- An update of the operator. -/
theorem LscRun.InOrder.operator {w : LscRun} (h : w.InOrder) {s : Lsc} (hp : Permitted w.db s) :
    LscRun.InOrder { w with db := s } :=
  ⟨hp.1, fun p hl => (h.safe p hl).rely (Script.rely_trans OperatorChange.trans) fun _ => hp⟩

/-- **One move**. -/
theorem LscRun.InOrder.move {cmd : LscCommand} {w : LscRun} (h : w.InOrder) (m : LscMove) :
    (w.move cmd m).InOrder := by
  cases m with
  | start pid =>
    unfold LscRun.move
    dsimp only
    split_ifs
    · refine ⟨h.ordered, fun p hp => ?_⟩
      obtain rfl := Option.some.inj hp
      exact keeps_startCommandOnHost cmd pid w.db h.ordered trivial
    · exact h
  | step answer =>
    unfold LscRun.move
    cases hl : w.launcher with
    | none => exact h
    | some p =>
      obtain ⟨hstep, hsafe⟩ := (h.safe p hl).step (Script.rely_refl OperatorChange.refl) answer
      refine ⟨?_, fun q hq => Option.some.inj hq ▸ hsafe⟩
      change Ordered (Script.step answer (w.db, p)).1
      obtain hsame | hg := hstep
      · rw [hsame]
        exact h.ordered
      · exact hg h.ordered
  | kill => exact ⟨h.ordered, fun p hp => (by cases hp)⟩
  | pause => exact h.operator (permitted_ite h.ordered _ rfl)
  | stop =>
    have hpid := permitted_congr h.ordered (f := fun r => { r with currentPid := -1 }) rfl rfl rfl rfl
    have hstop := @permitted_plain _ hpid.1 .stop rfl
    exact h.operator ⟨hstop.1, OperatorChange.trans _ _ _ hpid.2 hstop.2⟩
  | playPid => exact h.operator (permitted_congr h.ordered rfl rfl rfl rfl)
  | playAttempts =>
    refine h.operator ?_
    unfold Lsc.setRow LinboxRescue.playAttempts
    split_ifs
    · exact permitted_congr h.ordered (f := fun r => { r with attempts := 1 }) rfl rfl rfl rfl
    · exact permitted_refl h.ordered
  | playUpload => exact h.operator (permitted_playUpload h.ordered)
  | playExecution =>
    unfold LscRun.move
    dsimp only
    split_ifs with hf
    · exact h.operator (permitted_playExecution h.ordered hf)
    · exact h
  | playDelete => exact h.operator (permitted_playDelete h.ordered)
  | playInventory => exact h.operator (permitted_ite h.ordered _ rfl)
  | playResume => exact h.operator (permitted_ite h.ordered _ rfl)

/-- The steps of a command, in their order and once. -/
structure StepsInOrder (s : Lsc) : Prop where
  executed : s.row.executed ≠ .todo → s.row.uploaded = .done ∨ s.row.uploaded = .ignored
  deleted : s.row.deleted ≠ .todo → s.row.executed = .done ∨ s.row.executed = .ignored
  done : s.row.currentState = .done → (s.row.uploaded = .done ∨ s.row.uploaded = .ignored) ∧
    (s.row.executed = .done ∨ s.row.executed = .ignored) ∧
    (s.row.deleted = .done ∨ s.row.deleted = .ignored)
  once : Separated s.log

/-- **The steps of a command** happen in order and once, in every run. -/
theorem steps_in_order (cmd : LscCommand) (ms : List LscMove) :
    StepsInOrder ((LscRun.fresh cmd).run cmd ms).db := by
  have h0 : (LscRun.fresh cmd).InOrder := by
    refine ⟨⟨fun h => absurd rfl h, fun h => absurd rfl h, fun h => (by cases h), fun h => (by cases h),
      fun h => (by cases h), fun h => (by cases h), fun pre mid post h => ?_, fun h => (by cases h)⟩,
      fun p hp => (by cases hp)⟩
    cases pre <;> cases h
  have hrun : ∀ (ms : List LscMove) (w : LscRun), w.InOrder → (w.run cmd ms).InOrder := by
    intro ms
    induction ms with
    | nil => exact fun w h => h
    | cons m ms ih => exact fun w h => ih _ (h.move m)
  have h := (hrun ms _ h0).ordered
  refine ⟨fun he => isOver_iff.mp (h.executed he), fun hd => isOver_iff.mp (h.deleted hd), fun hd => ?_,
    h.once⟩
  obtain ⟨h1, h2, h3⟩ := h.done hd
  exact ⟨isOver_iff.mp h1, isOver_iff.mp h2, isOver_iff.mp h3⟩

end LinboxRescue
