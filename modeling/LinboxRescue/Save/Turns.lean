import LinboxRescue.Save.Save

/-!
# The turns of `save`

`Machine.fate` says what becomes of a device met in a given state: it is passed over, it is taken for
a whole disk, or it is copied. `step_eq` reads a turn of the loop off its fate, and `turns` lists the
states and devices of a run, so that what a run has written is a function of them: `run_images`,
`run_conf`, `run_disks`.
-/

namespace LinboxRescue

inductive Fate
  | skip
  | disk (start : UInt32)
  | copy (tmin ttype : UInt32)
  deriving DecidableEq, Repr

/-- What becomes of a device. -/
def Machine.fate (E : Machine) (st : SaveState) (p : Part) : Fate :=
  if p.isdm && !st.shouldBackupLvm then .skip
  else if !E.opens p.path then .skip
  else
    match E.start p with
    | none => .skip
    | some start =>
      if p.dontsave start then .disk start
      else if E.size p.path ≤ 63 || isExtended (E.ttype st p start) ||
          E.isexcluded (st.numberFor p - 128) p.poff then .skip
      else .copy start (E.ttype st p start)

/-- The state when a device is looked at. -/
def SaveState.look (st : SaveState) (p : Part) : SaveState := { st with dnum := st.numberFor p }

/-- A whole disk is noted in `majorn`, unless its start sector is not 0. -/
def SaveState.major (st : SaveState) (p : Part) (start : UInt32) : SaveState :=
  { st with majorn := if start == 0 && !p.isdm then p.path else st.majorn }

theorem SaveState.major_eq (st : SaveState) (p : Part) (start : UInt32) :
    (if start == 0 && !p.isdm then { st with majorn := p.path } else st) = st.major p start := by
  unfold SaveState.major
  split_ifs <;> rfl

theorem step_eq (E : Machine) (st : SaveState) (p : Part) : st.step E p =
    match E.fate st p with
    | .skip => st.look p
    | .disk start => ((st.look p).major p start).newDisk E p
    | .copy tmin ttype => (st.look p).copy E p tmin ttype := by
  unfold SaveState.step Machine.fate
  by_cases hlvm : (p.isdm && !st.shouldBackupLvm) = true
  · rw [if_pos hlvm, if_pos hlvm]; rfl
  rw [if_neg hlvm, if_neg hlvm]
  by_cases hopen : (!E.opens p.path) = true
  · rw [if_pos hopen, if_pos hopen]; rfl
  rw [if_neg hopen, if_neg hopen]
  cases E.start p with
  | none => rfl
  | some start =>
    dsimp only
    by_cases hdisk : p.dontsave start = true
    · rw [if_pos hdisk, if_pos hdisk]
      exact congrArg (SaveState.newDisk E · p) (SaveState.major_eq (st.look p) p start)
    · -- only a device taken for a whole disk changes `majorn`
      have hmaj : ¬(start == 0 && !p.isdm) = true := fun h =>
        hdisk (by rw [Part.dontsave, h, Bool.or_true])
      rw [if_neg hdisk, if_neg hdisk, if_neg hmaj]
      show (if E.size p.path ≤ 63 || isExtended (E.ttype st p start) ||
        E.isexcluded (st.numberFor p - 128) p.poff then _ else _) = _
      split_ifs <;> rfl

/-- A volume is not taken for a whole disk. -/
theorem dontsave_volume {p : Part} (h : p.isdm = true) (start : UInt32) : p.dontsave start = false := by
  have hmaj : p.major = 254 := by simpa [Part.isdm] using h
  rw [Part.dontsave, h, isDisk, hmaj]
  simp

/-- The states of a run and the devices met in them. -/
def Machine.turns (E : Machine) : SaveState → List Part → List (SaveState × Part)
  | _, [] => []
  | st, p :: ps => (st, p) :: E.turns (st.step E p) ps

theorem mem_turns {E : Machine} {st : SaveState} {ps : List Part} {t : SaveState × Part}
    (h : t ∈ E.turns st ps) : t.2 ∈ ps := by
  induction ps generalizing st with
  | nil => cases h
  | cons p ps ih =>
    rcases List.mem_cons.mp h with rfl | h
    · exact List.mem_cons_self
    · exact List.mem_cons_of_mem _ (ih h)

/-- A log that every turn extends by what depends on the state and the device. -/
theorem run_log (E : Machine) {β : Type} (log : SaveState → List β)
    (write : SaveState → Part → List β)
    (h : ∀ st p, log (st.step E p) = log st ++ write st p) (st : SaveState) (ps : List Part) :
    log (ps.foldl (SaveState.step E) st) = log st ++ (E.turns st ps).flatMap fun t => write t.1 t.2 := by
  induction ps generalizing st with
  | nil => exact (List.append_nil _).symm
  | cons p ps ih =>
    rw [List.foldl_cons, ih, h, Machine.turns, List.flatMap_cons, List.append_assoc]

/-! ## Images -/

/-- The image made of a device. -/
def Machine.image (E : Machine) (st : SaveState) (p : Part) : Option Image :=
  match E.fate st p with
  | .copy _ ttype =>
    (E.tool p.path ttype).map fun tool => ⟨tool, p.path, p.file (st.numberFor p)⟩
  | _ => none

theorem images_step (E : Machine) (st : SaveState) (p : Part) :
    (st.step E p).images = st.images ++ (E.image st p).toList := by
  rw [step_eq, Machine.image]
  cases E.fate st p with
  | skip => exact (List.append_nil _).symm
  | disk start => exact (List.append_nil _).symm
  | copy tmin ttype =>
    dsimp only
    unfold SaveState.copy
    cases E.tool p.path ttype with
    | none => exact (List.append_nil _).symm
    | some tool => rfl

theorem run_images (E : Machine) (st : SaveState) (ps : List Part) :
    (ps.foldl (SaveState.step E) st).images =
      st.images ++ (E.turns st ps).filterMap fun t => E.image t.1 t.2 := by
  rw [run_log E (·.images) (fun st p => (E.image st p).toList) (images_step E) st ps,
    List.filterMap_eq_flatMap_toList]

/-! ## Lines of `conf.txt` -/

/-- The lines written for a device. -/
def Machine.lines (E : Machine) (st : SaveState) (p : Part) : List ConfLine :=
  match E.fate st p with
  | .skip => []
  | .disk _ =>
    let dnum := (gethdbios E.hdmap.isSome st.bios (E.size p.path)).1
    [.ptabsComment, .ptabs (dnum - 128) (dnum2pre dnum)]
  | .copy tmin ttype =>
    partLines E (st.look p) p tmin ttype ++
      if (E.tool p.path ttype).isSome then [] else [.error (st.numberFor p) p.poff ttype]

theorem conf_step (E : Machine) (st : SaveState) (p : Part) :
    (st.step E p).conf = st.conf ++ E.lines st p := by
  rw [step_eq, Machine.lines]
  cases E.fate st p with
  | skip => exact (List.append_nil _).symm
  | disk start => rfl
  | copy tmin ttype =>
    dsimp only
    unfold SaveState.copy
    cases E.tool p.path ttype with
    | none => exact List.append_assoc _ _ _
    | some tool => rw [Option.isSome_some, if_pos rfl, List.append_nil]; rfl

theorem run_conf (E : Machine) (st : SaveState) (ps : List Part) :
    (ps.foldl (SaveState.step E) st).conf =
      st.conf ++ (E.turns st ps).flatMap fun t => E.lines t.1 t.2 :=
  run_log E (·.conf) E.lines (conf_step E) st ps

/-! ## Disks -/

/-- The number and the name of a device taken for a whole disk. -/
def Machine.disk (E : Machine) (st : SaveState) (p : Part) : List (ℤ × Bytes) :=
  match E.fate st p with
  | .disk _ => [((gethdbios E.hdmap.isSome st.bios (E.size p.path)).1 - 128, p.device)]
  | _ => []

theorem disks_step (E : Machine) (st : SaveState) (p : Part) :
    (st.step E p).disks = st.disks ++ E.disk st p := by
  rw [step_eq, Machine.disk]
  cases E.fate st p with
  | skip => exact (List.append_nil _).symm
  | disk start => rfl
  | copy tmin ttype =>
    dsimp only
    unfold SaveState.copy
    cases E.tool p.path ttype with
    | none => exact (List.append_nil _).symm
    | some tool => exact (List.append_nil _).symm

end LinboxRescue
