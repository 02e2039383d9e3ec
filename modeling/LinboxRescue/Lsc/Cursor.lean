import LinboxRescue.Lsc.Dispatch

/-!
# Loops over the rows of a query

The scripts have one handle of the database, with the result of the last query
(`src/webmin/lbs_common/php/phplib/db_mysql.inc`). `dispatch_all_commands` and
`lsc_command_set_stop` read one record after the other from it, and what they call in between makes
queries with the same handle.

1. `Db`: the tables, and the records that are left on the handle.
2. `run_dispatch`, `run_setStop`: what is called leaves no record.
3. `whileRecord_of_empty`: so the loop ends after the first record.
4. `loops_reach_all_iff`: it reaches all rows if there are no others to be reached.
-/

namespace LinboxRescue

/-! ## The handle -/

/-- The tables and the records on the handle; of a record, the column that is read. -/
abbrev Db := StateM (Tables × List ℕ)

namespace Db

def query (select : Tables → List ℕ) : Db Unit := modify fun s => (s.1, select s.1)

/-- An update has no records. -/
def update (f : Tables → Tables) : Db Unit := modify fun s => (f s.1, [])

def numRows : Db ℕ := return (← get).2.length

def nextRecord : Db (Option ℕ) := modifyGet fun s => (s.2.head?, (s.1, s.2.tail))

/-- `while ($database->next_record())`. -/
def whileRecord (body : ℕ → Db Unit) : ℕ → Db Unit
  | 0 => return ()
  | fuel + 1 => do
    match ← nextRecord with
    | none => return ()
    | some r =>
      body r
      whileRecord body fuel

end Db

open Db

/-! ## `dispatch_all_commands` -/

section DispatchAll

variable (rt : Runtime) (ether : List Host)

/-- `new LSC_Scheduler_Command($id)`. -/
def readCommand (id : ℕ) : Db (Option CommandRow) := do
  let row := (← get).1.commands.find? fun c => c.id = id
  query fun t => (t.commands.find? fun c => c.id = id).toList.map CommandRow.id
  let _ ← nextRecord
  return row

/-- `get_dispatched`. -/
def queryDispatched (id : ℕ) : Db Bool := do
  query fun t => (t.commands.find? fun c => c.id = id).toList.map fun c => if c.dispatched then 1 else 0
  return (← nextRecord) = some 1

/-- The rows of a command and a host. -/
def Tables.foundRows (t : Tables) (id : ℕ) (host : Bytes) : List ℕ :=
  ((t.rowsOf id).filter fun r => rt.columnKey r.host = rt.columnKey host).map HostRow.id

/-- `get_by_host_and_id_command`: whether there is no row. -/
def queryNoRow (id : ℕ) (host : Bytes) : Db Bool := do
  query fun t => t.foundRows rt id host
  let n ← numRows
  if n = 1 then
    let _ ← nextRecord
    return false
  else
    return n = 0

/-- The insertion of `update`. -/
def queryInsert (id : ℕ) (host : Bytes) (coh : Coh) : Db Unit := do
  update fun t => t.insertRow id host coh
  query fun t => (t.onHost.getLast?.map HostRow.id).toList
  let _ ← nextRecord

def dispatchHosts (c : CommandRow) : List Bytes → Db Unit
  | [] => return ()
  | h :: hosts => do
    if ← queryNoRow rt c.id h then
      queryInsert c.id h (dispatchedRow c.cmd)
    dispatchHosts c hosts

/-- `dispatch`. -/
def dispatch (c : CommandRow) : Db Unit := do
  if ← queryDispatched c.id then
    return ()
  dispatchHosts rt c (c.hosts rt ether)
  update fun t => t.setDispatched c.id

def dispatchAllCommands (fuel : ℕ) : Db Unit := do
  query fun t => (t.commands.filter fun c => !c.dispatched).map CommandRow.id
  whileRecord (fun id => do
    match ← readCommand id with
    | some c => dispatch rt ether c
    | none => return ()) fuel

end DispatchAll

/-! ## `lsc_command_set_stop` -/

section SetStop

/-- The update of one row. -/
def Tables.stopRow (t : Tables) (id : ℕ) : Tables :=
  { t with onHost := t.onHost.map fun r => if r.id = id then { r with coh := setStop r.coh } else r }

/-- `lsc_command_on_host_set_stop`. -/
def lscCommandOnHostSetStop (id : ℕ) : Db Unit := do
  query fun t => (t.onHost.filter fun r => r.id = id).map fun r =>
    if r.coh.currentState = .done then 1 else 0
  if (← nextRecord) ≠ some 1 then
    update fun t => t.stopRow id

def lscCommandSetStop (id fuel : ℕ) : Db Unit := do
  query fun t => (t.rowsOf id).map HostRow.id
  whileRecord lscCommandOnHostSetStop fuel

end SetStop

/-! ## What is left on the handle -/

section Runs

variable {t : Tables} {left : List ℕ}

/-- **The loop** ends after the first record, if its body leaves none. -/
theorem whileRecord_of_empty {body : ℕ → Db Unit} {fuel r : ℕ} {t' : Tables}
    (h : (body r).run (t, left) = ((), (t', []))) :
    (whileRecord body (fuel + 1)).run (t, r :: left) = ((), (t', [])) := by
  change (do body r; whileRecord body fuel : Db Unit).run (t, left) = _
  rw [StateT.run_bind, h]
  cases fuel with
  | zero => rfl
  | succ fuel => rfl

theorem whileRecord_nil {body : ℕ → Db Unit} (fuel : ℕ) :
    (whileRecord body fuel).run (t, []) = ((), (t, [])) := by
  cases fuel with
  | zero => rfl
  | succ fuel => rfl

variable {rt : Runtime} {ether : List Host} {c : CommandRow}

/-- The rows that `dispatch` adds. -/
def Tables.addRows (rt : Runtime) (c : CommandRow) (t : Tables) (hosts : List Bytes) : Tables :=
  hosts.foldl (fun t h => if t.noRow rt c.id h then t.insertRow c.id h (dispatchedRow c.cmd) else t) t

theorem addRows_cons (h : Bytes) (hosts : List Bytes) : t.addRows rt c (h :: hosts) =
    (if t.noRow rt c.id h then t.insertRow c.id h (dispatchedRow c.cmd) else t).addRows rt c hosts := rfl

/-- What the insertion of a first row of a host keeps. -/
theorem addRows_induction (P : Tables → Prop) {hosts : List Bytes}
    (hP : ∀ t, ∀ h ∈ hosts, t.noRow rt c.id h = true → P t →
      P (t.insertRow c.id h (dispatchedRow c.cmd))) (ht : P t) : P (t.addRows rt c hosts) := by
  refine List.foldlRecOn hosts _ ht fun t ht h hh => ?_
  split_ifs with hno
  · exact hP t h hh hno ht
  · exact ht

theorem foundRows_eq_nil {id : ℕ} {host : Bytes} :
    (t.foundRows rt id host).length = 0 ↔ t.noRow rt id host = true := by
  unfold Tables.foundRows
  rw [List.length_map, List.length_eq_zero_iff, List.filter_eq_nil_iff, noRow_iff]
  simp

theorem run_queryNoRow (id : ℕ) (host : Bytes) :
    ∃ left', (queryNoRow rt id host).run (t, left) = (t.noRow rt id host, (t, left')) := by
  have hno : decide ((t.foundRows rt id host).length = 0) = t.noRow rt id host := by
    rw [Bool.eq_iff_iff, decide_eq_true_iff, foundRows_eq_nil]
  rw [← hno]
  unfold queryNoRow
  change ∃ left', (if (t.foundRows rt id host).length = 1 then (do let _ ← nextRecord; return false : Db Bool)
    else return (t.foundRows rt id host).length = 0).run (t, t.foundRows rt id host) = _
  by_cases h1 : (t.foundRows rt id host).length = 1
  · rw [if_pos h1, h1]
    exact ⟨_, rfl⟩
  · rw [if_neg h1]
    exact ⟨_, rfl⟩

theorem run_dispatchHosts (hosts : List Bytes) :
    ∃ left', (dispatchHosts rt c hosts).run (t, left) = ((), (t.addRows rt c hosts, left')) := by
  induction hosts generalizing t left with
  | nil => exact ⟨left, rfl⟩
  | cons h hosts ih =>
    obtain ⟨left₁, h₁⟩ := @run_queryNoRow t left rt c.id h
    unfold dispatchHosts
    rw [StateT.run_bind, h₁, addRows_cons]
    by_cases hno : t.noRow rt c.id h = true
    · rw [hno, if_pos rfl]
      exact ih
    · rw [Bool.not_eq_true] at hno
      rw [hno, if_neg Bool.false_ne_true]
      exact ih

theorem run_queryDispatched (id : ℕ) :
    ∃ left', (queryDispatched id).run (t, left) = (t.getDispatched id, (t, left')) := by
  refine ⟨_, Prod.ext ?_ rfl⟩
  unfold Tables.getDispatched
  change decide (((t.commands.find? fun c => c.id = id).toList.map fun c =>
    if c.dispatched then 1 else 0).head? = some 1) = _
  cases t.commands.find? fun c => c.id = id with
  | none => rfl
  | some x =>
    obtain ⟨i, target, cmd, d⟩ := x
    cases d <;> rfl

/-- **`dispatch`** leaves no record. -/
theorem run_dispatch (hd : t.getDispatched c.id = false) :
    (dispatch rt ether c).run (t, left) =
      ((), ((t.addRows rt c (c.hosts rt ether)).setDispatched c.id, [])) := by
  obtain ⟨left₁, h₁⟩ := @run_queryDispatched t left c.id
  obtain ⟨left₂, h₂⟩ := @run_dispatchHosts t left₁ rt c (c.hosts rt ether)
  unfold dispatch
  rw [StateT.run_bind, h₁, hd]
  change (do dispatchHosts rt c (c.hosts rt ether); update fun t => t.setDispatched c.id : Db Unit).run
    (t, left₁) = _
  rw [StateT.run_bind, h₂]
  rfl

theorem addRows_commands (hosts : List Bytes) : (t.addRows rt c hosts).commands = t.commands :=
  addRows_induction (fun t' => t'.commands = t.commands) (fun _ _ _ _ h => h) rfl

theorem Covered.addRows {hosts : List Bytes} (h : Covered rt t c.id hosts) (more : List Bytes) :
    Covered rt (t.addRows rt c more) c.id hosts :=
  addRows_induction (fun t => Covered rt t c.id hosts) (fun _ _ _ _ h => h.insertRow _ _) h

/-- `dispatch` adds a row for each host. -/
theorem covered_addRows (hosts : List Bytes) : Covered rt (t.addRows rt c hosts) c.id hosts := by
  induction hosts generalizing t with
  | nil => exact fun x hx => absurd hx List.not_mem_nil
  | cons x hosts ih =>
    have hx : Covered rt (if t.noRow rt c.id x then t.insertRow c.id x (dispatchedRow c.cmd) else t)
        c.id [x] := by
      intro y hy
      rw [List.mem_singleton.mp hy]
      split_ifs with hno
      · exact ⟨_, mem_insertRow x _, .inr rfl⟩
      · rw [noRow_iff] at hno
        push Not at hno
        obtain ⟨r, hr, hk⟩ := hno
        exact ⟨r, hr, .inl hk⟩
    intro y hy
    rw [addRows_cons]
    obtain rfl | hy := List.mem_cons.mp hy
    · exact (hx.addRows hosts) y (List.mem_singleton.mpr rfl)
    · exact ih y hy

/-- A command with its own id. -/
theorem find?_command (hid : (t.commands.map CommandRow.id).Nodup) (hc : c ∈ t.commands) :
    t.commands.find? (fun x => x.id = c.id) = some c := by
  cases h : t.commands.find? fun x => x.id = c.id with
  | none => exact absurd (decide_eq_true rfl) (List.find?_eq_none.mp h c hc)
  | some x =>
    have hx : x.id = c.id := by simpa using List.find?_some h
    rw [List.inj_on_of_nodup_map hid (List.mem_of_find?_eq_some h) hc hx]

theorem getDispatched_eq (hid : (t.commands.map CommandRow.id).Nodup) (hc : c ∈ t.commands) :
    t.getDispatched c.id = c.dispatched := by
  unfold Tables.getDispatched
  rw [find?_command hid hc, Option.any_some]

theorem getDispatched_setDispatched_of_ne {id id' : ℕ} (h : id' ≠ id) :
    (t.setDispatched id).getDispatched id' = t.getDispatched id' := by
  unfold Tables.getDispatched
  rw [find?_setDispatched]
  cases hf : t.commands.find? fun x => x.id = id' with
  | none => rfl
  | some x =>
    have hx : x.id = id' := by simpa using List.find?_some hf
    rw [Option.map_some, if_neg (fun hc => h (hx.symm.trans hc))]

/-- The commands that are not dispatched. -/
def Tables.undispatched (t : Tables) : List CommandRow := t.commands.filter fun c => !c.dispatched

/-- Only the first command is dispatched. -/
theorem run_dispatchAllCommands (hid : (t.commands.map CommandRow.id).Nodup) (fuel : ℕ) :
    ((dispatchAllCommands rt ether (fuel + 1)).run (t, left)).2.1 =
      match t.undispatched with
      | [] => t
      | c :: _ => (t.addRows rt c (c.hosts rt ether)).setDispatched c.id := by
  unfold dispatchAllCommands
  change ((whileRecord _ (fuel + 1)).run (t, t.undispatched.map CommandRow.id)).2.1 = _
  cases hu : t.undispatched with
  | nil => rw [List.map_nil, whileRecord_nil]
  | cons c cs =>
    have hc := List.mem_filter.mp (hu ▸ List.mem_cons_self : c ∈ t.undispatched)
    rw [List.map_cons, whileRecord_of_empty]
    rw [StateT.run_bind]
    change (match t.commands.find? (fun x => x.id = c.id) with
      | some c => dispatch rt ether c
      | none => return () : Db Unit).run (t, _) = _
    rw [find?_command hid hc.1]
    refine run_dispatch ?_
    rw [getDispatched_eq hid hc.1]
    simpa using hc.2

theorem filter_row {r : HostRow} (hid : (t.onHost.map HostRow.id).Nodup) (hr : r ∈ t.onHost) :
    t.onHost.filter (fun x => x.id = r.id) = [r] := by
  have hsame : t.onHost.filter (fun x => x.id = r.id) = t.onHost.filter (fun x => x = r) :=
    List.filter_congr fun x hx => by
      rw [decide_eq_decide]
      exact ⟨fun h => List.inj_on_of_nodup_map hid hx hr h, fun h => h ▸ rfl⟩
  rw [hsame, List.filter_eq, List.count_eq_one_of_mem (List.Nodup.of_map _ hid) hr]
  rfl

/-- **`lsc_command_on_host_set_stop`** leaves no record. -/
theorem run_setStop {r : HostRow} (hid : (t.onHost.map HostRow.id).Nodup) (hr : r ∈ t.onHost) :
    (lscCommandOnHostSetStop r.id).run (t, left) =
      ((), (if r.coh.currentState = .done then t else t.stopRow r.id, [])) := by
  unfold lscCommandOnHostSetStop query
  change (do
    if (← nextRecord) ≠ some 1 then
      update fun t => t.stopRow r.id : Db Unit).run (t, (t.onHost.filter fun x => x.id = r.id).map fun r =>
        if r.coh.currentState = .done then 1 else 0) = _
  rw [filter_row hid hr, List.map_singleton]
  split_ifs
  · rfl
  · rfl

/-- Only the first row is stopped. -/
theorem run_lscCommandSetStop (hid : (t.onHost.map HostRow.id).Nodup) (id fuel : ℕ) :
    ((lscCommandSetStop id (fuel + 1)).run (t, left)).2.1 =
      match t.rowsOf id with
      | [] => t
      | r :: _ => if r.coh.currentState = .done then t else t.stopRow r.id := by
  unfold lscCommandSetStop
  change ((whileRecord _ (fuel + 1)).run (t, (t.rowsOf id).map HostRow.id)).2.1 = _
  cases hu : t.rowsOf id with
  | nil => rw [List.map_nil, whileRecord_nil]
  | cons r rs =>
    have hr := List.mem_filter.mp (hu ▸ List.mem_cons_self : r ∈ t.rowsOf id)
    rw [List.map_cons, whileRecord_of_empty (run_setStop hid hr.1)]

end Runs

/-! ## Which rows are reached -/

section Reached

variable (rt : Runtime) (ether : List Host) (t : Tables)

/-- Every command that was not dispatched is marked and has its rows. -/
def AllDispatched (t' : Tables) : Prop :=
  ∀ c ∈ t.commands, c.dispatched = false →
    t'.getDispatched c.id = true ∧ Covered rt t' c.id (c.hosts rt ether)

/-- Every row of the command that was not done is stopped. -/
def AllStopped (id : ℕ) (t' : Tables) : Prop :=
  ∀ r ∈ t.rowsOf id, r.coh.currentState ≠ .done →
    ∀ r' ∈ t'.onHost, r'.id = r.id → r'.coh.currentState = .stop

variable {rt ether t}

theorem allDispatched_iff (hid : (t.commands.map CommandRow.id).Nodup) (fuel : ℕ) (left : List ℕ) :
    AllDispatched rt ether t ((dispatchAllCommands rt ether (fuel + 1)).run (t, left)).2.1 ↔
      t.undispatched.length ≤ 1 := by
  have hmem : ∀ c, c ∈ t.undispatched ↔ c ∈ t.commands ∧ c.dispatched = false := fun c => by
    unfold Tables.undispatched
    rw [List.mem_filter, Bool.not_eq_true']
  rw [run_dispatchAllCommands hid]
  cases hu : t.undispatched with
  | nil =>
    refine ⟨fun _ => Nat.zero_le 1, fun _ c hc hd => ?_⟩
    have := (hmem c).mpr ⟨hc, hd⟩
    rw [hu] at this
    exact absurd this List.not_mem_nil
  | cons c cs =>
    have hc := (hmem c).mp (hu ▸ List.mem_cons_self)
    dsimp only
    constructor
    · intro h
      -- the second command is not marked
      cases cs with
      | nil => exact le_refl 1
      | cons d cs =>
        have hd := (hmem d).mp (hu ▸ List.mem_cons_of_mem _ List.mem_cons_self)
        have hnodup : (t.undispatched).Nodup := (List.Nodup.of_map _ hid).filter _
        have hne : d.id ≠ c.id := by
          intro hdc
          have := List.inj_on_of_nodup_map hid hd.1 hc.1 hdc
          rw [hu, this] at hnodup
          exact (List.nodup_cons.mp hnodup).1 List.mem_cons_self
        have hmark := (h d hd.1 hd.2).1
        rw [getDispatched_setDispatched_of_ne hne] at hmark
        unfold Tables.getDispatched at hmark
        rw [addRows_commands, find?_command hid hd.1, Option.any_some, hd.2] at hmark
        cases hmark
    · intro hlen d hd hdd
      have hcs : cs = [] := List.length_eq_zero_iff.mp (by simpa using hlen)
      have hdc := (hmem d).mpr ⟨hd, hdd⟩
      rw [hu, hcs, List.mem_singleton] at hdc
      subst hdc
      refine ⟨?_, covered_addRows _⟩
      unfold Tables.getDispatched
      rw [find?_setDispatched_self (x := d) (by rw [addRows_commands]; exact find?_command hid hd)]
      rfl

theorem allStopped_iff (hid : (t.onHost.map HostRow.id).Nodup) (id fuel : ℕ) (left : List ℕ) :
    AllStopped t id ((lscCommandSetStop id (fuel + 1)).run (t, left)).2.1 ↔
      ∀ r ∈ (t.rowsOf id).tail, r.coh.currentState = .done ∨ r.coh.currentState = .stop := by
  have hmem : ∀ r ∈ t.rowsOf id, r ∈ t.onHost := fun r hr => (List.mem_filter.mp hr).1
  have hsame : ∀ r ∈ t.onHost, ∀ r' ∈ t.onHost, r'.id = r.id → r' = r := fun r hr r' hr' h =>
    List.inj_on_of_nodup_map hid hr' hr h
  rw [run_lscCommandSetStop hid]
  cases hu : t.rowsOf id with
  | nil =>
    refine ⟨fun _ r hr => absurd hr List.not_mem_nil, fun _ r hr => ?_⟩
    rw [hu] at hr
    exact absurd hr List.not_mem_nil
  | cons r₀ rs =>
    have hnodup : (t.rowsOf id).Nodup := (List.Nodup.of_map _ hid).filter _
    have hr₀ := hmem r₀ (hu ▸ List.mem_cons_self)
    have hne : ∀ r ∈ rs, r.id ≠ r₀.id := by
      intro r hr h
      have := hsame r₀ hr₀ r (hmem r (hu ▸ List.mem_cons_of_mem _ hr)) h
      rw [hu, List.nodup_cons] at hnodup
      exact hnodup.1 (this ▸ hr)
    -- a row keeps its state unless it is the first one
    have hkept : ∀ r ∈ rs, r ∈ (if r₀.coh.currentState = .done then t else t.stopRow r₀.id).onHost := by
      intro r hr
      have hrt := hmem r (hu ▸ List.mem_cons_of_mem _ hr)
      split_ifs
      · exact hrt
      · exact List.mem_map.mpr ⟨r, hrt, if_neg (hne r hr)⟩
    dsimp only [List.tail_cons]
    constructor
    · intro h r hr
      by_contra hc
      rw [not_or] at hc
      exact hc.2 (h r (hu ▸ List.mem_cons_of_mem _ hr) hc.1 r (hkept r hr) rfl)
    · intro h r hr hd r' hr' hid'
      rw [hu] at hr
      obtain rfl | hr := List.mem_cons.mp hr
      · rw [if_neg hd] at hr'
        obtain ⟨x, hx, rfl⟩ := List.mem_map.mp hr'
        by_cases hxr : x.id = r.id
        · rw [if_pos hxr]
          rfl
        · rw [if_neg hxr] at hid'
          exact absurd hid' hxr
      · have hstop := (h r hr).resolve_left hd
        have hrt := hmem r (hu ▸ List.mem_cons_of_mem _ hr)
        split_ifs at hr' with hd₀
        · rw [hsame r hrt r' hr' hid']
          exact hstop
        · obtain ⟨x, hx, rfl⟩ := List.mem_map.mp hr'
          by_cases hx₀ : x.id = r₀.id
          · rw [if_pos hx₀] at hid'
            exact absurd (hid'.symm.trans hx₀) (hne r hr)
          · rw [if_neg hx₀] at hid' ⊢
            rw [hsame r hrt x hx hid']
            exact hstop

/-- **The loops** reach every row exactly when all but the first one need not be reached: one
command is not dispatched at most, and every row of the command but the first one is done or
stopped. -/
theorem loops_reach_all_iff (rt : Runtime) (ether : List Host) (t : Tables)
    (hcommands : (t.commands.map CommandRow.id).Nodup) (hrows : (t.onHost.map HostRow.id).Nodup)
    (left : List ℕ) (fuel : ℕ) :
    (AllDispatched rt ether t ((dispatchAllCommands rt ether (fuel + 1)).run (t, left)).2.1 ↔
      (t.commands.filter fun c => !c.dispatched).length ≤ 1) ∧
    ∀ id, AllStopped t id ((lscCommandSetStop id (fuel + 1)).run (t, left)).2.1 ↔
      ∀ r ∈ (t.rowsOf id).tail, r.coh.currentState = .done ∨ r.coh.currentState = .stop :=
  ⟨allDispatched_iff hcommands fuel left, fun id => allStopped_iff hrows id fuel left⟩

/-- Two commands, of which the first one is dispatched: one of its rows is scheduled, the other done. -/
def dispatchedTables : Tables :=
  ⟨[{ labCommand with dispatched := true }, { labCommand with id := 2 }],
    [⟨1, 1, ascii "lab1", dispatchedRow copyAndStart⟩,
      ⟨2, 1, ascii "lab2", { dispatchedRow copyAndStart with currentState := .done }⟩]⟩

theorem loops_reach_all_lab :
    (AllDispatched exactRuntime pairHosts dispatchedTables
      ((dispatchAllCommands exactRuntime pairHosts 3).run (dispatchedTables, [])).2.1 ↔
        (dispatchedTables.commands.filter fun c => !c.dispatched).length ≤ 1) ∧
    ∀ id, AllStopped dispatchedTables id ((lscCommandSetStop id 3).run (dispatchedTables, [])).2.1 ↔
      ∀ r ∈ (dispatchedTables.rowsOf id).tail, r.coh.currentState = .done ∨ r.coh.currentState = .stop :=
  loops_reach_all_iff exactRuntime pairHosts dispatchedTables (by decide) (by decide) [] 2

/-- Two commands, neither of them dispatched. -/
def twoCommands : Tables := ⟨[labCommand, { labCommand with id := 2 }], []⟩

/-- The second command is not reached. -/
theorem second_not_reached : ¬AllDispatched exactRuntime labHosts twoCommands
    ((dispatchAllCommands exactRuntime labHosts 3).run (twoCommands, [])).2.1 := by
  intro h
  have hsecond := h { labCommand with id := 2 } (by decide) rfl
  exact absurd hsecond.1 (by decide)

end Reached

end LinboxRescue
