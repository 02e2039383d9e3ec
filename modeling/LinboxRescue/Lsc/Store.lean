import LinboxRescue.Lib.Sql

/-!
# Storing a command (`update`, `refresh`, `src/webmin/lsc/include/commands.inc.php`)

`update` prints the fields of a command into a query by their positions, and `refresh` reads them by
the names of the columns. In the query that changes a row, the last two arguments are in the wrong
order: the column `repeat` gets the id, and the row is the one whose id is the repeat period.

1. `sent_insertArgs`: what the arguments of a query are read as.
2. `fits_of_fields`: a row gives back the command only if each of its texts is one of the column.
3. `storesAndReads_iff`: when a command that is stored is read back.
-/

namespace LinboxRescue

/-! ## The table `commands` -/

inductive Column
  | dateCreated | startFile | parameters | pathDestination | pathSource | createDirectory
  | startScript | deleteFileAfterExecuteSuccessful | files | startDate | endDate | target | username
  | webminUsername | dispatched | title | startInventory | wakeOnLan | nextConnectionDelay
  | maxConnectionAttempt | repeatPeriod
  deriving DecidableEq, Repr

/-- The columns in the order of the three queries. -/
def columns : List Column :=
  [.dateCreated, .startFile, .parameters, .pathDestination, .pathSource, .createDirectory,
    .startScript, .deleteFileAfterExecuteSuccessful, .files, .startDate, .endDate, .target,
    .username, .webminUsername, .dispatched, .title, .startInventory, .wakeOnLan,
    .nextConnectionDelay, .maxConnectionAttempt, .repeatPeriod]

inductive ColumnType
  | datetime
  | text (width : ℕ)
  | varchar (width : ℕ)
  | enum (names : List Bytes)
  | int

/-- The types of the columns (`src/webmin/lsc/sql`: `schema.sql` and its versions 2 and 3). -/
def Column.type : Column → ColumnType
  | .dateCreated | .startDate | .endDate => .datetime
  | .startFile | .target => .text 255
  | .parameters | .pathDestination | .pathSource => .text 65535
  | .files => .text 16777215
  | .username | .webminUsername | .title => .varchar 255
  | .createDirectory | .startScript | .deleteFileAfterExecuteSuccessful | .startInventory
  | .wakeOnLan => .enum [ascii "enable", ascii "disable"]
  | .dispatched => .enum [ascii "YES", ascii "NO"]
  | .nextConnectionDelay | .maxConnectionAttempt | .repeatPeriod => .int

/-- The number of `w` digits at a place of a text. -/
def numberAt (v : Bytes) (i w : ℕ) : ℕ := digitsVal ((v.drop i).take w)

/-- What differs between the versions of the server: which days there are, and whether the spaces at
the end of a `VARCHAR` are cut off. -/
structure Server where
  isDate : ℕ → ℕ → ℕ → Bool
  cutsSpaces : Bool

/-- The texts that are values of a type, as they are shown. -/
def Server.HasType (server : Server) : ColumnType → Bytes → Prop
  | .datetime, v =>
    v.map (fun b => if isDigit b then 48 else b) = ascii "0000-00-00 00:00:00" ∧
      server.isDate (numberAt v 0 4) (numberAt v 5 2) (numberAt v 8 2) = true ∧
        numberAt v 11 2 < 24 ∧ numberAt v 14 2 < 60 ∧ numberAt v 17 2 < 60
  | .text width, v => v.length ≤ width
  | .varchar width, v => v.length ≤ width ∧ (server.cutsSpaces = true → v.getLast? ≠ some 32)
  | .enum names, v => v ∈ names
  | .int, v => v = decInt (intval v) ∧ -2 ^ 31 ≤ intval v ∧ intval v < 2 ^ 31

instance (server : Server) (type : ColumnType) (v : Bytes) : Decidable (server.HasType type v) :=
  match type with
  | .datetime => inferInstanceAs (Decidable (_ ∧ _))
  | .text _ => inferInstanceAs (Decidable (_ ≤ _))
  | .varchar _ => inferInstanceAs (Decidable (_ ∧ _))
  | .enum _ => inferInstanceAs (Decidable (_ ∈ _))
  | .int => inferInstanceAs (Decidable (_ ∧ _))

/-- The database: what a column holds after it was given a text, if the query is not refused. A value
of its type it holds as it is, and it holds no others. -/
structure Database extends Server where
  column : ColumnType → Bytes → Option Bytes
  keeps : ∀ type v, toServer.HasType type v → column type v = some v
  holds : ∀ type v, ∀ w ∈ column type v, toServer.HasType type w

/-- A row, as its columns are read. -/
structure CommandRecord where
  id : ℕ
  value : Column → Bytes

/-- The rows with their primary key, and the id that the next row gets. -/
structure CommandTable where
  rows : List CommandRecord
  key : (rows.map CommandRecord.id).Nodup
  autoIncrement : ℕ
  fresh : ∀ r ∈ rows, r.id < autoIncrement

/-- The columns that are given are set. -/
def Database.set (db : Database) (cols : List Column) (vals : List Bytes) (value : Column → Bytes) :
    Option (Column → Bytes) :=
  (cols.zip vals).foldlM (fun f p => (db.column p.1.type p.2).map (Function.update f p.1)) value

/-- `INSERT`. An id is an `INT`. -/
def CommandTable.insert (t : CommandTable) (value : Column → Bytes) : Option CommandTable :=
  if t.autoIncrement < 2 ^ 31 then
    some {
      rows := t.rows ++ [⟨t.autoIncrement, value⟩]
      key := by
        rw [List.map_append, List.map_singleton]
        refine t.key.append (List.nodup_singleton _) (List.disjoint_singleton.mpr fun hmem => ?_)
        obtain ⟨r, hr, hid⟩ := List.mem_map.mp hmem
        exact (t.fresh r hr).ne hid
      autoIncrement := t.autoIncrement + 1
      fresh := by
        intro r hr
        rcases List.mem_append.mp hr with hr | hr
        · exact (t.fresh r hr).trans (Nat.lt_succ_self _)
        · rw [List.mem_singleton.mp hr]
          exact Nat.lt_succ_self _ }
  else none

/-- The columns of the row with an id are replaced. -/
def CommandTable.replace (t : CommandTable) (n : ℤ) (value : Column → Bytes) : CommandTable where
  rows := t.rows.map fun r => if (r.id : ℤ) = n then { r with value := value } else r
  key := by
    have hid : (CommandRecord.id ∘ fun r : CommandRecord =>
        if (r.id : ℤ) = n then { r with value := value } else r) = CommandRecord.id := by
      funext r
      dsimp only [Function.comp_apply]
      split_ifs <;> rfl
    rw [List.map_map, hid]
    exact t.key
  autoIncrement := t.autoIncrement
  fresh := by
    refine List.forall_mem_map.mpr fun r hr => ?_
    split_ifs <;> exact t.fresh r hr

/-- `UPDATE … WHERE id_command = 'n'`. Where there is no such row, the values are not looked at. -/
def CommandTable.change (t : CommandTable) (n : ℤ)
    (f : (Column → Bytes) → Option (Column → Bytes)) : Option CommandTable :=
  match t.rows.find? fun r => (r.id : ℤ) = n with
  | some r => (f r.value).map (t.replace n)
  | none => some t

/-! ## `LSC_Scheduler_Command` -/

structure LscSchedulerCommand where
  idCommand : ℤ
  dateCreated : Bytes
  startFile : Bytes
  parameters : Bytes
  pathDestination : Bytes
  pathSource : Bytes
  createDirectoryEnable : Bool
  startScriptEnable : Bool
  title : Bytes
  startInventoryEnable : Bool
  deleteFileAfterExecuteSuccessfulEnable : Bool
  files : List Bytes
  startDate : Bytes
  endDate : Bytes
  target : Bytes
  errors : ℕ
  username : Bytes
  webminUsername : Bytes
  dispatched : Bool
  wakeOnLanEnable : Bool
  nextConnectionDelay : ℤ
  maxConnectionAttempt : ℤ
  repeatPeriod : ℤ
  deriving DecidableEq, Repr

/-- The fields of a new command, made at a date. -/
def newCommand (now : Bytes) : LscSchedulerCommand where
  idCommand := -1
  dateCreated := now
  startFile := []
  parameters := []
  pathDestination := []
  pathSource := []
  createDirectoryEnable := false
  startScriptEnable := false
  title := []
  startInventoryEnable := false
  deleteFileAfterExecuteSuccessfulEnable := false
  files := []
  startDate := ascii "0000-00-00 00:00:00"
  endDate := ascii "0000-00-00 00:00:00"
  target := []
  errors := 0
  username := []
  webminUsername := []
  dispatched := false
  wakeOnLanEnable := false
  nextConnectionDelay := 60
  maxConnectionAttempt := 3
  repeatPeriod := 0

def enableText (b : Bool) : Bytes := if b then ascii "enable" else ascii "disable"

def yesText (b : Bool) : Bytes := if b then ascii "YES" else ascii "NO"

/-- The names of the files, one on a line. -/
def joinFiles (files : List Bytes) : Bytes :=
  files.foldl (fun s v => if s = [] then v else s ++ 10 :: v) []

def explodeFiles (s : Bytes) : List Bytes := if s = [] then [] else s.splitOn 10

namespace LscSchedulerCommand

/-- The arguments of the `INSERT`. -/
def insertArgs (o : LscSchedulerCommand) : List Bytes :=
  [o.dateCreated, addslashes o.startFile, addslashes o.parameters, addslashes o.pathDestination,
    addslashes o.pathSource, enableText o.createDirectoryEnable, enableText o.startScriptEnable,
    enableText o.deleteFileAfterExecuteSuccessfulEnable, addslashes (joinFiles o.files), o.startDate,
    o.endDate, addslashes o.target, addslashes o.username, addslashes o.webminUsername,
    yesText o.dispatched, addslashes o.title, enableText o.startInventoryEnable,
    enableText o.wakeOnLanEnable, decInt o.nextConnectionDelay, decInt o.maxConnectionAttempt,
    decInt o.repeatPeriod]

/-- The arguments of the `UPDATE`: the last one is for the condition. -/
def updateArgs (o : LscSchedulerCommand) : List Bytes :=
  [o.dateCreated, addslashes o.startFile, addslashes o.parameters, addslashes o.pathDestination,
    addslashes o.pathSource, enableText o.createDirectoryEnable, enableText o.startScriptEnable,
    enableText o.deleteFileAfterExecuteSuccessfulEnable, addslashes (joinFiles o.files), o.startDate,
    o.endDate, addslashes o.target, addslashes o.username, addslashes o.webminUsername,
    yesText o.dispatched, addslashes o.title, enableText o.startInventoryEnable,
    enableText o.wakeOnLanEnable, decInt o.nextConnectionDelay, decInt o.maxConnectionAttempt,
    decInt o.idCommand, decInt o.repeatPeriod]

/-- `update`: the table and what is returned. A query that is refused stops the program. -/
def update (db : Database) (t : CommandTable) (o : LscSchedulerCommand) :
    Option (CommandTable × ℤ) :=
  if 0 < o.errors then some (t, -1)
  else if o.idCommand = -1 then do
    let vals ← o.insertArgs.mapM sqlValue
    let value ← db.set columns vals fun _ => []
    let t' ← t.insert value
    return (t', (t.autoIncrement : ℤ))
  else do
    let vals ← o.updateArgs.mapM sqlValue
    let t' ← t.change (intval (vals.getD columns.length [])) (db.set columns vals)
    return (t', o.idCommand)

/-- The fields that are read from a row. -/
def fields (o : LscSchedulerCommand) (f : Column → Bytes) : LscSchedulerCommand where
  idCommand := o.idCommand
  dateCreated := f .dateCreated
  startFile := f .startFile
  parameters := f .parameters
  pathDestination := f .pathDestination
  pathSource := f .pathSource
  createDirectoryEnable := f .createDirectory == ascii "enable"
  startScriptEnable := f .startScript == ascii "enable"
  deleteFileAfterExecuteSuccessfulEnable := f .deleteFileAfterExecuteSuccessful == ascii "enable"
  files := explodeFiles (f .files)
  startDate := f .startDate
  endDate := f .endDate
  target := f .target
  errors := o.errors
  username := f .username
  webminUsername := f .webminUsername
  dispatched := f .dispatched == ascii "YES"
  title := f .title
  startInventoryEnable := f .startInventory == ascii "enable"
  wakeOnLanEnable := f .wakeOnLan == ascii "enable"
  nextConnectionDelay := intval (f .nextConnectionDelay)
  maxConnectionAttempt := intval (f .maxConnectionAttempt)
  repeatPeriod := intval (f .repeatPeriod)

/-- `refresh`. -/
def refresh (t : CommandTable) (o : LscSchedulerCommand) : LscSchedulerCommand :=
  match t.rows.filter fun r => (r.id : ℤ) = intval (decInt o.idCommand) with
  | [r] => o.fields r.value
  | _ => { o with errors := o.errors + 1 }

/-- The text of each field. -/
def text (o : LscSchedulerCommand) : Column → Bytes
  | .dateCreated => o.dateCreated
  | .startFile => o.startFile
  | .parameters => o.parameters
  | .pathDestination => o.pathDestination
  | .pathSource => o.pathSource
  | .createDirectory => enableText o.createDirectoryEnable
  | .startScript => enableText o.startScriptEnable
  | .deleteFileAfterExecuteSuccessful => enableText o.deleteFileAfterExecuteSuccessfulEnable
  | .files => joinFiles o.files
  | .startDate => o.startDate
  | .endDate => o.endDate
  | .target => o.target
  | .username => o.username
  | .webminUsername => o.webminUsername
  | .dispatched => yesText o.dispatched
  | .title => o.title
  | .startInventory => enableText o.startInventoryEnable
  | .wakeOnLan => enableText o.wakeOnLanEnable
  | .nextConnectionDelay => decInt o.nextConnectionDelay
  | .maxConnectionAttempt => decInt o.maxConnectionAttempt
  | .repeatPeriod => decInt o.repeatPeriod

end LscSchedulerCommand

/-! ## Commands that are read back -/

namespace LscSchedulerCommand

/-- The columns whose type is a date. -/
def dateColumns : List Column := [.dateCreated, .startDate, .endDate]

/-- The command may be stored: it has no errors, its files have names of one line, its dates are of
digits and separators, and it is new or is in the table. -/
structure Storable (o : LscSchedulerCommand) (t : CommandTable) : Prop where
  errors : o.errors = 0
  files : ∀ f ∈ o.files, f ≠ [] ∧ 10 ∉ f
  dates : ∀ c ∈ dateColumns, ∀ b ∈ o.text c, isDigit b = true ∨ b ∈ ascii "-: "
  known : o.idCommand = -1 ∨ ∃ r ∈ t.rows, (r.id : ℤ) = o.idCommand

/-- Each text is a value of its column. -/
def Fits (o : LscSchedulerCommand) (server : Server) : Prop :=
  ∀ c : Column, server.HasType c.type (o.text c)

/-- After `update`, each object that has the id that was returned is given the fields of the command
by `refresh`, and all other rows are as they were. -/
def StoresAndReads (db : Database) (t : CommandTable) (o : LscSchedulerCommand) : Prop :=
  ∃ t' id, o.update db t = some (t', id) ∧
    (∀ q : LscSchedulerCommand, q.idCommand = id →
      q.refresh t' = { o with idCommand := id, errors := q.errors }) ∧
    ∀ r : CommandRecord, (r.id : ℤ) ≠ id → (r ∈ t'.rows ↔ r ∈ t.rows)

/-- What the `UPDATE` writes. -/
def swapped (o : LscSchedulerCommand) : LscSchedulerCommand := { o with repeatPeriod := o.idCommand }

/-- The texts are values of their columns and the command is new, with an id left for it, or its repeat
period happens to be its id. Or there is nothing to be stored, and the row that has the repeat period
as its id already holds what is written into it. -/
def Placed (db : Database) (t : CommandTable) (o : LscSchedulerCommand) : Prop :=
  if o.idCommand = -1 then o.Fits db.toServer ∧ t.autoIncrement < 2 ^ 31
  else if o.repeatPeriod = o.idCommand then o.Fits db.toServer
  else
    (∀ r ∈ t.rows, (r.id : ℤ) = o.idCommand → o.fields r.value = o) ∧
      ∀ r ∈ t.rows, (r.id : ℤ) = o.repeatPeriod →
        ∀ c : Column, db.column c.type (o.swapped.text c) = some (r.value c)

end LscSchedulerCommand

/-! ## The arguments of a query -/

theorem joinFiles_eq {files : List Bytes} (h : ∀ f ∈ files, f ≠ []) :
    joinFiles files = [10].intercalate files := by
  have hfold : ∀ (gs : List Bytes) (s : Bytes), s ≠ [] →
      gs.foldl (fun s v => if s = [] then v else s ++ 10 :: v) s = [10].intercalate (s :: gs) := by
    intro gs
    induction gs with
    | nil => exact fun s _ => by simp
    | cons g gs ih =>
      intro s hs
      rw [List.foldl_cons, if_neg hs, ih _ (by simp)]
      cases gs <;> simp [List.intercalate_cons_cons]
  cases files with
  | nil => rfl
  | cons f files =>
    unfold joinFiles
    rw [List.foldl_cons, if_pos rfl]
    exact hfold files f (List.forall_mem_cons.mp h).1

/-- The list of files is read back. -/
theorem explodeFiles_joinFiles {files : List Bytes} (h : ∀ f ∈ files, f ≠ [] ∧ 10 ∉ f) :
    explodeFiles (joinFiles files) = files := by
  have hne : ∀ f ∈ files, f ≠ [] := fun f hf => (h f hf).1
  rw [joinFiles_eq hne]
  unfold explodeFiles
  by_cases hnil : files = []
  · subst hnil
    rfl
  · have hsplit := List.splitOn_intercalate 10 (fun f hf => (h f hf).2) hnil
    rw [if_neg, hsplit]
    intro hempty
    rw [hempty] at hsplit
    exact hne [] (hsplit ▸ List.mem_singleton_self []) rfl

/-- A query sets each of its columns, if none of its values is refused. -/
theorem Database.set_eq_some (db : Database) {cols : List Column} (hcols : cols.Nodup)
    (g f v : Column → Bytes) : db.set cols (cols.map g) f = some v ↔
      ∀ c, if c ∈ cols then db.column c.type (g c) = some (v c) else v c = f c := by
  induction cols generalizing f with
  | nil =>
    show some f = some v ↔ ∀ c, v c = f c
    rw [Option.some.injEq, funext_iff]
    exact forall_congr' fun c => eq_comm
  | cons a cols ih =>
    obtain ⟨ha, hcols⟩ := List.nodup_cons.mp hcols
    have hset : db.set (a :: cols) ((a :: cols).map g) f =
        (db.column a.type (g a)).bind fun w => db.set cols (cols.map g) (Function.update f a w) := by
      show ((db.column a.type (g a)).map (Function.update f a)).bind _ = _
      rw [Option.bind_map]
      rfl
    rw [hset, Option.bind_eq_some_iff]
    constructor
    · rintro ⟨w, hw, hrest⟩ c
      have hc := (ih hcols _).mp hrest c
      by_cases hca : c = a
      · subst hca
        rw [if_neg ha, Function.update_self] at hc
        rw [if_pos List.mem_cons_self, hw, hc]
      · rw [Function.update_of_ne hca] at hc
        simpa [hca] using hc
    · intro h
      have hfirst := h a
      rw [if_pos List.mem_cons_self] at hfirst
      refine ⟨v a, hfirst, (ih hcols _).mpr fun c => ?_⟩
      by_cases hca : c = a
      · subst hca
        rw [if_neg ha, Function.update_self]
      · rw [Function.update_of_ne hca]
        simpa [hca] using h c

theorem mem_columns (c : Column) : c ∈ columns := by
  cases c <;> decide

theorem Database.set_columns (db : Database) (g f v : Column → Bytes) (rest : List Bytes) :
    db.set columns (columns.map g ++ rest) f = some v ↔
      ∀ c : Column, db.column c.type (g c) = some (v c) := by
  have hzip : columns.zip (columns.map g ++ rest) = columns.zip (columns.map g) := rfl
  unfold Database.set
  rw [hzip]
  refine (db.set_eq_some (by decide) g f v).trans (forall_congr' fun c => ?_)
  rw [if_pos (mem_columns c)]

namespace LscSchedulerCommand

variable {db : Database} {t : CommandTable} {o : LscSchedulerCommand}

theorem sqlValue_date {v : Bytes} (h : ∀ b ∈ v, isDigit b = true ∨ b ∈ ascii "-: ") :
    sqlValue v = some v := by
  refine sqlValue_plain fun b hb => ?_
  rcases h b hb with h | h
  · exact ⟨isDigit_ne h (by decide), isDigit_ne h (by decide)⟩
  · exact ⟨fun e => absurd (e ▸ h) (by decide), fun e => absurd (e ▸ h) (by decide)⟩

theorem sqlValue_decInt (n : ℤ) : sqlValue (decInt n) = some (decInt n) :=
  sqlValue_plain fun b hb =>
    ⟨decInt_ne (by decide) (by decide) b hb, decInt_ne (by decide) (by decide) b hb⟩

theorem sqlValue_enableText (b : Bool) : sqlValue (enableText b) = some (enableText b) := by
  cases b <;> decide

theorem sqlValue_yesText (b : Bool) : sqlValue (yesText b) = some (yesText b) := by
  cases b <;> decide

/-- The arguments are read as the texts of the fields, in the order of the columns. -/
theorem sent_insertArgs (h : o.Storable t) :
    o.insertArgs.mapM sqlValue = some (columns.map o.text) := by
  have hcreated := sqlValue_date (h.dates .dateCreated (by decide))
  have hstart := sqlValue_date (h.dates .startDate (by decide))
  have hend := sqlValue_date (h.dates .endDate (by decide))
  unfold text at hcreated hstart hend
  simp only [insertArgs, List.mapM_cons, List.mapM_nil, sqlValue_addslashes, sqlValue_enableText,
    sqlValue_yesText, sqlValue_decInt, hcreated, hstart, hend]
  rfl

theorem sent_updateArgs (h : o.Storable t) : o.updateArgs.mapM sqlValue =
    some (columns.map o.swapped.text ++ [decInt o.repeatPeriod]) := by
  have hdate : ∀ c ∈ dateColumns, o.swapped.text c = o.text c := by
    simp [dateColumns, text, swapped]
  have hswap : o.swapped.Storable t :=
    ⟨h.errors, h.files, fun c hc => hdate c hc ▸ h.dates c hc, h.known⟩
  have hargs : o.updateArgs = o.swapped.insertArgs ++ [decInt o.repeatPeriod] := rfl
  rw [hargs, List.mapM_append, sent_insertArgs hswap]
  simp [sqlValue_decInt]

/-! ## Reading a row -/

theorem enableText_beq (b : Bool) : (enableText b == ascii "enable") = b := by cases b <;> decide

theorem yesText_beq (b : Bool) : (yesText b == ascii "YES") = b := by cases b <;> decide

/-- A row that holds the texts of a command gives back the command. -/
theorem fields_text (h : o.Storable t) (q : LscSchedulerCommand) :
    q.fields o.text = { o with idCommand := q.idCommand, errors := q.errors } := by
  have hfiles := explodeFiles_joinFiles h.files
  unfold fields
  simp only [text, enableText_beq, yesText_beq, intval_decInt, hfiles]

theorem enableText_mem (b : Bool) : enableText b ∈ [ascii "enable", ascii "disable"] := by
  cases b <;> decide

theorem yesText_mem (b : Bool) : yesText b ∈ [ascii "YES", ascii "NO"] := by cases b <;> decide

/-- Files that were read are the text that was read. -/
theorem joinFiles_explodeFiles {s : Bytes} (h : ∀ f ∈ explodeFiles s, f ≠ []) :
    joinFiles (explodeFiles s) = s := by
  rw [joinFiles_eq h]
  unfold explodeFiles
  split_ifs with hs
  · rw [hs]
    rfl
  · exact List.intercalate_splitOn 10

/-- A row of values gives back a command only if the texts of the command are values. -/
theorem fits_of_fields {v : Column → Bytes} (h : o.Storable t) {server : Server}
    (hv : ∀ c : Column, server.HasType c.type (v c)) {q : LscSchedulerCommand}
    (hread : q.fields v = { o with idCommand := q.idCommand, errors := q.errors }) : o.Fits server := by
  have hsame : ∀ c : Column, v c = o.text c → server.HasType c.type (o.text c) := fun c hc => hc ▸ hv c
  have hint : ∀ (c : Column) (n : ℤ), c.type = .int → intval (v c) = n → v c = decInt n := by
    intro c n hc hn
    have htype := hv c
    rw [hc] at htype
    rw [← hn]
    exact htype.1
  intro c
  cases c with
  | createDirectory => exact enableText_mem _
  | startScript => exact enableText_mem _
  | deleteFileAfterExecuteSuccessful => exact enableText_mem _
  | startInventory => exact enableText_mem _
  | wakeOnLan => exact enableText_mem _
  | dispatched => exact yesText_mem _
  | files =>
    have hfiles : explodeFiles (v .files) = o.files := congrArg files hread
    refine hsame .files ?_
    rw [← joinFiles_explodeFiles (s := v .files) fun f hf => (h.files f (hfiles ▸ hf)).1, hfiles]
    rfl
  | nextConnectionDelay =>
    exact hsame _ (hint _ _ rfl (congrArg nextConnectionDelay hread))
  | maxConnectionAttempt =>
    exact hsame _ (hint _ _ rfl (congrArg maxConnectionAttempt hread))
  | repeatPeriod => exact hsame _ (hint _ _ rfl (congrArg repeatPeriod hread))
  | dateCreated => exact hsame _ (congrArg dateCreated hread)
  | startFile => exact hsame _ (congrArg startFile hread)
  | parameters => exact hsame _ (congrArg parameters hread)
  | pathDestination => exact hsame _ (congrArg pathDestination hread)
  | pathSource => exact hsame _ (congrArg pathSource hread)
  | startDate => exact hsame _ (congrArg startDate hread)
  | endDate => exact hsame _ (congrArg endDate hread)
  | target => exact hsame _ (congrArg target hread)
  | username => exact hsame _ (congrArg username hread)
  | webminUsername => exact hsame _ (congrArg webminUsername hread)
  | title => exact hsame _ (congrArg title hread)

/-- **A row that was written gives back the command** if and only if the texts fit. -/
theorem fields_given_iff (h : o.Storable t) {v : Column → Bytes}
    (hgiven : ∀ c : Column, db.column c.type (o.text c) = some (v c)) (q : LscSchedulerCommand) :
    q.fields v = { o with idCommand := q.idCommand, errors := q.errors } ↔ o.Fits db.toServer := by
  refine ⟨fits_of_fields h fun c => db.holds c.type (o.text c) (v c) (hgiven c), fun hfits => ?_⟩
  have hv : v = o.text := funext fun c =>
    (Option.some.inj ((db.keeps c.type (o.text c) (hfits c)).symm.trans (hgiven c))).symm
  rw [hv]
  exact fields_text h q

end LscSchedulerCommand

/-! ## Finding and changing a row -/

namespace CommandTable

variable {t : CommandTable}

/-- A table has one row with an id. -/
theorem eq_of_id {r r' : CommandRecord} (hr : r ∈ t.rows) (hr' : r' ∈ t.rows) (h : r.id = r'.id) :
    r = r' :=
  List.inj_on_of_nodup_map t.key hr hr' h

theorem refresh_of_mem {r : CommandRecord} (hr : r ∈ t.rows) {q : LscSchedulerCommand}
    (hid : (r.id : ℤ) = q.idCommand) : q.refresh t = q.fields r.value := by
  have hrows : (t.rows.filter fun r' => ((r'.id : ℤ) = intval (decInt q.idCommand))) = [r] := by
    have hnodup : (t.rows.filter fun r' => ((r'.id : ℤ) = intval (decInt q.idCommand))).Nodup :=
      t.key.of_map.filter _
    refine List.perm_singleton.mp ((List.perm_ext_iff_of_nodup hnodup (List.nodup_singleton r)).mpr ?_)
    intro r'
    rw [List.mem_filter, List.mem_singleton, decide_eq_true_eq, intval_decInt, ← hid]
    constructor
    · exact fun h => eq_of_id h.1 hr (Int.ofNat_inj.mp h.2)
    · rintro rfl
      exact ⟨hr, rfl⟩
  unfold LscSchedulerCommand.refresh
  rw [hrows]

theorem mem_replace {n : ℤ} {v : Column → Bytes} {r' : CommandRecord} :
    r' ∈ (t.replace n v).rows ↔
      ∃ r ∈ t.rows, (if (r.id : ℤ) = n then { r with value := v } else r) = r' :=
  List.mem_map

/-- An `UPDATE` of a row that is there. -/
theorem change_of_mem {r : CommandRecord} (hr : r ∈ t.rows) {n : ℤ} (hid : (r.id : ℤ) = n)
    (f : (Column → Bytes) → Option (Column → Bytes)) :
    t.change n f = (f r.value).map (t.replace n) := by
  unfold change
  cases hfind : t.rows.find? fun r => (r.id : ℤ) = n with
  | none => exact absurd hid (by simpa using List.find?_eq_none.mp hfind r hr)
  | some r' =>
    have hid' : (r'.id : ℤ) = n := by simpa using List.find?_some hfind
    rw [eq_of_id (List.mem_of_find?_eq_some hfind) hr (Int.ofNat_inj.mp (hid'.trans hid.symm))]

/-- An `UPDATE` of no row. -/
theorem change_of_notMem {n : ℤ} (h : ∀ r ∈ t.rows, (r.id : ℤ) ≠ n)
    (f : (Column → Bytes) → Option (Column → Bytes)) : t.change n f = some t := by
  unfold change
  rw [List.find?_eq_none.mpr fun r hr => by simpa using h r hr]

/-- The other rows stay as they are if the row that is changed is this one, or has these columns. -/
theorem replace_others_iff {r₀ : CommandRecord} (hr₀ : r₀ ∈ t.rows) {m : ℤ} (v : Column → Bytes) :
    (∀ r : CommandRecord, (r.id : ℤ) ≠ m → (r ∈ (t.replace r₀.id v).rows ↔ r ∈ t.rows)) ↔
      (r₀.id : ℤ) = m ∨ r₀.value = v := by
  constructor
  · intro h
    by_cases hnm : (r₀.id : ℤ) = m
    · exact .inl hnm
    · have hchanged : { r₀ with value := v } ∈ t.rows :=
        (h { r₀ with value := v } hnm).mp (mem_replace.mpr ⟨r₀, hr₀, if_pos rfl⟩)
      exact .inr (congrArg CommandRecord.value (eq_of_id hr₀ hchanged rfl))
  · rintro (rfl | rfl) r hrm
    · rw [mem_replace]
      constructor
      · rintro ⟨r₁, hr₁, rfl⟩
        split_ifs at hrm ⊢ with hid
        · exact absurd hid hrm
        · exact hr₁
      · exact fun hr => ⟨r, hr, if_neg hrm⟩
    · have hsame : (t.replace r₀.id r₀.value).rows = t.rows := by
        refine (List.map_congr_left fun r₁ hr₁ => ?_).trans (List.map_id _)
        split_ifs with hid
        · rw [eq_of_id hr₀ hr₁ (Int.ofNat_inj.mp hid.symm)]
          rfl
        · rfl
      rw [hsame]

end CommandTable

/-! ## Storing and reading -/

namespace LscSchedulerCommand

variable {db : Database} {t : CommandTable} {o : LscSchedulerCommand}

theorem update_new (h : o.Storable t) (hid : o.idCommand = -1) : o.update db t =
    (db.set columns (columns.map o.text) fun _ => []).bind fun v =>
      (t.insert v).map fun t' => (t', (t.autoIncrement : ℤ)) := by
  unfold update
  rw [if_neg (by rw [h.errors]; exact lt_irrefl 0), if_pos hid, sent_insertArgs h]
  exact congrArg (Option.bind _) (funext fun v => Option.map_eq_bind.symm)

theorem update_old (h : o.Storable t) (hid : o.idCommand ≠ -1) : o.update db t =
    (t.change o.repeatPeriod
      (db.set columns (columns.map o.swapped.text ++ [decInt o.repeatPeriod]))).map
        fun t' => (t', o.idCommand) := by
  have hwhere : (columns.map o.swapped.text ++ [decInt o.repeatPeriod]).getD columns.length [] =
      decInt o.repeatPeriod := rfl
  unfold update
  rw [if_neg (by rw [h.errors]; exact lt_irrefl 0), if_neg hid, sent_updateArgs h, Option.bind_eq_bind,
    Option.bind_some, hwhere, intval_decInt]
  exact Option.map_eq_bind.symm

/-- A new command is stored if its texts fit and there is an id for it. -/
theorem storesAndReads_new (h : o.Storable t) (hid : o.idCommand = -1) :
    StoresAndReads db t o ↔ o.Fits db.toServer ∧ t.autoIncrement < 2 ^ 31 := by
  have hset := fun v => db.set_columns o.text (fun _ => []) v []
  simp only [List.append_nil] at hset
  have hmem : ∀ v : Column → Bytes, ⟨t.autoIncrement, v⟩ ∈ t.rows ++ [⟨t.autoIncrement, v⟩] :=
    fun v => List.mem_append_right _ (List.mem_singleton_self _)
  unfold StoresAndReads
  rw [update_new h hid]
  constructor
  · rintro ⟨t', id, heq, hread, -⟩
    obtain ⟨v, hv, heq⟩ := Option.bind_eq_some_iff.mp heq
    obtain ⟨t'', hins, heq⟩ := Option.map_eq_some_iff.mp heq
    obtain ⟨rfl, rfl⟩ := Prod.mk.inj heq
    unfold CommandTable.insert at hins
    split_ifs at hins with hfree
    obtain rfl := Option.some.inj hins
    refine ⟨?_, hfree⟩
    have hrefresh := hread { o with idCommand := t.autoIncrement } rfl
    rw [CommandTable.refresh_of_mem (hmem v) rfl] at hrefresh
    exact (fields_given_iff h ((hset v).mp hv) _).mp hrefresh
  · rintro ⟨hfits, hfree⟩
    have hgiven : ∀ c : Column, db.column c.type (o.text c) = some (o.text c) :=
      fun c => db.keeps c.type _ (hfits c)
    rw [(hset o.text).mpr hgiven, Option.bind_some]
    unfold CommandTable.insert
    rw [if_pos hfree]
    refine ⟨_, _, rfl, fun q hq => ?_, fun r hr => ?_⟩
    · rw [CommandTable.refresh_of_mem (hmem o.text) hq.symm, fields_text h, hq]
    · refine List.mem_append.trans (or_iff_left fun hnew => hr ?_)
      rw [List.mem_singleton.mp hnew]

/-- One that is in the table is stored if it is read from what the `UPDATE` leaves. -/
theorem storesAndReads_old (h : o.Storable t) (hid : o.idCommand ≠ -1) :
    StoresAndReads db t o ↔ ∃ t', t.change o.repeatPeriod
        (db.set columns (columns.map o.swapped.text ++ [decInt o.repeatPeriod])) = some t' ∧
      (∀ q : LscSchedulerCommand, q.idCommand = o.idCommand →
        q.refresh t' = { o with idCommand := q.idCommand, errors := q.errors }) ∧
      ∀ r : CommandRecord, (r.id : ℤ) ≠ o.idCommand → (r ∈ t'.rows ↔ r ∈ t.rows) := by
  unfold StoresAndReads
  rw [update_old h hid]
  constructor
  · rintro ⟨t', id, heq, hread, hothers⟩
    obtain ⟨t'', hchange, heq⟩ := Option.map_eq_some_iff.mp heq
    obtain ⟨rfl, rfl⟩ := Prod.mk.inj heq
    exact ⟨t'', hchange, fun q hq => by rw [hread q hq, hq], hothers⟩
  · rintro ⟨t', hchange, hread, hothers⟩
    exact ⟨t', o.idCommand, by rw [hchange]; rfl, fun q hq => by rw [hread q hq, hq], hothers⟩

/-- The repeat period is the id: the row and the column are the right ones. -/
theorem storesAndReads_same (h : o.Storable t) (hid : o.idCommand ≠ -1)
    (hrep : o.repeatPeriod = o.idCommand) : StoresAndReads db t o ↔ o.Fits db.toServer := by
  obtain ⟨r, hr, hrid⟩ := h.known.resolve_left hid
  have hswap : o.swapped = o := congrArg (fun n => { o with repeatPeriod := n }) hrep.symm
  have hmem : ∀ v, { r with value := v } ∈ (t.replace o.repeatPeriod v).rows := fun v =>
    CommandTable.mem_replace.mpr ⟨r, hr, if_pos (hrid.trans hrep.symm)⟩
  rw [storesAndReads_old h hid, CommandTable.change_of_mem hr (hrid.trans hrep.symm), hswap]
  constructor
  · rintro ⟨t', hchange, hread, -⟩
    obtain ⟨v, hv, rfl⟩ := Option.map_eq_some_iff.mp hchange
    have hrefresh := hread o rfl
    rw [CommandTable.refresh_of_mem (hmem v) hrid] at hrefresh
    exact (fields_given_iff h ((db.set_columns _ _ _ _).mp hv) o).mp hrefresh
  · intro hfits
    have hgiven : ∀ c : Column, db.column c.type (o.text c) = some (o.text c) :=
      fun c => db.keeps c.type _ (hfits c)
    refine ⟨_, by rw [(db.set_columns _ _ _ _).mpr hgiven]; rfl, fun q hq => ?_, ?_⟩
    · rw [CommandTable.refresh_of_mem (hmem o.text) (hrid.trans hq.symm), fields_text h]
    · have hothers := (CommandTable.replace_others_iff hr (m := o.idCommand) o.text).mpr (.inl hrid)
      rwa [hrid.trans hrep.symm] at hothers

/-- It is another: the row is read as it was. -/
theorem storesAndReads_apart (h : o.Storable t) (hid : o.idCommand ≠ -1)
    (hrep : o.repeatPeriod ≠ o.idCommand) : StoresAndReads db t o ↔
      (∀ r ∈ t.rows, (r.id : ℤ) = o.idCommand → o.fields r.value = o) ∧
        ∀ r ∈ t.rows, (r.id : ℤ) = o.repeatPeriod →
          ∀ c : Column, db.column c.type (o.swapped.text c) = some (r.value c) := by
  obtain ⟨r, hr, hrid⟩ := h.known.resolve_left hid
  have hread : ∀ t' : CommandTable, r ∈ t'.rows →
      ((∀ q : LscSchedulerCommand, q.idCommand = o.idCommand →
        q.refresh t' = { o with idCommand := q.idCommand, errors := q.errors }) ↔
          ∀ r' ∈ t.rows, (r'.id : ℤ) = o.idCommand → o.fields r'.value = o) := by
    intro t' hmem
    constructor
    · intro hall r' hr' hid'
      rw [CommandTable.eq_of_id hr' hr (Int.ofNat_inj.mp (hid'.trans hrid.symm)),
        ← CommandTable.refresh_of_mem hmem hrid]
      exact hall o rfl
    · intro hold q hq
      rw [CommandTable.refresh_of_mem hmem (hrid.trans hq.symm)]
      show { o.fields r.value with idCommand := q.idCommand, errors := q.errors } = _
      rw [hold r hr hrid]
  rw [storesAndReads_old h hid]
  by_cases hother : ∃ r₂ ∈ t.rows, (r₂.id : ℤ) = o.repeatPeriod
  · obtain ⟨r₂, hr₂, hrid₂⟩ := hother
    have hmem : ∀ v, r ∈ (t.replace o.repeatPeriod v).rows := fun v =>
      CommandTable.mem_replace.mpr ⟨r, hr, if_neg fun e => hrep (e.symm.trans hrid)⟩
    have hothers : ∀ v, (∀ r : CommandRecord, (r.id : ℤ) ≠ o.idCommand →
        (r ∈ (t.replace o.repeatPeriod v).rows ↔ r ∈ t.rows)) ↔ r₂.value = v := by
      intro v
      rw [← hrid₂, CommandTable.replace_others_iff hr₂ v]
      exact or_iff_right (hrid₂ ▸ hrep)
    rw [CommandTable.change_of_mem hr₂ hrid₂]
    constructor
    · rintro ⟨t', hchange, hall, hkept⟩
      obtain ⟨v, hv, rfl⟩ := Option.map_eq_some_iff.mp hchange
      refine ⟨(hread _ (hmem v)).mp hall, fun r' hr' hid' => ?_⟩
      rw [CommandTable.eq_of_id hr' hr₂ (Int.ofNat_inj.mp (hid'.trans hrid₂.symm)),
        (hothers v).mp hkept]
      exact (db.set_columns _ _ _ _).mp hv
    · rintro ⟨hold, hwritten⟩
      have hset := (db.set_columns o.swapped.text r₂.value r₂.value [decInt o.repeatPeriod]).mpr
        (hwritten r₂ hr₂ hrid₂)
      exact ⟨t.replace o.repeatPeriod r₂.value, by rw [hset]; rfl, (hread _ (hmem _)).mpr hold,
        (hothers _).mpr rfl⟩
  · have hnone : ∀ r ∈ t.rows, (r.id : ℤ) ≠ o.repeatPeriod := fun r hr he => hother ⟨r, hr, he⟩
    rw [CommandTable.change_of_notMem hnone]
    constructor
    · rintro ⟨t', heq, hall, -⟩
      obtain rfl := Option.some.inj heq
      exact ⟨(hread t hr).mp hall, fun r' hr' hid' => absurd hid' (hnone r' hr')⟩
    · exact fun ⟨hold, _⟩ => ⟨t, rfl, (hread t hr).mpr hold, fun _ _ => Iff.rfl⟩

/-- **When a command is stored.** A new command is if its texts fit. One that is in the table is, if its
repeat period is its id and its texts fit, or if it is in the table already and the row that is written
instead loses nothing. -/
theorem storesAndReads_iff (h : o.Storable t) : StoresAndReads db t o ↔ Placed db t o := by
  unfold Placed
  split_ifs with hid hrep
  · exact storesAndReads_new h hid
  · exact storesAndReads_same h hid hrep
  · exact storesAndReads_apart h hid hrep

end LscSchedulerCommand

/-- A server that refuses what is no value. Each month may have 31 days, and there is the zero date. -/
def strictDatabase : Database where
  isDate y m d := y + m + d = 0 ∨ (1 ≤ m ∧ m ≤ 12) ∧ 1 ≤ d ∧ d ≤ 31
  cutsSpaces := false
  column type v := if Server.HasType _ type v then some v else none
  keeps _ _ h := if_pos h
  holds type v w h := by
    split_ifs at h with htype
    · obtain rfl := Option.some.inj h
      exact htype
    · cases h

def madeCommand : LscSchedulerCommand := newCommand (ascii "2005-10-12 14:00:00")

/-- Commands 5 and 7, as they were made. -/
def twoCommandRows : CommandTable where
  rows := [⟨5, madeCommand.text⟩, ⟨7, madeCommand.text⟩]
  key := by decide
  autoIncrement := 8
  fresh := by decide

/-- Command 5 with a title, to be repeated after 7 minutes. -/
def titledCommand : LscSchedulerCommand :=
  { madeCommand with idCommand := 5, title := ascii "tidy", repeatPeriod := 7 }

theorem storable_titledCommand : titledCommand.Storable twoCommandRows where
  errors := rfl
  files := by decide
  dates := by decide
  known := .inr ⟨_, List.mem_cons_self, rfl⟩

theorem storesAndReads_iff_titledCommand :
    LscSchedulerCommand.StoresAndReads strictDatabase twoCommandRows titledCommand ↔
      LscSchedulerCommand.Placed strictDatabase twoCommandRows titledCommand :=
  LscSchedulerCommand.storesAndReads_iff storable_titledCommand

/-- Command 5 is stored: row 7 gets its title, and its id as the repeat period; row 5 keeps its own. -/
theorem titledCommand_not_stored :
    ((titledCommand.update strictDatabase twoCommandRows).map fun p =>
      p.1.rows.map fun r => (r.id, r.value .title, r.value .repeatPeriod)) =
        some [(5, [], ascii "0"), (7, ascii "tidy", ascii "5")] ∧
      ¬ LscSchedulerCommand.StoresAndReads strictDatabase twoCommandRows titledCommand := by
  refine ⟨by decide +kernel, fun h => ?_⟩
  have hread := ((LscSchedulerCommand.storesAndReads_apart storable_titledCommand (by decide)
    (by decide)).mp h).1
  exact absurd (hread _ List.mem_cons_self rfl) (by decide)

end LinboxRescue
