import LinboxRescue.Lib.Interleave
import LinboxRescue.Lsc.Launcher
import LinboxRescue.Lsc.Path

/-!
# Dispatching a command (`dispatch`, `src/webmin/lsc/include/commands.inc.php`)

`dispatch` reads whether the command is dispatched, looks for a row of each host of the target and
inserts one if there is none, and marks the command as dispatched. There is no lock.

1. `dispatchStep`: one query of a call.
2. `Dispatching`: no host has two rows, a call that has passed a host has left a row for it, and one
   that is about to insert a row is the only one for its host.
3. `dispatched_once`: after all calls there is one row for each host, if no call looks for a host while
   another one is between its query and its insertion for the same host.
-/

namespace LinboxRescue

/-! ## Tables -/

/-- A row of `commands`. -/
structure CommandRow where
  id : ℕ
  target : Bytes
  cmd : LscCommand
  dispatched : Bool
  deriving DecidableEq, Repr

/-- A row of `commands_on_host`. -/
structure HostRow where
  id : ℕ
  idCommand : ℕ
  host : Bytes
  coh : Coh
  deriving DecidableEq, Repr

structure Tables where
  commands : List CommandRow
  onHost : List HostRow
  deriving DecidableEq, Repr

namespace Tables

variable (rt : Runtime) (t : Tables) (id : ℕ)

/-- The rows of a command. -/
def rowsOf : List HostRow := t.onHost.filter fun r => r.idCommand = id

/-- Whether `get_by_host_and_id_command` finds no row. -/
def noRow (host : Bytes) : Bool :=
  (t.rowsOf id).all fun r => rt.columnKey r.host != rt.columnKey host

/-- `get_dispatched`. -/
def getDispatched : Bool := (t.commands.find? fun c => c.id = id).any CommandRow.dispatched

def setDispatched : Tables :=
  { t with commands := t.commands.map fun c => if c.id = id then { c with dispatched := true } else c }

/-- `LAST_INSERT_ID()` of the next row. -/
def nextId : ℕ := (t.onHost.map HostRow.id).foldl max 0 + 1

/-- `host` is a `TINYTEXT`. -/
def tinyText (text : Bytes) : Bytes := text.take 255

def insertRow (host : Bytes) (coh : Coh) : Tables :=
  { t with onHost := t.onHost ++ [⟨t.nextId, id, tinyText host, coh⟩] }

end Tables

open Tables (tinyText)

theorem tinyText_eq_self {text : Bytes} (h : text.length ≤ 255) : tinyText text = text :=
  List.take_of_length_le h

theorem length_tinyText_le (text : Bytes) : (tinyText text).length ≤ 255 := List.length_take_le _ _

/-! ## `dispatch` -/

/-- Where a call is: the hosts that are still to be looked at, and the one that has no row. -/
inductive DispatchStage
  | start
  | checking (hosts : List Bytes)
  | inserting (host : Bytes) (hosts : List Bytes)
  | finished
  deriving DecidableEq, Repr

section Dispatch

variable (rt : Runtime) (ether : List Host) (c : CommandRow)

/-- The hosts of the command. -/
def CommandRow.hosts : List Bytes := targetHosts rt ether c.target

/-- One query of a call. -/
def dispatchStep : Tables × DispatchStage → Tables × DispatchStage
  | (t, .start) => (t, if t.getDispatched c.id then .finished else .checking (c.hosts rt ether))
  | (t, .checking []) => (t.setDispatched c.id, .finished)
  | (t, .checking (h :: hosts)) =>
    (t, if t.noRow rt c.id h then .inserting h hosts else .checking hosts)
  | (t, .inserting h hosts) => (t.insertRow c.id h (dispatchedRow c.cmd), .checking hosts)
  | (t, .finished) => (t, .finished)

end Dispatch

/-! ## Rows of hosts -/

section Rows

variable {rt : Runtime} {t : Tables} {id : ℕ}

/-- The row of a host: the database finds it, or it has the name as the column keeps it. -/
def HostRow.IsFor (rt : Runtime) (r : HostRow) (host : Bytes) : Prop :=
  rt.columnKey r.host = rt.columnKey host ∨ r.host = tinyText host

/-- Each of the hosts has a row. -/
def Covered (rt : Runtime) (t : Tables) (id : ℕ) (hosts : List Bytes) : Prop :=
  ∀ h ∈ hosts, ∃ r ∈ t.rowsOf id, r.IsFor rt h

theorem HostRow.IsFor.columnKey_eq {r : HostRow} {host : Bytes} (h : r.IsFor rt host)
    (hlen : host.length ≤ 255) : rt.columnKey r.host = rt.columnKey host := by
  obtain h | h := h
  · exact h
  · rw [h, tinyText_eq_self hlen]

theorem rowsOf_insertRow (host : Bytes) (coh : Coh) :
    (t.insertRow id host coh).rowsOf id = t.rowsOf id ++ [⟨t.nextId, id, tinyText host, coh⟩] := by
  unfold Tables.rowsOf Tables.insertRow
  simp

theorem mem_insertRow (host : Bytes) (coh : Coh) :
    ⟨t.nextId, id, tinyText host, coh⟩ ∈ (t.insertRow id host coh).rowsOf id := by
  rw [rowsOf_insertRow]
  exact List.mem_append_right _ (List.mem_singleton.mpr rfl)

theorem rowsOf_setDispatched (id' : ℕ) : (t.setDispatched id').rowsOf id = t.rowsOf id := rfl

theorem noRow_iff {host : Bytes} : t.noRow rt id host = true ↔
    ∀ r ∈ t.rowsOf id, rt.columnKey r.host ≠ rt.columnKey host := by
  unfold Tables.noRow
  rw [List.all_eq_true]
  exact forall₂_congr fun r _ => bne_iff_ne

/-- A host that has no row gets one: the database still tells the rows apart. -/
theorem nodup_insertRow (h : ((t.rowsOf id).map fun r => rt.columnKey r.host).Nodup) {host : Bytes}
    (hlen : host.length ≤ 255) (hno : t.noRow rt id host = true) (coh : Coh) :
    (((t.insertRow id host coh).rowsOf id).map fun r => rt.columnKey r.host).Nodup := by
  rw [rowsOf_insertRow, tinyText_eq_self hlen, List.map_append, List.map_singleton]
  refine h.append (List.nodup_singleton _) ?_
  rw [List.disjoint_singleton]
  intro hmem
  obtain ⟨r, hr, hk⟩ := List.mem_map.mp hmem
  exact noRow_iff.mp hno r hr hk

theorem Covered.insertRow {hosts : List Bytes} (h : Covered rt t id hosts) (host : Bytes) (coh : Coh) :
    Covered rt (t.insertRow id host coh) id hosts := by
  intro x hx
  obtain ⟨r, hr, hk⟩ := h x hx
  exact ⟨r, by rw [rowsOf_insertRow]; exact List.mem_append_left _ hr, hk⟩

theorem Covered.snoc {hosts : List Bytes} (h : Covered rt t id hosts) {host : Bytes}
    (hr : ∃ r ∈ t.rowsOf id, r.IsFor rt host) : Covered rt t id (hosts ++ [host]) := by
  intro x hx
  obtain hx | hx := List.mem_append.mp hx
  · exact h x hx
  · exact List.mem_singleton.mp hx ▸ hr

end Rows

/-! ## Runs -/

section Runs

variable {ι : Type} (rt : Runtime) (ether : List Host) (c : CommandRow)

/-- The tables, and the calls. -/
abbrev Dispatchers (ι : Type) := World ι Tables DispatchStage

/-- Before any call has started. -/
def Dispatchers.begin (t : Tables) : Dispatchers ι := ⟨t, fun _ => .start⟩

def dispatcherStep (_ : ι) (_ : Unit) : Tables × DispatchStage → Tables × DispatchStage :=
  dispatchStep rt ether c

/-- The host for which a call is between its query and its insertion. -/
def DispatchStage.pending : DispatchStage → Option Bytes
  | .inserting h _ => some h
  | _ => none

/-- The host for which a call makes its query next. -/
def DispatchStage.looked : DispatchStage → Option Bytes
  | .checking (h :: _) => some h
  | _ => none

/-- No call looks for a row of a host while another one is between its query and its insertion for the
same host. -/
def Apart (w : Dispatchers ι) (e : ι × Unit) : Prop :=
  ∀ j, j ≠ e.1 → ∀ h ∈ (w.procs e.1).looked, ∀ h' ∈ (w.procs j).pending,
    rt.columnKey h' ≠ rt.columnKey h

/-- What a call has left behind. -/
def Passed (t : Tables) : DispatchStage → Prop
  | .start => True
  | .checking hosts => ∃ past, c.hosts rt ether = past ++ hosts ∧ Covered rt t c.id past
  | .inserting h hosts => ∃ past, c.hosts rt ether = past ++ h :: hosts ∧ Covered rt t c.id past
  | .finished => Covered rt t c.id (c.hosts rt ether) ∧ t.getDispatched c.id = true

/-- A host that is about to get a row has none, and no other call is about to insert one for it. -/
structure Inserting (t : Tables) (procs : ι → DispatchStage) (i : ι) : Prop where
  none : ∀ h ∈ (procs i).pending, t.noRow rt c.id h = true
  alone : ∀ j, j ≠ i → ∀ h ∈ (procs i).pending, ∀ h' ∈ (procs j).pending, rt.columnKey h' ≠ rt.columnKey h

/-- While the calls go on. -/
structure Dispatching (w : Dispatchers ι) : Prop where
  known : ∃ x, w.shared.commands.find? (fun x => x.id = c.id) = some x
  unlike : ((w.shared.rowsOf c.id).map fun r => rt.columnKey r.host).Nodup
  hosts : ∀ r ∈ w.shared.rowsOf c.id, r.host ∈ c.hosts rt ether
  marked : w.shared.getDispatched c.id = true → Covered rt w.shared c.id (c.hosts rt ether)
  passed : ∀ i, Passed rt ether c w.shared (w.procs i)
  inserting : ∀ i, Inserting rt c w.shared w.procs i

variable {rt ether c}

theorem find?_setDispatched (t : Tables) (id id' : ℕ) :
    (t.setDispatched id).commands.find? (fun x => x.id = id') =
      (t.commands.find? fun x => x.id = id').map fun c =>
        if c.id = id then { c with dispatched := true } else c := by
  have hcomp : ((fun x : CommandRow => decide (x.id = id')) ∘
      fun c : CommandRow => if c.id = id then { c with dispatched := true } else c) =
      fun x => decide (x.id = id') := by
    funext y
    dsimp only [Function.comp_apply]
    split_ifs <;> rfl
  unfold Tables.setDispatched
  rw [List.find?_map, hcomp]

theorem find?_setDispatched_self {t : Tables} {id : ℕ} {x : CommandRow}
    (h : t.commands.find? (fun x => x.id = id) = some x) :
    (t.setDispatched id).commands.find? (fun x => x.id = id) = some { x with dispatched := true } := by
  have hid : x.id = id := by simpa using List.find?_some h
  rw [find?_setDispatched, h, Option.map_some, if_pos hid]

/-- What a call has left is still there when others insert rows. -/
theorem Passed.insertRow {t : Tables} {st : DispatchStage} (h : Passed rt ether c t st) (host : Bytes)
    (coh : Coh) : Passed rt ether c (t.insertRow c.id host coh) st := by
  cases st with
  | start => trivial
  | checking hosts =>
    obtain ⟨past, hp, hc⟩ := h
    exact ⟨past, hp, hc.insertRow host coh⟩
  | inserting x hosts =>
    obtain ⟨past, hp, hc⟩ := h
    exact ⟨past, hp, hc.insertRow host coh⟩
  | finished => exact ⟨h.1.insertRow host coh, h.2⟩

theorem Passed.setDispatched {t : Tables} (hk : ∃ x, t.commands.find? (fun x => x.id = c.id) = some x)
    {st : DispatchStage} (h : Passed rt ether c t st) :
    Passed rt ether c (t.setDispatched c.id) st := by
  cases st with
  | start => trivial
  | checking hosts => exact h
  | inserting x hosts => exact h
  | finished =>
    obtain ⟨x, hx⟩ := hk
    refine ⟨h.1, ?_⟩
    unfold Tables.getDispatched
    rw [find?_setDispatched_self hx]
    rfl

variable [DecidableEq ι]

/-- One call goes on, and the others have left what they had. -/
theorem Passed.update {t : Tables} {procs : ι → DispatchStage} {i : ι} {st : DispatchStage}
    (hst : Passed rt ether c t st) (h : ∀ j, Passed rt ether c t (procs j)) :
    ∀ j, Passed rt ether c t (Function.update procs i st j) :=
  (Function.forall_update_iff procs fun _ st => Passed rt ether c t st).mpr ⟨hst, fun j _ => h j⟩

/-- One call goes on; the other tables still have no row of the hosts that are about to get one. -/
theorem Inserting.update {t t' : Tables} {procs : ι → DispatchStage} {i : ι} {st : DispatchStage}
    (h : ∀ j, Inserting rt c t procs j)
    (hkeep : ∀ j, j ≠ i → ∀ h ∈ (procs j).pending, t'.noRow rt c.id h = true)
    (hnone : ∀ h ∈ st.pending, t'.noRow rt c.id h = true)
    (halone : ∀ j, j ≠ i → ∀ h ∈ st.pending, ∀ h' ∈ (procs j).pending, rt.columnKey h' ≠ rt.columnKey h) :
    ∀ j, Inserting rt c t' (Function.update procs i st) j := by
  intro j
  by_cases hj : j = i
  · subst hj
    refine ⟨?_, fun k hk => ?_⟩
    · rw [Function.update_self]
      exact hnone
    · rw [Function.update_self, Function.update_of_ne hk]
      exact halone k hk
  · refine ⟨?_, fun k hk => ?_⟩
    · rw [Function.update_of_ne hj]
      exact hkeep j hj
    · rw [Function.update_of_ne hj]
      by_cases hki : k = i
      · subst hki
        rw [Function.update_self]
        exact fun x hx y hy hxy => halone j hj y hy x hx hxy.symm
      · rw [Function.update_of_ne hki]
        exact (h j).alone k hk

/-- A step that changes no table. -/
theorem Dispatching.same {w : Dispatchers ι} (h : Dispatching rt ether c w) {i : ι} {st : DispatchStage}
    (hst : Passed rt ether c w.shared st) (hnone : ∀ h ∈ st.pending, w.shared.noRow rt c.id h = true)
    (halone : ∀ j, j ≠ i → ∀ h ∈ st.pending, ∀ h' ∈ (w.procs j).pending,
      rt.columnKey h' ≠ rt.columnKey h) :
    Dispatching rt ether c ⟨w.shared, Function.update w.procs i st⟩ :=
  ⟨h.known, h.unlike, h.hosts, h.marked, hst.update h.passed,
    Inserting.update h.inserting (fun j _ => (h.inserting j).none) hnone halone⟩

/-- A row is inserted for a host that has none. -/
theorem Dispatching.insert {w : Dispatchers ι} (h : Dispatching rt ether c w)
    (hlen : ∀ x ∈ c.hosts rt ether, x.length ≤ 255) {i : ι} {x : Bytes} {hosts : List Bytes}
    (hi : w.procs i = .inserting x hosts) :
    Dispatching rt ether c
      ⟨w.shared.insertRow c.id x (dispatchedRow c.cmd), Function.update w.procs i (.checking hosts)⟩ := by
  have hpass := h.passed i
  rw [hi] at hpass
  obtain ⟨past, hpast, hcov⟩ := hpass
  have hmem : x ∈ c.hosts rt ether := by
    rw [hpast]
    exact List.mem_append_right _ List.mem_cons_self
  have hx : x ∈ (w.procs i).pending := by
    rw [hi]
    rfl
  have hno := (h.inserting i).none x hx
  refine ⟨h.known, nodup_insertRow h.unlike (hlen x hmem) hno _, fun r hr => ?_,
    fun hm => (h.marked hm).insertRow _ _,
    Passed.update ⟨past ++ [x], ?_, ?_⟩ fun j => (h.passed j).insertRow _ _,
    Inserting.update h.inserting (fun j hj y hy => ?_)
      (fun y hy => absurd hy (by simp [DispatchStage.pending]))
      fun j _ y hy => absurd hy (by simp [DispatchStage.pending])⟩
  · dsimp only at hr
    rw [rowsOf_insertRow, tinyText_eq_self (hlen x hmem)] at hr
    obtain hr | hr := List.mem_append.mp hr
    · exact h.hosts r hr
    · rw [List.mem_singleton.mp hr]
      exact hmem
  · rw [hpast, List.append_assoc, List.singleton_append]
  · exact (hcov.insertRow _ _).snoc ⟨_, mem_insertRow x _, .inr rfl⟩
  · -- another host is about to get a row
    rw [noRow_iff, rowsOf_insertRow, tinyText_eq_self (hlen x hmem)]
    intro r hr
    obtain hr | hr := List.mem_append.mp hr
    · exact noRow_iff.mp ((h.inserting j).none y hy) r hr
    · rw [List.mem_singleton.mp hr]
      exact (h.inserting j).alone i (Ne.symm hj) y hy x hx

/-- **One query**. -/
theorem Dispatching.step {w : Dispatchers ι} (hlen : ∀ x ∈ c.hosts rt ether, x.length ≤ 255) {e : ι × Unit}
    (hok : Apart rt w e) (h : Dispatching rt ether c w) :
    Dispatching rt ether c (w.step (dispatcherStep rt ether c) e) := by
  obtain ⟨i, u⟩ := e
  have hpass := h.passed i
  unfold Apart at hok
  cases hi : w.procs i with
  | start =>
    rw [World.step_eq (s := w.shared) (p := if w.shared.getDispatched c.id then .finished else
      .checking (c.hosts rt ether)) (by rw [hi]; rfl)]
    split_ifs with hd
    · exact h.same ⟨h.marked hd, hd⟩ (fun x hx => absurd hx (by simp [DispatchStage.pending]))
        fun j _ x hx => absurd hx (by simp [DispatchStage.pending])
    · exact h.same ⟨[], rfl, fun x hx => absurd hx List.not_mem_nil⟩
        (fun x hx => absurd hx (by simp [DispatchStage.pending]))
        fun j _ x hx => absurd hx (by simp [DispatchStage.pending])
  | checking hosts =>
    rw [hi] at hpass hok
    obtain ⟨past, hpast, hcov⟩ := hpass
    cases hosts with
    | nil =>
      rw [List.append_nil] at hpast
      rw [World.step_eq (s := w.shared.setDispatched c.id) (p := .finished) (by rw [hi]; rfl)]
      obtain ⟨y, hy⟩ := h.known
      have hfin : Passed rt ether c (w.shared.setDispatched c.id) .finished := by
        refine ⟨hpast ▸ hcov, ?_⟩
        unfold Tables.getDispatched
        rw [find?_setDispatched_self hy]
        rfl
      exact ⟨⟨_, find?_setDispatched_self hy⟩, h.unlike, h.hosts, fun _ => hfin.1,
        hfin.update fun j => (h.passed j).setDispatched h.known,
        Inserting.update h.inserting (fun j _ => (h.inserting j).none)
          (fun x hx => absurd hx (by simp [DispatchStage.pending]))
          fun j _ x hx => absurd hx (by simp [DispatchStage.pending])⟩
    | cons x hosts =>
      rw [World.step_eq (s := w.shared) (p := if w.shared.noRow rt c.id x then .inserting x hosts else
        .checking hosts) (by rw [hi]; rfl)]
      split_ifs with hno
      · -- no other call is between its query and its insertion for this host
        refine h.same ⟨past, hpast, hcov⟩ (fun y hy => ?_) fun j hj y hy => ?_
        · exact Option.some.inj hy ▸ hno
        · exact Option.some.inj hy ▸ hok j hj x rfl
      · -- the host has a row already
        rw [noRow_iff] at hno
        push Not at hno
        obtain ⟨r, hr, hk⟩ := hno
        refine h.same ⟨past ++ [x], ?_, hcov.snoc ⟨r, hr, .inl hk⟩⟩
          (fun y hy => absurd hy (by simp [DispatchStage.pending]))
          fun j _ y hy => absurd hy (by simp [DispatchStage.pending])
        rw [hpast, List.append_assoc, List.singleton_append]
  | inserting x hosts =>
    rw [World.step_eq (s := w.shared.insertRow c.id x (dispatchedRow c.cmd)) (p := .checking hosts)
      (by rw [hi]; rfl)]
    exact h.insert hlen hi
  | finished =>
    rw [World.step_eq_self (by rw [hi]; rfl)]
    exact h

/-- **Dispatching twice** does nothing more, if no call looks for a host between the query and the
insertion of another one for the same host. -/
theorem dispatched_once [Nonempty ι] (rt : Runtime) (ether : List Host) (c : CommandRow) (t : Tables)
    (hc : t.commands.find? (fun x => x.id = c.id) = some c) (hdis : c.dispatched = false)
    (hnew : t.rowsOf c.id = []) (hhosts : ((c.hosts rt ether).map rt.columnKey).Nodup)
    (hlen : ∀ x ∈ c.hosts rt ether, x.length ≤ 255) (es : List (ι × Unit))
    (hes : World.Along (dispatcherStep rt ether c) (Apart rt) (Dispatchers.begin t) es)
    (hfin : ∀ i, ((Dispatchers.begin t).run (dispatcherStep rt ether c) es).procs i = .finished) :
    ((((Dispatchers.begin t).run (dispatcherStep rt ether c) es).shared.rowsOf c.id).map
      HostRow.host).Perm (c.hosts rt ether) ∧
    ((Dispatchers.begin t).run (dispatcherStep rt ether c) es).shared.getDispatched c.id = true := by
  have hstart : Dispatching rt ether c (Dispatchers.begin t : Dispatchers ι) := by
    refine ⟨⟨c, hc⟩, ?_, ?_, fun hm => ?_, fun _ => trivial, fun i => ⟨?_, ?_⟩⟩
    · change ((t.rowsOf c.id).map _).Nodup
      rw [hnew]
      exact List.nodup_nil
    · change ∀ r ∈ t.rowsOf c.id, _
      rw [hnew]
      exact fun r hr => absurd hr List.not_mem_nil
    · have hm' : (t.commands.find? fun x => x.id = c.id).any CommandRow.dispatched = true := hm
      rw [hc, Option.any_some, hdis] at hm'
      cases hm'
    · exact fun x hx => absurd hx (by simp [Dispatchers.begin, DispatchStage.pending])
    · exact fun j _ x hx => absurd hx (by simp [Dispatchers.begin, DispatchStage.pending])
  have h := World.run_induction (fun _ _ => Dispatching.step hlen) hstart hes
  obtain ⟨i⟩ := ‹Nonempty ι›
  have hpass := h.passed i
  rw [hfin i] at hpass
  refine ⟨(List.perm_ext_iff_of_nodup ?_ (List.Nodup.of_map _ hhosts)).mpr fun x =>
    ⟨fun hx => ?_, fun hx => ?_⟩, hpass.2⟩
  · exact List.Nodup.of_map rt.columnKey (by rw [List.map_map]; exact h.unlike)
  · obtain ⟨r, hr, rfl⟩ := List.mem_map.mp hx
    exact h.hosts r hr
  · obtain ⟨r, hr, hk⟩ := hpass.1 x hx
    have hsame := List.inj_on_of_nodup_map hhosts (h.hosts r hr) hx (hk.columnKey_eq (hlen x hx))
    exact List.mem_map.mpr ⟨r, hr, hsame⟩

end Runs

/-! ## Two calls at once -/

/-- Names are compared as they are. -/
def exactRuntime : Runtime where
  looseEq name host := (LscPath.ofBytes name).host == host
  looseEq_self _ := beq_self_eq_true _
  ksort l := l
  ksort_perm l := .refl l
  columnKey name := name

def labHosts : List Host := [⟨ascii "00:11:22:33:44:55", ascii "10.0.0.1", ascii "lab1"⟩]

/-- A command for all hosts. -/
def labCommand : CommandRow := ⟨1, ascii "all:", copyAndStart, false⟩

def labTables : Tables := ⟨[labCommand], []⟩

/-- Two hosts. -/
def pairHosts : List Host := labHosts ++ [⟨ascii "00:11:22:33:44:66", ascii "10.0.0.2", ascii "lab2"⟩]

/-- Two calls at once: the second one looks for each host when the first one has inserted its row. -/
def twoCalls : List (Fin 2 × Unit) :=
  [(0, ()), (1, ()), (0, ()), (0, ()), (1, ()), (0, ()), (0, ()), (1, ()), (0, ()), (1, ())]

theorem dispatched_once_inTurn :
    ((((Dispatchers.begin labTables : Dispatchers (Fin 2)).run
      (dispatcherStep exactRuntime pairHosts labCommand) twoCalls).shared.rowsOf 1).map HostRow.host).Perm
        (labCommand.hosts exactRuntime pairHosts) ∧
    ((Dispatchers.begin labTables : Dispatchers (Fin 2)).run
      (dispatcherStep exactRuntime pairHosts labCommand) twoCalls).shared.getDispatched 1 = true := by
  refine dispatched_once exactRuntime pairHosts labCommand labTables (by decide) rfl rfl (by decide)
    (by decide) _ ?_ (by decide)
  unfold twoCalls World.Along Apart
  exact ⟨by decide, by decide, by decide, by decide, by decide, by decide, by decide, by decide, by decide,
    by decide, trivial⟩

/-- Both calls find no row of the host before one of them inserts it. -/
theorem dispatched_twice :
    ¬((((Dispatchers.begin labTables : Dispatchers (Fin 2)).run
      (dispatcherStep exactRuntime labHosts labCommand)
        [(0, ()), (1, ()), (0, ()), (1, ()), (0, ()), (1, ()), (0, ()), (1, ())]).shared.rowsOf 1).map
      HostRow.host).Perm (labCommand.hosts exactRuntime labHosts) := by
  intro h
  exact absurd h.length_eq (by decide)

end LinboxRescue
