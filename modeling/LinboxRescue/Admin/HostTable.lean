import LinboxRescue.Admin.Lbs

/-!
# The table of hosts over a run

Hosts are added and deleted, and the table is saved and read again in between.

1. `etherLoad_etherSave`: the hosts that are read back from what was saved.
2. `TableOp.run_kept`: every step keeps a table whose names differ, whatever their case.
3. `hostTable_runs`: so does any run, and what is saved is read back.
-/

namespace LinboxRescue

/-! ## Steps -/

/-- `etherDelete` fails if there is no such MAC. -/
def etherDelete (hosts : List Host) (mac : Bytes) : Option (List Host) :=
  if hosts.any fun h => h.mac == mac then some (hosts.filter fun h => h.mac ≠ mac) else none

/-- What is done with the table. A file may not open. -/
inductive TableOp
  | add (mac ip name : Bytes)
  | delete (mac : Bytes)
  | save (opens : Bool)
  | reload (opens : Bool)
  deriving DecidableEq, Repr

/-- `%einfo`, and the file. -/
structure HostTable where
  hosts : List Host
  file : Option Bytes
  deriving DecidableEq, Repr

def HostTable.empty : HostTable := ⟨[], none⟩

/-- The result, and the table afterwards. -/
def TableOp.run (t : HostTable) : TableOp → Bool × HostTable
  | .add mac ip name =>
    match etherAdd t.hosts mac ip name with
    | some hosts => (true, { t with hosts })
    | none => (false, t)
  | .delete mac =>
    match etherDelete t.hosts mac with
    | some hosts => (true, { t with hosts })
    | none => (false, t)
  | .save opens => if opens then (true, { t with file := some (etherSave t.hosts) }) else (false, t)
  | .reload opens =>
    match t.file with
    | some text =>
      -- the table is emptied before the file is opened
      if opens then (true, { t with hosts := einfoHosts (etherLoad text) })
      else (false, { t with hosts := [] })
    | none => (false, { t with hosts := [] })

def HostTable.after (t : HostTable) (ops : List TableOp) : HostTable :=
  ops.foldl (fun t op => (op.run t).2) t

/-! ## Saving and reading -/

variable {hosts : List Host}

/-- The hosts whose lines are not passed over. -/
def Host.isRead (h : Host) : Bool := h.mac.head?.any isPerlWord

/-- **What is read back**: the hosts whose MAC starts with a word character, each once. -/
theorem etherLoad_etherSave (ht : ∀ h ∈ hosts, HostText h) (hn : (hosts.map Host.mac).Nodup) :
    (etherLoad (etherSave hosts)).Perm ((hosts.filter Host.isRead).map fun h =>
      (h.mac, some h.ip, if h.name = [] then none else some h.name)) := by
  obtain ⟨hs, hmacs, hmem, hsave⟩ := @etherSave_sorted hosts fun h hh h' hh' he =>
    List.inj_on_of_nodup_map hn hh hh' he
  have hnodup : (hs.map Host.mac).Nodup := by
    rw [hmacs]
    exact (List.perm_insertionSort _ _).nodup_iff.mpr hn
  have hperm : hs.Perm hosts := (List.perm_ext_iff_of_nodup hnodup.of_map hn.of_map).mpr hmem
  have htext : ∀ h ∈ hs, HostText h := fun h hh => ht h ((hmem h).mp hh)
  have hload : etherLoad (etherSave hosts) = (hs.filter Host.isRead).map fun h =>
      (h.mac, some h.ip, if h.name = [] then none else some h.name) := by
    have hlines : ∀ l ∈ etherComment :: [] :: hs.map Host.line, ∀ b ∈ l, b ≠ 10 := by
      rw [List.forall_mem_cons, List.forall_mem_cons]
      refine ⟨by decide, by decide, fun l hl b hb => ?_⟩
      obtain ⟨h, hh, rfl⟩ := List.mem_map.mp hl
      exact fun e => (htext h hh).not_mem_line (e ▸ hb)
    rw [etherLoad, hsave, perlLines_flatMap hlines, List.filterMap_cons_none (by decide),
      List.filterMap_cons_none (by decide), List.filterMap_map]
    clear hmacs hmem hsave hnodup hperm hlines
    induction hs with
    | nil => rfl
    | cons h hs ih =>
      obtain ⟨hh, htext⟩ := List.forall_mem_cons.mp htext
      by_cases hr : h.isRead = true
      · rw [List.filter_cons_of_pos hr, List.map_cons, ← ih htext, List.filterMap_cons_some]
        exact (etherLoadLine_text hh).trans (if_pos hr)
      · rw [List.filter_cons_of_neg hr, ← ih htext, List.filterMap_cons_none]
        exact (etherLoadLine_text hh).trans (if_neg hr)
  rw [hload]
  exact (hperm.filter _).map _

/-- `%einfo` after saving and reading. -/
theorem einfoHosts_etherSave (ht : ∀ h ∈ hosts, HostText h) (hn : (hosts.map Host.mac).Nodup) :
    (einfoHosts (etherLoad (etherSave hosts))).Perm (hosts.filter Host.isRead) := by
  have hperm := etherLoad_etherSave ht hn
  have hkeys : ((etherLoad (etherSave hosts)).map Prod.fst).Nodup := by
    refine (hperm.map Prod.fst).nodup_iff.mpr ?_
    rw [List.map_map]
    exact hn.sublist (List.filter_sublist.map _)
  have hhash := hash_of_nodup Host.mac
    (fun e : Bytes × Option Bytes × Option Bytes => (⟨e.1, e.2.1.getD [], e.2.2.getD []⟩ : Host)) hkeys
  rw [show einfoHosts (etherLoad (etherSave hosts)) = _ from hhash]
  refine (hperm.map _).trans (List.Perm.of_eq ?_)
  rw [List.map_map]
  refine (List.map_congr_left fun h _ => ?_).trans (List.map_id _)
  obtain ⟨mac, ip, name⟩ := h
  by_cases hname : name = []
  · subst hname
    rfl
  · show (⟨mac, ip, (if name = [] then none else some name).getD []⟩ : Host) = ⟨mac, ip, name⟩
    rw [if_neg hname]
    rfl

/-! ## Runs -/

/-- A table that can be saved, with different names. -/
structure Distinct (hosts : List Host) : Prop where
  text : ∀ h ∈ hosts, HostText h
  macs : (hosts.map Host.mac).Nodup
  names : (hosts.map fun h => lc h.name).Nodup

theorem Distinct.sublist {hs : List Host} (h : Distinct hosts) (hs' : hs.Sublist hosts) : Distinct hs :=
  ⟨fun x hx => h.text x (hs'.mem hx), h.macs.sublist (hs'.map _), h.names.sublist (hs'.map _)⟩

theorem Distinct.perm {hs : List Host} (h : Distinct hosts) (hp : hs.Perm hosts) : Distinct hs :=
  ⟨fun x hx => h.text x (hp.mem_iff.mp hx), (hp.map _).nodup_iff.mpr h.macs,
    (hp.map _).nodup_iff.mpr h.names⟩

theorem Distinct.add (h : Distinct hosts) {mac ip name : Bytes} (hx : HostText ⟨mac, ip, name⟩)
    {hs : List Host} (hadd : etherAdd hosts mac ip name = some hs) : Distinct hs := by
  unfold etherAdd at hadd
  split_ifs at hadd with hname hmac
  cases hadd
  simp only [List.any_eq_true, beq_iff_eq, not_exists, not_and] at hname hmac
  refine ⟨?_, ?_, ?_⟩
  · rw [List.forall_mem_append, List.forall_mem_singleton]
    exact ⟨h.text, hx⟩
  · rw [List.map_append]
    refine List.nodup_append.mpr ⟨h.macs, List.nodup_singleton _, ?_⟩
    rintro a ha b hb rfl
    obtain ⟨x, hx, rfl⟩ := List.mem_map.mp ha
    exact hmac x hx (List.mem_singleton.mp hb)
  · rw [List.map_append]
    refine List.nodup_append.mpr ⟨h.names, List.nodup_singleton _, ?_⟩
    rintro a ha b hb rfl
    obtain ⟨x, hx, rfl⟩ := List.mem_map.mp ha
    exact hname x hx (List.mem_singleton.mp hb)

/-- The host that is added has a line that can be taken apart. -/
def TableOp.Storable : TableOp → Prop
  | .add mac ip name => HostText ⟨mac, ip, name⟩
  | _ => True

/-- The table is kept, and so is the one in the file. -/
structure HostTable.Kept (t : HostTable) : Prop where
  hosts : Distinct t.hosts
  file : ∀ text ∈ t.file, ∃ hosts, Distinct hosts ∧ text = etherSave hosts

theorem kept_nil : Distinct [] :=
  ⟨fun _ h => absurd h List.not_mem_nil, List.nodup_nil, List.nodup_nil⟩

/-- **One step** keeps the table. -/
theorem TableOp.run_kept {t : HostTable} (ht : t.Kept) {op : TableOp} (hop : op.Storable) :
    (op.run t).2.Kept := by
  cases op with
  | add mac ip name =>
    rw [TableOp.run]
    cases hadd : etherAdd t.hosts mac ip name with
    | some hosts => exact ⟨ht.hosts.add hop hadd, ht.file⟩
    | none => exact ht
  | delete mac =>
    rw [TableOp.run]
    cases hdel : etherDelete t.hosts mac with
    | some hosts =>
      unfold etherDelete at hdel
      split_ifs at hdel
      cases hdel
      exact ⟨ht.hosts.sublist List.filter_sublist, ht.file⟩
    | none => exact ht
  | save opens =>
    rw [TableOp.run]
    split_ifs
    · exact ⟨ht.hosts, fun text h => ⟨t.hosts, ht.hosts, (Option.some.inj h).symm⟩⟩
    · exact ht
  | reload opens =>
    obtain ⟨hosts₀, file⟩ := t
    cases file with
    | none => exact ⟨kept_nil, ht.file⟩
    | some text =>
      obtain ⟨hosts, hkept, rfl⟩ := ht.file text rfl
      cases opens with
      | true =>
        have hread := einfoHosts_etherSave hkept.text hkept.macs
        exact ⟨(hkept.sublist List.filter_sublist).perm hread, ht.file⟩
      | false => exact ⟨kept_nil, ht.file⟩

theorem HostTable.Kept.after {t : HostTable} (ht : t.Kept) {ops : List TableOp}
    (hops : ∀ op ∈ ops, op.Storable) : (t.after ops).Kept := by
  induction ops generalizing t with
  | nil => exact ht
  | cons op ops ih =>
    obtain ⟨hop, hops⟩ := List.forall_mem_cons.mp hops
    exact ih (op.run_kept ht hop) hops

/-- A host is added or deleted. -/
def TableOp.isEdit : TableOp → Bool
  | .add .. | .delete _ => true
  | _ => false

/-- A step that fails changes nothing. -/
theorem TableOp.run_failed {t : HostTable} {op : TableOp} (hop : op.isEdit = true)
    (h : (op.run t).1 = false) : (op.run t).2 = t := by
  cases op with
  | add mac ip name =>
    rw [TableOp.run] at *
    cases hadd : etherAdd t.hosts mac ip name with
    | some hosts =>
      rw [hadd] at h
      cases h
    | none => rfl
  | delete mac =>
    rw [TableOp.run] at *
    cases hdel : etherDelete t.hosts mac with
    | some hosts =>
      rw [hdel] at h
      cases h
    | none => rfl
  | save opens => cases hop
  | reload opens => cases hop

/-- **The table of hosts**: what is saved is read back; over any run of steps with hosts that can be
saved, the names differ; what fails leaves the table as it is. -/
theorem hostTable_runs :
    (∀ hosts : List Host, (∀ h ∈ hosts, HostText h ∧ h.mac.head?.any isPerlWord = true ∧ h.name ≠ []) →
      (hosts.map Host.mac).Nodup →
        (etherLoad (etherSave hosts)).Perm (hosts.map fun h => (h.mac, some h.ip, some h.name)) ∧
        (einfoHosts (etherLoad (etherSave hosts))).Perm hosts) ∧
    (∀ ops : List TableOp, (∀ op ∈ ops, op.Storable) →
      ((HostTable.empty.after ops).hosts.map fun h => lc h.name).Nodup) ∧
    ∀ (t : HostTable) (op : TableOp), op.isEdit = true → (op.run t).1 = false → (op.run t).2 = t := by
  refine ⟨fun hosts ht hn => ?_, fun ops hops => ?_, fun t op hop h => TableOp.run_failed hop h⟩
  · have hread : hosts.filter Host.isRead = hosts := List.filter_eq_self.mpr fun h hh => (ht h hh).2.1
    have htext : ∀ h ∈ hosts, HostText h := fun h hh => (ht h hh).1
    refine ⟨(etherLoad_etherSave htext hn).trans (List.Perm.of_eq ?_), ?_⟩
    · rw [hread]
      exact List.map_congr_left fun h hh => by rw [if_neg (ht h hh).2.2]
    · have hperm := einfoHosts_etherSave htext hn
      rwa [hread] at hperm
  · have hempty : HostTable.empty.Kept := ⟨kept_nil, fun _ h => by cases h⟩
    exact (hempty.after hops).hosts.names

/-- A blank behind a name is lost when the table is saved and read again. -/
theorem pcTwice_reloaded :
    let ops : List TableOp := [.add (ascii "00:0C:29:3E:5F:7A") (ascii "10.0.0.2") (ascii "pc"),
      .add (ascii "00:0C:29:3E:5F:7B") (ascii "10.0.0.3") (ascii "pc "), .save true, .reload true]
    (HostTable.empty.after ops).hosts.map Host.name = [ascii "pc", ascii "pc"] ∧
      ¬((HostTable.empty.after ops).hosts.map fun h => lc h.name).Nodup := by
  decide

theorem hostTable_runs_lab :
    let h : Host := ⟨ascii "00:0C:29:3E:5F:7A", ascii "10.0.0.2", ascii "lab pc"⟩
    (etherLoad (etherSave [h])).Perm [(h.mac, some h.ip, some h.name)] ∧
    ((HostTable.empty.after [.add h.mac h.ip h.name, .save true, .reload true]).hosts.map
      fun h => lc h.name).Nodup ∧
    (TableOp.run ⟨[h], none⟩ (.add (ascii "00:0C:29:3E:5F:7B") h.ip (ascii "LAB PC"))).2 =
      ⟨[h], none⟩ := by
  intro h
  have hmac : EtherWord h.mac := ⟨by decide, by decide⟩
  have hip : EtherWord h.ip := ⟨by decide, by decide⟩
  have ht : HostText h := ⟨hmac, hip, by decide, by decide, by decide⟩
  refine ⟨(hostTable_runs.1 [h] ?_ (List.nodup_singleton _)).1, hostTable_runs.2.1 _ ?_,
    hostTable_runs.2.2 _ _ rfl (by decide)⟩
  · rw [List.forall_mem_singleton]
    exact ⟨ht, by decide, by decide⟩
  · rw [List.forall_mem_cons, List.forall_mem_cons, List.forall_mem_singleton]
    exact ⟨ht, trivial, trivial⟩

end LinboxRescue
