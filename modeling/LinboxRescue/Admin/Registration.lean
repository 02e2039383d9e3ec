import LinboxRescue.Admin.Lbs
import LinboxRescue.Lib.Interleave

/-!
# Registering hosts at the same time

`check_add_host`, `createEntry` and `deleteEntry` (`src/server/admin/perl`) read `etc/ether`, change
the table and write the whole file. Each is a process with three accesses to the file: it is read,
opened for writing, which empties it, and written.

1. `EtherText`: a file with the hosts of a table.
2. `newText_add`, `newText_delete`: what a process writes is a file with the hosts it has read and
   the new one, or without the one it deletes.
3. `Serial.step`: a process that is alone from its reading to its writing keeps what the others did.
4. `hosts_kept`: so no host is lost in a run of such processes.
-/

namespace LinboxRescue

/-! ## `check_add_host` -/

/-- A line of `get_info`. A value that is not there is printed as an empty one. -/
def getInfoLine (l : Bytes) : Option (Bytes × Bytes) :=
  if l.head? = some 59 ∨ l.head? = some 35 ∨ l.all isPerlSpace then none else some (perlSplitSpace l)

/-- `%ether`: of two lines with one key, the last one counts. -/
def parseEther (file : Bytes) : List (Bytes × Bytes) :=
  ((perlLines file).filterMap getInfoLine).foldl
    (fun hash e => hash.filter (fun x => x.1 ≠ e.1) ++ [e]) []

/-- What `insert_ether` writes, with the keys of `%$old` in some order. -/
def insertEther (old : List (Bytes × Bytes)) (newline : Bytes) : Bytes :=
  ascii "#Automatically generated, do not edit\n\n" ++
    (old.flatMap fun e => e.1 ++ 32 :: e.2 ++ [10]) ++ newline ++ [10]

/-! ## Processes -/

inductive Job
  | checkAddHost (mac ip hostname : Bytes)
  | createEntry (mac ip name : Bytes)
  | deleteEntry (mac : Bytes)
  deriving DecidableEq, Repr

def Job.mac : Job → Bytes
  | .checkAddHost mac _ _ => mac
  | .createEntry mac _ _ => mac
  | .deleteEntry mac => mac

/-- The host that is added. -/
def Job.host : Job → Option Host
  | .checkAddHost mac ip hostname => some ⟨mac, ip, hostname⟩
  | .createEntry mac ip name => some ⟨mac, ip, name⟩
  | .deleteEntry _ => none

/-- What is not in the table: `granted` stands for the other checks (password and address, the
directory of the host), and the order of a hash is any. -/
structure JobOutcome where
  granted : Bool
  opens : Bool
  copies : Bool
  keys : List (Bytes × Bytes) → List (Bytes × Bytes)
  keys_perm : ∀ hash, (keys hash).Perm hash

inductive Stage
  | start
  | loaded (text : Bytes)
  | opened (text : Bytes)
  | finished (ok : Bool)
  deriving DecidableEq, Repr

/-- The file that a process is going to write, from the one it has read. -/
def Job.newText (o : JobOutcome) (file : Bytes) : Job → Option Bytes
  | .checkAddHost mac ip hostname =>
    if mac = ascii "?" ∨ (parseEther file).any (fun e => e.1 == mac) ∨ o.granted = false then none
    else some (insertEther (o.keys (parseEther file)) (mac ++ 32 :: (ip ++ 32 :: hostname)))
  | .createEntry mac ip name =>
    if o.granted = false then none
    else (etherAdd (einfoHosts (etherLoad file)) mac ip name).map etherSave
  | .deleteEntry mac =>
    if o.granted = false then none
    else some (etherSave ((einfoHosts (etherLoad file)).filter fun h => h.mac ≠ mac))

/-- The result when the file cannot be opened: `deleteEntry` does not look at it. -/
def Job.notOpened : Job → Bool
  | .deleteEntry _ => true
  | _ => false

/-- The result when it is written: `createEntry` copies a directory then. -/
def Job.written (o : JobOutcome) : Job → Bool
  | .createEntry .. => o.copies
  | _ => true

/-- One access to the file. Writing starts at the beginning of what is there. -/
def Job.access (job : Job) (o : JobOutcome) : Bytes × Stage → Bytes × Stage
  | (file, .start) =>
    match job.newText o file with
    | some text => (file, .loaded text)
    | none => (file, .finished false)
  | (file, .loaded text) => if o.opens then ([], .opened text) else (file, .finished job.notOpened)
  | (file, .opened text) => (text ++ file.drop text.length, .finished (job.written o))
  | (file, .finished ok) => (file, .finished ok)

/-! ## Files with the hosts of a table -/

/-- A line that both readers pass over. -/
def IsComment (l : Bytes) : Prop :=
  (∀ b ∈ l, b ≠ 10) ∧ (l.head? = some 35 ∨ l.head? = some 59 ∨ ∀ b ∈ l, isBlank b = true)

/-- The lines of the hosts as the programs write them, with one blank between the three words, in some
order and with comments between them. -/
structure EtherText (file : Bytes) (hosts : List Host) : Prop where
  plain : ∀ h ∈ hosts, HostPlain h
  inj : MacInj hosts
  lines : ∃ ls : List Bytes, file = ls.flatMap (· ++ [10]) ∧
    (∀ l ∈ ls, IsComment l ∨ ∃ h ∈ hosts, l = h.line) ∧ ∀ h ∈ hosts, h.line ∈ ls

theorem etherLoadLine_comment {l : Bytes} (h : IsComment l) : etherLoadLine l = none := by
  have hword : (l.dropWhile isBlank).head?.any isPerlWord = false := by
    obtain h | h | h := h.2
    · obtain ⟨t, rfl⟩ := List.head?_eq_some_iff.mp h
      rfl
    · obtain ⟨t, rfl⟩ := List.head?_eq_some_iff.mp h
      rfl
    · rw [List.dropWhile_eq_nil_iff.mpr h]
      rfl
  unfold etherLoadLine
  rw [hword]
  rfl

theorem getInfoLine_comment {l : Bytes} (h : IsComment l) : getInfoLine l = none := by
  unfold getInfoLine
  refine if_pos ?_
  obtain h | h | h := h.2
  · exact .inr (.inl h)
  · exact .inl h
  · refine .inr (.inr (List.all_eq_true.mpr fun b hb => ?_))
    have hb := h b hb
    unfold isBlank at hb
    unfold isPerlSpace
    rw [hb]
    rfl

theorem isPerlSpace_of_isSpace {b : UInt8} (h : isSpace b = false) : isPerlSpace b = false := by
  unfold isPerlSpace
  simp only [Bool.or_eq_false_iff, beq_eq_false_iff_ne]
  refine ⟨⟨⟨⟨?_, ?_⟩, ?_⟩, ?_⟩, ?_⟩ <;> rintro rfl <;> exact absurd h (by decide)

theorem NoSpace.perlSpace {s : Bytes} (hs : NoSpace s) :
    ∀ b ∈ s, isPerlSpace b = false := fun b hb =>
  isPerlSpace_of_isSpace (hs.2 b hb).1

/-- The first word of a line. -/
theorem perlSplitSpace_word {w r : Bytes} (hw : NoSpace w) (hr : NoSpace r) (t : Bytes) :
    perlSplitSpace (w ++ 32 :: (r ++ t)) = (w, r ++ t) := by
  obtain ⟨b, w', rfl⟩ := List.exists_cons_of_ne_nil hw.1
  obtain ⟨c, r', rfl⟩ := List.exists_cons_of_ne_nil hr.1
  have hall : ∀ x ∈ b :: w', (!isPerlSpace x) = true := fun x hx => by rw [hw.perlSpace x hx]; rfl
  have hstart : (b :: w' ++ 32 :: (c :: r' ++ t)).dropWhile isPerlSpace =
      b :: w' ++ 32 :: (c :: r' ++ t) := by
    rw [List.cons_append]
    exact List.dropWhile_cons_of_neg (by rw [hw.perlSpace b List.mem_cons_self]; exact Bool.false_ne_true)
  unfold perlSplitSpace
  dsimp only
  rw [hstart, List.takeWhile_append_of_pos hall, List.dropWhile_append_of_pos hall,
    List.takeWhile_cons_of_neg (by decide), List.append_nil, List.dropWhile_cons_of_neg (by decide),
    List.dropWhile_cons_of_pos (by decide), List.cons_append,
    List.dropWhile_cons_of_neg (by rw [hr.perlSpace c List.mem_cons_self]; exact Bool.false_ne_true)]

theorem getInfoLine_host {h : Host} (hf : HostPlain h) :
    getInfoLine h.line = some (h.mac, h.ip ++ 32 :: h.name) := by
  obtain ⟨c, r, hmac⟩ := List.exists_cons_of_ne_nil hf.mac.1
  have hword : isPerlWord c = true := by
    have := hf.mac_word
    rwa [hmac] at this
  have hhead : h.line.head? = some c := by
    unfold Host.line
    rw [hmac]
    rfl
  have hnot : ¬(h.line.head? = some 59 ∨ h.line.head? = some 35 ∨ h.line.all isPerlSpace = true) := by
    rw [hhead]
    rintro (hc | hc | hc)
    · exact absurd (Option.some.inj hc ▸ hword) (by decide)
    · exact absurd (Option.some.inj hc ▸ hword) (by decide)
    · have hmem : c ∈ h.line := List.mem_of_mem_head? hhead
      have hspace := List.all_eq_true.mp hc c hmem
      rw [hf.mac.perlSpace c (hmac ▸ List.mem_cons_self)] at hspace
      exact absurd hspace Bool.false_ne_true
  unfold getInfoLine
  rw [if_neg hnot]
  exact congrArg some (perlSplitSpace_word hf.mac hf.ip (32 :: h.name))

variable {file : Bytes} {hosts : List Host}

/-- A reader that takes the lines of hosts and passes over comments. -/
theorem EtherText.mem_filterMap {α : Type*} {read : Bytes → Option α} {f : Host → α}
    (hc : ∀ l, IsComment l → read l = none) (hr : ∀ h, HostPlain h → read h.line = some (f h))
    (ht : EtherText file hosts) (e : α) :
    e ∈ (perlLines file).filterMap read ↔ ∃ h ∈ hosts, e = f h := by
  obtain ⟨ls, rfl, hls, hmem⟩ := ht.lines
  have hnl : ∀ l ∈ ls, ∀ b ∈ l, b ≠ 10 := by
    intro l hl
    obtain hl | ⟨h, hh, rfl⟩ := hls l hl
    · exact hl.1
    · exact fun b hb => ((ht.plain h hh).line_bytes b hb).1
  rw [perlLines_flatMap hnl, List.mem_filterMap]
  constructor
  · rintro ⟨l, hl, he⟩
    obtain hl | ⟨h, hh, rfl⟩ := hls l hl
    · rw [hc l hl] at he
      cases he
    · rw [hr h (ht.plain h hh)] at he
      exact ⟨h, hh, (Option.some.inj he).symm⟩
  · rintro ⟨h, hh, rfl⟩
    exact ⟨h.line, hmem h hh, hr h (ht.plain h hh)⟩

theorem EtherText.mem_etherLoad (ht : EtherText file hosts) (e : Bytes × Option Bytes × Option Bytes) :
    e ∈ etherLoad file ↔ ∃ h ∈ hosts, e = (h.mac, some h.ip, some h.name) :=
  ht.mem_filterMap (fun _ => etherLoadLine_comment) (fun _ => etherLoadLine_host) e

/-- `%einfo` has the hosts of the file. -/
theorem EtherText.mem_einfoHosts (ht : EtherText file hosts) (h : Host) :
    h ∈ einfoHosts (etherLoad file) ↔ h ∈ hosts := by
  have hmem : ∀ x : Host, (x ∈ ([] : List Host) ∨
      ∃ e ∈ etherLoad file, x = ⟨e.1, e.2.1.getD [], e.2.2.getD []⟩) ↔ x ∈ hosts := by
    intro x
    constructor
    · rintro (hx | ⟨e, he, rfl⟩)
      · exact absurd hx List.not_mem_nil
      · obtain ⟨y, hy, rfl⟩ := (ht.mem_etherLoad e).mp he
        exact hy
    · exact fun hx => .inr ⟨_, (ht.mem_etherLoad _).mpr ⟨x, hx, rfl⟩, rfl⟩
  have hhash := mem_hash Host.mac
    (fun e : Bytes × Option Bytes × Option Bytes => (⟨e.1, e.2.1.getD [], e.2.2.getD []⟩ : Host))
    (etherLoad file) [] (fun x y hx hy => ht.inj x ((hmem x).mp hx) y ((hmem y).mp hy)) h
  exact hhash.trans (hmem h)

/-- So has `%ether`. -/
theorem EtherText.mem_parseEther (ht : EtherText file hosts) (e : Bytes × Bytes) :
    e ∈ parseEther file ↔ ∃ h ∈ hosts, e = (h.mac, h.ip ++ 32 :: h.name) := by
  have hread := @EtherText.mem_filterMap file hosts _ getInfoLine (fun h => (h.mac, h.ip ++ 32 :: h.name))
    (fun _ => getInfoLine_comment) (fun _ => getInfoLine_host) ht
  have hmem : ∀ x : Bytes × Bytes, (x ∈ ([] : List (Bytes × Bytes)) ∨
      ∃ e ∈ (perlLines file).filterMap getInfoLine, x = id e) ↔
        ∃ h ∈ hosts, x = (h.mac, h.ip ++ 32 :: h.name) := by
    intro x
    rw [← hread x]
    simp
  have hinj : ∀ x y : Bytes × Bytes, (∃ h ∈ hosts, x = (h.mac, h.ip ++ 32 :: h.name)) →
      (∃ h ∈ hosts, y = (h.mac, h.ip ++ 32 :: h.name)) → x.1 = y.1 → x = y := by
    rintro _ _ ⟨h, hh, rfl⟩ ⟨h', hh', rfl⟩ hk
    rw [ht.inj h hh h' hh' hk]
  have hhash := mem_hash Prod.fst id ((perlLines file).filterMap getInfoLine) []
    (fun x y hx hy => hinj x y ((hmem x).mp hx) ((hmem y).mp hy)) e
  exact hhash.trans (hmem e)

/-! ## What is written -/

theorem isComment_nil : IsComment [] :=
  ⟨fun _ hb => absurd hb List.not_mem_nil, .inr (.inr fun _ hb => absurd hb List.not_mem_nil)⟩

theorem isComment_ether : IsComment etherComment := ⟨by decide, .inl rfl⟩

/-- `etherSave` writes the hosts it is given. -/
theorem etherText_etherSave (hp : ∀ h ∈ hosts, HostPlain h) (hi : MacInj hosts) :
    EtherText (etherSave hosts) hosts := by
  obtain ⟨hs, hmem, hsave⟩ := etherSave_eq hi
  refine ⟨hp, hi, etherComment :: [] :: hs.map Host.line, hsave, ?_, fun h hh => ?_⟩
  · refine List.forall_mem_cons.mpr ⟨.inl isComment_ether, List.forall_mem_cons.mpr
      ⟨.inl isComment_nil, fun l hl => ?_⟩⟩
    obtain ⟨h, hh, rfl⟩ := List.mem_map.mp hl
    exact .inr ⟨h, (hmem h).mp hh, rfl⟩
  · exact List.mem_cons_of_mem _ (List.mem_cons_of_mem _ (List.mem_map_of_mem ((hmem h).mpr hh)))

/-- The comment of `insert_ether`. -/
def insertComment : Bytes := ascii "#Automatically generated, do not edit"

theorem insertEther_eq (old : List (Bytes × Bytes)) (newline : Bytes) : insertEther old newline =
    (insertComment :: [] :: (old.map (fun e => e.1 ++ 32 :: e.2) ++ [newline])).flatMap (· ++ [10]) := by
  have hstart : ascii "#Automatically generated, do not edit\n\n" = insertComment ++ [10] ++ ([] ++ [10]) :=
    rfl
  unfold insertEther
  rw [hstart, List.flatMap_cons, List.flatMap_cons, List.flatMap_append, List.flatMap_map,
    List.flatMap_singleton]
  simp only [List.append_assoc]

theorem EtherText.congr {hosts' : List Host} (h : ∀ x, x ∈ hosts' ↔ x ∈ hosts)
    (ht : EtherText file hosts) : EtherText file hosts' := by
  obtain ⟨hp, hi, ls, hfile, hls, hmem⟩ := ht
  refine ⟨fun x hx => hp x ((h x).mp hx), fun x hx y hy => hi x ((h x).mp hx) y ((h y).mp hy), ls, hfile,
    fun l hl => (hls l hl).imp_right ?_, fun x hx => hmem x ((h x).mp hx)⟩
  rintro ⟨x, hx, rfl⟩
  exact ⟨x, (h x).mpr hx, rfl⟩

theorem macInj_cons {h : Host} (hi : MacInj hosts) (hnew : ∀ x ∈ hosts, x.mac ≠ h.mac) :
    MacInj (h :: hosts) := by
  intro x hx y hy hm
  obtain hx | hx := List.mem_cons.mp hx <;> obtain hy | hy := List.mem_cons.mp hy
  · rw [hx, hy]
  · exact absurd (hx ▸ hm.symm) (hnew y hy)
  · exact absurd (hy ▸ hm) (hnew x hx)
  · exact hi x hx y hy hm

/-- **Adding**: the file that is written has the new host and those that were read. -/
theorem newText_add (ht : EtherText file hosts) {job : Job} {h : Host} (hj : job.host = some h)
    (hf : HostPlain h) {o : JobOutcome} {text : Bytes} (hnew : job.newText o file = some text) :
    EtherText text (h :: hosts) := by
  have hplain : ∀ x ∈ h :: hosts, HostPlain x := List.forall_mem_cons.mpr ⟨hf, ht.plain⟩
  cases job with
  | checkAddHost mac ip hostname =>
    obtain rfl := Option.some.inj hj
    simp only [Job.newText] at hnew
    split_ifs at hnew with hc
    obtain rfl := Option.some.inj hnew
    rw [not_or, not_or] at hc
    have hkeys : ∀ e, e ∈ o.keys (parseEther file) ↔ ∃ h ∈ hosts, e = (h.mac, h.ip ++ 32 :: h.name) :=
      fun e => (o.keys_perm _).mem_iff.trans (ht.mem_parseEther e)
    have hmac : ∀ x ∈ hosts, x.mac ≠ mac := fun x hx he => hc.2.1
      (List.any_eq_true.mpr ⟨_, (ht.mem_parseEther _).mpr ⟨x, hx, rfl⟩, beq_iff_eq.mpr he⟩)
    refine ⟨hplain, macInj_cons ht.inj hmac, _, insertEther_eq .., ?_, ?_⟩
    · refine List.forall_mem_cons.mpr ⟨.inl ⟨by decide, .inl rfl⟩, List.forall_mem_cons.mpr
        ⟨.inl isComment_nil, fun l hl => .inr ?_⟩⟩
      obtain hl | hl := List.mem_append.mp hl
      · obtain ⟨e, he, rfl⟩ := List.mem_map.mp hl
        obtain ⟨x, hx, rfl⟩ := (hkeys e).mp he
        exact ⟨x, List.mem_cons_of_mem _ hx, rfl⟩
      · exact ⟨_, List.mem_cons_self, List.mem_singleton.mp hl⟩
    · refine List.forall_mem_cons.mpr ⟨?_, fun x hx => ?_⟩
      · exact List.mem_cons_of_mem _ (List.mem_cons_of_mem _ (List.mem_append_right _
          (List.mem_singleton.mpr rfl)))
      · exact List.mem_cons_of_mem _ (List.mem_cons_of_mem _ (List.mem_append_left _
          (List.mem_map.mpr ⟨_, (hkeys _).mpr ⟨x, hx, rfl⟩, rfl⟩)))
  | createEntry mac ip name =>
    obtain rfl := Option.some.inj hj
    simp only [Job.newText] at hnew
    split_ifs at hnew
    obtain ⟨new, hadd, rfl⟩ := Option.map_eq_some_iff.mp hnew
    unfold etherAdd at hadd
    split_ifs at hadd with hn hm
    obtain rfl := Option.some.inj hadd
    have hmac : ∀ x ∈ hosts, x.mac ≠ mac := fun x hx he =>
      hm (List.any_eq_true.mpr ⟨x, (ht.mem_einfoHosts x).mpr hx, beq_iff_eq.mpr he⟩)
    have hmem : ∀ x, x ∈ einfoHosts (etherLoad file) ++ [⟨mac, ip, name⟩] ↔
        x ∈ (⟨mac, ip, name⟩ : Host) :: hosts := by
      intro x
      rw [List.mem_append, List.mem_singleton, List.mem_cons, ht.mem_einfoHosts, or_comm]
    have hinj := macInj_cons (h := ⟨mac, ip, name⟩) ht.inj hmac
    refine EtherText.congr (fun x => (hmem x).symm) (etherText_etherSave (fun x hx => ?_) ?_)
    · exact hplain x ((hmem x).mp hx)
    · exact fun x hx y hy => hinj x ((hmem x).mp hx) y ((hmem y).mp hy)
  | deleteEntry mac => cases hj

/-- **Deleting**: it has those that were read, without the one. -/
theorem newText_delete (ht : EtherText file hosts) {mac : Bytes} {o : JobOutcome} {text : Bytes}
    (hnew : (Job.deleteEntry mac).newText o file = some text) :
    EtherText text (hosts.filter fun h => h.mac ≠ mac) := by
  simp only [Job.newText] at hnew
  split_ifs at hnew
  obtain rfl := Option.some.inj hnew
  have hmem : ∀ x, x ∈ (einfoHosts (etherLoad file)).filter (fun h => h.mac ≠ mac) ↔
      x ∈ hosts.filter fun h => h.mac ≠ mac := by
    intro x
    rw [List.mem_filter, List.mem_filter, ht.mem_einfoHosts]
  have hsub : ∀ x ∈ (einfoHosts (etherLoad file)).filter (fun h => h.mac ≠ mac), x ∈ hosts := fun x hx =>
    (List.mem_filter.mp ((hmem x).mp hx)).1
  refine EtherText.congr (fun x => (hmem x).symm) (etherText_etherSave (fun x hx => ?_) ?_)
  · exact ht.plain x (hsub x hx)
  · exact fun x hx y hy => ht.inj x (hsub x hx) y (hsub y hy)

/-! ## Runs -/

section Runs

variable {ι : Type*} [DecidableEq ι] (jobs : ι → Job)

/-- The file and the processes. -/
abbrev Registry (ι : Type*) := World ι Bytes Stage

/-- A process that has not read the file yet, or is done. -/
def Stage.Idle : Stage → Prop
  | .start | .finished _ => True
  | .loaded _ | .opened _ => False

instance : DecidablePred Stage.Idle
  | .start | .finished _ => .isTrue trivial
  | .loaded _ | .opened _ => .isFalse id

/-- The others are idle, and a host is not deleted from a file that cannot be opened. -/
def Alone (w : Registry ι) (e : ι × JobOutcome) : Prop :=
  (∀ j, j ≠ e.1 → (w.procs j).Idle) ∧
  ∀ mac text, jobs e.1 = .deleteEntry mac → w.procs e.1 = .loaded text → e.2.opens = true

/-- Before any process has started. -/
def Registry.start (file : Bytes) : Registry ι := ⟨file, fun _ => .start⟩

def Registry.run (w : Registry ι) (es : List (ι × JobOutcome)) : Registry ι :=
  World.run (fun i => (jobs i).access) w es

/-- What the processes that were successful have made of the hosts. -/
structure Ledger (old : List Host) (procs : ι → Stage) (hosts : List Host) : Prop where
  kept : ∀ h ∈ old, (∀ i, jobs i = .deleteEntry h.mac → procs i ≠ .finished true) → h ∈ hosts
  added : ∀ i h, (jobs i).host = some h → procs i = .finished true → h ∈ hosts
  deleted : ∀ i mac, jobs i = .deleteEntry mac → procs i = .finished true → ∀ h ∈ hosts, h.mac ≠ mac

/-- The file that a process is going to write. -/
def Becomes (job : Job) (hosts : List Host) (text : Bytes) : Prop :=
  ∃ hosts', EtherText text hosts' ∧
    (∀ h, job.host = some h → ∀ x, x ∈ hosts' ↔ x = h ∨ x ∈ hosts) ∧
    ∀ mac, job = .deleteEntry mac → ∀ x, x ∈ hosts' ↔ x ∈ hosts ∧ x.mac ≠ mac

/-- The file of a process that is being run is the one it has read, or an empty one. -/
def Serial (old : List Host) (w : Registry ι) : Prop :=
  ∃ hosts, Ledger jobs old w.procs hosts ∧
    (∀ i text, w.procs i = .loaded text → EtherText w.shared hosts ∧ Becomes (jobs i) hosts text) ∧
    (∀ i text, w.procs i = .opened text → w.shared = [] ∧ Becomes (jobs i) hosts text) ∧
    ((∀ i, (w.procs i).Idle) → EtherText w.shared hosts)

variable {jobs}

theorem Job.mac_of_host {job : Job} {h : Host} (hj : job.host = some h) : h.mac = job.mac := by
  cases job with
  | checkAddHost mac ip hostname => exact Option.some.inj hj ▸ rfl
  | createEntry mac ip name => exact Option.some.inj hj ▸ rfl
  | deleteEntry mac => cases hj

theorem becomes_newText {job : Job} (hf : ∀ h, job.host = some h → HostPlain h)
    (ht : EtherText file hosts) {o : JobOutcome} {text : Bytes} (h : job.newText o file = some text) :
    Becomes job hosts text := by
  have hadd : ∀ x, job.host = some x → Becomes job hosts text := by
    intro x hx
    refine ⟨x :: hosts, newText_add ht hx (hf x hx) h, fun y hy z => ?_, fun mac hmac => ?_⟩
    · rw [List.mem_cons, Option.some.inj (hx.symm.trans hy)]
    · subst hmac
      cases hx
  cases job with
  | checkAddHost mac ip hostname => exact hadd _ rfl
  | createEntry mac ip name => exact hadd _ rfl
  | deleteEntry mac =>
    refine ⟨_, newText_delete ht h, fun y hy => (by cases hy), fun m hm x => ?_⟩
    obtain rfl := Job.deleteEntry.inj hm
    rw [List.mem_filter, decide_eq_true_iff]

variable {old : List Host} {procs : ι → Stage} {i : ι}

/-- A step without success changes nothing. -/
theorem Ledger.update (hl : Ledger jobs old procs hosts) {s : Stage} (hs : s ≠ .finished true)
    (hi : procs i ≠ .finished true) : Ledger jobs old (Function.update procs i s) hosts := by
  have hsame : ∀ j, Function.update procs i s j = .finished true ↔ procs j = .finished true := by
    intro j
    by_cases hj : j = i
    · subst hj
      rw [Function.update_self]
      exact ⟨fun h => absurd h hs, fun h => absurd h hi⟩
    · rw [Function.update_of_ne hj]
  refine ⟨fun h hh hno => hl.kept h hh fun j hj hf => hno j hj ((hsame j).mpr hf), fun j h hh hf => ?_,
    fun j mac hj hf => ?_⟩
  · exact hl.added j h hh ((hsame j).mp hf)
  · exact hl.deleted j mac hj ((hsame j).mp hf)

/-- **The step that writes**: what the others did is still there. -/
theorem Ledger.write (hinj : Function.Injective fun i => (jobs i).mac) (hl : Ledger jobs old procs hosts)
    {hosts' : List Host} (hadd : ∀ h, (jobs i).host = some h → ∀ x, x ∈ hosts' ↔ x = h ∨ x ∈ hosts)
    (hdel : ∀ mac, jobs i = .deleteEntry mac → ∀ x, x ∈ hosts' ↔ x ∈ hosts ∧ x.mac ≠ mac) {ok : Bool}
    (hok : ∀ mac, jobs i = .deleteEntry mac → ok = true) :
    Ledger jobs old (Function.update procs i (.finished ok)) hosts' := by
  have hother : ∀ j, j ≠ i → Function.update procs i (.finished ok) j = procs j := fun j hj =>
    Function.update_of_ne hj ..
  have hmac : ∀ j, j ≠ i → (jobs j).mac ≠ (jobs i).mac := fun j hj hm => hj (hinj hm)
  cases hh : (jobs i).host with
  | some h =>
    have hmem := hadd h hh
    have hne : ∀ j mac, jobs j = .deleteEntry mac → j ≠ i := by
      rintro j mac hj rfl
      rw [hj] at hh
      cases hh
    refine ⟨fun x hx hno => (hmem x).mpr (.inr (hl.kept x hx fun j hj hf => hno j hj ?_)),
      fun j x hx hf => ?_, fun j mac hj hf x hx => ?_⟩
    · rw [hother j (hne j _ hj)]
      exact hf
    · by_cases hji : j = i
      · subst hji
        exact (hmem x).mpr (.inl (Option.some.inj (hx.symm.trans hh)))
      · rw [hother j hji] at hf
        exact (hmem x).mpr (.inr (hl.added j x hx hf))
    · rw [hother j (hne j mac hj)] at hf
      obtain rfl | hx := (hmem x).mp hx
      · have := hmac j (hne j mac hj)
        rw [hj, ← Job.mac_of_host hh] at this
        exact this.symm
      · exact hl.deleted j mac hj hf x hx
  | none =>
    obtain ⟨mac, hj⟩ : ∃ mac, jobs i = .deleteEntry mac := by
      cases hjob : jobs i with
      | deleteEntry mac => exact ⟨mac, rfl⟩
      | checkAddHost mac ip hostname => rw [hjob] at hh; cases hh
      | createEntry mac ip name => rw [hjob] at hh; cases hh
    have hmem := hdel mac hj
    have hdone : Function.update procs i (.finished ok) i = .finished true := by
      rw [Function.update_self, hok mac hj]
    refine ⟨fun x hx hno => (hmem x).mpr ⟨hl.kept x hx fun j hjob hf => ?_, fun hm => ?_⟩,
      fun j x hx hf => ?_, fun j m hjob hf x hx => ?_⟩
    · by_cases hji : j = i
      · subst hji
        exact hno j hjob hdone
      · exact hno j hjob (by rw [hother j hji]; exact hf)
    · exact hno i (hm ▸ hj) hdone
    · have hji : j ≠ i := by
        rintro rfl
        rw [hx] at hh
        cases hh
      rw [hother j hji] at hf
      refine (hmem x).mpr ⟨hl.added j x hx hf, fun hm => hmac j hji ?_⟩
      rw [hj, ← Job.mac_of_host hx]
      exact hm
    · by_cases hji : j = i
      · subst hji
        rw [hj] at hjob
        exact Job.deleteEntry.inj hjob ▸ ((hmem x).mp hx).2
      · rw [hother j hji] at hf
        exact hl.deleted j m hjob hf x ((hmem x).mp hx).1

omit [DecidableEq ι] in
/-- The world when all but one process are idle. -/
theorem inOrder_of_one {w : Registry ι} (hidle : ∀ j, j ≠ i → (w.procs j).Idle)
    (hl : Ledger jobs old w.procs hosts)
    (hone : (∃ text, w.procs i = .loaded text ∧ EtherText w.shared hosts ∧ Becomes (jobs i) hosts text) ∨
      (∃ text, w.procs i = .opened text ∧ w.shared = [] ∧ Becomes (jobs i) hosts text) ∨
      ((w.procs i).Idle ∧ EtherText w.shared hosts)) : Serial jobs old w := by
  have heq : ∀ j, ¬(w.procs j).Idle → j = i := fun j hj => not_not.mp fun hji => hj (hidle j hji)
  refine ⟨hosts, hl, fun j text hj => ?_, fun j text hj => ?_, fun hall => ?_⟩
  · obtain rfl := heq j (by rw [hj]; exact id)
    obtain ⟨t, ht, hrest⟩ | ⟨t, ht, -⟩ | ⟨ht, -⟩ := hone
    · obtain rfl := Stage.loaded.inj (hj.symm.trans ht)
      exact hrest
    · rw [hj] at ht
      cases ht
    · rw [hj] at ht
      exact ht.elim
  · obtain rfl := heq j (by rw [hj]; exact id)
    obtain ⟨t, ht, -⟩ | ⟨t, ht, hrest⟩ | ⟨ht, -⟩ := hone
    · rw [hj] at ht
      cases ht
    · obtain rfl := Stage.opened.inj (hj.symm.trans ht)
      exact hrest
    · rw [hj] at ht
      exact ht.elim
  · obtain ⟨t, ht, -⟩ | ⟨t, ht, -⟩ | ⟨-, ht⟩ := hone
    · exact absurd (hall i) (by rw [ht]; exact id)
    · exact absurd (hall i) (by rw [ht]; exact id)
    · exact ht

/-- **One access** to the file. -/
theorem Serial.step (hinj : Function.Injective fun i => (jobs i).mac)
    (hf : ∀ i h, (jobs i).host = some h → HostPlain h) {w : Registry ι} {e : ι × JobOutcome}
    (ha : Alone jobs w e) (hw : Serial jobs old w) :
    Serial jobs old (w.step (fun i => (jobs i).access) e) := by
  obtain ⟨i, o⟩ := e
  obtain ⟨hothers, hopens⟩ := ha
  obtain ⟨hosts, hl, hloaded, hopened, hidle⟩ := hw
  have hothers' : ∀ s j, j ≠ i → (Function.update w.procs i s j).Idle := by
    intro s j hj
    rw [Function.update_of_ne hj]
    exact hothers j hj
  have hself : ∀ s, Function.update w.procs i s i = s := fun s => Function.update_self ..
  have hfinished : ∀ ok, (Function.update w.procs i (.finished ok) i).Idle := by
    intro ok
    rw [hself]
    trivial
  cases hp : w.procs i with
  | start =>
    have hne : w.procs i ≠ .finished true := by rw [hp]; exact Stage.noConfusion
    have ht : EtherText w.shared hosts := by
      refine hidle fun j => ?_
      by_cases hj : j = i
      · rw [hj, hp]
        trivial
      · exact hothers j hj
    cases hnew : (jobs i).newText o w.shared with
    | none =>
      have hacc : (jobs i).access o (w.shared, w.procs i) = (w.shared, .finished false) := by
        rw [hp, Job.access, hnew]
      rw [World.step_eq hacc]
      exact inOrder_of_one (hothers' _) (hl.update (by decide) hne) (.inr (.inr ⟨hfinished _, ht⟩))
    | some text =>
      have hacc : (jobs i).access o (w.shared, w.procs i) = (w.shared, .loaded text) := by
        rw [hp, Job.access, hnew]
      rw [World.step_eq hacc]
      exact inOrder_of_one (hothers' _) (hl.update Stage.noConfusion hne)
        (.inl ⟨text, hself _, ht, becomes_newText (hf i) ht hnew⟩)
  | loaded text =>
    have hne : w.procs i ≠ .finished true := by rw [hp]; exact Stage.noConfusion
    obtain ⟨ht, hb⟩ := hloaded i text hp
    by_cases ho : o.opens = true
    · have hacc : (jobs i).access o (w.shared, w.procs i) = ([], .opened text) := by
        rw [hp, Job.access, if_pos ho]
      rw [World.step_eq hacc]
      exact inOrder_of_one (hothers' _) (hl.update Stage.noConfusion hne)
        (.inr (.inl ⟨text, hself _, rfl, hb⟩))
    · have hno : (jobs i).notOpened = false := by
        cases hjob : jobs i with
        | deleteEntry mac => exact absurd (hopens mac text hjob hp) ho
        | checkAddHost mac ip hostname => rfl
        | createEntry mac ip name => rfl
      have hacc : (jobs i).access o (w.shared, w.procs i) = (w.shared, .finished false) := by
        rw [hp, Job.access, if_neg ho, hno]
      rw [World.step_eq hacc]
      exact inOrder_of_one (hothers' _) (hl.update (by decide) hne) (.inr (.inr ⟨hfinished _, ht⟩))
  | opened text =>
    obtain ⟨hnil, hosts', ht', hadd, hdel⟩ := hopened i text hp
    have hacc : (jobs i).access o (w.shared, w.procs i) = (text, .finished ((jobs i).written o)) := by
      rw [hp, Job.access, hnil, List.drop_nil, List.append_nil]
    rw [World.step_eq hacc]
    exact inOrder_of_one (hothers' _) (hl.write hinj hadd hdel fun mac hj => by rw [hj]; rfl)
      (.inr (.inr ⟨hfinished _, ht'⟩))
  | finished ok =>
    have hacc : (jobs i).access o (w.shared, w.procs i) = (w.shared, w.procs i) := by
      rw [hp, Job.access]
    rw [World.step_eq_self hacc]
    exact ⟨hosts, hl, hloaded, hopened, hidle⟩

variable (jobs) in
/-- Every host that was there or was added, and that was not deleted, is in the file; one that was
deleted is not. -/
structure HostsKept (old : List Host) (w : Registry ι) : Prop where
  kept : ∀ h ∈ old, (∀ i, jobs i = .deleteEntry h.mac → w.procs i ≠ .finished true) →
    (h.mac, some h.ip, some h.name) ∈ etherLoad w.shared
  added : ∀ i h, (jobs i).host = some h → w.procs i = .finished true →
    (h.mac, some h.ip, some h.name) ∈ etherLoad w.shared
  deleted : ∀ i mac, jobs i = .deleteEntry mac → w.procs i = .finished true →
    ∀ e ∈ etherLoad w.shared, e.1 ≠ mac

/-- **No host is lost** when the processes read and write the file one after the other. -/
theorem hosts_kept (hinj : Function.Injective fun i => (jobs i).mac)
    (hf : ∀ i h, (jobs i).host = some h → HostPlain h) {file : Bytes} {old : List Host}
    (ht : EtherText file old) {es : List (ι × JobOutcome)}
    (halone : World.Along (fun i => (jobs i).access) (Alone jobs) (Registry.start file) es)
    (hidle : ∀ i, (((Registry.start file).run jobs es).procs i).Idle) :
    HostsKept jobs old ((Registry.start file).run jobs es) := by
  have h0 : Serial jobs old (Registry.start file) := by
    refine ⟨old, ⟨fun h hh _ => hh, fun i h _ hf => (by cases hf), fun i mac _ hf => (by cases hf)⟩,
      fun i text h => (by cases h), fun i text h => (by cases h), fun _ => ht⟩
  obtain ⟨hosts, hl, -, -, hend⟩ := World.run_induction (fun w e => Serial.step hinj hf) h0 halone
  have hload := (hend hidle).mem_etherLoad
  refine ⟨fun h hh hno => (hload _).mpr ⟨h, hl.kept h hh hno, rfl⟩,
    fun i h hj hd => (hload _).mpr ⟨h, hl.added i h hj hd, rfl⟩, fun i mac hj hd e he => ?_⟩
  obtain ⟨h, hh, rfl⟩ := (hload e).mp he
  exact hl.deleted i mac hj hd h hh

end Runs

/-- Everything succeeds. -/
def calmOutcome : JobOutcome := ⟨true, true, true, id, fun _ => .refl _⟩

/-- Two hosts are added. -/
def twoJobs (first : Bool) : Job :=
  if first then .checkAddHost (ascii "0A") (ascii "10.0.0.1") (ascii "lab1")
  else .createEntry (ascii "0B") (ascii "10.0.0.2") (ascii "lab2")

theorem twoJobs_inj : Function.Injective fun i => (twoJobs i).mac := by decide

theorem twoJobs_plain : ∀ i h, (twoJobs i).host = some h → HostPlain h := by
  intro i h hh
  cases i <;> obtain rfl := Option.some.inj hh <;> exact ⟨by decide, rfl, by decide, by decide⟩

/-- One after the other. -/
def serialRun : List (Bool × JobOutcome) :=
  [true, true, true, false, false, false].map fun i => (i, calmOutcome)

/-- Both read the file before one of them writes it. -/
def crossedRun : List (Bool × JobOutcome) :=
  [true, false, true, true, false, false].map fun i => (i, calmOutcome)

theorem alone_twoJobs {w : Registry Bool} {e : Bool × JobOutcome} (h : ∀ j, j ≠ e.1 → (w.procs j).Idle) :
    Alone twoJobs w e := by
  refine ⟨h, fun mac text hj => ?_⟩
  obtain ⟨i, o⟩ := e
  cases i <;> cases hj

theorem etherText_nil : EtherText [] [] :=
  ⟨fun _ hh => absurd hh List.not_mem_nil, fun _ hh => absurd hh List.not_mem_nil, [], rfl,
    fun _ hl => absurd hl List.not_mem_nil, fun _ hh => absurd hh List.not_mem_nil⟩

theorem hosts_kept_serialRun :
    HostsKept twoJobs [] ((Registry.start []).run twoJobs serialRun) := by
  refine hosts_kept twoJobs_inj twoJobs_plain etherText_nil ?_ (by decide +kernel)
  exact ⟨alone_twoJobs (by decide +kernel), alone_twoJobs (by decide +kernel),
    alone_twoJobs (by decide +kernel), alone_twoJobs (by decide +kernel),
    alone_twoJobs (by decide +kernel), alone_twoJobs (by decide +kernel), trivial⟩

/-- The host that was written first is lost. -/
theorem hosts_lost : Function.Injective (fun i => (twoJobs i).mac) ∧ EtherText [] [] ∧
    (∀ i, ((Registry.start []).run twoJobs crossedRun).procs i = .finished true) ∧
    ¬HostsKept twoJobs [] ((Registry.start []).run twoJobs crossedRun) := by
  refine ⟨twoJobs_inj, etherText_nil, by decide +kernel, fun h => ?_⟩
  have hlost : (ascii "0A", some (ascii "10.0.0.1"), some (ascii "lab1")) ∉
      etherLoad ((Registry.start []).run twoJobs crossedRun).shared := by decide +kernel
  exact hlost (h.added true ⟨ascii "0A", ascii "10.0.0.1", ascii "lab1"⟩ rfl (by decide +kernel))

end LinboxRescue
