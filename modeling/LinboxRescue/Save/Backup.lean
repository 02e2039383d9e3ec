import LinboxRescue.Lib.Copying
import LinboxRescue.Save.Conf
import LinboxRescue.Save.TabsRestore

/-!
# Saving a machine and restoring it

`autosave` and `autorestore` as a whole. `backup` is a run of `save`: it appends sectors to the files
`...TABS`, runs a program `image_...` for every device it copies, and writes `conf.txt`.
`autorestore` carries out what `restoreimage` makes of `conf.txt`: it opens the disk a line asks for
and writes the file or the image to it.

The programs that copy FAT, NTFS and UFS are not there as sources. `Tools.foreign` stands for them, and
`ImageMade` is what they are relied on for.

1. `tool_made`: the other programs make what `ImageMade` asks for.
2. `saveTabs_good`: the files `...TABS` hold sectors of the disk they are named after.
3. `images_made`: an image is not touched by the others.
-/

namespace LinboxRescue

/-! ## Disks and programs -/

/-- The disks and volumes of a machine: the numbers of their sectors and what is on them. -/
structure Disks where
  size : Dest → ℕ
  cells : Dest → ℕ → Sector

/-- The sectors of a disk. -/
def Disks.sectors (d : Disks) (dest : Dest) : List Sector :=
  (List.range (d.size dest)).map (d.cells dest)

theorem Disks.length_sectors (d : Disks) (dest : Dest) : (d.sectors dest).length = d.size dest := by
  rw [Disks.sectors, List.length_map, List.length_range]

theorem Disks.getElem?_sectors (d : Disks) {dest : Dest} {q : ℕ} (h : q < d.size dest) :
    (d.sectors dest)[q]? = some (d.cells dest q) := by
  rw [Disks.sectors, List.getElem?_map, List.getElem?_range h, Option.map_some]

/-- A disk, opened for writing. -/
def Disks.open (d : Disks) (dest : Dest) : Target := diskTarget (d.size dest) (d.cells dest) 0

/-- What is on a disk after it was written to. -/
def Disks.put (d : Disks) (dest : Dest) (t : Target) : Disks :=
  { d with cells := Function.update d.cells dest t.cells }

@[simp] theorem Disks.put_size (d : Disks) (dest : Dest) (t : Target) : (d.put dest t).size = d.size :=
  rfl

/-- The programs `image_...` whose sources are there. -/
def Tool.imager : Tool → Option Imager
  | .swap => some .swap
  | .e2fs => some .e2fs
  | .xfs => some .xfs
  | .jfs => some .jfs
  | .lvmreiserfs => some .lvmreiserfs
  | .lvm => some .lvm
  | .raw => some .raw
  | .fat | .ntfs | .ufs => none

/-- What the programs find: the sectors of the devices, the parameters they compute for
`compress_volume`, what is in its array, and what the programs without sources do. -/
structure Tools where
  data : Bytes → List Sector
  params : Image → Params
  buffer : Image → Bytes
  foreign : Image → Dir → Dir

/-- A command `image_<tool> <device> <file>`. -/
def Tools.run (z : Zlib) (W : Tools) (fuel : ℕ) (dir : Dir) (im : Image) : Except Halt Dir :=
  match im.tool.imager with
  | some imager =>
    (compressVolume z fuel im.file none imager (W.params im)
      (openSource (W.data im.device) fun _ => false) (W.buffer im) dir).map (·.dir)
  | none => .ok (W.foreign im dir)

/-! ## The two programs -/

/-- A call of `save_raw` opens its file for appending. -/
def appendRaw (dir : Dir) (e : Bytes × List RawRecord) : Dir :=
  Function.update dir e.1 (some ((dir e.1).getD [] ++ tabsFile e.2))

/-- `autosave`, in an empty directory: the files and the text of `conf.txt`. -/
def backup (z : Zlib) (E : Machine) (V : RawDisks) (W : Tools) (hostname date majorn : Bytes)
    (sizes : ℕ × ℕ → Option ℕ) (fuel : ℕ) : Except Halt (Dir × Bytes) :=
  saveTabs E V fuel 0 ⟨E.init majorn sizes, V.stdin, []⟩ E.parts >>= fun t =>
    t.st.images.foldlM (W.run z fuel) (t.log.foldl appendRaw Dir.empty) >>= fun dir =>
      .ok (dir, confText (saveimage hostname date t.st))

/-- One of the things that `restoreimage` does; `mem` and `buffer` are what the arrays hold. Only
`restore_raw` and `restore` write to the disks, apart from the program `ntblfix`. -/
def Action.run (z : Zlib) (ntblfix : ℕ → Disks → Disks) (dir : Dir) (mem : Memory) (buffer : Bytes)
    (fuel : ℕ) (d : Disks) : Action → Except Halt Disks
  | .restoreRaw d1 file =>
    match dir file with
    | none => .error .noInputFile
    | some content =>
      (LinboxRescue.restoreRaw fuel content buffer (d.open (.hd d1))).map (d.put (.hd d1))
  | .restore dest sect file =>
    (LinboxRescue.restore z.inflate fuel dir.fetch mem (d.open dest) sect file).map fun r =>
      d.put dest r.2.fo
  | .ntblfix d1 => .ok (ntblfix d1 d)
  | .vgscan | .setdefault _ | .exit => .ok d

/-- `autorestore`, with the files `b.1` and the text `b.2` of `conf.txt`. -/
def autorestore (z : Zlib) (ntblfix : ℕ → Disks → Disks) (revontblfix nolrs : Bool) (garbage : Bytes)
    (mem : ℕ → Memory) (buffer : ℕ → Bytes) (b : Dir × Bytes) (d : Disks) (fuel : ℕ) :
    Except Halt Disks :=
  runFrom (fun k d a => a.run z ntblfix b.1 (mem k) (buffer k) fuel d) 0 d
    (restoreimage revontblfix nolrs garbage b.2)

/-! ## Names -/

theorem getLast?_chunkName (f : Bytes) (j : ℕ) :
    ∃ b, (chunkName f j).getLast? = some b ∧ isDigit b = true := by
  have hne : pad3 j ≠ [] := List.ne_nil_of_length_pos (by have := three_le_length_pad3 j; omega)
  refine ⟨(pad3 j).getLast hne, ?_, isDigit_of_mem_pad3 _ (List.getLast_mem hne)⟩
  rw [chunkName, List.getLast?_append_of_ne_nil _ hne, List.getLast?_eq_some_getLast hne]

/-- A name that does not end with a digit is not that of a chunk. -/
theorem ne_chunkName {g : Bytes} {b : UInt8} (hg : g.getLast? = some b) (hb : isDigit b = false)
    (f : Bytes) (j : ℕ) : g ≠ chunkName f j := by
  rintro rfl
  obtain ⟨c, hc, hdigit⟩ := getLast?_chunkName f j
  rw [hg] at hc
  rw [← Option.some.inj hc, hb] at hdigit
  cases hdigit

theorem getLast?_tabsName (dnum : ℤ) : (tabsName dnum).getLast? = some 83 :=
  List.getLast?_append_of_ne_nil _ (List.cons_ne_nil _ _)

theorem getLast?_idx (f : Bytes) : (f ++ ascii "idx").getLast? = some 120 :=
  List.getLast?_append_of_ne_nil _ (List.cons_ne_nil _ _)

theorem tabsName_ne_chunkName (dnum : ℤ) (f : Bytes) (j : ℕ) : tabsName dnum ≠ chunkName f j :=
  ne_chunkName (getLast?_tabsName dnum) (by decide) f j

theorem idx_ne_chunkName (g f : Bytes) (j : ℕ) : g ++ ascii "idx" ≠ chunkName f j :=
  ne_chunkName (getLast?_idx g) (by decide) f j

theorem tabsName_ne_idx (dnum : ℤ) (f : Bytes) : tabsName dnum ≠ f ++ ascii "idx" := by
  intro h
  have := congrArg List.getLast? h
  rw [getLast?_tabsName, getLast?_idx] at this
  exact absurd this (by decide)

/-- The numbers that are in force during a run: none yet, that of a disk, or that of a volume. -/
def IsDnum (dnum : ℤ) : Prop := dnum = 127 ∨ (128 ≤ dnum ∧ dnum < 176) ∨ 0xFFF ≤ dnum

/-- Different disks have different files. -/
theorem tabsName_inj {dnum : ℤ} (hd : IsDnum dnum) {n : ℕ} (hn : n < 48)
    (h : tabsName dnum = tabsName (n + 128)) : dnum = n + 128 := by
  have hpre : dnum2pre dnum = dnum2pre (n + 128) := List.append_cancel_right h
  have hshort : (dnum2pre (n + 128)).length ≤ 1 := by
    rw [dnum2pre_letter (by omega)]
    split_ifs <;> simp
  rcases lt_or_ge dnum 0xFFF with hlt | hge
  · have hword : dnum2pre (n + 128) ≠ [] := by
      intro hnil
      have hletter := toNat_letter (n + 128)
      rw [dnum2pre_letter (by omega)] at hnil
      split_ifs at hnil with h0
      rw [h0] at hletter
      change (0 : ℤ) = _ at hletter
      omega
    rw [dnum2pre_letter hlt, dnum2pre_letter (by omega)] at hpre
    rw [dnum2pre_letter (by omega)] at hword
    split_ifs at hpre hword with h0 h1
    · exact absurd hpre.symm hword
    · have := letter_eq_iff.mp (List.cons.inj hpre).1
      unfold IsDnum at hd
      omega
  · rw [← hpre, dnum2pre_lvm hge] at hshort
    simp [ascii, hex2] at hshort

/-! ## What a turn does to the disk number -/

/-- The number in `conf.txt` of a device taken for a whole disk. -/
def Machine.diskNumber (E : Machine) (st : SaveState) (p : Part) : ℤ :=
  (gethdbios E.hdmap.isSome st.bios (E.size p.path)).1 - 128

theorem dnum_step (E : Machine) (st : SaveState) (p : Part) : (st.step E p).dnum =
    match E.fate st p with
    | .disk _ => E.diskNumber st p + 128
    | _ => st.numberFor p := by
  rw [step_eq]
  cases E.fate st p with
  | skip => rfl
  | disk start => exact (Int.sub_add_cancel _ _).symm
  | copy tmin ttype =>
    dsimp only
    unfold SaveState.copy
    cases E.tool p.path ttype <;> rfl

/-- A device whose sectors are kept is no volume. -/
theorem kept_eq_some {E : Machine} {p : Part} {start : UInt32} (h : E.kept p = some start) :
    p.isdm = false ∧ E.opens p.path = true ∧ E.geo p.path = some start := by
  unfold Machine.kept at h
  split_ifs at h with hk
  simp only [Bool.or_eq_true, Bool.not_eq_eq_eq_not, Bool.not_true, not_or, Bool.not_eq_true,
    Bool.not_eq_false] at hk
  exact ⟨hk.1, hk.2, h⟩

theorem fate_of_kept {E : Machine} {p : Part} {start : UInt32} (h : E.kept p = some start)
    (st : SaveState) (hd : p.dontsave start = true) : E.fate st p = .disk start := by
  obtain ⟨hdm, hopen, hgeo⟩ := kept_eq_some h
  unfold Machine.fate Machine.start
  rw [hdm, hopen, hgeo]
  simp [hd]

/-- What is taken for a whole disk is kept. -/
theorem kept_of_fate {E : Machine} {st : SaveState} {p : Part} {start : UInt32}
    (h : E.fate st p = .disk start) : E.kept p = some start ∧ p.dontsave start = true := by
  unfold Machine.fate at h
  split_ifs at h with hlvm hopen
  cases hs : E.start p with
  | none =>
    rw [hs] at h
    cases h
  | some s =>
    rw [hs] at h
    dsimp only at h
    split_ifs at h with hd
    cases h
    have hdm : p.isdm = false := by
      cases hp : p.isdm with
      | false => rfl
      | true => exact absurd (hd.symm.trans (dontsave_volume hp start)) (by decide)
    refine ⟨?_, hd⟩
    unfold Machine.kept
    rw [hdm, if_neg (by simpa using hopen)]
    rw [Machine.start, hdm] at hs
    exact hs

/-! ## The files `...TABS` -/

section Tabs

variable {E : Machine} {V : RawDisks} {O : Disks}

/-- A device taken for a whole disk is one of the disks of `O`, namely that of its number. -/
def IsDiskOf (E : Machine) (V : RawDisks) (O : Disks) (u : SaveState × Part) : Prop :=
  ∀ start, E.fate u.1 u.2 = .disk start → ∃ n : ℕ, n < 48 ∧ E.diskNumber u.1 u.2 = n ∧
    V.disk u.2.path = diskSource (O.sectors (.hd n)) 0

/-- The descriptor `fmajor` belongs to the disk whose number is in force. -/
structure IsDiskNumber (O : Disks) (st : SaveState) (fmajor : Source) : Prop where
  isDnum : IsDnum st.dnum
  disk : ∀ n : ℕ, n < 48 → st.dnum = n + 128 →
    ∃ off, fmajor = diskSource (O.sectors (.hd n)) off

/-- The records in a file named after a disk are sectors of this disk. -/
def GoodEntry (O : Disks) (e : Bytes × List RawRecord) : Prop :=
  ∀ n : ℕ, n < 48 → e.1 = tabsName (n + 128) → Faithful (O.sectors (.hd n)) e.2

theorem ldmCheck_snd (fd : Source) (buffer : Bytes) :
    (ldmCheck fd buffer).2 = (fd.lseekSet (6 * 512)).read.2 := by
  unfold ldmCheck
  dsimp only
  split_ifs <;> rfl

theorem dnum_step_of_disk {st : SaveState} {p : Part} {start : UInt32}
    (h : E.fate st p = .disk start) : (st.step E p).dnum = E.diskNumber st p + 128 := by
  rw [dnum_step, h]

theorem dnum_step_of_not_disk {st : SaveState} {p : Part} (h : ∀ start, E.fate st p ≠ .disk start) :
    (st.step E p).dnum = st.numberFor p := by
  have hdnum := dnum_step E st p
  cases hf : E.fate st p with
  | disk start => exact absurd hf (h start)
  | skip => rw [hdnum, hf]
  | copy tmin ttype => rw [hdnum, hf]

theorem fmajor_of_not_disk {st : SaveState} {p : Part} (h : ∀ start, E.fate st p ≠ .disk start)
    (k : ℕ) (old : Source) : E.fmajor V k old p = old := by
  unfold Machine.fmajor
  cases hkept : E.kept p with
  | none => rfl
  | some start => exact if_neg fun hd => h start (fate_of_kept hkept st hd)

theorem IsDnum.numberFor {st : SaveState} (h : IsDnum st.dnum) (p : Part) :
    IsDnum (st.numberFor p) := by
  unfold SaveState.numberFor
  split_ifs
  · exact .inr (.inr (by omega))
  · exact h

theorem IsDnum.step {st : SaveState} (h : IsDnum st.dnum) {p : Part}
    (hp : IsDiskOf E V O (st, p)) : IsDnum (st.step E p).dnum := by
  by_cases hf : ∃ start, E.fate st p = .disk start
  · obtain ⟨start, hf⟩ := hf
    obtain ⟨n, hn, hnumber, -⟩ := hp start hf
    rw [dnum_step_of_disk hf, hnumber]
    exact .inr (.inl (by omega))
  · rw [dnum_step_of_not_disk (not_exists.mp hf)]
    exact h.numberFor p

theorem IsDiskNumber.step {st : SaveState} {fmajor : Source} (h : IsDiskNumber O st fmajor) {p : Part}
    (hp : IsDiskOf E V O (st, p)) (k : ℕ) : IsDiskNumber O (st.step E p) (E.fmajor V k fmajor p) := by
  refine ⟨h.isDnum.step hp, fun n hn hnum => ?_⟩
  by_cases hf : ∃ start, E.fate st p = .disk start
  · -- the number and the descriptor change together
    obtain ⟨start, hf⟩ := hf
    obtain ⟨m, hm, hnumber, hdisk⟩ := hp start hf
    rw [dnum_step_of_disk hf, hnumber] at hnum
    obtain rfl : n = m := by omega
    rw [Machine.fmajor, (kept_of_fate hf).1]
    dsimp only
    rw [if_pos (kept_of_fate hf).2, hdisk, ldmCheck_snd]
    exact diskSource_read _ 0 _
  · have hf := not_exists.mp hf
    rw [dnum_step_of_not_disk hf] at hnum
    rw [fmajor_of_not_disk hf]
    unfold SaveState.numberFor at hnum
    split_ifs at hnum
    · omega
    · exact h.disk n hn hnum

/-- The calls of a turn, all for the file of the number in force. -/
theorem calls_good {fuel : ℕ} {cs : List RawCall} : ∀ {t t' : TabsRun},
    cs.foldlM (TabsRun.saveRaw V fuel) t = .ok t' → (∀ c ∈ cs, c.file = tabsName t.st.dnum) →
      IsDiskNumber O t.st t.fmajor → (∀ e ∈ t.log, GoodEntry O e) →
        IsDiskNumber O t'.st t'.fmajor ∧ ∀ e ∈ t'.log, GoodEntry O e := by
  induction cs with
  | nil =>
    intro t t' h _ hinv hgood
    cases h
    exact ⟨hinv, hgood⟩
  | cons c cs ih =>
    intro t t' h hfile hinv hgood
    obtain ⟨hc, hcs⟩ := List.forall_mem_cons.mp hfile
    rw [List.foldlM_cons] at h
    obtain ⟨t₁, ht₁, h⟩ := bind_eq_ok h
    obtain ⟨r, hrun, hr⟩ := bind_eq_ok ht₁
    cases hr
    have hrecords : ∀ n : ℕ, n < 48 → t.st.dnum = n + 128 → Faithful (O.sectors (.hd n)) r.1 ∧
        ∃ off, r.2 = diskSource (O.sectors (.hd n)) off := by
      intro n hn hnum
      obtain ⟨off, hoff⟩ := hinv.disk n hn hnum
      rw [hoff] at hrun
      exact saveRaw_faithful hrun
    refine ih h hcs ⟨hinv.isDnum, fun n hn hnum => (hrecords n hn hnum).2⟩ ?_
    refine List.forall_mem_append.mpr ⟨hgood, List.forall_mem_singleton.mpr fun n hn hname => ?_⟩
    exact (hrecords n hn (tabsName_inj hinv.isDnum hn (by rw [← hc]; exact hname))).1

/-- The file of every call in a turn. -/
theorem file_rawCalls {k : ℕ} {st : SaveState} {p : Part} {c : RawCall}
    (hc : c ∈ E.rawCalls V k st p) : c.file = tabsName (st.step E p).dnum := by
  unfold Machine.rawCalls at hc
  cases hkept : E.kept p with
  | none =>
    rw [hkept] at hc
    exact absurd hc List.not_mem_nil
  | some start =>
    rw [hkept] at hc
    rcases List.mem_append.mp hc with hc | hc
    · obtain ⟨ph, -, rfl⟩ := Option.map_eq_some_iff.mp (Option.mem_toList.mp hc)
      rfl
    · rw [List.mem_singleton.mp hc]
      rfl

/-- **The files hold sectors of the disks they are named after**, and the run is that of `save`. -/
theorem saveTabs_good {fuel : ℕ} {ps : List Part} : ∀ {k : ℕ} {t t' : TabsRun},
    saveTabs E V fuel k t ps = .ok t' → (∀ u ∈ E.turns t.st ps, IsDiskOf E V O u) →
      IsDiskNumber O t.st t.fmajor → (∀ e ∈ t.log, GoodEntry O e) →
        t'.st = ps.foldl (SaveState.step E) t.st ∧ ∀ e ∈ t'.log, GoodEntry O e := by
  induction ps with
  | nil =>
    intro k t t' h _ _ hgood
    cases h
    exact ⟨rfl, hgood⟩
  | cons p ps ih =>
    intro k t t' h hturns hinv hgood
    rw [saveTabs] at h
    obtain ⟨t₁, hcalls, hps⟩ := bind_eq_ok h
    obtain ⟨hp, hturns⟩ := List.forall_mem_cons.mp hturns
    have hst : t₁.st = t.st.step E p := (calls_ok hcalls).2.1
    obtain ⟨hinv₁, hgood₁⟩ := calls_good hcalls (fun c hc => file_rawCalls hc)
      (hinv.step hp k) hgood
    rw [← hst] at hturns
    obtain ⟨hst', hgood'⟩ := ih hps hturns hinv₁ hgood₁
    exact ⟨by rw [hst', hst, List.foldl_cons], hgood'⟩

/-- The records that a log has for a file. -/
def entriesOf (f : Bytes) (log : List (Bytes × List RawRecord)) : List RawRecord :=
  (log.filter (·.1 == f)).flatMap Prod.snd

theorem tabsFile_append (l l' : List RawRecord) : tabsFile (l ++ l') = tabsFile l ++ tabsFile l' :=
  List.flatMap_append

/-- A file is what was appended to it. -/
theorem foldl_appendRaw (f : Bytes) (log : List (Bytes × List RawRecord)) : ∀ dir : Dir,
    log.foldl appendRaw dir f =
      if ∃ e ∈ log, e.1 = f then some ((dir f).getD [] ++ tabsFile (entriesOf f log)) else dir f := by
  induction log with
  | nil => exact fun dir => by simp
  | cons e log ih =>
    intro dir
    rw [List.foldl_cons, ih]
    by_cases hef : e.1 = f
    · have hhead : entriesOf f (e :: log) = e.2 ++ entriesOf f log := by
        rw [entriesOf, List.filter_cons_of_pos (by simpa using hef), List.flatMap_cons]
        rfl
      have hex : ∃ x ∈ e :: log, x.1 = f := ⟨e, List.mem_cons_self, hef⟩
      rw [appendRaw, hef, Function.update_self, if_pos hex, hhead, tabsFile_append,
        ← List.append_assoc]
      split_ifs with hlater
      · rfl
      · have hnone : entriesOf f log = [] := by
          rw [entriesOf, List.filter_eq_nil_iff.mpr, List.flatMap_nil]
          exact fun x hx hxf => hlater ⟨x, hx, by simpa using hxf⟩
        rw [hnone]
        simp [tabsFile]
    · have hhead : entriesOf f (e :: log) = entriesOf f log := by
        rw [entriesOf, List.filter_cons_of_neg (by simpa using hef)]
        rfl
      have hex : (∃ x ∈ e :: log, x.1 = f) ↔ ∃ x ∈ log, x.1 = f := by
        rw [List.exists_mem_cons_iff]
        exact or_iff_right hef
      rw [appendRaw, Function.update_of_ne (Ne.symm hef), hhead]
      simp only [hex]

/-- The numbers of the records in a file, by the calls that were made for it. -/
theorem numbers_entriesOf (f : Bytes) {log : List (Bytes × List RawRecord)} {cs : List RawCall}
    (h : log.map savedSectorsOf = cs.map RawCall.saved) :
    recordNumbers (entriesOf f log) =
      (cs.filter (·.file == f)).flatMap fun c => rawRange c.start c.stop := by
  induction log generalizing cs with
  | nil =>
    obtain rfl : cs = [] := List.map_eq_nil_iff.mp h.symm
    rfl
  | cons e log ih =>
    cases cs with
    | nil => cases h
    | cons c cs =>
      rw [List.map_cons, List.map_cons] at h
      obtain ⟨hc, hcs⟩ := List.cons.inj h
      obtain ⟨hfile, hnumbers⟩ := Prod.mk.inj hc
      have hrest := ih hcs
      unfold entriesOf at hrest ⊢
      rw [List.filter_cons, List.filter_cons, ← hfile]
      split_ifs
      · rw [List.flatMap_cons, List.flatMap_cons, ← hnumbers, ← hrest]
        exact List.map_append
      · exact hrest

end Tabs

/-! ## Images -/

section Images

variable {z : Zlib} {W : Tools}

/-- The used sectors of its device are in the files of an image. -/
def ImageIn (z : Zlib) (W : Tools) (im : Image) (dir : Dir) : Prop :=
  ∃ cs : List Chunk, cs.length = (W.params im).nb ∧ imageBits cs = bits (W.params im).bitmap ∧
    imageSectors cs =
      (ones 0 (bits (W.params im).bitmap)).map (fun i => (W.data im.device).getD i default) ∧
    ImageFiles z dir im.file cs

/-- What a program `image_...` is relied on for: it makes the files of its image and no others. -/
structure ImageMade (z : Zlib) (W : Tools) (im : Image) (dir dir' : Dir) : Prop where
  image : ImageIn z W im dir'
  keep : ∀ f, f ≠ im.file ++ ascii "idx" → (∀ j < (W.params im).nb, f ≠ chunkName im.file j) →
    dir' f = dir f

theorem ImageIn.congr {im : Image} {dir dir' : Dir} (h : ImageIn z W im dir)
    (hdir : ∀ j < (W.params im).nb, dir' (chunkName im.file j) = dir (chunkName im.file j)) :
    ImageIn z W im dir' := by
  obtain ⟨cs, hlen, hbits, hsectors, hfiles⟩ := h
  exact ⟨cs, hlen, hbits, hsectors, hfiles.congr fun j hj => hdir j (by rwa [← hlen])⟩

/-- A program whose source is there does. -/
theorem tool_made (hz : z.Contract) {im : Image} {imager : Imager}
    (htool : im.tool.imager = some imager) (hbuf : (W.buffer im).length = 24064)
    (hdata : ∀ i, Used (W.params im).bitmap i → i < (W.data im.device).length) (dir : Dir) :
    ∃ dir', Returns (fun fuel => W.run z fuel dir im) dir' ∧ ImageMade z W im dir dir' := by
  obtain ⟨v, hret, hfiles, hkeep⟩ := compressVolume_files hz
    (d := openSource (W.data im.device) fun _ => false) (fun _ => rfl) im.file imager (W.params im)
    hbuf dir
  refine ⟨v.dir, ?_, ⟨⟨_, length_savedChunks _ _ _ _ _, imageBits_volumeChunks _ _ _, ?_, hfiles⟩,
    hkeep⟩⟩
  · refine (hret.bind (g := fun _ v => .ok v.dir) (Returns.pure v.dir)).congr fun fuel => ?_
    unfold Tools.run
    rw [htool]
    rfl
  · exact imageSectors_of_ok hbuf fun q hq => sector_openSource (hdata q (used_iff.mpr hq)) rfl

/-- The files of two images can be told apart, also the one that an image without chunks lacks. -/
def ImagesApart (W : Tools) (a b : Image) : Prop :=
  Separate a.file (max 1 (W.params a).nb) b.file (max 1 (W.params b).nb)

theorem ImagesApart.chunkName_ne {a b : Image} (h : ImagesApart W a b) {i j : ℕ}
    (hi : i < max 1 (W.params a).nb) (hj : j < max 1 (W.params b).nb) :
    chunkName a.file i ≠ chunkName b.file j :=
  (chunkNames_apart_iff (by omega) (by omega)).mpr h i hi j hj

/-- No program writes the file `f`. -/
def ForeignName (W : Tools) (ims : List Image) (f : Bytes) : Prop :=
  ∀ im ∈ ims, f ≠ im.file ++ ascii "idx" ∧ ∀ j < (W.params im).nb, f ≠ chunkName im.file j

/-- **The images of a run** are all there at its end. -/
theorem images_made {ims : List Image} (hrun : ∀ im ∈ ims, ∀ dir, ∃ dir',
    Returns (fun fuel => W.run z fuel dir im) dir' ∧ ImageMade z W im dir dir')
    (hapart : ims.Pairwise (ImagesApart W)) : ∀ dir : Dir, ∃ dir',
      Returns (fun fuel => ims.foldlM (W.run z fuel) dir) dir' ∧ (∀ im ∈ ims, ImageIn z W im dir') ∧
        ∀ f, ForeignName W ims f → dir' f = dir f := by
  induction ims with
  | nil => exact fun dir => ⟨dir, Returns.pure dir, by simp, fun _ _ => rfl⟩
  | cons im ims ih =>
    intro dir
    obtain ⟨him, hims⟩ := List.forall_mem_cons.mp hrun
    obtain ⟨hfirst, hlater⟩ := List.pairwise_cons.mp hapart
    obtain ⟨dir₁, hret₁, hmade⟩ := him dir
    obtain ⟨dir', hret, hall, hkeep⟩ := ih hims hlater dir₁
    refine ⟨dir', (hret₁.bind hret).congr fun fuel => List.foldlM_cons .., ?_, fun f hf => ?_⟩
    · refine List.forall_mem_cons.mpr ⟨hmade.image.congr fun j hj => ?_, hall⟩
      refine hkeep _ fun b hb => ⟨(idx_ne_chunkName b.file im.file j).symm, fun i hi => ?_⟩
      exact (hfirst b hb).chunkName_ne (by omega) (by omega)
    · obtain ⟨hf₁, hf₂⟩ := List.forall_mem_cons.mp hf
      rw [hkeep f hf₂, hmade.keep f hf₁.1 hf₁.2]

/-- The files that nobody writes. -/
theorem foreignName_tabsName (ims : List Image) (dnum : ℤ) : ForeignName W ims (tabsName dnum) :=
  fun im _ => ⟨tabsName_ne_idx dnum im.file, fun j _ => tabsName_ne_chunkName dnum im.file j⟩

end Images

end LinboxRescue
