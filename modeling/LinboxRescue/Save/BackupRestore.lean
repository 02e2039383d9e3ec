import LinboxRescue.Save.Backup

/-!
# A restored machine

`autorestore` gives back what `autosave` has saved, on all disks and volumes at once. The sectors saved
are those kept with the partition tables and those that the images hold; a sector may be saved several
times, since the file `...TABS` of a disk has the first sectors of every partition as well.

`Restorable` says which machines and images this holds for, and `autorestore_backup` that it does: the
saved sectors are those of the machine again, and no other sector is changed.
-/

namespace LinboxRescue

/-! ## What is saved -/

section Saved

variable (E : Machine) (V : RawDisks) (W : Tools) (majorn : Bytes) (sizes : ℕ × ℕ → Option ℕ)

/-- The states of a run of `save` and the devices met in them. -/
def Machine.run : List (SaveState × Part) := E.turns (E.init majorn sizes) E.parts

/-- The calls of `save_raw` in a run. -/
def Machine.runCalls : List RawCall := E.allCalls V 0 (E.init majorn sizes) E.parts

/-- Where a device is restored to. -/
def destOf (u : SaveState × Part) : Dest :=
  if u.2.isdm then .device u.2.path else .hd (u.1.numberFor u.2 - 128).toNat

/-- The name of the files of a device. -/
def fileOf (u : SaveState × Part) : Bytes := u.2.file (u.1.numberFor u.2)

/-- Sector `q` of disk `n` is kept with its partition table. -/
def InTabs (n q : ℕ) : Prop :=
  ∃ c ∈ E.runCalls V majorn sizes, c.file = tabsName (n + 128) ∧ q ∈ c.wanted

/-- The image of a device that starts at `tmin` holds sector `q` of the disk it is on. -/
def InImage (u : SaveState × Part) (tmin : UInt32) (q : ℕ) : Prop :=
  ∃ im, E.image u.1 u.2 = some im ∧ ∃ i, Used (W.params im).bitmap i ∧ q = tmin.toNat + i

/-- The sectors that are saved. -/
def savedCells : Set (Dest × ℕ) :=
  {x | (∃ n < 48, x.1 = .hd n ∧ InTabs E V majorn sizes n x.2) ∨
    ∃ u ∈ E.run majorn sizes, ∃ tmin ttype, E.fate u.1 u.2 = .copy tmin ttype ∧ x.1 = destOf u ∧
      InImage E W u tmin x.2}

/-- The name of the files of a device that `save` tries to copy, and the number of its chunks. -/
def slotOf (u : SaveState × Part) : Option (Bytes × ℕ) :=
  match E.fate u.1 u.2 with
  | .copy _ _ => some (fileOf u, ((E.image u.1 u.2).map fun im => (W.params im).nb).getD 0)
  | _ => none

/-- The files of two devices can be told apart. -/
def SlotsApart (u u' : SaveState × Part) : Prop :=
  ∀ a ∈ slotOf E W u, ∀ b ∈ slotOf E W u', Separate a.1 (max 1 a.2) b.1 (max 1 b.2)

end Saved

/-- What is needed to restore the machine `O` to the disks of `T`: lines of `conf.txt` that can be
read back, names that can be told apart, bitmaps without sectors behind the end of a device, and disks
that are large enough. -/
structure Restorable (z : Zlib) (E : Machine) (V : RawDisks) (W : Tools) (O T : Disks)
    (hostname date majorn : Bytes) (sizes : ℕ × ℕ → Option ℕ) : Prop where
  host : ∀ b ∈ hostname, isSpace b = false
  day : ∀ b ∈ date, b ≠ 10
  index : ∀ l ∈ E.confLines hostname date majorn sizes, l.DiskIndex
  short : ∀ l ∈ E.confLines hostname date majorn sizes, l.text.length < 250
  words : NamesAreWords E majorn sizes
  /-- The bounds of the kept sectors fit 32 bits. -/
  fits : ∀ c ∈ E.runCalls V majorn sizes, c.Fits
  /-- Disk `n` of the machine is the one that gets the number `n`. -/
  disks : ∀ u ∈ E.run majorn sizes, ∀ start, E.fate u.1 u.2 = .disk start →
    V.disk u.2.path = diskSource (O.sectors (.hd (E.diskNumber u.1 u.2).toNat)) 0
  /-- The kept sectors are on both disks. -/
  tabs : ∀ n q, InTabs E V majorn sizes n q → q < O.size (.hd n) ∧ q < T.size (.hd n)
  /-- A partition is the part of its disk that begins with its start sector. -/
  images : ∀ u ∈ E.run majorn sizes, ∀ tmin ttype im, E.fate u.1 u.2 = .copy tmin ttype →
    E.image u.1 u.2 = some im → ∀ i, Used (W.params im).bitmap i →
      (W.data im.device)[i]? = some (O.cells (destOf u) (tmin.toNat + i)) ∧
        tmin.toNat + i < T.size (destOf u)
  apart : (E.run majorn sizes).Pairwise (SlotsApart E W)
  arrays : ∀ im, (W.buffer im).length = 24064
  foreign : ∀ im ∈ (save E majorn sizes).images, im.tool.imager = none →
    ∀ dir, ImageMade z W im dir (W.foreign im dir)

/-! ## The calls -/

section Calls

variable {E : Machine}

/-- The restoration that is written down for a device. -/
def Machine.calls (E : Machine) (u : SaveState × Part) : List Action :=
  match E.fate u.1 u.2 with
  | .skip => []
  | .disk _ => [.restoreRaw (E.diskNumber u.1 u.2).toNat (tabsName (E.diskNumber u.1 u.2 + 128))]
  | .copy tmin _ => [.restore (destOf u) tmin.toNat (fileOf u)]

theorem call_lines (u : SaveState × Part) :
    (E.lines u.1 u.2).filterMap ConfLine.call = E.calls u := by
  unfold Machine.lines Machine.calls
  cases E.fate u.1 u.2 with
  | skip => rfl
  | disk start =>
    dsimp only
    rw [Machine.diskNumber, Int.sub_add_cancel]
    rfl
  | copy tmin ttype =>
    dsimp only
    have hpart : (partLines E (u.1.look u.2) u.2 tmin ttype).filterMap ConfLine.call =
        [.restore (destOf u) tmin.toNat (fileOf u)] := by
      unfold partLines destOf fileOf
      cases u.2.isdm <;> rfl
    rw [List.filterMap_append, hpart]
    split_ifs <;> rfl

theorem filterMap_flatMap {α β γ : Type} (f : α → List β) (g : β → Option γ) (l : List α) :
    (l.flatMap f).filterMap g = l.flatMap fun a => (f a).filterMap g := by
  induction l with
  | nil => rfl
  | cons a l ih => rw [List.flatMap_cons, List.filterMap_append, ih, List.flatMap_cons]

theorem call_confLines (hostname date majorn : Bytes) (sizes : ℕ × ℕ → Option ℕ) :
    (E.confLines hostname date majorn sizes).filterMap ConfLine.call =
      (E.run majorn sizes).flatMap E.calls := by
  rw [confLines_eq, List.filterMap_append, List.filterMap_append, filterMap_flatMap]
  simp only [call_lines]
  exact (List.append_nil _).trans rfl

theorem notMem_log {s : ConfState} {a : Action} {as : List Action} (hs : a ∉ s.actions)
    (has : a ∉ as) : a ∉ (s.log as).actions :=
  fun h => (List.mem_append.mp h).elim hs has

theorem ntblfix_notMem_partcopy {s : ConfState} {n : ℕ} (hs : Action.ntblfix n ∉ s.actions)
    (buf : Bytes) : Action.ntblfix n ∉ (s.partcopy false buf).actions := by
  unfold ConfState.partcopy
  split
  · split
    · split
      · refine notMem_log hs ?_
        split_ifs <;> simp
      · exact notMem_log hs (by simp)
    · refine notMem_log hs ?_
      rw [if_neg fun h => Bool.false_ne_true h.2]
      simp
  · exact hs

/-- `ntblfix` is only run when it is asked for. -/
theorem ntblfix_notMem (nolrs : Bool) (garbage text : Bytes) (n : ℕ) :
    Action.ntblfix n ∉ restoreimage false nolrs garbage text := by
  have hturn : ∀ (s : ConfState) (buf : Bytes), Action.ntblfix n ∉ s.actions →
      Action.ntblfix n ∉ (s.turn false nolrs buf).1.actions := by
    intro s buf hs
    unfold ConfState.turn
    split
    · exact hs
    · split
      · split
        · unfold ConfState.ptabs
          split
          · exact notMem_log hs (by simp)
          · exact hs
        · split
          · exact ntblfix_notMem_partcopy hs buf
          · split
            · exact notMem_log hs (by simp)
            · split
              · exact notMem_log hs (by simp)
              · exact hs
      · exact hs
  exact feofLoop_invariant (P := fun s : ConfState => Action.ntblfix n ∉ s.actions) hturn _
    (s := ⟨[], false, false⟩) List.not_mem_nil _ _

end Calls

/-! ## The files of the disks -/

section Files

variable {E : Machine} {V : RawDisks} {O : Disks}

/-- A file of a disk is only written after the disk was met. -/
theorem exists_disk {n : ℕ} (hn : n < 48) {c : RawCall} (hfile : c.file = tabsName (n + 128))
    {ps : List Part} : ∀ {k : ℕ} {st : SaveState}, c ∈ E.allCalls V k st ps → IsDnum st.dnum →
      (∀ u ∈ E.turns st ps, IsDiskOf E V O u) → st.dnum = n + 128 ∨
        ∃ u ∈ E.turns st ps, ∃ start, E.fate u.1 u.2 = .disk start ∧ E.diskNumber u.1 u.2 = n := by
  induction ps with
  | nil => exact fun hc => absurd hc List.not_mem_nil
  | cons p ps ih =>
    intro k st hc hdnum hturns
    obtain ⟨hp, hturns⟩ := List.forall_mem_cons.mp hturns
    have hnow : (st.step E p).dnum = n + 128 ∨ ∃ u ∈ E.turns (st.step E p) ps, ∃ start,
        E.fate u.1 u.2 = .disk start ∧ E.diskNumber u.1 u.2 = n := by
      rcases List.mem_append.mp hc with hc | hc
      · refine .inl (tabsName_inj (hdnum.step hp) hn ?_)
        rw [← hfile, file_rawCalls hc]
      · exact ih hc (hdnum.step hp) hturns
    rcases hnow with hnum | ⟨u, hu, hd⟩
    · by_cases hf : ∃ start, E.fate st p = .disk start
      · obtain ⟨start, hf⟩ := hf
        rw [dnum_step_of_disk hf] at hnum
        exact .inr ⟨(st, p), List.mem_cons_self, start, hf, add_right_cancel hnum⟩
      · rw [dnum_step_of_not_disk (not_exists.mp hf)] at hnum
        unfold SaveState.numberFor at hnum
        split_ifs at hnum
        · omega
        · exact .inl hnum
    · exact .inr ⟨u, List.mem_cons_of_mem _ hu, hd⟩

/-- The sectors at the start of a disk are kept in its file. -/
theorem exists_call {u : SaveState × Part} {start : UInt32} (hf : E.fate u.1 u.2 = .disk start)
    {ps : List Part} : ∀ {k : ℕ} {st : SaveState}, u ∈ E.turns st ps →
      ∃ c ∈ E.allCalls V k st ps, c.file = tabsName (E.diskNumber u.1 u.2 + 128) := by
  induction ps with
  | nil => exact fun hu => absurd hu List.not_mem_nil
  | cons p ps ih =>
    intro k st hu
    rcases List.mem_cons.mp hu with rfl | hu
    · refine ⟨.info (tabsName (st.step E p).dnum) p.poff start, ?_, ?_⟩
      · refine List.mem_append_left _ ?_
        rw [Machine.rawCalls, (kept_of_fate hf).1]
        exact List.mem_append_right _ List.mem_cons_self
      · show tabsName (st.step E p).dnum = _
        rw [dnum_step_of_disk hf]
    · obtain ⟨c, hc, hfile⟩ := @ih (k + 1) _ hu
      exact ⟨c, List.mem_append_right _ hc, hfile⟩

end Files

/-! ## Slots -/

section Slots

variable {E : Machine} {W : Tools}

instance : Std.Symm (SlotsApart E W) where
  symm _ _ h a ha b hb :=
    have hba := h b hb a ha
    ⟨hba.ne.symm, hba.right, hba.left⟩

/-- Different copied devices have different files. -/
theorem eq_of_file_eq {us : List (SaveState × Part)} (h : us.Pairwise (SlotsApart E W))
    {u u' : SaveState × Part} (hu : u ∈ us) (hu' : u' ∈ us) {a b : Bytes × ℕ}
    (ha : slotOf E W u = some a) (hb : slotOf E W u' = some b) (hab : a.1 = b.1) : u = u' := by
  by_contra hne
  exact (h.forall hu hu' hne a ha b hb).ne hab

theorem slotOf_copy {u : SaveState × Part} {tmin ttype : UInt32}
    (h : E.fate u.1 u.2 = .copy tmin ttype) : slotOf E W u =
      some (fileOf u, ((E.image u.1 u.2).map fun im => (W.params im).nb).getD 0) := by
  rw [slotOf, h]

/-- An image is that of a copied device. -/
theorem copy_of_image {u : SaveState × Part} {im : Image} (h : E.image u.1 u.2 = some im) :
    (∃ tmin ttype, E.fate u.1 u.2 = .copy tmin ttype) ∧ im.file = fileOf u ∧
      slotOf E W u = some (fileOf u, (W.params im).nb) := by
  obtain ⟨tmin, ttype, hf⟩ : ∃ tmin ttype, E.fate u.1 u.2 = .copy tmin ttype := by
    unfold Machine.image at h
    cases hf : E.fate u.1 u.2 with
    | copy tmin ttype => exact ⟨tmin, ttype, rfl⟩
    | skip => rw [hf] at h; cases h
    | disk start => rw [hf] at h; cases h
  refine ⟨⟨tmin, ttype, hf⟩, (image_of_mem h).2, ?_⟩
  rw [slotOf_copy hf, h]
  rfl

/-- The images of a run can be told apart. -/
theorem imagesApart_of {us : List (SaveState × Part)} (h : us.Pairwise (SlotsApart E W)) :
    (us.filterMap fun u => E.image u.1 u.2).Pairwise (ImagesApart W) := by
  rw [List.pairwise_filterMap]
  refine h.imp fun {u u'} hab im him im' him' => ?_
  obtain ⟨-, hfile, hslot⟩ := copy_of_image (W := W) him
  obtain ⟨-, hfile', hslot'⟩ := copy_of_image (W := W) him'
  have := hab _ hslot _ hslot'
  rw [← hfile, ← hfile'] at this
  exact this

end Slots

/-! ## One restoration -/

section Step

variable {z : Zlib} (hz : z.Contract)

/-- Scattering copies the used sectors. -/
theorem scatter_copies {bad : ℕ → Bool} {bm : Bytes} {s : ℕ} {D T f : ℕ → Sector}
    (hgood : ∀ i, Used bm i → bad (s + i) = false) (hf : ∀ i, Used bm i → f i = D (s + i)) :
    Copies {q | ∃ i, Used bm i ∧ q = s + i} D T
      (scatter bad (bits bm) ((ones 0 (bits bm)).map f) ⟨s, T⟩).cells := by
  have hok : ∀ q ∈ ones s (bits bm), bad q = false := by
    intro q hq
    obtain ⟨i, hi, rfl⟩ := used_iff_add.mp hq
    exact hgood i hi
  constructor
  · rintro q ⟨i, hi, rfl⟩
    rw [← hf i hi]
    exact scatter_map_of_ok (t := ⟨s, T⟩) hok (used_iff.mp hi)
  · intro q hq
    exact scatter_cells_of_not_mem (t := ⟨s, T⟩) hok fun h => hq (used_iff_add.mp h)

/-- Copying within one disk. -/
theorem copies_put {O d : Disks} {dest : Dest} {t : Target} {S : Set ℕ}
    (h : Copies S (O.cells dest) (d.cells dest) t.cells) :
    Copies {x : Dest × ℕ | x.1 = dest ∧ x.2 ∈ S} (fun x => O.cells x.1 x.2)
      (fun x => d.cells x.1 x.2) fun x => (d.put dest t).cells x.1 x.2 := by
  constructor
  · rintro ⟨dest', q⟩ ⟨rfl, hq⟩
    show Function.update d.cells dest' t.cells dest' q = _
    rw [Function.update_self]
    exact h.copied q hq
  · rintro ⟨dest', q⟩ hx
    show Function.update d.cells dest t.cells dest' q = d.cells dest' q
    by_cases hd : dest' = dest
    · subst hd
      rw [Function.update_self]
      exact h.kept q fun hq => hx ⟨rfl, hq⟩
    · rw [Function.update_of_ne hd]

include hz in
/-- An image is restored. -/
theorem restore_image {W : Tools} {im : Image} {dir : Dir} (h : ImageIn z W im dir)
    (hnone : (W.params im).nb = 0 → dir (chunkName im.file 0) = none) {O d : Disks} {dest : Dest}
    {s : ℕ} (hdata : ∀ i, Used (W.params im).bitmap i →
      (W.data im.device)[i]? = some (O.cells dest (s + i)) ∧ s + i < d.size dest) (mem : Memory) :
    ∃ r, Returns (fun fuel => restore z.inflate fuel dir.fetch mem (d.open dest) s im.file) r ∧
      Copies {q | ∃ i, Used (W.params im).bitmap i ∧ q = s + i} (O.cells dest) (d.cells dest)
        r.2.fo.cells := by
  obtain ⟨cs, hlen, hbits, hsectors, hfiles⟩ := h
  have hr : Reaches (d.open dest) s (imageBits cs) := by
    intro q hq o ho
    rw [hbits] at hq
    obtain ⟨i, hi, rfl⟩ := used_iff_add.mp hq
    have := (hdata i hi).2
    exact decide_eq_true (by omega)
  obtain ⟨st, hret, hcells⟩ := restore_files hz hfiles (fun hcs => hnone (by rw [← hlen, hcs]; rfl))
    mem (t := d.open dest) rfl hr
  refine ⟨_, hret, ?_⟩
  show Copies _ _ _ st.fo.cells
  rw [hcells, hbits, hsectors]
  refine scatter_copies (fun i hi => decide_eq_false ?_) fun i hi => ?_
  · have := (hdata i hi).2
    omega
  · rw [List.getD_eq_getElem?_getD, (hdata i hi).1, Option.getD_some]

include hz in
/-- The image of a device that could not be copied is not there, and nothing is restored. -/
theorem restore_missing {dir : Dir} {file : Bytes} (hnone : dir (chunkName file 0) = none) (d : Disks)
    (dest : Dest) (s : ℕ) (mem : Memory) :
    ∃ r, Returns (fun fuel => restore z.inflate fuel dir.fetch mem (d.open dest) s file) r ∧
      r.2.fo.cells = d.cells dest := by
  have hfiles : ImageFiles z dir file [] :=
    ⟨fun j c hj => by simp at hj, fun j c hj => by simp at hj, fun c hc => absurd hc List.not_mem_nil⟩
  obtain ⟨st, hret, hcells⟩ := restore_files hz hfiles (fun _ => hnone) mem (t := d.open dest) rfl
    (s := s) fun q hq => absurd hq List.not_mem_nil
  exact ⟨_, hret, hcells⟩

end Step

/-! ## The whole machine -/

section Whole

variable {z : Zlib} (hz : z.Contract) {E : Machine} {V : RawDisks} {W : Tools} {O T : Disks}
  {hostname date majorn : Bytes} {sizes : ℕ × ℕ → Option ℕ}

/-- The files after a backup. -/
structure BackedUp (z : Zlib) (E : Machine) (V : RawDisks) (W : Tools) (O : Disks) (majorn : Bytes)
    (sizes : ℕ × ℕ → Option ℕ) (dir : Dir) : Prop where
  tabs : ∀ n : ℕ, n < 48 → (∃ c ∈ E.runCalls V majorn sizes, c.file = tabsName (n + 128)) →
    ∃ log, dir (tabsName (n + 128)) = some (tabsFile log) ∧ Faithful (O.sectors (.hd n)) log ∧
      ∀ q, q ∈ recordNumbers log ↔ InTabs E V majorn sizes n q
  images : ∀ u ∈ E.run majorn sizes, ∀ im, E.image u.1 u.2 = some im → ImageIn z W im dir
  missing : ∀ u ∈ E.run majorn sizes, ∀ file nb, slotOf E W u = some (file, nb) → nb = 0 →
    dir (chunkName file 0) = none

section Backup

variable (h : Restorable z E V W O T hostname date majorn sizes)

include h in
theorem Restorable.isDiskOf {u : SaveState × Part} (hu : u ∈ E.run majorn sizes) :
    IsDiskOf E V O u := by
  intro start hf
  have hline : .ptabs (E.diskNumber u.1 u.2) (dnum2pre (E.diskNumber u.1 u.2 + 128)) ∈
      E.confLines hostname date majorn sizes := by
    rw [confLines_eq]
    refine List.mem_append_left _ (List.mem_append_right _ (List.mem_flatMap.mpr ⟨u, hu, ?_⟩))
    rw [Machine.lines, hf, Machine.diskNumber, Int.sub_add_cancel]
    exact List.mem_cons_of_mem _ List.mem_cons_self
  obtain ⟨h0, h48⟩ := h.index _ hline
  exact ⟨(E.diskNumber u.1 u.2).toNat, by omega, by omega, h.disks u hu start hf⟩

theorem file_allCalls {k : ℕ} {st : SaveState} {ps : List Part} {c : RawCall}
    (hc : c ∈ E.allCalls V k st ps) : ∃ dnum, c.file = tabsName dnum := by
  induction ps generalizing k st with
  | nil => exact absurd hc List.not_mem_nil
  | cons p ps ih =>
    rcases List.mem_append.mp hc with hc | hc
    · exact ⟨_, file_rawCalls hc⟩
    · exact ih hc

include h in
/-- The file of a disk after the calls of `save_raw`. -/
theorem Restorable.tabs_file {log : List (Bytes × List RawRecord)}
    (hlog : log.map savedSectorsOf = (E.runCalls V majorn sizes).map RawCall.saved)
    (hgood : ∀ e ∈ log, GoodEntry O e) {n : ℕ} (hn : n < 48) {c : RawCall}
    (hc : c ∈ E.runCalls V majorn sizes) (hfile : c.file = tabsName (n + 128)) :
    ∃ records, log.foldl appendRaw Dir.empty (tabsName (n + 128)) = some (tabsFile records) ∧
      Faithful (O.sectors (.hd n)) records ∧
      ∀ q, q ∈ recordNumbers records ↔ InTabs E V majorn sizes n q := by
  refine ⟨entriesOf (tabsName (n + 128)) log, ?_, fun r hr => ?_, fun q => ?_⟩
  · have hentry : ∃ e ∈ log, e.1 = tabsName (n + 128) := by
      have hmem : c.saved ∈ log.map savedSectorsOf := by
        rw [hlog]
        exact List.mem_map_of_mem hc
      obtain ⟨e, he, hec⟩ := List.mem_map.mp hmem
      exact ⟨e, he, (congrArg Prod.fst hec).trans hfile⟩
    rw [foldl_appendRaw, if_pos hentry]
    rfl
  · obtain ⟨e, he, hr⟩ := List.mem_flatMap.mp hr
    obtain ⟨he, hname⟩ := List.mem_filter.mp he
    exact hgood e he n hn (by simpa using hname) r hr
  · rw [numbers_entriesOf _ hlog, List.mem_flatMap]
    constructor
    · rintro ⟨c', hc', hq⟩
      obtain ⟨hc', hname⟩ := List.mem_filter.mp hc'
      rw [(c'.fits_iff.mp (h.fits c' hc')).2] at hq
      exact ⟨c', hc', by simpa using hname, hq⟩
    · rintro ⟨c', hc', hname, hq⟩
      refine ⟨c', List.mem_filter.mpr ⟨hc', by simpa using hname⟩, ?_⟩
      rwa [(c'.fits_iff.mp (h.fits c' hc')).2]

include h in
/-- An image without chunks, or one that could not be made, has no file number 0. -/
theorem Restorable.untouched {u : SaveState × Part} (hu : u ∈ E.run majorn sizes) {file : Bytes}
    (hslot : slotOf E W u = some (file, 0)) :
    ForeignName W ((E.run majorn sizes).filterMap fun u => E.image u.1 u.2) (chunkName file 0) := by
  intro im him
  obtain ⟨u', hu', him'⟩ := List.mem_filterMap.mp him
  obtain ⟨-, hfile', hslot'⟩ := copy_of_image (W := W) him'
  refine ⟨(idx_ne_chunkName im.file file 0).symm, fun j hj => ?_⟩
  by_cases hne : u = u'
  · rw [← hne, hslot] at hslot'
    have := (Prod.mk.inj (Option.some.inj hslot')).2
    omega
  · have hsep := h.apart.forall hu hu' hne _ hslot _ hslot'
    rw [← hfile'] at hsep
    exact (chunkNames_apart_iff (by omega) (by omega)).mpr hsep 0 (by omega) j (by omega)

include hz h in
/-- **A backup** succeeds, and its files hold what is saved. -/
theorem backup_returns : ∃ dir, Returns
    (fun fuel => backup z E V W hostname date majorn sizes fuel)
      (dir, confText (E.confLines hostname date majorn sizes)) ∧
    BackedUp z E V W O majorn sizes dir := by
  obtain ⟨t, ht⟩ := saveTabs_returns 0 ⟨E.init majorn sizes, V.stdin, []⟩ fun c hc =>
    (c.fits_iff.mp (h.fits c hc)).1
  have hok := ht
  obtain ⟨n, hn⟩ := hok
  obtain ⟨hst, hgood⟩ := saveTabs_good (hn n le_rfl) (fun u hu => h.isDiskOf hu)
    ⟨.inl rfl, fun n hn hnum => by change (127 : ℤ) = n + 128 at hnum; omega⟩ (by simp)
  have hlog := (saveTabs_ok (hn n le_rfl)).2
  rw [List.map_nil, List.nil_append] at hlog
  have himages : t.st.images = (E.run majorn sizes).filterMap fun u => E.image u.1 u.2 := by
    rw [hst]
    exact save_images E majorn sizes
  have hrun : ∀ im ∈ t.st.images, ∀ dir, ∃ dir',
      Returns (fun fuel => W.run z fuel dir im) dir' ∧ ImageMade z W im dir dir' := by
    intro im him dir
    cases htool : im.tool.imager with
    | none =>
      refine ⟨W.foreign im dir, ?_, h.foreign im (by rw [hst] at him; exact him) htool dir⟩
      refine (Returns.pure (W.foreign im dir)).congr fun fuel => ?_
      rw [Tools.run, htool]
    | some imager =>
      rw [himages] at him
      obtain ⟨u, hu, himu⟩ := List.mem_filterMap.mp him
      obtain ⟨⟨tmin, ttype, hf⟩, -⟩ := copy_of_image (W := W) himu
      refine tool_made hz htool (h.arrays im) (fun i hi => ?_) dir
      exact (List.getElem?_eq_some_iff.mp (h.images u hu tmin ttype im hf himu i hi).1).1
  obtain ⟨dir, hret, hall, hkeep⟩ := images_made hrun (by rw [himages]; exact imagesApart_of h.apart)
    (t.log.foldl appendRaw Dir.empty)
  refine ⟨dir, ?_, ?_, ?_, ?_⟩
  · have hconf : saveimage hostname date t.st = E.confLines hostname date majorn sizes := by
      rw [hst]
      rfl
    rw [← hconf]
    exact ht.bind (hret.bind (Returns.pure _))
  · rintro n hn ⟨c, hc, hfile⟩
    rw [hkeep _ (foreignName_tabsName _ _)]
    exact h.tabs_file hlog hgood hn hc hfile
  · intro u hu im him
    exact hall im (by rw [himages]; exact List.mem_filterMap.mpr ⟨u, hu, him⟩)
  · rintro u hu file nb hslot rfl
    have hnot : ¬ ∃ e ∈ t.log, e.1 = chunkName file 0 := by
      rintro ⟨e, he, hname⟩
      have hmem : savedSectorsOf e ∈ (E.runCalls V majorn sizes).map RawCall.saved := by
        rw [Machine.runCalls, ← hlog]
        exact List.mem_map_of_mem he
      obtain ⟨c, hc, hce⟩ := List.mem_map.mp hmem
      obtain ⟨dnum, hdnum⟩ := file_allCalls hc
      have hce' : c.file = e.1 := congrArg Prod.fst hce
      exact tabsName_ne_chunkName dnum file 0 (by rw [← hdnum, hce', hname])
    rw [hkeep _ (by rw [himages]; exact h.untouched hu hslot), foldl_appendRaw, if_neg hnot]
    rfl

end Backup

section Restore

variable {dir : Dir} (hdir : BackedUp z E V W O majorn sizes dir)
  (h : Restorable z E V W O T hostname date majorn sizes)

/-- The cells that one of the things done by `restoreimage` copies. -/
def copiedBy (E : Machine) (V : RawDisks) (W : Tools) (majorn : Bytes) (sizes : ℕ × ℕ → Option ℕ) :
    Action → Set (Dest × ℕ)
  | .restoreRaw n _ => {x | x.1 = .hd n ∧ InTabs E V majorn sizes n x.2}
  | .restore dest sect file => {x | x.1 = dest ∧ ∃ u ∈ E.run majorn sizes, fileOf u = file ∧
      ∃ im, E.image u.1 u.2 = some im ∧ ∃ i, Used (W.params im).bitmap i ∧ x.2 = sect + i}
  | _ => ∅

/-- What a step of `autorestore` does to the disks. -/
def Restores (E : Machine) (V : RawDisks) (W : Tools) (O T : Disks) (majorn : Bytes)
    (sizes : ℕ × ℕ → Option ℕ) (a : Action) (turn : ℕ → Disks → Except Halt Disks) : Prop :=
  ∀ d : Disks, d.size = T.size → ∃ d', Returns (fun fuel => turn fuel d) d' ∧ d'.size = T.size ∧
    Copies (copiedBy E V W majorn sizes a) (fun x => O.cells x.1 x.2) (fun x => d.cells x.1 x.2)
      fun x => d'.cells x.1 x.2

include hdir h in
theorem restores_tabs {u : SaveState × Part} (hu : u ∈ E.run majorn sizes) {start : UInt32}
    (hf : E.fate u.1 u.2 = .disk start) (ntblfix : ℕ → Disks → Disks) (mem : Memory)
    (buffer : Bytes) {n : ℕ} (hn : E.diskNumber u.1 u.2 = n) :
    Restores E V W O T majorn sizes (.restoreRaw n (tabsName (n + 128))) fun fuel d =>
      Action.run z ntblfix dir mem buffer fuel d (.restoreRaw n (tabsName (n + 128))) := by
  intro d hsize
  have hlt : n < 48 := by
    obtain ⟨m, hm, hnumber, -⟩ := h.isDiskOf hu start hf
    omega
  obtain ⟨c, hc, hfile⟩ := @exists_call E V u start hf E.parts 0 _ hu
  rw [hn] at hfile
  obtain ⟨log, hlog, hfaithful, hnumbers⟩ := hdir.tabs n hlt ⟨c, hc, hfile⟩
  have hin : ∀ r ∈ log, InTabs E V majorn sizes n r.1.toNat := fun r hr =>
    (hnumbers _).mp (List.mem_map_of_mem hr)
  have hroom : ∀ r ∈ log, r.1.toNat < d.size (.hd n) := fun r hr => by
    rw [hsize]
    exact (h.tabs n _ (hin r hr)).2
  obtain ⟨fo, hret, hcells⟩ := restoreRaw_returns hroom buffer (d.cells (.hd n)) 0
  refine ⟨d.put (.hd n) fo, ?_, hsize, ?_⟩
  · refine (hret.bind (g := fun _ fo => .ok (d.put (.hd n) fo)) (Returns.pure _)).congr fun fuel => ?_
    unfold Action.run
    simp only [hlog]
    rfl
  · refine @copies_put O d (.hd n) fo {q | InTabs E V majorn sizes n q}
      ⟨fun q hq => ?_, fun q hq => ?_⟩
    · have hlt' := (h.tabs n q hq).1
      rw [hcells]
      refine replay_of_mem (fun w hw hwq => ?_) (by rw [fst_writesOf]; exact (hnumbers q).mpr hq) _
      obtain ⟨r, hr, rfl⟩ := List.mem_map.mp hw
      obtain rfl : r.1.toNat = q := hwq
      have hget := hfaithful r hr (by rwa [Disks.length_sectors])
      rw [Disks.getElem?_sectors _ hlt'] at hget
      exact (Option.some.inj hget).symm
    · rw [hcells]
      exact replay_of_not_mem (fun hmem => hq ((hnumbers q).mp (by rwa [fst_writesOf] at hmem))) _

include hz hdir h in
theorem restores_image {u : SaveState × Part} (hu : u ∈ E.run majorn sizes) {tmin ttype : UInt32}
    (hf : E.fate u.1 u.2 = .copy tmin ttype) (ntblfix : ℕ → Disks → Disks) (mem : Memory)
    (buffer : Bytes) :
    Restores E V W O T majorn sizes (.restore (destOf u) tmin.toNat (fileOf u)) fun fuel d =>
      Action.run z ntblfix dir mem buffer fuel d (.restore (destOf u) tmin.toNat (fileOf u)) := by
  intro d hsize
  -- the device itself is the only one with this file
  have honly : ∀ u' ∈ E.run majorn sizes, fileOf u' = fileOf u → ∀ im, E.image u'.1 u'.2 = some im →
      u' = u := by
    intro u' hu' hfile im him
    exact eq_of_file_eq h.apart hu' hu (copy_of_image (W := W) him).2.2 (slotOf_copy hf) hfile
  have hput : ∀ r : List Bytes × RestoreState,
      Returns (fun fuel => restore z.inflate fuel dir.fetch mem (d.open (destOf u)) tmin.toNat
        (fileOf u)) r →
      Returns (fun fuel => Action.run z ntblfix dir mem buffer fuel d
        (.restore (destOf u) tmin.toNat (fileOf u))) (d.put (destOf u) r.2.fo) := by
    intro r hr
    have hmap := hr.bind (g := fun _ r => (.ok (d.put (destOf u) r.2.fo) : Except Halt Disks))
      (Returns.pure _)
    exact hmap.congr fun _ => rfl
  cases him : E.image u.1 u.2 with
  | none =>
    have hnone : dir (chunkName (fileOf u) 0) = none :=
      hdir.missing u hu (fileOf u) 0 (by rw [slotOf_copy hf, him]; rfl) rfl
    obtain ⟨r, hr, hcells⟩ := restore_missing hz hnone d (destOf u) tmin.toNat mem
    refine ⟨_, hput r hr, hsize, ?_⟩
    have hempty : copiedBy E V W majorn sizes (.restore (destOf u) tmin.toNat (fileOf u)) = ∅ := by
      ext x
      refine iff_of_false ?_ (Set.notMem_empty x)
      rintro ⟨-, u', hu', hfile, im, him', -⟩
      rw [honly u' hu' hfile im him', him] at him'
      cases him'
    rw [hempty]
    refine ⟨fun x hx => absurd hx (Set.notMem_empty x), fun x _ => ?_⟩
    show Function.update d.cells (destOf u) r.2.fo.cells x.1 x.2 = _
    rw [hcells, Function.update_eq_self]
  | some im =>
    have hfile : im.file = fileOf u := (copy_of_image (W := W) him).2.1
    have hnone : (W.params im).nb = 0 → dir (chunkName im.file 0) = none := by
      rw [hfile]
      exact hdir.missing u hu (fileOf u) _ (copy_of_image (W := W) him).2.2
    obtain ⟨r, hr, hcopies⟩ := restore_image hz (hdir.images u hu im him) hnone
      (d := d) (fun i hi => by
        rw [hsize]
        exact h.images u hu tmin ttype im hf him i hi) mem
    rw [hfile] at hr
    refine ⟨_, hput r hr, hsize, ?_⟩
    have hset : copiedBy E V W majorn sizes (.restore (destOf u) tmin.toNat (fileOf u)) =
        {x | x.1 = destOf u ∧ x.2 ∈ {q | ∃ i, Used (W.params im).bitmap i ∧ q = tmin.toNat + i}} := by
      ext x
      refine and_congr_right fun _ => ⟨?_, fun hx => ⟨u, hu, rfl, im, him, hx⟩⟩
      rintro ⟨u', hu', hfile', im', him', hx⟩
      rw [honly u' hu' hfile' im' him', him] at him'
      rwa [Option.some.inj him']
    rw [hset]
    exact copies_put hcopies

end Restore

section Conf

variable (h : Restorable z E V W O T hostname date majorn sizes)

include h in
/-- The restorations made are those written down for the devices. -/
theorem Restorable.actions (nolrs : Bool) (garbage : Bytes) :
    (restoreimage false nolrs garbage (confText (E.confLines hostname date majorn sizes))).filter
      (·.isRestore) = (E.run majorn sizes).flatMap E.calls := by
  rw [← call_confLines hostname date]
  refine restoreimage_plain (fun l hl => ?_) h.short ?_ garbage
  · refine (plain_or_cut h.host h.day h.index hl).resolve_right ?_
    rintro ⟨-, t, ht, ⟨tmin, ttype, hfate⟩, hdm, b, hb, hspace⟩
    rw [h.words t ht tmin ttype hfate hdm b hb] at hspace
    cases hspace
  · rw [confLines_eq, List.getLast?_append]
    rfl

/-- The cells that the restorations copy are the saved ones. -/
theorem copiedBy_calls (h : Restorable z E V W O T hostname date majorn sizes) (x : Dest × ℕ) :
    (∃ a ∈ (E.run majorn sizes).flatMap E.calls, x ∈ copiedBy E V W majorn sizes a) ↔
      x ∈ savedCells E V W majorn sizes := by
  constructor
  · rintro ⟨a, ha, hx⟩
    obtain ⟨u, hu, ha⟩ := List.mem_flatMap.mp ha
    unfold Machine.calls at ha
    cases hf : E.fate u.1 u.2 with
    | skip =>
      rw [hf] at ha
      exact absurd ha List.not_mem_nil
    | disk start =>
      rw [hf] at ha
      obtain rfl := List.mem_singleton.mp ha
      obtain ⟨n, hn, hnumber, -⟩ := h.isDiskOf hu start hf
      have htoNat : (E.diskNumber u.1 u.2).toNat = n := by omega
      exact .inl ⟨_, by omega, hx.1, hx.2⟩
    | copy tmin ttype =>
      rw [hf] at ha
      obtain rfl := List.mem_singleton.mp ha
      obtain ⟨hdest, u', hu', hfile, im, him, hused⟩ := hx
      obtain rfl : u' = u :=
        eq_of_file_eq h.apart hu' hu (copy_of_image (W := W) him).2.2 (slotOf_copy hf) hfile
      exact .inr ⟨u', hu, tmin, ttype, hf, hdest, im, him, hused⟩
  · rintro (⟨n, hn, hdest, c, hc, hfile, hq⟩ | ⟨u, hu, tmin, ttype, hf, hdest, im, him, hused⟩)
    · obtain hinit | ⟨u, hu, start, hf, hnumber⟩ :=
        exists_disk hn hfile hc (.inl rfl) fun u hu => h.isDiskOf hu
      · change (127 : ℤ) = n + 128 at hinit
        omega
      · refine ⟨.restoreRaw n (tabsName (n + 128)), List.mem_flatMap.mpr ⟨u, hu, ?_⟩,
          hdest, c, hc, hfile, hq⟩
        rw [Machine.calls, hf, hnumber]
        exact List.mem_singleton.mpr rfl
    · refine ⟨.restore (destOf u) tmin.toNat (fileOf u), List.mem_flatMap.mpr ⟨u, hu, ?_⟩,
        hdest, u, hu, rfl, im, him, hused⟩
      rw [Machine.calls, hf]
      exact List.mem_singleton.mpr rfl

end Conf

include hz in
/-- **A machine is restored**: a backup and `autorestore` after it succeed, every saved sector of
every disk and volume is the machine's again, and all other sectors are as before. -/
theorem autorestore_backup (h : Restorable z E V W O T hostname date majorn sizes)
    (ntblfix : ℕ → Disks → Disks) (nolrs : Bool) (garbage : Bytes) (mem : ℕ → Memory)
    (buffer : ℕ → Bytes) :
    ∃ b d, Returns (fun fuel => backup z E V W hostname date majorn sizes fuel) b ∧
      Returns (fun fuel => autorestore z ntblfix false nolrs garbage mem buffer b T fuel) d ∧
      ∀ dest q,
        ((dest, q) ∈ savedCells E V W majorn sizes → d.cells dest q = O.cells dest q) ∧
        ((dest, q) ∉ savedCells E V W majorn sizes → d.cells dest q = T.cells dest q) := by
  obtain ⟨dir, hbackup, hdir⟩ := backup_returns hz h
  obtain ⟨as, has⟩ : ∃ as, as = restoreimage false nolrs garbage
      (confText (E.confLines hostname date majorn sizes)) := ⟨_, rfl⟩
  have hactions : ∀ a, a ∈ as ∧ a.isRestore = true ↔ a ∈ (E.run majorn sizes).flatMap E.calls := by
    intro a
    rw [← h.actions nolrs garbage, ← has, List.mem_filter]
  have hstep : ∀ a ∈ as, ∀ k d, d.size = T.size → ∃ d',
      Returns (fun fuel => Action.run z ntblfix dir (mem k) (buffer k) fuel d a) d' ∧
        d'.size = T.size ∧ Copies (copiedBy E V W majorn sizes a) (fun x => O.cells x.1 x.2)
          (fun x => d.cells x.1 x.2) fun x => d'.cells x.1 x.2 := by
    intro a ha k d hsize
    by_cases hrestore : a.isRestore = true
    · obtain ⟨u, hu, hcall⟩ := List.mem_flatMap.mp ((hactions a).mp ⟨ha, hrestore⟩)
      unfold Machine.calls at hcall
      cases hf : E.fate u.1 u.2 with
      | skip =>
        rw [hf] at hcall
        exact absurd hcall List.not_mem_nil
      | disk start =>
        rw [hf] at hcall
        obtain rfl := List.mem_singleton.mp hcall
        obtain ⟨n, hn, hnumber, -⟩ := h.isDiskOf hu start hf
        rw [hnumber, Int.toNat_natCast]
        exact restores_tabs hdir h hu hf ntblfix (mem k) (buffer k) hnumber d hsize
      | copy tmin ttype =>
        rw [hf] at hcall
        obtain rfl := List.mem_singleton.mp hcall
        exact restores_image hz hdir h hu hf ntblfix (mem k) (buffer k) d hsize
    · cases a with
      | restoreRaw n file => exact absurd rfl hrestore
      | restore dest sect file => exact absurd rfl hrestore
      | ntblfix n =>
        rw [has] at ha
        exact absurd ha (ntblfix_notMem nolrs garbage _ n)
      | vgscan => exact ⟨d, Returns.pure d, hsize, Copies.refl _ _⟩
      | setdefault v => exact ⟨d, Returns.pure d, hsize, Copies.refl _ _⟩
      | exit => exact ⟨d, Returns.pure d, hsize, Copies.refl _ _⟩
  obtain ⟨d, hret, -, hcopies⟩ := runFrom_copies (fun (d : Disks) (x : Dest × ℕ) => d.cells x.1 x.2)
    (fun d => d.size = T.size) hstep 0 T rfl
  have hcells : {x : Dest × ℕ | ∃ a ∈ as, x ∈ copiedBy E V W majorn sizes a} =
      savedCells E V W majorn sizes := by
    ext x
    rw [← copiedBy_calls h]
    constructor
    · rintro ⟨a, ha, hx⟩
      have hrestore : a.isRestore = true := by
        cases a with
        | restoreRaw n file => rfl
        | restore dest sect file => rfl
        | _ => exact absurd hx (Set.notMem_empty x)
      exact ⟨a, (hactions a).mp ⟨ha, hrestore⟩, hx⟩
    · rintro ⟨a, ha, hx⟩
      exact ⟨a, ((hactions a).mpr ha).1, hx⟩
  rw [hcells] at hcopies
  rw [has] at hret
  exact ⟨_, d, hbackup, hret, fun dest q => ⟨hcopies.copied (dest, q), hcopies.kept (dest, q)⟩⟩

end Whole

/-! ## A machine with one partition -/

/-- A disk with one partition. -/
def onePartition : Machine :=
  plainMachine (ascii "sda") (ascii "   8     0        500 sda\n   8     1        500 sda1\n")

/-- Disks on which every sector holds the same byte. -/
def plainDisks (b : UInt8) : Disks := ⟨fun _ => 2 ^ 33, fun _ _ => .fill b⟩

/-- All of them hold the same. -/
theorem sectors_plainDisks (b : UInt8) (dest dest' : Dest) :
    (plainDisks b).sectors dest = (plainDisks b).sectors dest' := by
  unfold Disks.sectors
  rfl

def plainRaw : RawDisks where
  disk _ := diskSource ((plainDisks 7).sectors (.hd 0)) 0
  stdin := diskSource [] 0
  ldmBuffer _ := []
  rawBuffer _ := []

/-- The first and the third sector of a device are used. -/
def plainTools : Tools where
  data _ := [.fill 7, .fill 7, .fill 7]
  params _ := smallParams [5] (by decide)
  buffer _ := zeros
  foreign _ dir := dir

/-- A disk without an LDM header. -/
theorem ldmCheck_none {D : List Sector} {s : Sector} (h : D[6]? = some s)
    (hs : s.bytes.take 8 ≠ ascii "PRIVHEAD") (off : ℕ) (buffer : Bytes) :
    (ldmCheck (diskSource D off) buffer).1 = none := by
  obtain ⟨hlt, rfl⟩ := List.getElem?_eq_some_iff.mp h
  have hread := diskSource_read_of_lt hlt off
  have hbuf : (readInto buffer 0 (some D[6])).take 8 = D[6].bytes.take 8 := by
    show (overwrite buffer 0 D[6].bytes).take 8 = _
    unfold overwrite
    rw [List.take_zero, List.nil_append, List.take_append_of_le_length (by rw [D[6].size]; omega)]
  unfold ldmCheck
  dsimp only
  rw [show 6 * 512 = 512 * 6 from rfl, hread, hbuf, if_neg hs]

theorem ldmCheck_plain : (ldmCheck (plainRaw.disk []) []).1 = none :=
  ldmCheck_none ((plainDisks 7).getElem?_sectors (Nat.lt_of_lt_of_le (by decide : 6 < 7) (by
    show 7 ≤ 2 ^ 33
    norm_num))) (by decide) 0 []

def sda : Part := ⟨ascii "sda", 8, 0, Nat.two_pow_pos 31⟩

def sda1 : Part := ⟨ascii "sda1", 8, 1, Nat.one_lt_two_pow (Nat.succ_ne_zero 30)⟩

/-- The state in which the disk is met. -/
def beforeSda : SaveState := onePartition.init [] fun _ => none

theorem run_onePartition : onePartition.run [] (fun _ => none) =
    [(beforeSda, sda), (beforeSda.step onePartition sda, sda1)] := rfl

theorem fate_sda : onePartition.fate beforeSda sda = .disk 0 := rfl

theorem runCalls_onePartition : onePartition.runCalls plainRaw [] (fun _ => none) =
    [.info (ascii "PTABS") 0 0, .info (ascii "PTABS") 1 63] := by
  have hsda : onePartition.rawCalls plainRaw 0 beforeSda sda = [.info (ascii "PTABS") 0 0] := by
    rw [Machine.rawCalls, show onePartition.kept sda = some 0 from rfl]
    dsimp only
    rw [if_pos (show sda.dontsave 0 = true from rfl),
      show (ldmCheck (plainRaw.disk sda.path) (plainRaw.ldmBuffer 0)).1 = none from ldmCheck_plain]
    rfl
  have hsda1 : onePartition.rawCalls plainRaw 1 (beforeSda.step onePartition sda) sda1 =
      [.info (ascii "PTABS") 1 63] := by
    rw [Machine.rawCalls, show onePartition.kept sda1 = some 63 from rfl]
    dsimp only
    rw [if_neg (show ¬ sda1.dontsave 63 = true from by decide)]
    rfl
  have hcalls : onePartition.runCalls plainRaw [] (fun _ => none) =
      onePartition.rawCalls plainRaw 0 beforeSda sda ++
        (onePartition.rawCalls plainRaw 1 (beforeSda.step onePartition sda) sda1 ++ []) := by
    rw [Machine.runCalls, show onePartition.parts = [sda, sda1] from rfl, Machine.allCalls,
      Machine.allCalls, Machine.allCalls]
    rfl
  rw [hcalls, hsda, hsda1]
  rfl

theorem confLines_onePartition : onePartition.confLines (ascii "host") (ascii "today") []
    (fun _ => none) = [.title (ascii "host"), .desc (ascii "today"), .partcopyComment, .ptabsComment,
      .ptabs 0 (ascii "P"), .extent 0 0 63 1062 0x83, .partcopy 0 0 63 (ascii "P1") none,
      .bootComment 0, .root, .chainloader, .blank] := rfl

theorem restorable_onePartition : Restorable storedZlib onePartition plainRaw plainTools (plainDisks 7)
    (plainDisks 0) (ascii "host") (ascii "today") [] fun _ => none where
  host := by decide
  day := by decide
  index := by
    rw [confLines_onePartition]
    simp [ConfLine.DiskIndex]
  short := by
    rw [confLines_onePartition]
    decide
  words t ht _ _ _ hdm := by
    have hmem : t ∈ onePartition.run [] fun _ => none := ht
    rw [run_onePartition] at hmem
    rcases List.mem_pair.mp hmem with rfl | rfl <;> cases hdm
  fits := by
    rw [runCalls_onePartition]
    simp [RawCall.Fits]
  disks _ _ _ _ := congrArg (diskSource · 0) (sectors_plainDisks 7 (.hd 0) _)
  tabs n q := by
    rintro ⟨c, hc, -, hq⟩
    rw [runCalls_onePartition] at hc
    have hlt : q < 2 ^ 33 := by
      rcases List.mem_pair.mp hc with rfl | rfl
      · have := (List.mem_range'_1.mp hq).2
        change q < 0 + (0 + 63 - 0) at this
        omega
      · have := (List.mem_range'_1.mp hq).2
        change q < 63 + (63 + 63 - 63) at this
        omega
    exact ⟨hlt, hlt⟩
  images u hu tmin ttype im hf him i hi := by
    have hi' : i < 3 := (show ∀ j ∈ ones 0 (bits [5]), j < 3 by decide) i (used_iff.mp hi)
    have htmin := tmin.toNat_lt
    refine ⟨?_, ?_⟩
    · show [Sector.fill 7, .fill 7, .fill 7][i]? = some (.fill 7)
      interval_cases i <;> rfl
    · show tmin.toNat + i < 2 ^ 33
      omega
  apart := by
    rw [run_onePartition, List.pairwise_pair]
    intro a ha
    rw [slotOf, fate_sda] at ha
    cases ha
  arrays _ := length_zeros
  foreign im him htool := by
    rw [show (save onePartition [] fun _ => none).images = [⟨.e2fs, ascii "/dev/sda1", ascii "P1"⟩]
      from rfl] at him
    obtain rfl := List.mem_singleton.mp him
    cases htool

theorem autorestore_backup_onePartition : ∃ b d,
    Returns (fun fuel => backup storedZlib onePartition plainRaw plainTools (ascii "host")
      (ascii "today") [] (fun _ => none) fuel) b ∧
    Returns (fun fuel => autorestore storedZlib (fun _ d => d) false false [] (fun _ => Memory.zero)
      (fun _ => []) b (plainDisks 0) fuel) d ∧
    ∀ dest q,
      ((dest, q) ∈ savedCells onePartition plainRaw plainTools [] (fun _ => none) →
        d.cells dest q = (plainDisks 7).cells dest q) ∧
      ((dest, q) ∉ savedCells onePartition plainRaw plainTools [] (fun _ => none) →
        d.cells dest q = (plainDisks 0).cells dest q) :=
  autorestore_backup storedZlib_contract restorable_onePartition _ _ _ _ _

end LinboxRescue
