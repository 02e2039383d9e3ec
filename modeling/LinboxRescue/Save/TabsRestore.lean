import LinboxRescue.Save.Tabs
import LinboxRescue.Lib.Replay

/-!
# Writing the partition table back

A file `...TABS` is what calls of `save_raw` appended to it. Two programs write it back to a disk:
`restore_raw` of `autorestore.c`, and `ptabs_func` of the boot loader, which goes through the BIOS.

`restore_raw` reports a failed `lseek` or `write` and goes on, `ptabs_func` stops at the first error.
The number of a sector is an `int` in `biosdisk`, and is extended with its sign to the 64 bits of the
packet of an extended BIOS; an older BIOS is given a cylinder, a head and a sector after the geometry
in `buf_geom`.

1. `restoreRaw_returns`, `ptabsFunc_returns`: both replay the file when every sector can be reached.
2. `tabsRestored_iff`: they restore the saved sectors, and nothing else, exactly when every saved
   sector is one of the disk that was saved, of the disk restored to, and in reach of the BIOS.
-/

namespace LinboxRescue

/-! ## The file -/

/-- The bytes that `save_raw` appends for a sector. -/
def rawBytes (r : RawRecord) : Bytes := leBytes 4 r.1.toNat ++ r.2.bytes

def tabsFile (log : List RawRecord) : Bytes := log.flatMap rawBytes

/-- Calls of `save_raw` on an open disk, one after the other; the n-th one finds `rawBuffer n` in its
array. -/
def saveRaws (rawBuffer : ℕ → Bytes) (fuel : ℕ) :
    ℕ → Source → List (UInt32 × UInt32) → Except Halt (List RawRecord)
  | _, _, [] => .ok []
  | k, fd, r :: rs =>
    saveRaw r.2 fuel r.1 fd (rawBuffer k) >>= fun x =>
      saveRaws rawBuffer fuel (k + 1) x.2 rs >>= fun log => .ok (x.1 ++ log)

/-! ## The two readers -/

/-- The loop of `restore_raw` on what is left of the file. -/
def restoreRaw : ℕ → Bytes → Bytes → Target → Except Halt Target
  | 0, _, _, _ => .error .outOfFuel
  | fuel + 1, file, buffer, fo =>
    if file.take 516 = [] then .ok fo
    else
      let buffer := overwrite buffer 0 (file.take 516)
      let sect := leVal (buffer.take 4)
      restoreRaw fuel (file.drop 516) buffer
        ((fo.lseekSet (512 * sect)).write (Sector.ofMem buffer 4))

/-- `struct geometry`, with the flag of the extended BIOS. -/
structure Geometry where
  lba : Bool
  cylinders : UInt32
  heads : UInt32
  sectors : UInt32

/-- A drive of the BIOS: the number of its sectors, and the sector that the BIOS takes for a cylinder, a
head and a sector. -/
structure Drive where
  total : ℕ
  chs : ℕ → ℕ → ℕ → Option ℕ

/-- The sector that `biosdisk(BIOSDISK_WRITE, ..., sector, 1, ...)` writes, unless it fails. -/
def biosdisk (g : Geometry) (d : Drive) (sector : UInt32) : Option ℕ :=
  if g.lba then
    let block := (sector.toBitVec.signExtend 64).toNat
    if block < d.total then some block else none
  else
    -- a division by zero is the end of the boot loader
    if g.sectors = 0 ∨ g.heads = 0 then none
    else
      let head := sector / g.sectors
      let cylinder := head / g.heads
      if g.cylinders ≤ cylinder then none
      else d.chs cylinder.toNat (head % g.heads).toNat (sector % g.sectors + 1).toNat

/-- The loop of `ptabs_func` on what is left of the file; the result says whether it came to the
end. -/
def ptabsFunc (g : Geometry) (d : Drive) :
    ℕ → Bytes → Bytes → (ℕ → Sector) → Except Halt (Bool × (ℕ → Sector))
  | 0, _, _, _ => .error .outOfFuel
  | fuel + 1, file, buf, cells =>
    if file.take 516 = [] then .ok (true, cells)
    else
      let buf := overwrite buf 0 (file.take 516)
      let sect := UInt32.ofNat (leVal (buf.take 4))
      match biosdisk g d sect with
      | none => .ok (false, cells)
      | some block =>
        ptabsFunc g d fuel (file.drop 516) buf (Function.update cells block (Sector.ofMem buf 4))

/-! ## What is saved -/

/-- A disk without errors, at some offset; `lseek` does not go beyond its end. -/
def diskSource (D : List Sector) (off : ℕ) : Source where
  data := D
  bad _ := false
  seekable o := decide (o ≤ 512 * D.length)
  off := off

theorem diskSource_read (D : List Sector) (off o : ℕ) :
    ∃ off', ((diskSource D off).lseekSet o).read.2 = diskSource D off' := by
  have hseek : ∃ o', (diskSource D off).lseekSet o = diskSource D o' := by
    unfold Source.lseekSet
    split_ifs
    · exact ⟨o, rfl⟩
    · exact ⟨off, rfl⟩
  obtain ⟨o', ho'⟩ := hseek
  rw [ho']
  unfold Source.read
  split
  · exact ⟨o' + 512, rfl⟩
  · exact ⟨o', rfl⟩

theorem diskSource_read_of_lt {D : List Sector} {s : ℕ} (hs : s < D.length) (off : ℕ) :
    ((diskSource D off).lseekSet (512 * s)).read.1 = some D[s] := by
  have hseek : (diskSource D off).lseekSet (512 * s) = diskSource D (512 * s) := by
    have hin : (diskSource D off).seekable (512 * s) = true := decide_eq_true (by omega)
    unfold Source.lseekSet
    rw [if_pos hin]
    rfl
  have hsector : (diskSource D (512 * s)).sector (512 * s / 512) = some D[s] := by
    show (if false then none else D[512 * s / 512]?) = some D[s]
    rw [Nat.mul_div_cancel_left s (by omega), List.getElem?_eq_getElem hs]
    rfl
  have hoff : (diskSource D (512 * s)).off = 512 * s := rfl
  rw [hseek]
  unfold Source.read
  rw [hoff, hsector]

theorem ofMem_readInto (buffer : Bytes) (s : Sector) :
    Sector.ofMem (readInto buffer 0 (some s)) 0 = s :=
  @Sector.ofMem_bytes [] s _

/-- A record of a sector of the disk holds this sector. -/
def Faithful (D : List Sector) (log : List RawRecord) : Prop :=
  ∀ r ∈ log, r.1.toNat < D.length → D[r.1.toNat]? = some r.2

theorem saveRaw_faithful {D : List Sector} {stop : UInt32} {fuel : ℕ} : ∀ {s : UInt32} {off : ℕ}
    {fd : Source} {buffer : Bytes} {log : List RawRecord},
    saveRaw stop fuel s (diskSource D off) buffer = .ok (log, fd) →
      Faithful D log ∧ ∃ off', fd = diskSource D off' := by
  induction fuel with
  | zero => intro _ _ _ _ _ h; cases h
  | succ fuel ih =>
    intro s off fd buffer log h
    rw [saveRaw] at h
    by_cases hs : s ≤ stop
    · rw [if_pos hs] at h
      obtain ⟨off', hoff'⟩ := diskSource_read D off (512 * s.toNat)
      obtain ⟨⟨log', fd'⟩, hrun, hlog⟩ := bind_eq_ok h
      rw [hoff'] at hrun
      cases hlog
      obtain ⟨hfaithful, hfd⟩ := ih hrun
      refine ⟨List.forall_mem_cons.mpr ⟨fun hlt => ?_, hfaithful⟩, hfd⟩
      show D[s.toNat]? = some (Sector.ofMem (readInto buffer 0 _) 0)
      rw [diskSource_read_of_lt hlt, ofMem_readInto, List.getElem?_eq_getElem hlt]
    · rw [if_neg hs] at h
      cases h
      exact ⟨fun r hr => absurd hr List.not_mem_nil, off, rfl⟩

theorem saveRaws_faithful {D : List Sector} {rawBuffer : ℕ → Bytes} {fuel : ℕ}
    {ranges : List (UInt32 × UInt32)} : ∀ {k off : ℕ} {log : List RawRecord},
    saveRaws rawBuffer fuel k (diskSource D off) ranges = .ok log → Faithful D log ∧
      recordNumbers log = ranges.flatMap fun r => rawRange r.1 r.2 := by
  induction ranges with
  | nil =>
    intro k off log h
    cases h
    exact ⟨fun r hr => absurd hr List.not_mem_nil, rfl⟩
  | cons r ranges ih =>
    intro k off log h
    rw [saveRaws] at h
    obtain ⟨⟨x, fd⟩, hr, h⟩ := bind_eq_ok h
    obtain ⟨hx, off', rfl⟩ := saveRaw_faithful hr
    obtain ⟨log', hrs, hlog⟩ := bind_eq_ok h
    cases hlog
    obtain ⟨hlog', hnumbers⟩ := ih hrs
    refine ⟨List.forall_mem_append.mpr ⟨hx, hlog'⟩, ?_⟩
    rw [List.flatMap_cons, ← hnumbers, ← (saveRaw_numbers hr).2]
    exact List.map_append

theorem saveRaws_returns {rawBuffer : ℕ → Bytes} {ranges : List (UInt32 × UInt32)}
    (hr : ∀ r ∈ ranges, r.2 ≠ 0xFFFFFFFF) : ∀ (k : ℕ) (fd : Source),
    ∃ log, Returns (fun fuel => saveRaws rawBuffer fuel k fd ranges) log := by
  induction ranges with
  | nil => exact fun _ _ => ⟨[], Returns.pure []⟩
  | cons r ranges ih =>
    intro k fd
    obtain ⟨hstop, hstops⟩ := List.forall_mem_cons.mp hr
    obtain ⟨x, hx⟩ := saveRaw_returns hstop _ r.1 fd (rawBuffer k) rfl
    obtain ⟨log, hlog⟩ := ih hstops (k + 1) x.2
    exact ⟨_, hx.bind (hlog.bind (Returns.pure (x.1 ++ log)))⟩

/-! ## What is written back -/

/-- The writes that a log asks for. -/
def writesOf (log : List RawRecord) : List (ℕ × Sector) := log.map fun r => (r.1.toNat, r.2)

theorem fst_writesOf (log : List RawRecord) : (writesOf log).map Prod.fst = recordNumbers log := by
  unfold writesOf recordNumbers
  rw [List.map_map]
  rfl

/-- A read of 516 bytes takes a record off the file. -/
theorem tabsFile_cons (r : RawRecord) (log : List RawRecord) :
    (tabsFile (r :: log)).take 516 = rawBytes r ∧ (tabsFile (r :: log)).drop 516 = tabsFile log := by
  have hlen : (rawBytes r).length = 516 := by
    unfold rawBytes
    rw [List.length_append, length_leBytes, r.2.size]
  unfold tabsFile
  rw [List.flatMap_cons, ← hlen]
  exact ⟨List.take_left, List.drop_left⟩

theorem rawBytes_ne_nil (r : RawRecord) : rawBytes r ≠ [] := by
  unfold rawBytes leBytes
  exact List.cons_ne_nil _ _

/-- What is found in the buffer after the read of a record. -/
theorem record_in_buffer (r : RawRecord) (buffer : Bytes) :
    leVal ((overwrite buffer 0 (rawBytes r)).take 4) = r.1.toNat ∧
      Sector.ofMem (overwrite buffer 0 (rawBytes r)) 4 = r.2 := by
  have hlen : (leBytes 4 r.1.toNat).length = 4 := length_leBytes 4 _
  have hbuf : overwrite buffer 0 (rawBytes r) =
      leBytes 4 r.1.toNat ++ (r.2.bytes ++ buffer.drop (rawBytes r).length) := by
    unfold overwrite rawBytes
    rw [List.take_zero, List.nil_append, List.append_assoc, Nat.zero_add]
  constructor
  · rw [hbuf, List.take_left' hlen]
    exact leVal_leBytes r.1.toNat_lt
  · have h := @Sector.ofMem_bytes (leBytes 4 r.1.toNat) r.2 (buffer.drop (rawBytes r).length)
    rwa [hlen, ← hbuf] at h

/-- A disk of `m` sectors, just opened for writing. -/
def diskTarget (m : ℕ) (cells : ℕ → Sector) (off : ℕ) : Target where
  cells := cells
  bad := endsAt m
  seekable o := decide (o ≤ 512 * m)
  off := off

theorem diskTarget_write_of_lt {m q : ℕ} (hq : q < m) (cells : ℕ → Sector) (off : ℕ) (s : Sector) :
    ((diskTarget m cells off).lseekSet (512 * q)).write s =
      diskTarget m (Function.update cells q s) (512 * q + 512) := by
  have hseek : (diskTarget m cells off).lseekSet (512 * q) = diskTarget m cells (512 * q) := by
    have hin : (diskTarget m cells off).seekable (512 * q) = true := decide_eq_true (by omega)
    unfold Target.lseekSet
    rw [if_pos hin]
    rfl
  have hgood : ¬ (diskTarget m cells (512 * q)).bad (512 * q / 512) = true := by
    show ¬ decide (m ≤ 512 * q / 512) = true
    rw [decide_eq_true_eq]
    omega
  rw [hseek]
  unfold Target.write
  show (if (diskTarget m cells (512 * q)).bad (512 * q / 512) then _ else _) = _
  rw [if_neg hgood]
  show diskTarget m (Function.update cells (512 * q / 512) s) (512 * q + 512) = _
  rw [Nat.mul_div_cancel_left q (by omega)]

/-- Nothing is written behind the end of a disk. -/
theorem diskTarget_write (m o : ℕ) (cells : ℕ → Sector) (off : ℕ) (s : Sector) :
    ∃ cells' off', ((diskTarget m cells off).lseekSet o).write s = diskTarget m cells' off' ∧
      ∀ q, m ≤ q → cells' q = cells q := by
  have hseek : ∃ o', (diskTarget m cells off).lseekSet o = diskTarget m cells o' := by
    unfold Target.lseekSet
    split_ifs
    · exact ⟨o, rfl⟩
    · exact ⟨off, rfl⟩
  obtain ⟨o', ho'⟩ := hseek
  rw [ho']
  unfold Target.write
  split_ifs with hbad
  · exact ⟨cells, o', rfl, fun _ _ => rfl⟩
  · refine ⟨_, _, rfl, fun q hq => Function.update_of_ne ?_ _ _⟩
    intro h
    apply hbad
    rw [h] at hq
    exact decide_eq_true hq

theorem restoreRaw_returns {m : ℕ} {log : List RawRecord} (hlog : ∀ r ∈ log, r.1.toNat < m) :
    ∀ (buffer : Bytes) (cells : ℕ → Sector) (off : ℕ), ∃ fo,
      Returns (fun fuel => restoreRaw fuel (tabsFile log) buffer (diskTarget m cells off)) fo ∧
        fo.cells = replay cells (writesOf log) := by
  induction log with
  | nil =>
    intro buffer cells off
    exact ⟨_, Returns.last fun fuel => by rw [restoreRaw, tabsFile, List.flatMap_nil, if_pos List.take_nil],
      rfl⟩
  | cons r log ih =>
    intro buffer cells off
    obtain ⟨hr, hlog⟩ := List.forall_mem_cons.mp hlog
    obtain ⟨htake, hdrop⟩ := tabsFile_cons r log
    obtain ⟨hsect, hbytes⟩ := record_in_buffer r buffer
    obtain ⟨fo, hrun, hcells⟩ := ih hlog (overwrite buffer 0 (rawBytes r))
      (Function.update cells r.1.toNat r.2) (512 * r.1.toNat + 512)
    refine ⟨fo, Returns.step (fun fuel => ?_) hrun, hcells⟩
    rw [restoreRaw, htake, hdrop, if_neg (rawBytes_ne_nil r)]
    dsimp only
    rw [hsect, hbytes, diskTarget_write_of_lt hr]

theorem restoreRaw_behind {m : ℕ} {fuel : ℕ} : ∀ {file buffer : Bytes} {cells : ℕ → Sector} {off : ℕ}
    {fo : Target}, restoreRaw fuel file buffer (diskTarget m cells off) = .ok fo →
      ∀ q, m ≤ q → fo.cells q = cells q := by
  induction fuel with
  | zero => intro _ _ _ _ _ h; cases h
  | succ fuel ih =>
    intro file buffer cells off fo h q hq
    rw [restoreRaw] at h
    split_ifs at h
    · cases h
      rfl
    · obtain ⟨cells', off', hwrite, hsame⟩ := diskTarget_write m
        (512 * leVal ((overwrite buffer 0 (file.take 516)).take 4)) cells off
        (Sector.ofMem (overwrite buffer 0 (file.take 516)) 4)
      dsimp only at h
      rw [hwrite] at h
      rw [ih h q hq, hsame q hq]

theorem ptabsFunc_returns {g : Geometry} {d : Drive} {log : List RawRecord}
    (hlog : ∀ r ∈ log, biosdisk g d r.1 = some r.1.toNat) : ∀ (buf : Bytes) (cells : ℕ → Sector),
      Returns (fun fuel => ptabsFunc g d fuel (tabsFile log) buf cells)
        (true, replay cells (writesOf log)) := by
  induction log with
  | nil =>
    intro buf cells
    exact Returns.last fun fuel => by
      rw [ptabsFunc, tabsFile, List.flatMap_nil, if_pos List.take_nil]; rfl
  | cons r log ih =>
    intro buf cells
    obtain ⟨hr, hlog⟩ := List.forall_mem_cons.mp hlog
    obtain ⟨htake, hdrop⟩ := tabsFile_cons r log
    obtain ⟨hsect, hbytes⟩ := record_in_buffer r buf
    have hrun := ih hlog (overwrite buf 0 (rawBytes r)) (Function.update cells r.1.toNat r.2)
    refine Returns.step (fun fuel => ?_) hrun
    rw [ptabsFunc, htake, hdrop, if_neg (rawBytes_ne_nil r)]
    dsimp only
    rw [hsect, hbytes, UInt32.ofNat_toNat, hr]

/-- A cell that has changed was written with a record that the BIOS takes there. -/
theorem ptabsFunc_written {g : Geometry} {d : Drive} {fuel : ℕ} : ∀ {log : List RawRecord}
    {buf : Bytes} {cells cells' : ℕ → Sector} {ok : Bool},
    ptabsFunc g d fuel (tabsFile log) buf cells = .ok (ok, cells') → ∀ q, cells' q = cells q ∨
      ∃ r ∈ log, biosdisk g d r.1 = some q ∧ cells' q = r.2 := by
  induction fuel with
  | zero => intro _ _ _ _ _ h; cases h
  | succ fuel ih =>
    intro log buf cells cells' ok h q
    cases log with
    | nil =>
      rw [ptabsFunc, tabsFile, List.flatMap_nil, if_pos List.take_nil] at h
      cases h
      exact .inl rfl
    | cons r log =>
      obtain ⟨htake, hdrop⟩ := tabsFile_cons r log
      obtain ⟨hsect, hbytes⟩ := record_in_buffer r buf
      rw [ptabsFunc, htake, hdrop, if_neg (rawBytes_ne_nil r)] at h
      dsimp only at h
      rw [hsect, hbytes, UInt32.ofNat_toNat] at h
      cases hblock : biosdisk g d r.1 with
      | none =>
        rw [hblock] at h
        cases h
        exact .inl rfl
      | some block =>
        rw [hblock] at h
        rcases ih h q with hsame | ⟨r', hr', hb, hval⟩
        · by_cases hq : q = block
          · subst hq
            exact .inr ⟨r, List.mem_cons_self, hblock, hsame.trans (Function.update_self ..)⟩
          · exact .inl (hsame.trans (Function.update_of_ne hq ..))
        · exact .inr ⟨r', List.mem_cons_of_mem r hr', hb, hval⟩

/-! ## Restoring exactly the saved sectors -/

section Exactly

variable {n m : ℕ} {g : Geometry} {d : Drive} {ranges : List (UInt32 × UInt32)}

/-- Sector `q` is in one of the ranges. -/
def SavedSector (ranges : List (UInt32 × UInt32)) (q : ℕ) : Prop :=
  ∃ r ∈ ranges, r.1.toNat ≤ q ∧ q ≤ r.2.toNat

theorem mem_ranges_iff {q : ℕ} :
    q ∈ ranges.flatMap (fun r => rawRange r.1 r.2) ↔ SavedSector ranges q := by
  rw [List.mem_flatMap]
  unfold rawRange SavedSector
  simp only [List.mem_range'_1]
  constructor
  · rintro ⟨r, hr, h1, h2⟩
    exact ⟨r, hr, h1, by omega⟩
  · rintro ⟨r, hr, h1, h2⟩
    exact ⟨r, hr, h1, by omega⟩

/-- The covered sectors are those of the disk `D` again, and the others are those of `T`. -/
def Exactly (ranges : List (UInt32 × UInt32)) (D : List Sector) (T cells : ℕ → Sector) : Prop :=
  ∀ q, (SavedSector ranges q → D[q]? = some (cells q)) ∧ (¬ SavedSector ranges q → cells q = T q)

/-- What `save_raw` makes of the ranges of a disk of `n` sectors is written back exactly: by
`restore_raw` to a disk of `m` sectors, and by `ptabs_func` to a drive of the BIOS. -/
def TabsRestored (n m : ℕ) (g : Geometry) (d : Drive) (ranges : List (UInt32 × UInt32)) : Prop :=
  ∀ (D : List Sector) (T : ℕ → Sector) (off : ℕ) (rawBuffer : ℕ → Bytes) (buffer buf : Bytes),
    D.length = n → ∃ log fo cells,
      Returns (fun fuel => saveRaws rawBuffer fuel 0 (diskSource D off) ranges) log ∧
      Returns (fun fuel => restoreRaw fuel (tabsFile log) buffer (diskTarget m T 0)) fo ∧
      Returns (fun fuel => ptabsFunc g d fuel (tabsFile log) buf T) (true, cells) ∧
      Exactly ranges D T fo.cells ∧ Exactly ranges D T cells

/-- Sector `q` is on both disks, and the BIOS finds it. -/
def InReach (n m : ℕ) (g : Geometry) (d : Drive) (q : ℕ) : Prop :=
  q < n ∧ q < m ∧ biosdisk g d (UInt32.ofNat q) = some q

/-- An extended BIOS finds the sectors whose number is not negative. -/
theorem biosdisk_lba {q : ℕ} (hg : g.lba = true) (hq : q < 2 ^ 32) :
    biosdisk g d (UInt32.ofNat q) = some q ↔ q < 2 ^ 31 ∧ q < d.total := by
  have hblock : ((UInt32.ofNat q).toBitVec.signExtend 64).toNat =
      if q < 2 ^ 31 then q else q + (2 ^ 64 - 2 ^ 32) := by
    rw [BitVec.toNat_signExtend, BitVec.msb_eq_decide]
    simp only [UInt32.toNat_toBitVec, UInt32.toNat_ofNat', BitVec.toNat_setWidth, Nat.mod_eq_of_lt hq]
    split_ifs <;> simp_all <;> omega
  unfold biosdisk
  rw [if_pos hg, hblock]
  dsimp only
  split_ifs with h31 htotal htotal
  · exact ⟨fun _ => ⟨h31, htotal⟩, fun _ => rfl⟩
  · exact ⟨False.elim, fun h => absurd h.2 htotal⟩
  · refine ⟨fun h => ?_, fun h => absurd h.1 h31⟩
    have := Option.some.inj h
    omega
  · exact ⟨False.elim, fun h => absurd h.1 h31⟩

/-- A log that is replayed gives the sectors of the disk where it addresses it. -/
theorem exactly_replay {D : List Sector} {T : ℕ → Sector} {log : List RawRecord}
    (hlog : Faithful D log) (hnumbers : recordNumbers log = ranges.flatMap fun r => rawRange r.1 r.2)
    (hin : ∀ q, SavedSector ranges q → q < D.length) : Exactly ranges D T (replay T (writesOf log)) := by
  have hmem : ∀ q, q ∈ (writesOf log).map Prod.fst ↔ SavedSector ranges q := fun q => by
    rw [fst_writesOf, hnumbers, mem_ranges_iff]
  intro q
  constructor
  · intro hq
    have hlt := hin q hq
    have hval : ∀ w ∈ writesOf log, w.1 = q → w.2 = D[q] := by
      intro w hw hwq
      obtain ⟨r, hr, rfl⟩ := List.mem_map.mp hw
      obtain rfl : r.1.toNat = q := hwq
      have h := hlog r hr hlt
      rw [List.getElem?_eq_getElem hlt] at h
      exact (Option.some.inj h).symm
    rw [replay_of_mem hval ((hmem q).mpr hq), List.getElem?_eq_getElem hlt]
  · intro hq
    exact replay_of_not_mem (fun h => hq ((hmem q).mp h)) T

theorem mem_log_covered {log : List RawRecord}
    (hnumbers : recordNumbers log = ranges.flatMap fun r => rawRange r.1 r.2) {r : RawRecord}
    (hr : r ∈ log) : SavedSector ranges r.1.toNat := by
  rw [← mem_ranges_iff, ← hnumbers]
  exact List.mem_map_of_mem hr

/-- A disk on which sector `s` is the only one with ones. -/
def markedDisk (n s : ℕ) : List Sector := (List.replicate n (Sector.fill 0)).set s (Sector.fill 1)

theorem markedDisk_get {s q : ℕ} (h : (markedDisk n s)[q]? = some (Sector.fill 1)) : q = s := by
  unfold markedDisk at h
  by_contra hq
  rw [List.getElem?_set_ne (Ne.symm hq), List.getElem?_replicate] at h
  split_ifs at h
  exact absurd (Sector.fill_injective (Option.some.inj h)) (by decide)

/-- What the readers do to a marked sector tells whether they reach it. -/
theorem TabsRestored.inReach (h : TabsRestored n m g d ranges) :
    ∀ q, SavedSector ranges q → InReach n m g d q := by
  -- every covered sector is on the disk that was saved
  have hn : ∀ q, SavedSector ranges q → q < n := by
    intro q hq
    obtain ⟨_, fo, _, _, _, _, hex, _⟩ := h (List.replicate n (Sector.fill 0)) (fun _ => Sector.fill 0) 0
      (fun _ => []) [] [] List.length_replicate
    have hget := (hex q).1 hq
    have hlt := (List.getElem?_eq_some_iff.mp hget).1
    rwa [List.length_replicate] at hlt
  intro s hs
  have hlen : (markedDisk n s).length = n := by
    unfold markedDisk
    rw [List.length_set, List.length_replicate]
  obtain ⟨log, fo, cells, ⟨k1, hsave⟩, ⟨k2, hraw⟩, ⟨k3, hptabs⟩, hex, hex'⟩ :=
    h (markedDisk n s) (fun _ => Sector.fill 0) 0 (fun _ => []) [] [] hlen
  have hmarked : (markedDisk n s)[s]? = some (Sector.fill 1) := by
    unfold markedDisk
    exact List.getElem?_set_self (by rw [List.length_replicate]; exact hn s hs)
  have hne : Sector.fill 1 ≠ Sector.fill 0 := fun h => absurd (Sector.fill_injective h) (by decide)
  refine ⟨hn s hs, ?_, ?_⟩
  · -- `restore_raw` changes nothing behind the end of its disk
    by_contra hm
    have hsame := restoreRaw_behind (hraw k2 le_rfl) s (by omega)
    have hval := (hex s).1 hs
    rw [hmarked, hsame] at hval
    exact hne (Option.some.inj hval)
  · have hval := (hex' s).1 hs
    rw [hmarked] at hval
    have hcell : cells s = Sector.fill 1 := (Option.some.inj hval).symm
    obtain ⟨hfaithful, hnumbers⟩ := saveRaws_faithful (hsave k1 le_rfl)
    rcases ptabsFunc_written (hptabs k3 le_rfl) s with hsame | ⟨r, hr, hblock, hcontent⟩
    · exact absurd (hcell.symm.trans hsame) hne
    · -- the record written there is the one of the marked sector
      have hget := hfaithful r hr (by rw [hlen]; exact hn _ (mem_log_covered hnumbers hr))
      rw [← hcontent, hcell] at hget
      have hrs := markedDisk_get hget
      rw [← hrs, UInt32.ofNat_toNat, hblock, hrs]

/-- **The saved sectors are restored exactly** when each of them is on both disks and the BIOS finds
it. -/
theorem tabsRestored_iff (n m : ℕ) (g : Geometry) (d : Drive) {ranges : List (UInt32 × UInt32)}
    (hr : ∀ r ∈ ranges, r.2 ≠ 0xFFFFFFFF) :
    TabsRestored n m g d ranges ↔ ∀ q, SavedSector ranges q → InReach n m g d q := by
  refine ⟨TabsRestored.inReach, fun h D T off rawBuffer buffer buf hD => ?_⟩
  subst hD
  obtain ⟨log, hsave⟩ := @saveRaws_returns rawBuffer ranges hr 0 (diskSource D off)
  obtain ⟨hfaithful, hnumbers⟩ : Faithful D log ∧
      recordNumbers log = ranges.flatMap fun r => rawRange r.1 r.2 := by
    obtain ⟨k, hk⟩ := hsave
    exact saveRaws_faithful (hk k le_rfl)
  have hreach : ∀ r ∈ log, InReach D.length m g d r.1.toNat := fun r hr =>
    h _ (mem_log_covered hnumbers hr)
  have hexact := @exactly_replay ranges D T log hfaithful hnumbers fun q hq => (h q hq).1
  obtain ⟨fo, hraw, hcells⟩ := restoreRaw_returns (fun r hr => (hreach r hr).2.1) buffer T 0
  have hptabs := @ptabsFunc_returns g d log (fun r hr => by
    have := (hreach r hr).2.2
    rwa [UInt32.ofNat_toNat] at this) buf T
  exact ⟨log, fo, _, hsave, hraw, hptabs, hcells ▸ hexact, hexact⟩

end Exactly

/-! ## Disks of an extended BIOS -/

def lbaGeometry : Geometry := ⟨true, 0, 0, 0⟩

/-- A drive of `n` sectors. -/
def lbaDrive (n : ℕ) : Drive := ⟨n, fun _ _ _ => none⟩

/-- Two ranges that overlap, on a small disk. -/
theorem tabsRestored_iff_overlap :
    TabsRestored 100 100 lbaGeometry (lbaDrive 100) [(0, 62), (30, 92)] := by
  have hends : ∀ r ∈ [((0 : UInt32), (62 : UInt32)), (30, 92)], r.2 ≠ 0xFFFFFFFF := by
    intro r hr
    rcases List.mem_pair.mp hr with rfl | rfl
    · decide
    · decide
  refine (tabsRestored_iff 100 100 lbaGeometry (lbaDrive 100) hends).mpr fun q hq => ?_
  obtain ⟨r, hr, h1, h2⟩ := hq
  have hlt : q < 100 := by
    rcases List.mem_pair.mp hr with rfl | rfl
    · exact lt_of_le_of_lt h2 (by decide)
    · exact lt_of_le_of_lt h2 (by decide)
  exact ⟨hlt, hlt, (biosdisk_lba rfl (by omega)).mpr ⟨by omega, hlt⟩⟩

/-- A partition that starts at 1 TiB: `ptabs_func` passes a negative number to `biosdisk`. -/
theorem not_tabsRestored_terabyte :
    ¬ TabsRestored (2 ^ 31 + 63) (2 ^ 31 + 63) lbaGeometry (lbaDrive (2 ^ 31 + 63))
      [(0, 62), (0x80000000, 0x8000003E)] := by
  intro h
  have hcovered : SavedSector [(0, 62), (0x80000000, 0x8000003E)] (2 ^ 31) :=
    ⟨(0x80000000, 0x8000003E), by decide, by decide, by decide⟩
  obtain ⟨-, -, hblock⟩ := h.inReach (2 ^ 31) hcovered
  have hlt := ((biosdisk_lba rfl (by decide)).mp hblock).1
  exact absurd hlt (lt_irrefl _)

end LinboxRescue
