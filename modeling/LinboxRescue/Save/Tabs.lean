import LinboxRescue.Save.Prefixes
import LinboxRescue.Image.RoundTrip
import LinboxRescue.Lib.Stream

/-!
# The sectors kept with the partition table

`save_raw` of `autosave.c` appends the sectors `start` to `end` of a disk to its file `...TABS`, each
after its number. `save` calls it for 63 sectors at the start of every device that is not a volume,
and, when a disk has an LDM header, for the database which the header describes.

All bounds are 32-bit numbers, but the header holds 64-bit numbers, and the loop of `save_raw` goes
on while `s <= end`.

1. `saveRaw_numbers`, `saveRaw_returns`: the loop ends unless `end` is the largest number, after the
   sectors from `start` to `end`.
2. `savesRanges_iff`: when every call that `save` makes ends after the sectors it asks for.
-/

namespace LinboxRescue

/-! ## `save_raw` -/

/-- `lseek64(fd, o, SEEK_SET)`. -/
def Source.lseekSet (d : Source) (o : ℕ) : Source := if d.seekable o then { d with off := o } else d

/-- A sector and its number, as `save_raw` appends them to the file. -/
abbrev RawRecord := UInt32 × Sector

/-- The loop of `save_raw(start, end)` from sector `s` on; a failed `read` leaves `buffer` alone. -/
def saveRaw (stop : UInt32) : ℕ → UInt32 → Source → Bytes → Except Halt (List RawRecord × Source)
  | 0, _, _, _ => .error .outOfFuel
  | fuel + 1, s, fd, buffer =>
    if s ≤ stop then
      let r := (fd.lseekSet (512 * s.toNat)).read
      let buffer := readInto buffer 0 r.1
      saveRaw stop fuel (s + 1) r.2 buffer >>= fun (log, fd) =>
        .ok ((s, Sector.ofMem buffer 0) :: log, fd)
    else .ok ([], fd)

/-- The numbers of the records. -/
def recordNumbers (log : List RawRecord) : List ℕ := log.map fun r => r.1.toNat

/-- The sectors from `start` to `stop`. -/
def rawRange (start stop : UInt32) : List ℕ :=
  List.range' start.toNat (stop.toNat + 1 - start.toNat)

theorem toNat_succ_of_le {s stop : UInt32} (h : s ≤ stop) (hstop : stop ≠ 0xFFFFFFFF) :
    (s + 1).toNat = s.toNat + 1 := by
  have h1 : s.toNat ≤ stop.toNat := UInt32.le_iff_toNat_le.mp h
  have h2 : stop.toNat ≠ 4294967295 := fun h => hstop (UInt32.toNat_inj.mp h)
  have h3 := stop.toNat_lt
  rw [UInt32.toNat_add, show (1 : UInt32).toNat = 1 from rfl]
  omega

theorem rawRange_of_le {s stop : UInt32} (h : s ≤ stop) (hstop : stop ≠ 0xFFFFFFFF) :
    rawRange s stop = s.toNat :: rawRange (s + 1) stop := by
  have h1 : s.toNat ≤ stop.toNat := UInt32.le_iff_toNat_le.mp h
  have h2 := toNat_succ_of_le h hstop
  unfold rawRange
  rw [show stop.toNat + 1 - s.toNat = stop.toNat - s.toNat + 1 by omega, List.range'_succ, h2,
    show stop.toNat + 1 - (s.toNat + 1) = stop.toNat - s.toNat by omega]

theorem rawRange_of_not_le {s stop : UInt32} (h : ¬ s ≤ stop) : rawRange s stop = [] := by
  have h1 : ¬ s.toNat ≤ stop.toNat := fun h1 => h (UInt32.le_iff_toNat_le.mpr h1)
  unfold rawRange
  rw [show stop.toNat + 1 - s.toNat = 0 by omega, List.range'_zero]

/-- A run that ends has saved the sectors from `s` to `stop`, and no run ends when `stop` is the
largest number. -/
theorem saveRaw_numbers {stop : UInt32} {fuel : ℕ} : ∀ {s : UInt32} {fd fd' : Source}
    {buffer : Bytes} {log : List RawRecord}, saveRaw stop fuel s fd buffer = .ok (log, fd') →
    stop ≠ 0xFFFFFFFF ∧ recordNumbers log = rawRange s stop := by
  induction fuel with
  | zero => intro _ _ _ _ _ h; cases h
  | succ fuel ih =>
    intro s fd fd' buffer log h
    rw [saveRaw] at h
    by_cases hs : s ≤ stop
    · rw [if_pos hs] at h
      obtain ⟨⟨log', fd''⟩, hrun, hlog⟩ := bind_eq_ok h
      cases hlog
      obtain ⟨hstop, hnumbers⟩ := ih hrun
      refine ⟨hstop, ?_⟩
      rw [rawRange_of_le hs hstop, ← hnumbers]
      rfl
    · rw [if_neg hs] at h
      cases h
      refine ⟨fun hstop => hs ?_, (rawRange_of_not_le hs).symm⟩
      have := s.toNat_lt
      rw [hstop, UInt32.le_iff_toNat_le]
      show s.toNat ≤ 4294967295
      omega

theorem saveRaw_returns {stop : UInt32} (hstop : stop ≠ 0xFFFFFFFF) (n : ℕ) :
    ∀ (s : UInt32) (fd : Source) (buffer : Bytes), stop.toNat + 1 - s.toNat = n →
      ∃ r, Returns (fun fuel => saveRaw stop fuel s fd buffer) r := by
  induction n with
  | zero =>
    intro s fd buffer hn
    have hs : ¬ s ≤ stop := fun h => by
      have := UInt32.le_iff_toNat_le.mp h
      omega
    exact ⟨([], fd), Returns.last fun fuel => by rw [saveRaw, if_neg hs]⟩
  | succ n ih =>
    intro s fd buffer hn
    have hs : s ≤ stop := UInt32.le_iff_toNat_le.mpr (by omega)
    have hsucc := toNat_succ_of_le hs hstop
    obtain ⟨r, hr⟩ : ∃ r, r = (fd.lseekSet (512 * s.toNat)).read := ⟨_, rfl⟩
    obtain ⟨next, hrun⟩ := ih (s + 1) r.2 (readInto buffer 0 r.1) (by omega)
    have hturn : Returns (fun fuel => saveRaw stop fuel (s + 1) r.2 (readInto buffer 0 r.1) >>=
        fun x => .ok ((s, Sector.ofMem (readInto buffer 0 r.1) 0) :: x.1, x.2))
        ((s, Sector.ofMem (readInto buffer 0 r.1) 0) :: next.1, next.2) :=
      hrun.bind (Returns.pure _)
    exact ⟨_, Returns.step (fun fuel => by rw [saveRaw, if_pos hs, hr]) hturn⟩

/-! ## The calls of `save` -/

/-- LDM's privhead. -/
structure Privhead where
  configStart : UInt64
  configSize : UInt64

/-- `swab64(*(__u64 *) (buffer + off))`. -/
def readSwab64 (buffer : Bytes) (off : ℕ) : UInt64 :=
  UInt64.ofNat (leVal ((buffer.drop off).take 8).reverse)

/-- `ldm_check(fd, p)`; `buffer` is not initialised. -/
def ldmCheck (fd : Source) (buffer : Bytes) : Option Privhead × Source :=
  let r := (fd.lseekSet (6 * 512)).read
  let buffer := readInto buffer 0 r.1
  if buffer.take 8 = ascii "PRIVHEAD" then
    (some ⟨readSwab64 buffer 0x12B, readSwab64 buffer 0x133⟩, r.2)
  else (none, r.2)

/-- What a call of `save_raw` is made for: the LDM database, or the sectors at the start of a
device. -/
inductive RawCall
  | ldm (file : Bytes) (ph : Privhead)
  | info (file : Bytes) (poff : ℕ) (geoStart : UInt32)

def RawCall.file : RawCall → Bytes
  | ldm file _ => file
  | info file _ _ => file

/-- `pi_start`: an extended dos partition has 63 sectors before it. -/
def piStart (poff : ℕ) (geoStart : UInt32) : UInt32 :=
  if 5 ≤ poff then if geoStart ≤ 63 then 0 else geoStart - 63 else geoStart

/-- The first argument. -/
def RawCall.start : RawCall → UInt32
  | ldm _ ph => ph.configStart.toUInt32
  | info _ poff geoStart => piStart poff geoStart

/-- The second argument. -/
def RawCall.stop : RawCall → UInt32
  | ldm _ ph => (ph.configStart + ph.configSize - 1).toUInt32
  | info _ _ geoStart => geoStart + 62

/-- The sectors that the call is made for. -/
def RawCall.wanted : RawCall → List ℕ
  | ldm _ ph => List.range' ph.configStart.toNat ph.configSize.toNat
  | info _ poff geoStart =>
    List.range' (piStart poff geoStart).toNat (geoStart.toNat + 63 - (piStart poff geoStart).toNat)

/-- The disks of a machine and what is in memory. -/
structure RawDisks where
  /-- The device of a path, just opened. -/
  disk : Bytes → Source
  /-- What `fmajor` stands for before the first disk. -/
  stdin : Source
  /-- The array `buffer` of the n-th call of `ldm_check`. -/
  ldmBuffer : ℕ → Bytes
  /-- The array `buffer` of the n-th call of `save_raw`. -/
  rawBuffer : ℕ → Bytes

/-- `%sTABS` of the prefix. -/
def tabsName (dnum : ℤ) : Bytes := dnum2pre dnum ++ ascii "TABS"

/-- The start sector of a device whose sectors are kept: neither a volume nor unknown. -/
def Machine.kept (E : Machine) (p : Part) : Option UInt32 :=
  if p.isdm || !E.opens p.path then none else E.geo p.path

/-- The calls of `save_raw` in turn `k`, for a device met in state `st`. -/
def Machine.rawCalls (E : Machine) (V : RawDisks) (k : ℕ) (st : SaveState) (p : Part) :
    List RawCall :=
  let file := tabsName (st.step E p).dnum
  match E.kept p with
  | none => []
  | some start =>
    let ph := if p.dontsave start then (ldmCheck (V.disk p.path) (V.ldmBuffer k)).1 else none
    (ph.map (RawCall.ldm file)).toList ++ [.info file p.poff start]

/-- The descriptor `fmajor` after the check in turn `k`. -/
def Machine.fmajor (E : Machine) (V : RawDisks) (k : ℕ) (old : Source) (p : Part) : Source :=
  match E.kept p with
  | none => old
  | some start => if p.dontsave start then (ldmCheck (V.disk p.path) (V.ldmBuffer k)).2 else old

/-- What `save` keeps while it saves sectors: `log` has an entry for each call. -/
structure TabsRun where
  st : SaveState
  fmajor : Source
  log : List (Bytes × List RawRecord)

/-- A call of `save_raw`. -/
def TabsRun.saveRaw (V : RawDisks) (fuel : ℕ) (t : TabsRun) (c : RawCall) : Except Halt TabsRun :=
  LinboxRescue.saveRaw c.stop fuel c.start t.fmajor (V.rawBuffer t.log.length) >>= fun r =>
    .ok { t with fmajor := r.2, log := t.log ++ [(c.file, r.1)] }

/-- The state in which the calls of turn `k` are made. -/
def TabsRun.look (E : Machine) (V : RawDisks) (k : ℕ) (t : TabsRun) (p : Part) : TabsRun :=
  { t with st := t.st.step E p, fmajor := E.fmajor V k t.fmajor p }

/-- The turns from number `k` on. -/
def saveTabs (E : Machine) (V : RawDisks) (fuel : ℕ) : ℕ → TabsRun → List Part → Except Halt TabsRun
  | _, t, [] => .ok t
  | k, t, p :: ps =>
    (E.rawCalls V k t.st p).foldlM (TabsRun.saveRaw V fuel) (t.look E V k p) >>= fun t =>
      saveTabs E V fuel (k + 1) t ps

/-- The calls that `save` makes in the turns from number `k` on. -/
def Machine.allCalls (E : Machine) (V : RawDisks) : ℕ → SaveState → List Part → List RawCall
  | _, _, [] => []
  | k, st, p :: ps => E.rawCalls V k st p ++ E.allCalls V (k + 1) (st.step E p) ps

/-! ## When a call does what it is made for -/

/-- The bounds of the call are not cut off, and the last sector is not the largest number. -/
def RawCall.Fits : RawCall → Prop
  | ldm _ ph =>
    if ph.configSize = 0 then ph.configStart.toUInt32 ≠ 0
    else ph.configStart.toNat + ph.configSize.toNat < 2 ^ 32
  | info _ _ geoStart => geoStart.toNat + 63 < 2 ^ 32

theorem toNat_piStart_le (poff : ℕ) (geoStart : UInt32) :
    (piStart poff geoStart).toNat ≤ geoStart.toNat := by
  unfold piStart
  split_ifs with h1 h2
  · exact Nat.zero_le _
  · have h3 : ¬ geoStart.toNat ≤ 63 := fun h => h2 (UInt32.le_iff_toNat_le.mpr h)
    rw [UInt32.toNat_sub_of_le _ _ (UInt32.le_iff_toNat_le.mpr (by
      show 63 ≤ geoStart.toNat
      omega))]
    exact Nat.sub_le _ _
  · exact le_refl _

theorem range'_eq_range'_iff {a b m n : ℕ} :
    List.range' a m = List.range' b n ↔ m = n ∧ (m = 0 ∨ a = b) := by
  constructor
  · intro h
    have hlen := congrArg List.length h
    rw [List.length_range', List.length_range'] at hlen
    refine ⟨hlen, ?_⟩
    subst hlen
    cases m with
    | zero => exact .inl rfl
    | succ m =>
      rw [List.range'_succ, List.range'_succ] at h
      exact .inr (List.cons.inj h).1
  · rintro ⟨rfl, rfl | rfl⟩
    · rfl
    · rfl

theorem toNat_stop_ldm (file : Bytes) (ph : Privhead) : (RawCall.ldm file ph).stop.toNat =
    (ph.configStart.toNat + ph.configSize.toNat + (2 ^ 32 - 1)) % 2 ^ 32 := by
  show ((ph.configStart + ph.configSize - 1).toUInt32).toNat = _
  rw [UInt64.toNat_toUInt32, UInt64.toNat_sub, UInt64.toNat_add, show (1 : UInt64).toNat = 1 from rfl]
  omega

/-- `save_raw` ends, after the sectors that were wanted. -/
theorem RawCall.fits_iff (c : RawCall) :
    c.Fits ↔ c.stop ≠ 0xFFFFFFFF ∧ rawRange c.start c.stop = c.wanted := by
  have hne : c.stop ≠ 0xFFFFFFFF ↔ c.stop.toNat ≠ 2 ^ 32 - 1 :=
    not_congr (UInt32.toNat_inj (b := 0xFFFFFFFF)).symm
  rw [hne]
  unfold rawRange
  cases c with
  | ldm file ph =>
    have hstart : (RawCall.ldm file ph).start.toNat = ph.configStart.toNat % 2 ^ 32 :=
      UInt64.toNat_toUInt32 _
    have hzero : ph.configStart.toUInt32 ≠ 0 ↔ ph.configStart.toNat % 2 ^ 32 ≠ 0 :=
      not_congr (UInt32.toNat_inj (b := 0)).symm
    have hsize : ph.configSize = 0 ↔ ph.configSize.toNat = 0 := (UInt64.toNat_inj (b := 0)).symm
    rw [toNat_stop_ldm, hstart, RawCall.wanted, range'_eq_range'_iff, RawCall.Fits, hzero]
    have h1 := ph.configStart.toNat_lt
    have h2 := ph.configSize.toNat_lt
    by_cases h0 : ph.configSize = 0
    · -- an empty database: the range is empty unless `start - 1` is the largest number
      rw [if_pos h0]
      rw [hsize] at h0
      omega
    · rw [if_neg h0]
      rw [hsize] at h0
      omega
  | info file poff geoStart =>
    have hstart := toNat_piStart_le poff geoStart
    have hstop : (RawCall.info file poff geoStart).stop.toNat = (geoStart.toNat + 62) % 2 ^ 32 :=
      UInt32.toNat_add _ _
    have h1 := geoStart.toNat_lt
    rw [hstop, RawCall.start, RawCall.wanted, range'_eq_range'_iff, RawCall.Fits]
    omega

/-! ## The whole run -/

section Run

variable {E : Machine} {V : RawDisks}

/-- What an entry of the log says was saved. -/
def savedSectorsOf (e : Bytes × List RawRecord) : Bytes × List ℕ := (e.1, recordNumbers e.2)

/-- The loop of `save` ends, and every call of `save_raw` has appended the sectors it is made for. -/
def SavesRanges (E : Machine) (V : RawDisks) (majorn : Bytes) (sizes : ℕ × ℕ → Option ℕ) : Prop :=
  ∃ t, Returns (fun fuel => saveTabs E V fuel 0 ⟨E.init majorn sizes, V.stdin, []⟩ E.parts) t ∧
    t.log.map savedSectorsOf =
      (E.allCalls V 0 (E.init majorn sizes) E.parts).map fun c => (c.file, c.wanted)

/-- What a call appends, when it ends. -/
def RawCall.saved (c : RawCall) : Bytes × List ℕ := (c.file, rawRange c.start c.stop)

theorem TabsRun.saveRaw_ok {fuel : ℕ} {t t' : TabsRun} {c : RawCall}
    (h : t.saveRaw V fuel c = .ok t') : c.stop ≠ 0xFFFFFFFF ∧ t'.st = t.st ∧
      t'.log.map savedSectorsOf = t.log.map savedSectorsOf ++ [c.saved] := by
  obtain ⟨r, hrun, ht'⟩ := bind_eq_ok h
  cases ht'
  obtain ⟨hstop, hnumbers⟩ := saveRaw_numbers hrun
  refine ⟨hstop, rfl, ?_⟩
  rw [List.map_append, RawCall.saved, ← hnumbers]
  rfl

theorem calls_ok {fuel : ℕ} {cs : List RawCall} : ∀ {t t' : TabsRun},
    cs.foldlM (TabsRun.saveRaw V fuel) t = .ok t' → (∀ c ∈ cs, c.stop ≠ 0xFFFFFFFF) ∧ t'.st = t.st ∧
      t'.log.map savedSectorsOf = t.log.map savedSectorsOf ++ cs.map RawCall.saved := by
  induction cs with
  | nil =>
    intro t t' h
    cases h
    exact ⟨fun c hc => absurd hc List.not_mem_nil, rfl, (List.append_nil _).symm⟩
  | cons c cs ih =>
    intro t t' h
    rw [List.foldlM_cons] at h
    obtain ⟨t1, hc, hcs⟩ := bind_eq_ok h
    obtain ⟨hstop, hst, hlog⟩ := TabsRun.saveRaw_ok hc
    obtain ⟨hstops, hst', hlog'⟩ := ih hcs
    refine ⟨List.forall_mem_cons.mpr ⟨hstop, hstops⟩, hst'.trans hst, ?_⟩
    rw [hlog', hlog, List.append_assoc, List.map_cons, List.singleton_append]

theorem saveTabs_ok {fuel : ℕ} {ps : List Part} : ∀ {k : ℕ} {t t' : TabsRun},
    saveTabs E V fuel k t ps = .ok t' → (∀ c ∈ E.allCalls V k t.st ps, c.stop ≠ 0xFFFFFFFF) ∧
      t'.log.map savedSectorsOf =
        t.log.map savedSectorsOf ++ (E.allCalls V k t.st ps).map RawCall.saved := by
  induction ps with
  | nil =>
    intro k t t' h
    cases h
    exact ⟨fun c hc => absurd hc List.not_mem_nil, (List.append_nil _).symm⟩
  | cons p ps ih =>
    intro k t t' h
    rw [saveTabs] at h
    obtain ⟨t1, hcalls, hps⟩ := bind_eq_ok h
    obtain ⟨hstop, hst, hlog⟩ := calls_ok hcalls
    obtain ⟨hstops, hlog'⟩ := ih hps
    rw [hst] at hstops hlog'
    refine ⟨List.forall_mem_append.mpr ⟨hstop, hstops⟩, ?_⟩
    rw [hlog', hlog, List.append_assoc, ← List.map_append]
    rfl

theorem calls_returns {cs : List RawCall} (hcs : ∀ c ∈ cs, c.stop ≠ 0xFFFFFFFF) : ∀ t : TabsRun,
    ∃ t', Returns (fun fuel => cs.foldlM (TabsRun.saveRaw V fuel) t) t' := by
  induction cs with
  | nil => exact fun t => ⟨t, Returns.pure t⟩
  | cons c cs ih =>
    intro t
    obtain ⟨hstop, hstops⟩ := List.forall_mem_cons.mp hcs
    obtain ⟨r, hr⟩ := saveRaw_returns hstop _ c.start t.fmajor (V.rawBuffer t.log.length) rfl
    have hc : Returns (fun fuel => t.saveRaw V fuel c) _ := hr.bind (Returns.pure _)
    obtain ⟨t', ht'⟩ := ih hstops _
    exact ⟨t', (hc.bind ht').congr fun fuel => List.foldlM_cons ..⟩

theorem saveTabs_returns {ps : List Part} : ∀ (k : ℕ) (t : TabsRun),
    (∀ c ∈ E.allCalls V k t.st ps, c.stop ≠ 0xFFFFFFFF) →
      ∃ t', Returns (fun fuel => saveTabs E V fuel k t ps) t' := by
  induction ps with
  | nil => exact fun k t _ => ⟨t, Returns.pure t⟩
  | cons p ps ih =>
    intro k t h
    obtain ⟨hcalls, hps⟩ := List.forall_mem_append.mp h
    obtain ⟨t1, ht1⟩ := calls_returns hcalls (t.look E V k p)
    have hst : t1.st = t.st.step E p := by
      obtain ⟨n, hn⟩ := ht1
      exact (calls_ok (hn n le_rfl)).2.1
    obtain ⟨t', ht'⟩ := ih (k + 1) t1 (by rwa [hst])
    exact ⟨t', ht1.bind ht'⟩

/-- Two lists of the same numbers of calls agree call by call. -/
theorem SavesRanges.fits {majorn : Bytes} {sizes : ℕ × ℕ → Option ℕ}
    (h : SavesRanges E V majorn sizes) : ∀ c ∈ E.allCalls V 0 (E.init majorn sizes) E.parts, c.Fits := by
  obtain ⟨t, ⟨n, hn⟩, hlog⟩ := h
  obtain ⟨hstop, hsaved⟩ := saveTabs_ok (hn n le_rfl)
  rw [hsaved, List.map_nil, List.nil_append, List.map_inj_left] at hlog
  intro c hc
  exact c.fits_iff.mpr ⟨hstop c hc, (Prod.mk.inj (hlog c hc)).2⟩

/-- **Every call ends after its sectors** exactly when the bounds of all of them fit. -/
theorem savesRanges_iff (E : Machine) (V : RawDisks) (majorn : Bytes) (sizes : ℕ × ℕ → Option ℕ) :
    SavesRanges E V majorn sizes ↔
      ∀ c ∈ E.allCalls V 0 (E.init majorn sizes) E.parts, c.Fits := by
  refine ⟨SavesRanges.fits, fun h => ?_⟩
  obtain ⟨t, ht⟩ := saveTabs_returns 0 ⟨E.init majorn sizes, V.stdin, []⟩ fun c hc =>
    (c.fits_iff.mp (h c hc)).1
  refine ⟨t, ht, ?_⟩
  obtain ⟨n, hn⟩ := ht
  rw [(saveTabs_ok (hn n le_rfl)).2, List.map_nil, List.nil_append]
  apply List.map_congr_left
  intro c hc
  rw [RawCall.saved, (c.fits_iff.mp (h c hc)).2]

end Run

/-! ## A header without a size -/

/-- Sector 6 of a disk: a privhead that is zero but for its name. -/
def emptyPrivhead : Sector := ⟨padTo 512 (ascii "PRIVHEAD"), length_padTo _ _⟩

/-- Disks whose sector 6 is `s`, with a memory full of zeros. -/
def RawDisks.ofPrivhead (s : Sector) : RawDisks where
  disk _ := openSource (List.replicate 6 (Sector.fill 0) ++ [s]) fun _ => false
  stdin := openSource [] fun _ => false
  ldmBuffer _ := List.replicate 1024 0
  rawBuffer _ := List.replicate 1024 0

/-- One SCSI disk without partitions. -/
def oneDiskMachine : Machine := plainMachine (ascii "sda") (ascii "   8     0        500 sda\n")

/-- The loop from 0 to `0 + 0 - 1` does not end. -/
theorem not_savesRanges_emptyPrivhead :
    ¬ SavesRanges oneDiskMachine (RawDisks.ofPrivhead emptyPrivhead) [] fun _ => none := by
  intro h
  have hcalls : oneDiskMachine.allCalls (RawDisks.ofPrivhead emptyPrivhead) 0
      (oneDiskMachine.init [] fun _ => none) oneDiskMachine.parts =
      [.ldm (ascii "PTABS") ⟨0, 0⟩, .info (ascii "PTABS") 0 0] := rfl
  have hfits := h.fits
  rw [hcalls] at hfits
  have h0 : (0 : UInt32) ≠ 0 := hfits (.ldm (ascii "PTABS") ⟨0, 0⟩) List.mem_cons_self
  exact h0 rfl

end LinboxRescue
