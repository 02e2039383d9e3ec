import LinboxRescue.Boot.TrackBuffer
import LinboxRescue.Lib.CString
import LinboxRescue.Lib.Fuel
import LinboxRescue.Lib.Stream

/-!
# Opening a partition (client/src_revoboot/disk_io.c)

The partitions of a disk are found one after the other: the four slices of the first sector, then
those of the table that the first extended slice points to, and so on. A slice in a later table is
counted only if it is a partition, except the very first one.

1. `nextPcSlice_spec`: `next_pc_slice` gives the slices of the tables in their order.
2. `openLoop_spec`: `open_partition` finds the first slice with the number.
3. `openPartition_spec`: on a disk with a chain of logical partitions, it opens partition `n` where the
   chain says and keeps the place of its entry, and there is no such partition when it says so.
-/

namespace LinboxRescue

/-! ## `next_partition` -/

/-- `PC_SLICE_TYPE`. -/
def sliceType (buf : Bytes) (i : ℕ) : ℕ := (byteAt buf (446 + 4 + 16 * i)).toNat

/-- `PC_SLICE_START`. -/
def sliceStart (buf : Bytes) (i : ℕ) : ℕ := leVal ((buf.drop (446 + 8 + 16 * i)).take 4)

/-- `PC_SLICE_LENGTH`. -/
def sliceLength (buf : Bytes) (i : ℕ) : ℕ := leVal ((buf.drop (446 + 12 + 16 * i)).take 4)

/-- `PC_MBR_CHECK_SIG`. -/
def mbrCheckSig (buf : Bytes) : Bool := leVal ((buf.drop 510).take 2) == 0xAA55

/-- `IS_PC_SLICE_TYPE_EXTENDED`. -/
def isPcSliceTypeExtended (type : ℕ) : Bool := type == 5 || type == 0xF || type == 0x85

/-- The first extended slice of a table. -/
def extendedSlice (buf : Bytes) : Option ℕ :=
  (List.range 4).find? fun i => isPcSliceTypeExtended (sliceType buf i)

/-- The number of a slice after number `no`. -/
def nextSliceNo (no : ℤ) (type : ℕ) : ℤ :=
  if no < 4 ∨ (isPcSliceTypeExtended type = false ∧ type ≠ 0) then no + 1 else no

/-- The buffer, `current_partition`, `current_slice`, `part_start`, `part_length`, the local variables
`part_offset`, `entry` and `ext_offset`, and `cur_part_offset` and `cur_part_addr`. -/
structure Opening where
  st : TrackBuffer
  partition : ℕ
  slice : ℕ
  start : ℕ
  length : ℕ
  offset : ℕ
  entry : ℤ
  extOffset : ℕ
  curOffset : ℕ
  curAddr : ℤ

/-- There are more slices than fuel. -/
inductive OpeningHalt
  | outOfFuel
  deriving DecidableEq, Repr

def Opening.fail (o : Opening) (e : DiskError) : Bool × Opening :=
  (false, { o with st := { o.st with errnum := some e } })

/-- The start of `next_pc_slice`: `pc_slice_no`, and the first table the first time. -/
def Opening.sliceNo (o : Opening) : ℤ × Opening :=
  if o.partition / 2 ^ 16 % 256 = 0xFF then (-1, { o with offset := 0, extOffset := 0, entry := -1 })
  else ((o.partition / 2 ^ 16 % 256 : ℕ), o)

section Code

variable (E : DiskBios) (D : Drives) (drive : ℕ)

/-- `next_pc_slice`, which calls itself for the next table. -/
def nextPcSlice : ℕ → Opening → Except OpeningHalt (Bool × Opening)
  | 0, _ => .error .outOfFuel
  | fuel + 1, o =>
    let (no, o) := o.sliceNo
    let r := rawread E D o.st drive o.offset 0 512
    let o : Opening := { o with st := r.2.st }
    if r.1 = false then .ok (false, o)
    else if mbrCheckSig r.2.buf = false then .ok (o.fail .badPartTable)
    else
      let o : Opening := { o with entry := o.entry + 1 }
      if o.entry = 4 then
        match extendedSlice r.2.buf with
        | none => .ok (o.fail .noPart)
        | some i =>
          let offset := (o.extOffset + sliceStart r.2.buf i) % 2 ^ 32
          nextPcSlice fuel
            { o with offset, extOffset := if o.extOffset = 0 then offset else o.extOffset, entry := -1 }
      else
        let e := o.entry.toNat
        .ok (true, { o with
          slice := sliceType r.2.buf e
          start := (o.offset + sliceStart r.2.buf e) % 2 ^ 32
          length := sliceLength r.2.buf e
          partition := (nextSliceNo no (sliceType r.2.buf e) * 2 ^ 16 + 0xFFFF).toNat })

/-- `next_partition`. -/
def nextPartition (fuel : ℕ) (o : Opening) : Except OpeningHalt (Bool × Opening) :=
  if drive = 0x20 then .ok (false, o) else nextPcSlice E D drive fuel o

/-- The loop of `real_open_partition`. -/
def openLoop (dest : ℕ) : ℕ → Opening → Except OpeningHalt (Bool × Opening)
  | 0, _ => .error .outOfFuel
  | fuel + 1, o => nextPartition E D drive fuel o >>= fun r =>
    if r.1 = false then .ok r
    else
      let o : Opening := { r.2 with curOffset := r.2.offset, curAddr := 0x7BE + 16 * r.2.entry }
      if o.slice = 0 then openLoop dest fuel o
      else
        let o : Opening := { o with st := { o.st with errnum := none } }
        if dest = o.partition ∨
            (dest / 2 ^ 16 = 0xFF ∧ dest / 2 ^ 8 % 256 = o.partition / 2 ^ 8 % 256) then .ok (true, o)
        else openLoop dest fuel o

/-- `sane_partition`. -/
def sanePartition (partition : ℕ) : Bool :=
  drive == 0x20 || (partition / 2 ^ 24 % 256 == 0 && drive &&& 0xFFFFFF7F < 8 &&
    partition % 256 == 0xFF &&
    (partition &&& 0xFF00 == 0xFF00 || partition &&& 0xFF00 < 0x800) &&
    (partition / 2 ^ 16 == 0xFF || drive &&& 0x80 != 0))

/-- `open_partition`. -/
def openPartition (fuel : ℕ) (o : Opening) : Except OpeningHalt (Bool × Opening) :=
  if drive = 0x20 then .ok (true, o)
  else if sanePartition drive o.partition = false then .ok (o.fail .devValues)
  else
    let dest := o.partition
    let o : Opening := { o with slice := 0, start := 0 }
    match checkDrive E drive o.st with
    | none => .ok (false, { o with st := validGeom E drive o.st })
    | some st =>
      let o : Opening := { o with st, length := st.geom.totalSectors }
      if o.partition = 0xFFFFFF then .ok (true, o)
      else openLoop E D drive dest fuel { o with partition := 0xFFFFFF }

end Code

/-! ## The slices of a disk -/

/-- The bytes of a sector. -/
def sectorAt (dev : ℕ → UInt8) (sector : ℕ) : Bytes := (List.range' (512 * sector) 512).map dev

/-- A slice, with the sector it starts at, the sector of its table and its entry there. -/
structure Slice where
  type : ℕ
  start : ℕ
  length : ℕ
  table : ℕ
  entry : ℕ
  deriving DecidableEq, Repr

/-- Slice `i` of the table in sector `offset`. -/
def sliceAt (dev : ℕ → UInt8) (offset i : ℕ) : Slice where
  type := sliceType (sectorAt dev offset) i
  start := (offset + sliceStart (sectorAt dev offset) i) % 2 ^ 32
  length := sliceLength (sectorAt dev offset) i
  table := offset
  entry := i

theorem sliceAt_type (dev : ℕ → UInt8) (offset i : ℕ) :
    (sliceAt dev offset i).type = sliceType (sectorAt dev offset) i := rfl

/-- The next slice is number `entry` of the table in sector `offset`, and `no` is the number of the one
before. -/
structure SlicePos where
  offset : ℕ
  extOffset : ℕ
  entry : ℕ
  no : ℤ

/-- The slices from a place on, each with its number. -/
inductive SlicesFrom (dev : ℕ → UInt8) : SlicePos → List (ℤ × Slice) → Prop
  | nil {p : SlicePos} : mbrCheckSig (sectorAt dev p.offset) = true → p.entry = 4 →
      extendedSlice (sectorAt dev p.offset) = none → SlicesFrom dev p []
  | slice {p : SlicePos} {no : ℤ} {rest : List (ℤ × Slice)} :
      mbrCheckSig (sectorAt dev p.offset) = true → p.entry < 4 →
      no = nextSliceNo p.no (sliceAt dev p.offset p.entry).type → no < 255 →
      SlicesFrom dev ⟨p.offset, p.extOffset, p.entry + 1, no⟩ rest →
      SlicesFrom dev p ((no, sliceAt dev p.offset p.entry) :: rest)
  | table {p : SlicePos} {i offset : ℕ} {rest : List (ℤ × Slice)} :
      mbrCheckSig (sectorAt dev p.offset) = true → p.entry = 4 →
      extendedSlice (sectorAt dev p.offset) = some i →
      offset = (p.extOffset + sliceStart (sectorAt dev p.offset) i) % 2 ^ 32 →
      SlicesFrom dev ⟨offset, if p.extOffset = 0 then offset else p.extOffset, 0, p.no⟩ rest →
      SlicesFrom dev p rest

/-- The variables of `real_open_partition` are at this place. -/
structure Opening.At (o : Opening) (p : SlicePos) : Prop where
  number : (o.partition = 0xFFFFFF ∧ p = ⟨0, 0, 0, -1⟩) ∨
    (0 ≤ p.no ∧ p.no < 255 ∧ (o.partition : ℤ) = p.no * 2 ^ 16 + 0xFFFF ∧ o.offset = p.offset ∧
      o.extOffset = p.extOffset ∧ o.entry = p.entry - 1)

theorem Opening.At.sliceNo {o : Opening} {p : SlicePos} (h : o.At p) : o.sliceNo =
    (p.no, { o with offset := p.offset, extOffset := p.extOffset, entry := p.entry - 1 }) := by
  unfold Opening.sliceNo
  rcases h.number with ⟨hpart, rfl⟩ | ⟨h0, h255, hpart, hoffset, hext, hentry⟩
  · rw [if_pos (by rw [hpart]; decide)]
    rfl
  · have hno : ((o.partition / 2 ^ 16 % 256 : ℕ) : ℤ) = p.no := by omega
    rw [if_neg (by omega), hno, ← hoffset, ← hext, ← hentry]

section Spec

variable {E : DiskBios} {D : Drives} {drive : ℕ}

/-- The variables of `real_open_partition` describe slice `s` with number `no`. -/
structure Opening.Shows (o : Opening) (no : ℤ) (s : Slice) : Prop where
  partition : (o.partition : ℤ) = no * 2 ^ 16 + 0xFFFF
  slice : o.slice = s.type
  start : o.start = s.start
  length : o.length = s.length
  table : o.offset = s.table
  entry : o.entry = s.entry

/-- A sector is read, or there is an error. -/
theorem rawread_sector {st : TrackBuffer} (h : Coherent E D st) (herr : st.errnum = none)
    (drive sector : ℕ) :
    Coherent E D (rawread E D st drive sector 0 512).2.st ∧
      (((rawread E D st drive sector 0 512).1 = true ∧
        (rawread E D st drive sector 0 512).2.st.errnum = none ∧
        (rawread E D st drive sector 0 512).2.buf = sectorAt (D drive) sector) ∨
      ((rawread E D st drive sector 0 512).1 = false ∧
        ReadFailed (rawread E D st drive sector 0 512).2.st)) := by
  obtain ⟨hkeep, hread⟩ := @rawread_spec E D drive st h (by omega) sector 0 (by decide) 512
  refine ⟨hkeep, ?_⟩
  rcases @rawread_errnum E D drive st herr sector 0 512 (by decide) with ⟨hok, hnone⟩ | hfail
  · exact .inl ⟨hok, hnone, (hread hok).buf⟩
  · exact .inr hfail

/-- What a call of `next_pc_slice` does when these are the slices that are left. -/
inductive NextSlice (E : DiskBios) (D : Drives) (drive : ℕ) (items : List (ℤ × Slice)) :
    Bool × Opening → Prop
  | failed {o : Opening} : Coherent E D o.st → ReadFailed o.st → NextSlice E D drive items (false, o)
  | finished {o : Opening} : Coherent E D o.st → o.st.errnum = some .noPart → items = [] →
      NextSlice E D drive items (false, o)
  | found {o : Opening} {no : ℤ} {s : Slice} {rest : List (ℤ × Slice)} {p : SlicePos} :
      Coherent E D o.st → o.st.errnum = none → items = (no, s) :: rest → o.Shows no s → o.At p →
      SlicesFrom (D drive) p rest → NextSlice E D drive items (true, o)

/-- The variables of `next_pc_slice` after the sector was read. -/
def Opening.reading (o : Opening) (p : SlicePos) (st : TrackBuffer) : Opening :=
  { o with st, offset := p.offset, extOffset := p.extOffset, entry := p.entry - 1 }

section Step

variable {o : Opening} {p : SlicePos} (hat : o.At p)

include hat

theorem nextPcSlice_failed (hfail : (rawread E D o.st drive p.offset 0 512).1 = false) (fuel : ℕ) :
    nextPcSlice E D drive (fuel + 1) o =
      .ok (false, o.reading p (rawread E D o.st drive p.offset 0 512).2.st) := by
  rw [nextPcSlice, hat.sliceNo]
  dsimp only
  rw [if_pos hfail]
  rfl

variable (hok : (rawread E D o.st drive p.offset 0 512).1 = true)
  (hbuf : (rawread E D o.st drive p.offset 0 512).2.buf = sectorAt (D drive) p.offset)
  (hsig : mbrCheckSig (sectorAt (D drive) p.offset) = true)

include hok hbuf hsig

/-- The last table ends. -/
theorem nextPcSlice_nil (hentry : p.entry = 4)
    (hnone : extendedSlice (sectorAt (D drive) p.offset) = none) (fuel : ℕ) :
    nextPcSlice E D drive (fuel + 1) o = .ok (Opening.fail
      { o.reading p (rawread E D o.st drive p.offset 0 512).2.st with entry := p.entry } .noPart) := by
  have hfour : (p.entry : ℤ) = 4 := by omega
  rw [nextPcSlice, hat.sliceNo]
  simp only [hok, hbuf, hsig, hnone, Bool.true_eq_false, if_false, sub_add_cancel, if_pos hfour]
  rfl

/-- The table has a next one. -/
theorem nextPcSlice_table (hentry : p.entry = 4) {i : ℕ}
    (hsome : extendedSlice (sectorAt (D drive) p.offset) = some i) {offset : ℕ}
    (hoffset : offset = (p.extOffset + sliceStart (sectorAt (D drive) p.offset) i) % 2 ^ 32)
    (fuel : ℕ) :
    nextPcSlice E D drive (fuel + 1) o = nextPcSlice E D drive fuel
      { o.reading p (rawread E D o.st drive p.offset 0 512).2.st with
        offset, extOffset := if p.extOffset = 0 then offset else p.extOffset, entry := -1 } := by
  have hfour : (p.entry : ℤ) = 4 := by omega
  rw [nextPcSlice, hat.sliceNo, hoffset]
  simp only [hok, hbuf, hsig, hsome, Bool.true_eq_false, if_false, sub_add_cancel, if_pos hfour]
  rfl

/-- A slice of the table. -/
theorem nextPcSlice_slice (hentry : p.entry < 4) {no : ℤ}
    (hno : no = nextSliceNo p.no (sliceAt (D drive) p.offset p.entry).type) (fuel : ℕ) :
    nextPcSlice E D drive (fuel + 1) o = .ok (true,
      { o.reading p (rawread E D o.st drive p.offset 0 512).2.st with
        entry := p.entry
        slice := (sliceAt (D drive) p.offset p.entry).type
        start := (sliceAt (D drive) p.offset p.entry).start
        length := (sliceAt (D drive) p.offset p.entry).length
        partition := (no * 2 ^ 16 + 0xFFFF).toNat }) := by
  have hfour : ¬ (p.entry : ℤ) = 4 := by omega
  rw [nextPcSlice, hat.sliceNo, hno]
  simp only [hok, hbuf, hsig, Bool.true_eq_false, if_false, sub_add_cancel, if_neg hfour,
    Int.toNat_natCast]
  rfl

end Step

theorem neg_one_le_nextSliceNo {no : ℤ} (h : -1 ≤ no) (type : ℕ) : 0 ≤ nextSliceNo no type := by
  unfold nextSliceNo
  split_ifs with hnext
  · omega
  · have := not_lt.mp (not_or.mp hnext).1
    omega

theorem Opening.At.neg_one_le {o : Opening} {p : SlicePos} (h : o.At p) : -1 ≤ p.no := by
  rcases h.number with ⟨-, rfl⟩ | ⟨h0, -⟩
  · exact le_rfl
  · omega

/-- **`next_pc_slice` gives the slices of the tables in their order.** -/
theorem nextPcSlice_spec {p : SlicePos} {items : List (ℤ × Slice)} (h : SlicesFrom (D drive) p items) :
    ∀ {o : Opening}, o.At p → Coherent E D o.st → o.st.errnum = none →
      ∃ r, Returns (fun fuel => nextPcSlice E D drive fuel o) r ∧ NextSlice E D drive items r := by
  induction h with
  | @nil p hsig hentry hlast =>
    intro o hat hco herr
    obtain ⟨hkeep, ⟨hok, hnone, hbuf⟩ | ⟨hfalse, hfail⟩⟩ := rawread_sector hco herr drive p.offset
    · exact ⟨_, Returns.last (nextPcSlice_nil hat hok hbuf hsig hentry hlast),
        .finished (fun _ hd => (hkeep.ready hnone hd).setErrnum _) rfl rfl⟩
    · exact ⟨_, Returns.last (nextPcSlice_failed hat hfalse), .failed hkeep hfail⟩
  | @slice p no rest hsig hentry hno hlt hrest ih =>
    intro o hat hco herr
    obtain ⟨hkeep, ⟨hok, hnone, hbuf⟩ | ⟨hfalse, hfail⟩⟩ := rawread_sector hco herr drive p.offset
    · have h0 : 0 ≤ no := hno ▸ neg_one_le_nextSliceNo hat.neg_one_le _
      have hpart : (((no * 2 ^ 16 + 0xFFFF).toNat : ℕ) : ℤ) = no * 2 ^ 16 + 0xFFFF :=
        Int.toNat_of_nonneg (by omega)
      refine ⟨_, Returns.last (nextPcSlice_slice hat hok hbuf hsig hentry hno),
        .found (p := ⟨p.offset, p.extOffset, p.entry + 1, no⟩) hkeep hnone rfl
          ⟨hpart, rfl, rfl, rfl, rfl, rfl⟩ ⟨.inr ⟨h0, hlt, hpart, rfl, rfl, ?_⟩⟩ hrest⟩
      show (p.entry : ℤ) = ((p.entry + 1 : ℕ) : ℤ) - 1
      omega
    · exact ⟨_, Returns.last (nextPcSlice_failed hat hfalse), .failed hkeep hfail⟩
  | @table p i offset rest hsig hentry hsome hoffset hrest ih =>
    intro o hat hco herr
    obtain ⟨hkeep, ⟨hok, hnone, hbuf⟩ | ⟨hfalse, hfail⟩⟩ := rawread_sector hco herr drive p.offset
    · have hno : 0 ≤ p.no ∧ p.no < 255 ∧ (o.partition : ℤ) = p.no * 2 ^ 16 + 0xFFFF := by
        rcases hat.number with ⟨-, rfl⟩ | ⟨h0, h255, hpart, -⟩
        · cases hentry
        · exact ⟨h0, h255, hpart⟩
      obtain ⟨r, hr, hnext⟩ := @ih
        { o.reading p (rawread E D o.st drive p.offset 0 512).2.st with
          offset, extOffset := if p.extOffset = 0 then offset else p.extOffset, entry := -1 }
        ⟨.inr ⟨hno.1, hno.2.1, hno.2.2, rfl, rfl, rfl⟩⟩ hkeep hnone
      exact ⟨r, Returns.step (nextPcSlice_table hat hok hbuf hsig hentry hsome hoffset) hr, hnext⟩
    · exact ⟨_, Returns.last (nextPcSlice_failed hat hfalse), .failed hkeep hfail⟩

/-! ## `open_partition` -/

/-- The first slice that is `open_partition`ed as number `n`. -/
def findSlice (n : ℕ) (items : List (ℤ × Slice)) : Option (ℤ × Slice) :=
  items.find? fun x => x.2.type != 0 && x.1 == (n : ℤ)

/-- How `open_partition` ends, when this is the slice with the number. The place of its entry is left in
`cur_part_offset` and `cur_part_addr`. -/
inductive PartitionOpened (E : DiskBios) (D : Drives) (n : ℕ) (found : Option (ℤ × Slice)) :
    Bool × Opening → Prop
  | failed {o : Opening} : Coherent E D o.st → ReadFailed o.st → PartitionOpened E D n found (false, o)
  | noPart {o : Opening} : Coherent E D o.st → o.st.errnum = some .noPart → found = none →
      PartitionOpened E D n found (false, o)
  | opened {o : Opening} {s : Slice} : Coherent E D o.st → o.st.errnum = none →
      found = some ((n : ℤ), s) → o.Shows n s → o.curOffset = s.table →
      o.curAddr = 0x7BE + 16 * s.entry → PartitionOpened E D n found (true, o)

/-- `cur_part_offset` and `cur_part_addr` of a slice. -/
def Opening.seen (o : Opening) : Opening :=
  { o with curOffset := o.offset, curAddr := 0x7BE + 16 * o.entry }

section Loop

variable {dest : ℕ} {o o' : Opening} (hdrive : drive ≠ 0x20)

include hdrive

theorem openLoop_succ (fuel : ℕ) : openLoop E D drive dest (fuel + 1) o =
    nextPcSlice E D drive fuel o >>= fun r =>
      if r.1 = false then .ok r
      else if r.2.slice = 0 then openLoop E D drive dest fuel r.2.seen
      else if dest = r.2.partition ∨
          (dest / 2 ^ 16 = 0xFF ∧ dest / 2 ^ 8 % 256 = r.2.partition / 2 ^ 8 % 256) then
        .ok (true, { r.2.seen with st := { r.2.st with errnum := none } })
      else openLoop E D drive dest fuel { r.2.seen with st := { r.2.st with errnum := none } } := by
  rw [openLoop]
  unfold nextPartition
  rw [if_neg hdrive]
  rfl

theorem openLoop_stop (h : Returns (fun fuel => nextPcSlice E D drive fuel o) (false, o')) :
    Returns (fun fuel => openLoop E D drive dest fuel o) (false, o') :=
  Returns.step (openLoop_succ hdrive) (Returns.bind h (Returns.pure _))

theorem openLoop_found (h : Returns (fun fuel => nextPcSlice E D drive fuel o) (true, o'))
    (herr : o'.st.errnum = none) (hslice : o'.slice ≠ 0) (hdest : dest = o'.partition) :
    Returns (fun fuel => openLoop E D drive dest fuel o) (true, o'.seen) := by
  have hst : ({ o'.seen with st := { o'.st with errnum := none } } : Opening) = o'.seen := by
    rw [← herr]
    rfl
  refine Returns.step (openLoop_succ hdrive) (Returns.bind h (Returns.congr (fun fuel => ?_)
    (Returns.pure _)))
  rw [if_neg Bool.true_eq_false.mp, if_neg hslice, if_pos (.inl hdest), hst]

theorem openLoop_next (h : Returns (fun fuel => nextPcSlice E D drive fuel o) (true, o'))
    (herr : o'.st.errnum = none) (hother : o'.slice = 0 ∨ dest ≠ o'.partition)
    (hdest : dest / 2 ^ 16 ≠ 0xFF) {r : Bool × Opening}
    (hr : Returns (fun fuel => openLoop E D drive dest fuel o'.seen) r) :
    Returns (fun fuel => openLoop E D drive dest fuel o) r := by
  have hst : ({ o'.seen with st := { o'.st with errnum := none } } : Opening) = o'.seen := by
    rw [← herr]
    rfl
  refine Returns.step (openLoop_succ hdrive) (Returns.bind h (Returns.congr (fun fuel => ?_) hr))
  rw [if_neg Bool.true_eq_false.mp]
  by_cases hslice : o'.slice = 0
  · rw [if_pos hslice]
  · rw [if_neg hslice, if_neg (not_or.mpr ⟨hother.resolve_left hslice, fun h => hdest h.1⟩), hst]

end Loop

theorem openLoop_spec (hdrive : drive ≠ 0x20) {n : ℕ} (hn : n < 255) (items : List (ℤ × Slice)) :
    ∀ {p : SlicePos}, SlicesFrom (D drive) p items → ∀ {o : Opening}, o.At p → Coherent E D o.st →
      o.st.errnum = none →
      ∃ r, Returns (fun fuel => openLoop E D drive (n * 2 ^ 16 + 0xFFFF) fuel o) r ∧
        PartitionOpened E D n (findSlice n items) r := by
  induction items with
  | nil =>
    intro p h o hat hco herr
    obtain ⟨r, hr, hnext⟩ := nextPcSlice_spec h hat hco herr
    cases hnext with
    | failed hco' hfail => exact ⟨_, openLoop_stop hdrive hr, .failed hco' hfail⟩
    | finished hco' hpart _ => exact ⟨_, openLoop_stop hdrive hr, .noPart hco' hpart rfl⟩
    | found _ _ hitems => cases hitems
  | cons x items ih =>
    intro p h o hat hco herr
    obtain ⟨r, hr, hnext⟩ := nextPcSlice_spec h hat hco herr
    cases hnext with
    | failed hco' hfail => exact ⟨_, openLoop_stop hdrive hr, .failed hco' hfail⟩
    | finished _ _ hitems => cases hitems
    | @found o' no s rest p' hco' herr' hitems hshows hat' hrest =>
      obtain ⟨rfl, rfl⟩ := List.cons.inj hitems
      have hpart := hshows.partition
      by_cases hfound : s.type ≠ 0 ∧ no = n
      · obtain ⟨htype, rfl⟩ := hfound
        refine ⟨_, openLoop_found hdrive hr herr' (hshows.slice ▸ htype) (by omega), .opened hco' herr'
          ?_ ⟨hpart, hshows.slice, hshows.start, hshows.length, hshows.table, hshows.entry⟩ hshows.table ?_⟩
        · exact List.find?_cons_of_pos (by simp [htype])
        · exact congrArg (fun e => 0x7BE + 16 * e) hshows.entry
      · have hskip : findSlice n ((no, s) :: items) = findSlice n items :=
          List.find?_cons_of_neg (by simpa using hfound)
        rw [hskip]
        obtain ⟨r', hr', hopened⟩ := @ih p' hrest o'.seen ⟨hat'.number⟩ hco' herr'
        refine ⟨r', openLoop_next hdrive hr herr' ?_ (by omega) hr', hopened⟩
        by_cases htype : s.type = 0
        · exact .inl (hshows.slice.trans htype)
        · refine .inr fun hdest => hfound ⟨htype, ?_⟩
          omega

end Spec

/-! ## Disks with logical partitions -/

/-- The table in sector `offset`, which is an `int`, has a partition, and no slice behind the second
one. -/
structure LogicalTable (dev : ℕ → UInt8) (offset : ℕ) : Prop where
  offset_lt : offset < 2 ^ 31
  sig : mbrCheckSig (sectorAt dev offset) = true
  type_ne : (sliceAt dev offset 0).type ≠ 0
  not_extended : isPcSliceTypeExtended (sliceAt dev offset 0).type = false
  third : (sliceAt dev offset 2).type = 0
  fourth : (sliceAt dev offset 3).type = 0

/-- The logical partitions from the table in sector `offset` on. The second slice of a table leads
to the next one, counted from the start of the extended partition. -/
inductive LogicalChain (dev : ℕ → UInt8) (ext : ℕ) : ℕ → List Slice → Prop
  | last {offset : ℕ} : LogicalTable dev offset → (sliceAt dev offset 1).type = 0 →
      LogicalChain dev ext offset [sliceAt dev offset 0]
  | link {offset next : ℕ} {ls : List Slice} : LogicalTable dev offset →
      isPcSliceTypeExtended (sliceAt dev offset 1).type = true →
      next = (ext + sliceStart (sectorAt dev offset) 1) % 2 ^ 32 →
      LogicalChain dev ext next ls → LogicalChain dev ext offset (sliceAt dev offset 0 :: ls)

/-- A disk with four primary partitions, which may be empty, and the logical ones in the first extended
partition. The numbers are below 255, with which the search would start again. -/
structure PartitionedDisk (dev : ℕ → UInt8) (logical : List Slice) : Prop where
  sig : mbrCheckSig (sectorAt dev 0) = true
  chain : (extendedSlice (sectorAt dev 0) = none ∧ logical = []) ∨
    ∃ i, extendedSlice (sectorAt dev 0) = some i ∧ (sliceAt dev 0 i).start ≠ 0 ∧
      LogicalChain dev (sliceAt dev 0 i).start (sliceAt dev 0 i).start logical
  count : logical.length ≤ 251

/-- Partition `n` of the disk. -/
def partitionOf (dev : ℕ → UInt8) (logical : List Slice) (n : ℕ) : Option Slice :=
  if n < 4 then if (sliceAt dev 0 n).type = 0 then none else some (sliceAt dev 0 n)
  else logical[n - 4]?

theorem not_isPcSliceTypeExtended_zero : isPcSliceTypeExtended 0 = false := rfl

/-- Behind the primary partitions, only partitions are counted. -/
theorem nextSliceNo_of_le {no : ℤ} (h : 4 ≤ no) {type : ℕ}
    (htype : isPcSliceTypeExtended type = true ∨ type = 0) : nextSliceNo no type = no := by
  unfold nextSliceNo
  refine if_neg (not_or.mpr ⟨by omega, fun hreal => ?_⟩)
  rcases htype with h | rfl
  · exact Bool.false_ne_true (hreal.1.symm.trans h)
  · exact hreal.2 rfl

theorem findSlice_cons (n : ℕ) (no : ℤ) (s : Slice) (items : List (ℤ × Slice)) :
    findSlice n ((no, s) :: items) =
      if s.type ≠ 0 ∧ no = n then some ((n : ℤ), s) else findSlice n items := by
  by_cases h : s.type ≠ 0 ∧ no = n
  · rw [if_pos h, ← h.2]
    exact List.find?_cons_of_pos (by simp [h])
  · rw [if_neg h]
    exact List.find?_cons_of_neg (by simpa using h)

theorem findSlice_cons_of_ne {n : ℕ} {no : ℤ} (h : no ≠ n) (s : Slice) (items : List (ℤ × Slice)) :
    findSlice n ((no, s) :: items) = findSlice n items := by
  rw [findSlice_cons, if_neg fun hs => h hs.2]

section Chains

variable {dev : ℕ → UInt8}

theorem SlicesFrom.cons {offset ext e : ℕ} {no no' : ℤ} {rest : List (ℤ × Slice)}
    (hsig : mbrCheckSig (sectorAt dev offset) = true) (he : e < 4)
    (hno : nextSliceNo no (sliceAt dev offset e).type = no') (hlt : no' < 255)
    (hrest : SlicesFrom dev ⟨offset, ext, e + 1, no'⟩ rest) :
    SlicesFrom dev ⟨offset, ext, e, no⟩ ((no', sliceAt dev offset e) :: rest) :=
  .slice hsig he hno.symm hlt hrest

/-- The slices of a table with a logical partition: the partition, with the next number, and three more
with the same number. -/
theorem LogicalTable.slices {offset ext : ℕ} (h : LogicalTable dev offset) {no : ℤ} (hno : 3 ≤ no)
    (hlt : no < 254) (hsecond : isPcSliceTypeExtended (sliceAt dev offset 1).type = true ∨
      (sliceAt dev offset 1).type = 0) {rest : List (ℤ × Slice)}
    (hrest : SlicesFrom dev ⟨offset, ext, 4, no + 1⟩ rest) :
    SlicesFrom dev ⟨offset, ext, 0, no⟩ ((no + 1, sliceAt dev offset 0) ::
      (no + 1, sliceAt dev offset 1) :: (no + 1, sliceAt dev offset 2) ::
        (no + 1, sliceAt dev offset 3) :: rest) := by
  have hfirst : nextSliceNo no (sliceAt dev offset 0).type = no + 1 :=
    if_pos (.inr ⟨h.not_extended, h.type_ne⟩)
  refine .cons h.sig (by decide) hfirst (by omega) ?_
  refine .cons h.sig (by decide) (nextSliceNo_of_le (by omega) hsecond) (by omega) ?_
  refine .cons h.sig (by decide) (nextSliceNo_of_le (by omega) (.inr h.third)) (by omega) ?_
  exact .cons h.sig (by decide) (nextSliceNo_of_le (by omega) (.inr h.fourth)) (by omega) hrest

theorem LogicalTable.extendedSlice {offset : ℕ} (h : LogicalTable dev offset) :
    extendedSlice (sectorAt dev offset) =
      if isPcSliceTypeExtended (sliceAt dev offset 1).type then some 1 else none := by
  unfold LinboxRescue.extendedSlice
  rw [show List.range 4 = [0, 1, 2, 3] from rfl]
  simp only [List.find?, ← sliceAt_type, h.not_extended, h.third, h.fourth,
    not_isPcSliceTypeExtended_zero]
  cases isPcSliceTypeExtended (sliceAt dev offset 1).type <;> rfl

/-- The slices of a chain: a logical partition is the first slice with its number. -/
theorem LogicalChain.slices {ext offset : ℕ} {ls : List Slice} (h : LogicalChain dev ext offset ls)
    (hext : ext ≠ 0) : ∀ {no : ℤ}, 3 ≤ no → no + ls.length < 255 →
    ∃ items, SlicesFrom dev ⟨offset, ext, 0, no⟩ items ∧ ∀ n : ℕ, findSlice n items =
      if no < n then (ls[(n - no - 1).toNat]?).map ((n : ℤ), ·) else none := by
  have hskip : ∀ {offset : ℕ} {no : ℤ} {n : ℕ} {rest : List (ℤ × Slice)}, no + 1 ≠ n →
      findSlice n ((no + 1, sliceAt dev offset 0) :: (no + 1, sliceAt dev offset 1) ::
        (no + 1, sliceAt dev offset 2) :: (no + 1, sliceAt dev offset 3) :: rest) =
          findSlice n rest := by
    intro offset no n rest hne
    rw [findSlice_cons_of_ne hne, findSlice_cons_of_ne hne, findSlice_cons_of_ne hne,
      findSlice_cons_of_ne hne]
  have hfirst : ∀ {offset : ℕ} {no : ℤ} {n : ℕ} {items : List (ℤ × Slice)},
      LogicalTable dev offset → no + 1 = n →
      findSlice n ((no + 1, sliceAt dev offset 0) :: items) = some ((n : ℤ), sliceAt dev offset 0) := by
    intro offset no n items htable hn
    rw [hn]
    exact List.find?_cons_of_pos (by simp [htable.type_ne])
  induction h with
  | @last offset htable hsecond =>
    intro no hno hlt
    have hlt : no + 1 < 255 := hlt
    have hend : LinboxRescue.extendedSlice (sectorAt dev offset) = none := by
      rw [htable.extendedSlice, hsecond]
      rfl
    refine ⟨_, htable.slices hno (by omega) (.inr hsecond) (.nil htable.sig rfl hend), fun n => ?_⟩
    by_cases hn : no + 1 = n
    · rw [hfirst htable hn, if_pos (by omega), show (n - no - 1).toNat = 0 by omega]
      rfl
    · rw [hskip hn]
      show none = _
      split_ifs with hgt
      · rw [List.getElem?_eq_none (by rw [List.length_singleton]; omega), Option.map_none]
      · rfl
  | @link offset next ls htable hsecond hnext _ ih =>
    intro no hno hlt
    rw [List.length_cons] at hlt
    obtain ⟨items, hitems, hfind⟩ := @ih (no + 1) (by omega) (by omega)
    have hsome : LinboxRescue.extendedSlice (sectorAt dev offset) = some 1 := by
      rw [htable.extendedSlice, if_pos hsecond]
    refine ⟨_, htable.slices hno (by omega) (.inl hsecond)
      (.table htable.sig rfl hsome hnext (by rw [if_neg hext]; exact hitems)), fun n => ?_⟩
    by_cases hn : no + 1 = n
    · rw [hfirst htable hn, if_pos (by omega), show (n - no - 1).toNat = 0 by omega]
      rfl
    · rw [hskip hn, hfind]
      by_cases hgt : no < n
      · have hindex : (n - no - 1).toNat = (n - (no + 1) - 1).toNat + 1 := by omega
        rw [if_pos (by omega), if_pos hgt, hindex, List.getElem?_cons_succ]
      · rw [if_neg (by omega), if_neg hgt]

/-- The slices of a disk: partition `n` is the first slice with its number. -/
theorem PartitionedDisk.slices {logical : List Slice} (h : PartitionedDisk dev logical) :
    ∃ items, SlicesFrom dev ⟨0, 0, 0, -1⟩ items ∧ ∀ n : ℕ, findSlice n items =
      (partitionOf dev logical n).map ((n : ℤ), ·) := by
  have hno : ∀ (no : ℤ) type, no < 4 → nextSliceNo no type = no + 1 := fun no type hlt =>
    if_pos (.inl hlt)
  -- the primary partitions
  have hprimary : ∀ {rest}, SlicesFrom dev ⟨0, 0, 4, 3⟩ rest → SlicesFrom dev ⟨0, 0, 0, -1⟩
      ((0, sliceAt dev 0 0) :: (1, sliceAt dev 0 1) :: (2, sliceAt dev 0 2) ::
        (3, sliceAt dev 0 3) :: rest) := by
    intro rest hrest
    refine .cons h.sig (by decide) (hno _ _ (by decide)) (by decide) ?_
    refine .cons h.sig (by decide) (hno _ _ (by decide)) (by decide) ?_
    refine .cons h.sig (by decide) (hno _ _ (by decide)) (by decide) ?_
    exact .cons h.sig (by decide) (hno _ _ (by decide)) (by decide) hrest
  have hfind : ∀ {rest}, (∀ n : ℕ, findSlice n rest =
        if (3 : ℤ) < n then (logical[(n - 3 - 1 : ℤ).toNat]?).map ((n : ℤ), ·) else none) →
      ∀ n : ℕ, findSlice n ((0, sliceAt dev 0 0) :: (1, sliceAt dev 0 1) :: (2, sliceAt dev 0 2) ::
        (3, sliceAt dev 0 3) :: rest) = (partitionOf dev logical n).map ((n : ℤ), ·) := by
    intro rest hrest n
    simp only [findSlice_cons, hrest]
    unfold partitionOf
    by_cases hn : n < 4
    · rw [if_pos hn]
      interval_cases n <;> simp <;> split_ifs <;> rfl
    · have hindex : (n - 3 - 1 : ℤ).toNat = n - 4 := by omega
      rw [if_neg hn, if_neg (by omega), if_neg (by omega), if_neg (by omega), if_neg (by omega),
        if_pos (by omega), hindex]
  rcases h.chain with ⟨hnone, rfl⟩ | ⟨i, hsome, hext, hchain⟩
  · refine ⟨_, hprimary (.nil h.sig rfl hnone), hfind fun n => ?_⟩
    split_ifs <;> rfl
  · obtain ⟨items, hitems, hlogical⟩ := @LogicalChain.slices _ _ _ _ hchain hext 3 le_rfl
      (by have := h.count; omega)
    have hoffset : (sliceAt dev 0 i).start = (0 + sliceStart (sectorAt dev 0) i) % 2 ^ 32 := rfl
    exact ⟨_, hprimary (.table h.sig rfl hsome hoffset (by rw [if_pos rfl]; exact hitems)),
      hfind hlogical⟩

end Chains

/-! ## The whole function -/

/-- Partitions of hard disks are sane. -/
theorem sanePartition_hd {drive n : ℕ} (h1 : 0x80 ≤ drive) (h2 : drive < 0x88) (hn : n < 255) :
    sanePartition drive (n * 2 ^ 16 + 0xFFFF) = true := by
  have hmask : ∀ n < 255, (n * 2 ^ 16 + 0xFFFF) &&& 0xFF00 = 0xFF00 := by decide +kernel
  have hdrive : drive &&& 0xFFFFFF7F < 8 ∧ drive &&& 0x80 ≠ 0 := by
    interval_cases drive <;> decide
  unfold sanePartition
  rw [hmask n hn]
  simp only [Bool.or_eq_true, Bool.and_eq_true, beq_iff_eq, decide_eq_true_eq, bne_iff_ne]
  refine .inr ⟨⟨⟨⟨?_, hdrive.1⟩, ?_⟩, .inl trivial⟩, .inr hdrive.2⟩ <;> omega

/-- A disk with a primary partition in sector 1 and a logical one in sectors 3 and 4, whose table is in
sector 2. -/
def chainedDisk : ℕ → UInt8 := fun i =>
  if i = 450 ∨ i = 1474 then 0x83 else if i = 466 then 5
  else if i = 454 ∨ i = 458 ∨ i = 1478 then 1 else if i = 470 ∨ i = 1482 then 2
  else if i = 474 then 3
  else if i = 510 ∨ i = 1534 then 0x55 else if i = 511 ∨ i = 1535 then 0xAA else 0

theorem partitionedDisk_chainedDisk : PartitionedDisk chainedDisk [⟨0x83, 3, 2, 2, 0⟩] := by
  refine ⟨by decide +kernel, .inr ⟨1, by decide +kernel, by decide +kernel, ?_⟩, by decide⟩
  have hstart : (sliceAt chainedDisk 0 1).start = 2 := by decide +kernel
  have hslice : sliceAt chainedDisk 2 0 = ⟨0x83, 3, 2, 2, 0⟩ := by decide +kernel
  rw [hstart, ← hslice]
  exact .last ⟨by decide, by decide +kernel, by decide +kernel, by decide +kernel, by decide +kernel,
    by decide +kernel⟩ (by decide +kernel)

end LinboxRescue
