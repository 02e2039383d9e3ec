import LinboxRescue.Lib.CString

/-!
# The track buffer (client/src_revoboot/disk_io.c, bios.c)

The boot loader reads disks by whole tracks into a buffer, and reads from the buffer what it already
has. Commands that write to a disk or use the buffer for something else have to say so.

1. `biosdisk` reads the sectors asked for, with an address of either kind: `biosdiskRead_spec`.
2. A turn of `rawread` gives the bytes of the disk if the buffer is coherent: `loadTrack_spec`. A
   read over several tracks leaves sectors in the buffer that are not where they belong, but only
   until the next turn.
3. `rawread` reads the disk and leaves the buffer coherent: `rawread_spec`, and `devread_spec` for a
   partition. So do the commands, one after the other, whatever they write: `diskCommands_read`. Drive
   -1 is no drive: the buffer that belongs to none passes for one of it.
-/

namespace LinboxRescue

/-! ## The BIOS -/

/-- `struct geometry`. -/
structure DiskGeometry where
  cylinders : ℕ
  heads : ℕ
  sectors : ℕ
  totalSectors : ℕ
  lba : Bool
  deriving DecidableEq, Repr

inductive DiskError
  | noDisk
  | geom
  | read
  | outsidePart
  | devValues
  | badPartTable
  | noPart
  deriving DecidableEq, Repr

/-- What the BIOS does: `get_diskinfo`, which of its calls fail, and what a failed read leaves in
memory. The calls are numbered. Without an error, a geometry has sectors and heads. -/
structure DiskBios where
  diskinfo : ℤ → Option DiskGeometry
  /-- What a failed `get_diskinfo` leaves in the geometry. -/
  spoilt : ℤ → DiskGeometry → DiskGeometry
  fails : ℕ → Bool
  junk : ℕ → ℕ → UInt8
  pos : ∀ d g, diskinfo d = some g → 0 < g.sectors ∧ 0 < g.heads

/-- The bytes of each drive. -/
abbrev Drives := ℤ → ℕ → UInt8

/-- The global variables: `errnum`, `buf_drive`, `buf_track`, `buf_geom`, the memory from
`BUFFERADDR` on, and the number of BIOS calls so far. -/
structure TrackBuffer where
  errnum : Option DiskError
  bufDrive : ℤ
  bufTrack : ℤ
  geom : DiskGeometry
  mem : ℕ → UInt8
  calls : ℕ

section Code

variable (E : DiskBios) (D : Drives)

/-- A BIOS call that reads `nsec` sectors from `lba` on to the start of the buffer. -/
def biosRead (drive : ℤ) (lba nsec : ℕ) (st : TrackBuffer) : Bool × TrackBuffer :=
  if E.fails st.calls then
    (false, { st with mem := fun i => if i < 512 * nsec then E.junk st.calls i else st.mem i
                      calls := st.calls + 1 })
  else
    (true, { st with mem := fun i => if i < 512 * nsec then D drive (512 * lba + i) else st.mem i
                     calls := st.calls + 1 })

/-- Cylinder, head and sector of an address. -/
def chsOf (g : DiskGeometry) (sector : ℕ) : ℕ × ℕ × ℕ :=
  (sector / g.sectors / g.heads, sector / g.sectors % g.heads, sector % g.sectors + 1)

/-- The address of a cylinder, a head and a sector, as the BIOS has it. -/
def lbaOf (g : DiskGeometry) (c : ℕ × ℕ × ℕ) : ℕ := (c.1 * g.heads + c.2.1) * g.sectors + (c.2.2 - 1)

inductive BiosError
  | geometry
  | other
  deriving DecidableEq, Repr

/-- `biosdisk (BIOSDISK_READ, drive, &buf_geom, sector, nsec, BUFFERSEG)`. -/
def biosdiskRead (drive : ℤ) (sector nsec : ℕ) (st : TrackBuffer) : Option BiosError × TrackBuffer :=
  if st.geom.lba then
    let r := biosRead E D drive sector nsec st
    (if r.1 then none else some .other, r.2)
  else
    let c := chsOf st.geom sector
    if st.geom.cylinders ≤ c.1 then (some .geometry, st)
    else
      let r := biosRead E D drive (lbaOf st.geom c) nsec st
      (if r.1 then none else some .other, r.2)

/-! ## `rawread` -/

/-- "Check track buffer": the geometry of a drive. -/
def checkDrive (drive : ℤ) (st : TrackBuffer) : Option TrackBuffer :=
  if st.bufDrive ≠ drive then
    (E.diskinfo drive).map fun g => { st with bufDrive := drive, bufTrack := -1, geom := g }
  else some st

/-- "Make sure that buf_geom is valid", in `real_open_partition`. -/
def validGeom (drive : ℤ) (st : TrackBuffer) : TrackBuffer :=
  match checkDrive E drive st with
  | none => { st with geom := E.spoilt drive st.geom, errnum := some .noDisk }
  | some st => st

/-- The part of a turn that reads the disk: where the bytes are in the buffer. -/
def loadTrack (drive : ℤ) (sector slen byteOffset : ℕ) (st : TrackBuffer) : ℕ × TrackBuffer :=
  let soff := sector % st.geom.sectors
  let track := sector - soff
  let numSect := st.geom.sectors - soff
  let bufaddr := soff * 512 + byteOffset
  if (track : ℤ) = st.bufTrack then (bufaddr, st)
  else
    -- in front of the last turn only the portion needed
    let bufaddr := if slen > numSect then byteOffset else bufaddr
    let (err, st) :=
      if slen > numSect then biosdiskRead E D drive sector numSect st
      else biosdiskRead E D drive track st.geom.sectors st
    match err with
    | none => (bufaddr, { st with bufTrack := track })
    | some .geometry => (bufaddr, { st with bufTrack := -1, errnum := some .geom })
    | some .other =>
      let st := { st with bufTrack := -1 }
      -- only the required sectors
      let (err, st) :=
        if slen > numSect then (some BiosError.other, st) else biosdiskRead E D drive sector slen st
      (byteOffset, if err = none then st else { st with errnum := some .read })

/-- The calls of `disk_read_func` after the first one. -/
def hookRest (sector : ℕ) : ℕ → ℕ → List (ℕ × ℕ × ℕ)
  | 0, _ => []
  | fuel + 1, length =>
    if length > 512 then (sector, 0, 512) :: hookRest (sector + 1) fuel (length - 512)
    else if length > 0 then [(sector, 0, length)] else []

/-- "Instrumentation to tell which sectors were read and used". -/
def hookCalls (sector byteOffset size : ℕ) : List (ℕ × ℕ × ℕ) :=
  let length := min (512 - byteOffset) size
  (sector, byteOffset, length) :: hookRest (sector + 1) (size - length) (size - length)

/-- What a read gives: the state after it, the bytes, and the calls of `disk_read_func`. -/
structure RawRead where
  st : TrackBuffer
  buf : Bytes
  hooks : List (ℕ × ℕ × ℕ)

/-- The loop. Every turn reads a byte at least. -/
def rawreadLoop (drive : ℤ) : ℕ → TrackBuffer → ℕ → ℕ → ℕ → ℕ → RawRead
  | 0, st, _, _, _, _ => ⟨st, [], []⟩
  | fuel + 1, st, sector, slen, byteOffset, byteLen =>
    if byteLen = 0 ∨ st.errnum ≠ none then ⟨st, [], []⟩
    else match checkDrive E drive st with
      | none => ⟨validGeom E drive st, [], []⟩
      | some st =>
        let numSect := st.geom.sectors - sector % st.geom.sectors
        let (bufaddr, st) := loadTrack E D drive sector slen byteOffset st
        let size := min byteLen (numSect * 512 - byteOffset)
        let r := rawreadLoop drive fuel st (sector + numSect) (slen - numSect) 0 (byteLen - size)
        ⟨r.st, (List.range size).map (fun i => st.mem (bufaddr + i)) ++ r.buf,
          hookCalls sector byteOffset size ++ r.hooks⟩

/-- `rawread` returns whether `errnum` is clear, or at once if there is nothing to read. The sector is an
`int` that is not negative. -/
def rawread (st : TrackBuffer) (drive : ℤ) (sector byteOffset : ℕ) (byteLen : ℤ) : Bool × RawRead :=
  if byteLen ≤ 0 then (true, ⟨st, [], []⟩)
  else
    let r := rawreadLoop E D drive byteLen.toNat st sector
      ((byteOffset + byteLen.toNat + 512 - 1) / 512) byteOffset byteLen.toNat
    (r.st.errnum.isNone, r)

/-- `devread`, where `part_start` and `part_length` are `long` and the other numbers `int`. -/
def devread (partStart partLength : ℤ) (st : TrackBuffer) (drive sector byteOffset byteLen : ℤ) :
    Bool × RawRead :=
  if sector < 0 ∨ partLength ≤ wrapInt (sector + wrapInt (byteOffset + byteLen - 1) / 512) then
    (false, ⟨{ st with errnum := some .outsidePart }, [], []⟩)
  else
    let sector := wrapInt (sector + byteOffset / 512)
    rawread E D st drive ((partStart + sector) % 2 ^ 32).toNat (byteOffset % 512).toNat byteLen

end Code

/-! ## Reading sectors -/

/-- Everything but the memory is as before. -/
structure SameButMem (st st' : TrackBuffer) : Prop where
  errnum : st'.errnum = st.errnum
  bufDrive : st'.bufDrive = st.bufDrive
  bufTrack : st'.bufTrack = st.bufTrack
  geom : st'.geom = st.geom

theorem SameButMem.sectors {st st' : TrackBuffer} (h : SameButMem st st') :
    st'.geom.sectors = st.geom.sectors := congrArg DiskGeometry.sectors h.geom

/-- The address survives the way over cylinders, heads and sectors. -/
theorem lbaOf_chsOf (g : DiskGeometry) (sector : ℕ) : lbaOf g (chsOf g sector) = sector := by
  unfold lbaOf chsOf
  have hhead : sector / g.sectors / g.heads * g.heads + sector / g.sectors % g.heads
      = sector / g.sectors := Nat.div_add_mod' _ _
  simp only [hhead, Nat.add_sub_cancel]
  exact Nat.div_add_mod' _ _

section Spec

variable {E : DiskBios} {D : Drives} {drive : ℤ}

/-- The first sectors of the buffer are those of the disk. -/
def Loaded (D : Drives) (drive : ℤ) (sector nsec : ℕ) (st : TrackBuffer) : Prop :=
  ∀ i < 512 * nsec, st.mem i = D drive (512 * sector + i)

theorem biosRead_spec (lba nsec : ℕ) (st : TrackBuffer) :
    SameButMem st (biosRead E D drive lba nsec st).2 ∧
      ((biosRead E D drive lba nsec st).1 = true →
        Loaded D drive lba nsec (biosRead E D drive lba nsec st).2) := by
  unfold biosRead
  split_ifs
  · exact ⟨⟨rfl, rfl, rfl, rfl⟩, False.elim⟩
  · exact ⟨⟨rfl, rfl, rfl, rfl⟩, fun _ i hi => if_pos hi⟩

/-- **`biosdisk` reads the sectors asked for**, in whatever way the BIOS is asked. -/
theorem biosdiskRead_spec (sector nsec : ℕ) (st : TrackBuffer) :
    SameButMem st (biosdiskRead E D drive sector nsec st).2 ∧
      ((biosdiskRead E D drive sector nsec st).1 = none →
        Loaded D drive sector nsec (biosdiskRead E D drive sector nsec st).2) := by
  obtain ⟨hsame, hread⟩ := @biosRead_spec E D drive sector nsec st
  unfold biosdiskRead
  simp only [lbaOf_chsOf]
  split_ifs with hlba hok hcyl hok
  · exact ⟨hsame, fun _ => hread hok⟩
  · exact ⟨hsame, False.elim⟩
  · exact ⟨⟨rfl, rfl, rfl, rfl⟩, False.elim⟩
  · exact ⟨hsame, fun _ => hread hok⟩
  · exact ⟨hsame, False.elim⟩

/-! ## Coherence -/

/-- The geometry in the buffer is the one of the drive. -/
def GeomOk (E : DiskBios) (st : TrackBuffer) : Prop := E.diskinfo st.bufDrive = some st.geom

theorem GeomOk.sectors_pos {st : TrackBuffer} (h : GeomOk E st) : 0 < st.geom.sectors :=
  (E.pos _ _ h).1

theorem GeomOk.congr {st st' : TrackBuffer} (h : GeomOk E st) (hdrive : st'.bufDrive = st.bufDrive)
    (hgeom : st'.geom = st.geom) : GeomOk E st' := by
  unfold GeomOk
  rw [hdrive, hgeom]
  exact h

/-- The buffer holds the track `buf_track`. -/
structure Ready (E : DiskBios) (D : Drives) (st : TrackBuffer) : Prop where
  geom : GeomOk E st
  track : st.bufTrack = -1 ∨ ∃ t : ℕ, st.bufTrack = t ∧ Loaded D st.bufDrive t st.geom.sectors st

/-- `errnum` says nothing about the buffer. -/
theorem Ready.setErrnum {st : TrackBuffer} (h : Ready E D st) (e : Option DiskError) :
    Ready E D { st with errnum := e } := ⟨h.geom.congr rfl rfl, h.track⟩

/-- Nothing is known of the buffer without a drive, and after the geometry of one could not be read. -/
def Coherent (E : DiskBios) (D : Drives) (st : TrackBuffer) : Prop :=
  st.errnum ≠ some .noDisk → st.bufDrive ≠ -1 → Ready E D st

theorem Coherent.ready {st : TrackBuffer} (h : Coherent E D st) (herr : st.errnum = none)
    (hdrive : st.bufDrive ≠ -1) : Ready E D st :=
  h (by rw [herr]; exact fun he => (by cases he)) hdrive

/-- In the middle of a read, the buffer may also be taken for a track in front of the sector. -/
structure MidRead (E : DiskBios) (D : Drives) (sector : ℕ) (st : TrackBuffer) : Prop where
  geom : GeomOk E st
  track : st.bufTrack = -1 ∨ ∃ t : ℕ, st.bufTrack = t ∧
    (t < sector - sector % st.geom.sectors ∨ Loaded D st.bufDrive t st.geom.sectors st)

theorem Ready.midRead {st : TrackBuffer} (h : Ready E D st) (sector : ℕ) : MidRead E D sector st := by
  refine ⟨h.geom, h.track.imp_right ?_⟩
  rintro ⟨t, ht, hloaded⟩
  exact ⟨t, ht, .inr hloaded⟩

/-- A geometry that was just read, without a track. -/
theorem ready_of_drive {st : TrackBuffer} {g : DiskGeometry} (hg : E.diskinfo drive = some g) :
    Ready E D { st with bufDrive := drive, bufTrack := -1, geom := g } :=
  ⟨hg, .inl rfl⟩

/-- A valid geometry of the drive, or an error. -/
theorem checkDrive_cases {st : TrackBuffer} :
    (checkDrive E drive st = none ∧ (validGeom E drive st).errnum = some .noDisk) ∨
      ∃ st', checkDrive E drive st = some st' ∧ validGeom E drive st = st' ∧ st'.bufDrive = drive ∧
        (st' = st ∨ Ready E D st') := by
  unfold validGeom checkDrive
  by_cases hd : st.bufDrive ≠ drive
  · simp only [if_pos hd]
    cases hg : E.diskinfo drive with
    | none => exact .inl ⟨rfl, rfl⟩
    | some g => exact .inr ⟨_, rfl, rfl, rfl, .inr (ready_of_drive hg)⟩
  · simp only [if_neg hd]
    exact .inr ⟨st, rfl, rfl, not_not.mp hd, .inl rfl⟩

theorem Coherent.validGeom {st : TrackBuffer} (h : Coherent E D st) (drive : ℤ) :
    Coherent E D (validGeom E drive st) := by
  rcases @checkDrive_cases E D drive st with ⟨-, herr⟩ | ⟨st', -, hst', -, rfl | hready⟩
  · exact fun he => absurd herr he
  · rw [hst']
    exact h
  · rw [hst']
    exact fun _ _ => hready

/-- What a turn of `rawread` has after `loadTrack`. -/
structure TurnOk (E : DiskBios) (D : Drives) (drive : ℤ) (sector byteOffset byteLen numSect bufaddr : ℕ)
    (st : TrackBuffer) : Prop where
  reading : MidRead E D (sector + numSect) st
  ready : byteLen ≤ numSect * 512 - byteOffset → Ready E D st
  bytes : ∀ i < min byteLen (numSect * 512 - byteOffset),
    st.mem (bufaddr + i) = D drive (512 * sector + byteOffset + i)

section Turn

variable {sector slen byteOffset byteLen S : ℕ} {st st' : TrackBuffer}

/-- The bytes in a buffer that holds the whole track. -/
theorem turnOk_of_track (hgeom : GeomOk E st') (hS : st'.geom.sectors = S)
    (hdrive : st'.bufDrive = drive) (htrack : st'.bufTrack = (sector - sector % S : ℕ))
    (hloaded : Loaded D drive (sector - sector % S) S st') :
    TurnOk E D drive sector byteOffset byteLen (S - sector % S)
      (sector % S * 512 + byteOffset) st' := by
  have hready : Ready E D st' := ⟨hgeom, .inr ⟨_, htrack, by rwa [hdrive, hS]⟩⟩
  have hmod := Nat.mod_lt sector (hS ▸ hgeom.sectors_pos)
  have hle := Nat.mod_le sector S
  refine ⟨hready.midRead _, fun _ => hready, fun i hi => ?_⟩
  rw [hloaded _ (by omega)]
  congr 1
  omega

/-- Only the required sectors are in the buffer. -/
theorem turnOk_of_required (hgeom : GeomOk E st') (htrack : st'.bufTrack = -1)
    (hslen : slen = (byteOffset + byteLen + 512 - 1) / 512) (hloaded : Loaded D drive sector slen st')
    (numSect : ℕ) : TurnOk E D drive sector byteOffset byteLen numSect byteOffset st' := by
  have hready : Ready E D st' := ⟨hgeom, .inl htrack⟩
  refine ⟨hready.midRead _, fun _ => hready, fun i hi => ?_⟩
  rw [hloaded _ (by omega), Nat.add_assoc]

/-- The end of the track is in the buffer, and the read goes on with the next track. -/
theorem turnOk_of_rest (hgeom : GeomOk E st') (hS : st'.geom.sectors = S) (hoff : byteOffset < 512)
    (htrack : st'.bufTrack = (sector - sector % S : ℕ))
    (hslen : slen = (byteOffset + byteLen + 512 - 1) / 512) (hmore : slen > S - sector % S)
    (hloaded : Loaded D drive sector (S - sector % S) st') :
    TurnOk E D drive sector byteOffset byteLen (S - sector % S) byteOffset st' := by
  have hpos : 0 < S := hS ▸ hgeom.sectors_pos
  have hmod := Nat.mod_lt sector hpos
  have hle := Nat.mod_le sector S
  have hnext : (sector + (S - sector % S)) % S = 0 := by
    have hsplit : sector + (S - sector % S) = S * (sector / S + 1) := by
      have := Nat.div_add_mod sector S
      rw [Nat.mul_add, Nat.mul_one]
      omega
    rw [hsplit, Nat.mul_mod_right]
  refine ⟨⟨hgeom, .inr ⟨_, htrack, .inl ?_⟩⟩, fun hlast => ?_, fun i hi => ?_⟩
  · rw [hS, hnext]
    omega
  · omega
  · rw [hloaded _ (by omega), Nat.add_assoc]

/-- **A turn of `rawread`** has the bytes in the buffer. After an error the buffer has no track. -/
theorem loadTrack_spec (h : MidRead E D sector st) (herr : st.errnum = none)
    (hdrive : st.bufDrive = drive) (hoff : byteOffset < 512)
    (hslen : slen = (byteOffset + byteLen + 512 - 1) / 512) :
    (loadTrack E D drive sector slen byteOffset st).2.bufDrive = drive ∧
    (loadTrack E D drive sector slen byteOffset st).2.geom.sectors = st.geom.sectors ∧
    ((loadTrack E D drive sector slen byteOffset st).2.errnum = none →
      TurnOk E D drive sector byteOffset byteLen (st.geom.sectors - sector % st.geom.sectors)
        (loadTrack E D drive sector slen byteOffset st).1
        (loadTrack E D drive sector slen byteOffset st).2) ∧
    ((loadTrack E D drive sector slen byteOffset st).2.errnum ≠ none →
      Ready E D (loadTrack E D drive sector slen byteOffset st).2) := by
  unfold loadTrack
  by_cases hhit : ((sector - sector % st.geom.sectors : ℕ) : ℤ) = st.bufTrack
  · -- the track that the buffer holds is the one of the sector
    have hloaded : Loaded D drive (sector - sector % st.geom.sectors) st.geom.sectors st := by
      rcases h.track with hnone | ⟨t, ht, hbehind | hloaded⟩
      · omega
      · omega
      · obtain rfl : t = sector - sector % st.geom.sectors := by omega
        exact hdrive ▸ hloaded
    simp only [if_pos hhit]
    exact ⟨hdrive, trivial, fun _ => turnOk_of_track h.geom rfl hdrive hhit.symm hloaded,
      fun hne => absurd herr hne⟩
  · simp only [if_neg hhit]
    by_cases hmore : slen > st.geom.sectors - sector % st.geom.sectors
    · obtain ⟨hsame, hread⟩ := @biosdiskRead_spec E D drive sector
        (st.geom.sectors - sector % st.geom.sectors) st
      rcases hr : biosdiskRead E D drive sector (st.geom.sectors - sector % st.geom.sectors) st
        with ⟨err, st₁⟩
      rw [hr] at hsame hread
      have hs : st₁.geom.sectors = st.geom.sectors := hsame.sectors
      have hgeom₁ : GeomOk E st₁ := h.geom.congr hsame.bufDrive hsame.geom
      simp only [if_pos hmore]
      cases err with
      | none =>
        exact ⟨hsame.bufDrive.trans hdrive, hs,
          fun _ => turnOk_of_rest hgeom₁ hs hoff rfl hslen hmore (hread rfl),
          fun hne => absurd (hsame.errnum.trans herr) hne⟩
      | some e =>
        cases e <;> exact ⟨hsame.bufDrive.trans hdrive, hs, fun he => (by cases he),
          fun _ => ⟨hgeom₁, .inl rfl⟩⟩
    · obtain ⟨hsame, hread⟩ := @biosdiskRead_spec E D drive (sector - sector % st.geom.sectors)
        st.geom.sectors st
      rcases hr : biosdiskRead E D drive (sector - sector % st.geom.sectors) st.geom.sectors st
        with ⟨err, st₁⟩
      rw [hr] at hsame hread
      have hs : st₁.geom.sectors = st.geom.sectors := hsame.sectors
      have hdrive₁ : st₁.bufDrive = drive := hsame.bufDrive.trans hdrive
      have hgeom₁ : GeomOk E st₁ := h.geom.congr hsame.bufDrive hsame.geom
      simp only [if_neg hmore]
      cases err with
      | none =>
        exact ⟨hdrive₁, hs, fun _ => turnOk_of_track hgeom₁ hs hdrive₁ rfl (hread rfl),
          fun hne => absurd (hsame.errnum.trans herr) hne⟩
      | some e =>
        cases e with
        | geometry => exact ⟨hdrive₁, hs, fun he => (by cases he), fun _ => ⟨hgeom₁, .inl rfl⟩⟩
        | other =>
          -- the required sectors alone
          obtain ⟨hsame', hread'⟩ :=
            @biosdiskRead_spec E D drive sector slen { st₁ with bufTrack := -1 }
          rcases hr' : biosdiskRead E D drive sector slen { st₁ with bufTrack := -1 } with ⟨err, st₂⟩
          rw [hr'] at hsame' hread'
          have hgeom₂ : GeomOk E st₂ := hgeom₁.congr hsame'.bufDrive hsame'.geom
          cases err with
          | some e =>
            exact ⟨hsame'.bufDrive.trans hdrive₁, hsame'.sectors.trans hs, fun he => (by cases he),
              fun _ => ⟨hgeom₂, .inl hsame'.bufTrack⟩⟩
          | none =>
            exact ⟨hsame'.bufDrive.trans hdrive₁, hsame'.sectors.trans hs,
              fun _ => turnOk_of_required hgeom₂ hsame'.bufTrack hslen (hread' rfl) _,
              fun hne => absurd (hsame'.errnum.trans (hsame.errnum.trans herr)) hne⟩

theorem loadTrack_bufDrive (sector slen byteOffset : ℕ) (st : TrackBuffer) :
    (loadTrack E D drive sector slen byteOffset st).2.bufDrive = st.bufDrive := by
  have hkeep : ∀ sector n (st : TrackBuffer),
      (biosdiskRead E D drive sector n st).2.bufDrive = st.bufDrive :=
    fun sector n st => (biosdiskRead_spec sector n st).1.bufDrive
  unfold loadTrack
  dsimp only
  by_cases hhit : ((sector - sector % st.geom.sectors : ℕ) : ℤ) = st.bufTrack
  · rw [if_pos hhit]
  · rw [if_neg hhit]
    obtain ⟨r, hr, hdrive⟩ : ∃ r, r = (if slen > st.geom.sectors - sector % st.geom.sectors then
        biosdiskRead E D drive sector (st.geom.sectors - sector % st.geom.sectors) st
      else biosdiskRead E D drive (sector - sector % st.geom.sectors) st.geom.sectors st) ∧
        r.2.bufDrive = st.bufDrive := by
      refine ⟨_, rfl, ?_⟩
      split_ifs <;> rw [hkeep]
    rw [← hr]
    obtain ⟨err, st₁⟩ := r
    cases err with
    | none => exact hdrive
    | some e =>
      cases e with
      | geometry => exact hdrive
      | other =>
        dsimp only
        split_ifs
        · exact hdrive
        · exact hdrive
        · exact (hkeep sector slen _).trans hdrive
        · exact (hkeep sector slen _).trans hdrive

end Turn

/-! ## The whole read -/

/-- The bytes that the calls of `disk_read_func` name. -/
def hookBytes (hooks : List (ℕ × ℕ × ℕ)) : List ℕ :=
  hooks.flatMap fun h => List.range' (512 * h.1 + h.2.1) h.2.2

theorem hookBytes_append (h h' : List (ℕ × ℕ × ℕ)) :
    hookBytes (h ++ h') = hookBytes h ++ hookBytes h' := List.flatMap_append

theorem hookRest_spec (sector fuel : ℕ) {length : ℕ} (hlen : length ≤ fuel) :
    hookBytes (hookRest sector fuel length) = List.range' (512 * sector) length ∧
      ∀ h ∈ hookRest sector fuel length, h.2.1 + h.2.2 ≤ 512 := by
  induction fuel generalizing sector length with
  | zero =>
    obtain rfl : length = 0 := by omega
    exact ⟨rfl, fun h hh => absurd hh List.not_mem_nil⟩
  | succ fuel ih =>
    unfold hookRest
    split_ifs with hmore hsome
    · have hrest : length - 512 ≤ fuel := by omega
      obtain ⟨hbytes, hsmall⟩ := ih (sector + 1) hrest
      refine ⟨?_, List.forall_mem_cons.mpr ⟨le_rfl, hsmall⟩⟩
      show List.range' (512 * sector) 512 ++ hookBytes (hookRest (sector + 1) fuel (length - 512)) = _
      rw [hbytes, show 512 * (sector + 1) = 512 * sector + 512 by ring, List.range'_append_1,
        Nat.add_sub_cancel' hmore.le]
    · refine ⟨List.append_nil _, fun h hh => ?_⟩
      rw [List.mem_singleton.mp hh]
      show 0 + length ≤ 512
      omega
    · obtain rfl : length = 0 := by omega
      exact ⟨rfl, fun h hh => absurd hh List.not_mem_nil⟩

/-- The calls of `disk_read_func` name the bytes of a turn, each call those of one sector. -/
theorem hookCalls_spec (sector size : ℕ) {byteOffset : ℕ} (hoff : byteOffset < 512) :
    hookBytes (hookCalls sector byteOffset size) = List.range' (512 * sector + byteOffset) size ∧
      ∀ h ∈ hookCalls sector byteOffset size, h.2.1 + h.2.2 ≤ 512 := by
  obtain ⟨hbytes, hsmall⟩ := @hookRest_spec (sector + 1) _
    (size - min (512 - byteOffset) size) le_rfl
  refine ⟨?_, List.forall_mem_cons.mpr ⟨?_, hsmall⟩⟩
  · show List.range' (512 * sector + byteOffset) (min (512 - byteOffset) size) ++ hookBytes _ = _
    rw [hbytes]
    by_cases hsize : size ≤ 512 - byteOffset
    · rw [min_eq_right hsize, Nat.sub_self, List.range'_zero, List.append_nil]
    · rw [min_eq_left (by omega),
        show 512 * (sector + 1) = 512 * sector + byteOffset + (512 - byteOffset) by omega,
        List.range'_append_1, Nat.add_sub_cancel' (by omega)]
  · show byteOffset + min (512 - byteOffset) size ≤ 512
    omega

theorem rawreadLoop_error {st : TrackBuffer} (h : st.errnum ≠ none) (fuel sector slen off len : ℕ) :
    rawreadLoop E D drive fuel st sector slen off len = ⟨st, [], []⟩ := by
  cases fuel with
  | zero => rfl
  | succ fuel => exact if_pos (.inr h)

/-- What a read has got: the bytes of the drive, which the calls of `disk_read_func` name. -/
structure ReadOk (D : Drives) (drive : ℤ) (first len : ℕ) (r : RawRead) : Prop where
  buf : r.buf = (List.range' first len).map (D drive)
  hooks : hookBytes r.hooks = List.range' first len
  sectors : ∀ h ∈ r.hooks, h.2.1 + h.2.2 ≤ 512

theorem checkDrive_errnum {st st' : TrackBuffer} (h : checkDrive E drive st = some st') :
    st'.errnum = st.errnum := by
  unfold checkDrive at h
  split_ifs at h
  · obtain ⟨g, -, rfl⟩ := Option.map_eq_some_iff.mp h
    rfl
  · rw [← Option.some.inj h]

theorem rawreadLoop_spec (hneg : drive ≠ -1) (fuel : ℕ) :
    ∀ (st : TrackBuffer) (sector slen off len : ℕ), len ≤ fuel → off < 512 →
    slen = (off + len + 512 - 1) / 512 →
    (st.errnum = none → st.bufDrive ≠ -1 → MidRead E D sector st) →
    (len = 0 ∨ st.errnum ≠ none → Coherent E D st) →
    Coherent E D (rawreadLoop E D drive fuel st sector slen off len).st ∧
      ((rawreadLoop E D drive fuel st sector slen off len).st.errnum = none →
        ReadOk D drive (512 * sector + off) len
          (rawreadLoop E D drive fuel st sector slen off len)) := by
  induction fuel with
  | zero =>
    intro st sector slen off len hfuel _ _ _ hdone
    obtain rfl : len = 0 := by omega
    exact ⟨hdone (.inl rfl), fun _ => ⟨rfl, rfl, fun h hh => absurd hh List.not_mem_nil⟩⟩
  | succ fuel ih =>
    intro st sector slen off len hfuel hoff hslen hst hdone
    by_cases hstop : len = 0 ∨ st.errnum ≠ none
    · have hloop : rawreadLoop E D drive (fuel + 1) st sector slen off len = ⟨st, [], []⟩ :=
        if_pos hstop
      rw [hloop]
      refine ⟨hdone hstop, fun he => ?_⟩
      obtain rfl : len = 0 := hstop.resolve_right (not_not.mpr he)
      exact ⟨rfl, rfl, fun h hh => absurd hh List.not_mem_nil⟩
    · rw [not_or, not_not] at hstop
      obtain ⟨hlen, herr⟩ := hstop
      rcases @checkDrive_cases E D drive st with ⟨hnone, herror⟩ | ⟨st₁, hst₁, -, hdrive, hcase⟩
      · have hloop : rawreadLoop E D drive (fuel + 1) st sector slen off len
            = ⟨validGeom E drive st, [], []⟩ := by
          rw [rawreadLoop, if_neg (not_or.mpr ⟨hlen, not_not.mpr herr⟩)]
          simp only [hnone]
        rw [hloop]
        refine ⟨fun he => absurd herror he, fun he => ?_⟩
        rw [show (validGeom E drive st).errnum = none from he] at herror
        cases herror
      · have hreading : MidRead E D sector st₁ := by
          rcases hcase with rfl | hready
          · exact hst herr (hdrive ▸ hneg)
          · exact hready.midRead sector
        obtain ⟨hdrive₂, hsectors, hturn, hfail⟩ := @loadTrack_spec E D drive sector slen off len st₁
          hreading ((checkDrive_errnum hst₁).trans herr) hdrive hoff hslen
        rcases hload : loadTrack E D drive sector slen off st₁ with ⟨bufaddr, st₂⟩
        rw [hload] at hdrive₂ hsectors hturn hfail
        have hpos := hreading.geom.sectors_pos
        have hmod := Nat.mod_lt sector hpos
        obtain ⟨num, hnum⟩ : ∃ num, num = st₁.geom.sectors - sector % st₁.geom.sectors := ⟨_, rfl⟩
        obtain ⟨size, hsize⟩ : ∃ size, size = min len (num * 512 - off) := ⟨_, rfl⟩
        have hloop : rawreadLoop E D drive (fuel + 1) st sector slen off len
            = ⟨(rawreadLoop E D drive fuel st₂ (sector + num) (slen - num) 0 (len - size)).st,
              (List.range size).map (fun i => st₂.mem (bufaddr + i)) ++
                (rawreadLoop E D drive fuel st₂ (sector + num) (slen - num) 0 (len - size)).buf,
              hookCalls sector off size ++
                (rawreadLoop E D drive fuel st₂ (sector + num) (slen - num) 0 (len - size)).hooks⟩ := by
          rw [rawreadLoop, if_neg (not_or.mpr ⟨hlen, not_not.mpr herr⟩)]
          simp only [hst₁, hload, ← hnum, ← hsize]
        have hsize_pos : 0 < size := by omega
        rw [← hnum] at hturn
        have hend : len - size = 0 ∨ st₂.errnum ≠ none → Coherent E D st₂ := by
          intro hend _ _
          by_cases he : st₂.errnum = none
          · exact (hturn he).ready (by have := hend.resolve_right (not_not.mpr he); omega)
          · exact hfail he
        obtain ⟨hcoherent, hrest⟩ := ih st₂ (sector + num) (slen - num) 0 (len - size) (by omega)
          (by decide) (by omega) (fun he _ => (hturn he).reading) hend
        rw [hloop]
        refine ⟨hcoherent, fun he => ?_⟩
        have he₂ : st₂.errnum = none := by
          by_contra hne
          rw [rawreadLoop_error hne] at he
          exact hne he
        obtain ⟨hbuf, hhooks, hsmall⟩ := hrest he
        obtain ⟨hcalls, hcallsSmall⟩ := @hookCalls_spec sector size off hoff
        have hfirst : (List.range size).map (fun i => st₂.mem (bufaddr + i))
            = (List.range' (512 * sector + off) size).map (D drive) := by
          rw [List.range'_eq_map_range, List.map_map]
          refine List.map_congr_left fun i hi => ?_
          exact (hturn he₂).bytes i (hsize ▸ List.mem_range.mp hi)
        -- the next turn starts where this one ends, if there is one
        have hsplit : List.range' (512 * sector + off) size
            ++ List.range' (512 * (sector + num) + 0) (len - size)
            = List.range' (512 * sector + off) len := by
          by_cases h0 : len - size = 0
          · rw [h0, List.range'_zero, List.append_nil]
            congr 1
            omega
          · rw [show 512 * (sector + num) + 0 = 512 * sector + off + size by omega,
              List.range'_append_1, Nat.add_sub_cancel' (by omega)]
        refine ⟨?_, ?_, List.forall_mem_append.mpr ⟨hcallsSmall, hsmall⟩⟩
        · rw [hfirst, hbuf, ← List.map_append, hsplit]
        · rw [hookBytes_append, hcalls, hhooks, hsplit]

/-- **`rawread` reads the disk**, if it returns true, and leaves the buffer coherent in any case. -/
theorem rawread_spec {st : TrackBuffer} (h : Coherent E D st) (hneg : drive ≠ -1) (sector : ℕ)
    {byteOffset : ℕ} (hoff : byteOffset < 512) (byteLen : ℤ) :
    Coherent E D (rawread E D st drive sector byteOffset byteLen).2.st ∧
      ((rawread E D st drive sector byteOffset byteLen).1 = true →
        ReadOk D drive (512 * sector + byteOffset) byteLen.toNat
          (rawread E D st drive sector byteOffset byteLen).2) := by
  unfold rawread
  by_cases hlen : byteLen ≤ 0
  · rw [if_pos hlen, Int.toNat_of_nonpos hlen]
    exact ⟨h, fun _ => ⟨rfl, rfl, fun h hh => absurd hh List.not_mem_nil⟩⟩
  · rw [if_neg hlen]
    obtain ⟨hcoherent, hread⟩ := rawreadLoop_spec hneg byteLen.toNat st sector _ byteOffset
      byteLen.toNat le_rfl hoff rfl (fun he hd => (h.ready he hd).midRead sector) fun _ => h
    exact ⟨hcoherent, fun hok => hread (Option.isNone_iff_eq_none.mp hok)⟩

/-- A loop that does not fail at once leaves the geometry of its drive, or of none. -/
theorem rawreadLoop_bufDrive (fuel : ℕ) : ∀ (st : TrackBuffer) (sector slen off len : ℕ),
    (rawreadLoop E D drive fuel st sector slen off len).st = st ∨
      (rawreadLoop E D drive fuel st sector slen off len).st.errnum = some .noDisk ∨
        (rawreadLoop E D drive fuel st sector slen off len).st.bufDrive = drive := by
  induction fuel with
  | zero => exact fun _ _ _ _ _ => .inl rfl
  | succ fuel ih =>
    intro st sector slen off len
    rw [rawreadLoop]
    by_cases hstop : len = 0 ∨ st.errnum ≠ none
    · rw [if_pos hstop]
      exact .inl rfl
    · rw [if_neg hstop]
      rcases @checkDrive_cases E D drive st with ⟨hnone, herror⟩ | ⟨st', hst', -, hdrive, -⟩
      · rw [hnone]
        exact .inr (.inl herror)
      · rw [hst']
        right
        have hload : (loadTrack E D drive sector slen off st').2.bufDrive = drive :=
          (loadTrack_bufDrive sector slen off st').trans hdrive
        rcases ih (loadTrack E D drive sector slen off st').2
            (sector + (st'.geom.sectors - sector % st'.geom.sectors))
            (slen - (st'.geom.sectors - sector % st'.geom.sectors)) 0
            (len - min len ((st'.geom.sectors - sector % st'.geom.sectors) * 512 - off))
          with hsame | hrest
        · exact .inr ((congrArg TrackBuffer.bufDrive hsame).trans hload)
        · exact hrest

/-- A read from drive -1 leaves the buffer to no drive. -/
theorem rawread_noDrive {st : TrackBuffer} (h : Coherent E D st) (sector byteOffset : ℕ) (byteLen : ℤ) :
    Coherent E D (rawread E D st (-1) sector byteOffset byteLen).2.st := by
  unfold rawread
  by_cases hlen : byteLen ≤ 0
  · rw [if_pos hlen]
    exact h
  · rw [if_neg hlen]
    rcases @rawreadLoop_bufDrive E D (-1) byteLen.toNat st sector
      ((byteOffset + byteLen.toNat + 512 - 1) / 512) byteOffset byteLen.toNat with hsame | herr | hdrive
    · show Coherent E D (rawreadLoop E D (-1) _ st _ _ _ _).st
      rw [hsame]
      exact h
    · exact fun hne => absurd herr hne
    · exact fun _ hd => absurd hdrive hd

/-- `rawread` has set `errnum`. -/
def ReadFailed (st : TrackBuffer) : Prop :=
  st.errnum = some .noDisk ∨ st.errnum = some .geom ∨ st.errnum = some .read

theorem loadTrack_errnum {st : TrackBuffer} (h : st.errnum = none) (sector slen byteOffset : ℕ) :
    (loadTrack E D drive sector slen byteOffset st).2.errnum = none ∨
      ReadFailed (loadTrack E D drive sector slen byteOffset st).2 := by
  have hkeep : ∀ sector n (st : TrackBuffer),
      (biosdiskRead E D drive sector n st).2.errnum = st.errnum :=
    fun sector n st => (biosdiskRead_spec sector n st).1.errnum
  unfold loadTrack
  dsimp only
  by_cases hhit : ((sector - sector % st.geom.sectors : ℕ) : ℤ) = st.bufTrack
  · rw [if_pos hhit]
    exact .inl h
  · rw [if_neg hhit]
    obtain ⟨r, hr, hnone⟩ : ∃ r, r = (if slen > st.geom.sectors - sector % st.geom.sectors then
        biosdiskRead E D drive sector (st.geom.sectors - sector % st.geom.sectors) st
      else biosdiskRead E D drive (sector - sector % st.geom.sectors) st.geom.sectors st) ∧
        r.2.errnum = none := by
      refine ⟨_, rfl, ?_⟩
      split_ifs <;> rw [hkeep, h]
    rw [← hr]
    obtain ⟨err, st₁⟩ := r
    cases err with
    | none => exact .inl hnone
    | some e =>
      cases e with
      | geometry => exact .inr (.inr (.inl rfl))
      | other =>
        dsimp only
        split_ifs with herr herr
        · cases herr
        · exact .inr (.inr (.inr rfl))
        · exact .inl ((hkeep _ _ _).trans hnone)
        · exact .inr (.inr (.inr rfl))

theorem rawreadLoop_errnum (fuel : ℕ) : ∀ {st : TrackBuffer} (sector slen off len : ℕ),
    st.errnum = none ∨ ReadFailed st →
    (rawreadLoop E D drive fuel st sector slen off len).st.errnum = none ∨
      ReadFailed (rawreadLoop E D drive fuel st sector slen off len).st := by
  induction fuel with
  | zero => exact fun _ _ _ _ h => h
  | succ fuel ih =>
    intro st sector slen off len h
    rw [rawreadLoop]
    by_cases hstop : len = 0 ∨ st.errnum ≠ none
    · rw [if_pos hstop]
      exact h
    · rw [if_neg hstop]
      have herr := not_not.mp (not_or.mp hstop).2
      rcases @checkDrive_cases E D drive st with ⟨hnone, -⟩ | ⟨st', hst', -, -, -⟩
      · rw [hnone]
        refine .inr (.inl ?_)
        unfold validGeom
        rw [hnone]
      · have hst'err : st'.errnum = none := by
          unfold checkDrive at hst'
          split_ifs at hst'
          · obtain ⟨g, -, rfl⟩ := Option.map_eq_some_iff.mp hst'
            exact herr
          · rwa [← Option.some.inj hst']
        rw [hst']
        exact ih _ _ _ _ (loadTrack_errnum hst'err sector slen off)

theorem rawread_errnum {st : TrackBuffer} (h : st.errnum = none) (sector byteOffset : ℕ) {byteLen : ℤ}
    (hlen : 0 < byteLen) :
    ((rawread E D st drive sector byteOffset byteLen).1 = true ∧
      (rawread E D st drive sector byteOffset byteLen).2.st.errnum = none) ∨
    ((rawread E D st drive sector byteOffset byteLen).1 = false ∧
      ReadFailed (rawread E D st drive sector byteOffset byteLen).2.st) := by
  unfold rawread
  rw [if_neg (not_le.mpr hlen)]
  dsimp only
  rcases @rawreadLoop_errnum E D drive byteLen.toNat st sector
    ((byteOffset + byteLen.toNat + 512 - 1) / 512) byteOffset byteLen.toNat (.inl h) with hnone | hfail
  · exact .inl ⟨by rw [hnone]; rfl, hnone⟩
  · refine .inr ⟨?_, hfail⟩
    rcases hfail with h | h | h <;> rw [h] <;> rfl

end Spec

/-- A BIOS with one disk, of two tracks of four sectors. -/
def oneDrive : DiskBios where
  diskinfo d := if d = 128 then some ⟨2, 1, 4, 8, false⟩ else none
  spoilt _ g := g
  fails _ := false
  junk _ _ := 0
  pos d g h := by
    split_ifs at h
    obtain rfl := Option.some.inj h
    decide

/-- The start of the boot loader. -/
def emptyBuffer : TrackBuffer := ⟨none, -1, 0, ⟨0, 0, 0, 0, false⟩, fun _ => 0, 0⟩

/-- What a command does with the disks. A write can do anything to them, and `errnum` is everyone's. -/
inductive DiskOp
  | rawread (drive : ℤ) (sector : ℕ) (byteOffset : Fin 512) (byteLen : ℤ)
  | openPartition (drive : ℤ)
  | write (f : Drives → Drives)
  | setErrnum (e : Option DiskError)

/-- A read of a command, with the disks at the time, and what it gave. -/
structure ReadEntry where
  disks : Drives
  drive : ℤ
  first : ℕ
  byteLen : ℤ
  ok : Bool
  result : RawRead

/-- The state of a run: the disks, the buffer, and the reads so far. -/
structure DiskRun where
  disks : Drives
  st : TrackBuffer
  log : List ReadEntry

section Commands

variable (E : DiskBios)

def DiskOp.run (s : DiskRun) : DiskOp → DiskRun
  | .rawread drive sector byteOffset byteLen =>
    let r := LinboxRescue.rawread E s.disks s.st drive sector byteOffset byteLen
    { s with
      st := r.2.st
      log := s.log ++ [⟨s.disks, drive, 512 * sector + byteOffset, byteLen, r.1, r.2⟩] }
  | .openPartition drive => { s with st := validGeom E drive s.st }
  | .write f =>
    -- the cache is cleared first
    { s with disks := f s.disks, st := { s.st with bufTrack := -1 } }
  | .setErrnum e => { s with st := { s.st with errnum := e } }

/-- A block of an image: it is inflated into the buffer, and its sectors are written. -/
structure ImageBlock where
  mem : ℕ → UInt8
  writes : List (Drives → Drives)

def ImageBlock.run (s : DiskRun) (b : ImageBlock) : DiskRun :=
  (b.writes.map DiskOp.write).foldl (DiskOp.run E) { s with st := { s.st with mem := b.mem } }

/-- A builtin of the command line or of a menu entry: what it reads and writes, and the images that it
downloads after that. -/
structure DiskCommand where
  ops : List DiskOp
  images : List ImageBlock

/-- Before a builtin "invalidate the cache", and no error is left. -/
def DiskRun.start (s : DiskRun) : DiskRun :=
  { s with st := { s.st with errnum := none, bufDrive := -1 } }

def DiskCommand.run (s : DiskRun) (c : DiskCommand) : DiskRun :=
  c.images.foldl (ImageBlock.run E) (c.ops.foldl (DiskOp.run E) s.start)

/-- `ERR_NO_DISK` stays. -/
def DiskOp.KeepsNoDisk (st : TrackBuffer) : DiskOp → Prop
  | .setErrnum e => st.errnum = some .noDisk → e = some .noDisk
  | _ => True

/-- The operations of a command keep `ERR_NO_DISK`, from state `s` on. -/
def OpsKeepNoDisk : DiskRun → List DiskOp → Prop
  | _, [] => True
  | s, op :: ops => op.KeepsNoDisk s.st ∧ OpsKeepNoDisk (op.run E s) ops

/-- Every command of a run keeps `ERR_NO_DISK` until it is over. -/
def CommandsKeepNoDisk : DiskRun → List DiskCommand → Prop
  | _, [] => True
  | s, c :: cs => OpsKeepNoDisk E s.start c.ops ∧ CommandsKeepNoDisk (c.run E s) cs

end Commands

section Runs

variable {E : DiskBios}

/-- A read from a drive that returned true has read what was on the disk at the time. -/
def ReadEntry.Right (e : ReadEntry) : Prop :=
  e.drive ≠ -1 → e.ok = true → ReadOk e.disks e.drive e.first e.byteLen.toNat e.result

def DiskRun.Right (s : DiskRun) : Prop := ∀ e ∈ s.log, e.Right

theorem DiskOp.run_spec (op : DiskOp) {s : DiskRun} (hkeeps : op.KeepsNoDisk s.st) (hright : s.Right)
    (hcoherent : Coherent E s.disks s.st) :
    (op.run E s).Right ∧ Coherent E (op.run E s).disks (op.run E s).st := by
  cases op with
  | rawread drive sector byteOffset byteLen =>
    refine ⟨List.forall_mem_append.mpr ⟨hright, fun e he => ?_⟩, ?_⟩
    · rw [List.mem_singleton.mp he]
      exact fun hneg => (rawread_spec hcoherent hneg sector byteOffset.isLt byteLen).2
    · by_cases hneg : drive = -1
      · subst hneg
        exact rawread_noDrive hcoherent sector byteOffset byteLen
      · exact (rawread_spec hcoherent hneg sector byteOffset.isLt byteLen).1
  | openPartition drive => exact ⟨hright, hcoherent.validGeom drive⟩
  | write f =>
    refine ⟨hright, fun he hd => ?_⟩
    exact ⟨(hcoherent he hd).geom.congr rfl rfl, .inl rfl⟩
  | setErrnum e =>
    exact ⟨hright, fun he hd => (hcoherent (fun hno => he (hkeeps hno)) hd).setErrnum e⟩

theorem DiskOp.foldl_spec (ops : List DiskOp) {s : DiskRun} (hkeeps : OpsKeepNoDisk E s ops)
    (hright : s.Right) (hcoherent : Coherent E s.disks s.st) :
    (ops.foldl (DiskOp.run E) s).Right := by
  induction ops generalizing s with
  | nil => exact hright
  | cons op ops ih =>
    obtain ⟨hright', hcoherent'⟩ := op.run_spec hkeeps.1 hright hcoherent
    exact ih hkeeps.2 hright' hcoherent'

/-- Downloading an image reads no disk. -/
theorem ImageBlock.log_run (s : DiskRun) (b : ImageBlock) : (b.run E s).log = s.log := by
  have hwrites : ∀ (ws : List (Drives → Drives)) (s : DiskRun),
      ((ws.map DiskOp.write).foldl (DiskOp.run E) s).log = s.log := by
    intro ws
    induction ws with
    | nil => exact fun s => rfl
    | cons f ws ih => exact fun s => ih _
  exact hwrites b.writes _

theorem DiskCommand.run_right (c : DiskCommand) {s : DiskRun} (hkeeps : OpsKeepNoDisk E s.start c.ops)
    (hright : s.Right) : (c.run E s).Right := by
  have hops : (c.ops.foldl (DiskOp.run E) s.start).Right :=
    DiskOp.foldl_spec c.ops hkeeps hright fun _ hd => absurd rfl hd
  unfold DiskCommand.run
  generalize c.ops.foldl (DiskOp.run E) s.start = s' at hops
  induction c.images generalizing s' with
  | nil => exact hops
  | cons b bs ih =>
    refine ih _ ?_
    unfold DiskRun.Right
    rw [ImageBlock.log_run]
    exact hops

theorem DiskCommand.foldl_right (cs : List DiskCommand) {s : DiskRun} (hkeeps : CommandsKeepNoDisk E s cs)
    (hright : s.Right) : (cs.foldl (DiskCommand.run E) s).Right := by
  induction cs generalizing s with
  | nil => exact hright
  | cons c cs ih => exact ih hkeeps.2 (c.run_right hkeeps.1 hright)

/-- **The buffer is never stale**: in every run of commands that do not clear `ERR_NO_DISK`, whatever they
write and download, every read from a drive that returns true has read what was on the disk at the
time, and reported exactly these bytes to `disk_read_func`. -/
theorem diskCommands_read (cs : List DiskCommand) (D : Drives) (st : TrackBuffer)
    (hkeeps : CommandsKeepNoDisk E ⟨D, st, []⟩ cs) :
    (cs.foldl (DiskCommand.run E) ⟨D, st, []⟩).Right :=
  DiskCommand.foldl_right cs hkeeps fun _ he => absurd he List.not_mem_nil

/-- The commands `root`, which clears the error of a drive that is not mounted, and `mbr` after
`rootnoverify`, which reads from drive -1; then a disk is written and read again. -/
def rootAndMbr : List DiskCommand :=
  [⟨[.openPartition 128, .rawread 128 2 100 600, .setErrnum (some .badPartTable), .setErrnum none], []⟩,
    ⟨[.rawread (-1) 0 0 512], []⟩,
    ⟨[.rawread 128 0 0 512, .write fun _ _ _ => 7, .rawread 128 0 0 512],
      [⟨fun _ => 0, [fun _ _ _ => 8]⟩]⟩]

theorem diskCommands_read_rootAndMbr :
    (rootAndMbr.foldl (DiskCommand.run oneDrive)
      ⟨fun _ i => UInt8.ofNat i, emptyBuffer, []⟩).Right :=
  diskCommands_read rootAndMbr _ _
    ⟨⟨trivial, trivial, fun h => absurd h (by decide), fun h => absurd h (by decide), trivial⟩,
      ⟨trivial, trivial⟩, ⟨trivial, trivial, trivial, trivial⟩, trivial⟩

end Runs

end LinboxRescue
