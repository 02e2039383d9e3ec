import LinboxRescue.Lib.Scanf
import LinboxRescue.Lib.Stdio

/-!
# Saving the disks of a machine

`save` of `autosave.c` walks over the devices that `get_nextpart` finds, first those of
`/proc/partitions`, then those of `/dev/mapper`. A whole disk gets a BIOS number from `gethdbios` and
a line `ptabs` in `conf.txt`; a partition or a volume is copied by the first tool that accepts it,
and gets a line `partcopy`. What the system answers (`open`, `ioctl`, `sfdisk`, the tools) is given
by a `Machine`.
-/

namespace LinboxRescue

/-! ## Devices -/

/-- A device found by `get_nextpart`: its name below `/dev`, and its numbers, which are of type
`int`. -/
structure Part where
  device : Bytes
  major : ℕ
  minor : ℕ
  minor_lt : minor < 2 ^ 31

/-- The device mapper's major. -/
def Part.isdm (p : Part) : Bool := p.major == 254

/-- A line of `/proc/partitions`. C gives no meaning to numbers that do not fit an `int`. -/
def scanPart (line : Bytes) : Option Part :=
  match sscanf (fmt "%d %d %*d %s") line with
  | [.int major, .int minor, .str device] =>
    some { device, major := major.toNat, minor := minor.toNat % 2 ^ 31
           minor_lt := Nat.mod_lt _ (by decide) }
  | _ => none

/-- An entry of `/dev/mapper`: its name, and its numbers when it is a block device. -/
structure MapperEntry where
  name : Bytes
  rdev : Option (ℕ × ℕ)

def MapperEntry.part (e : MapperEntry) : Option Part :=
  if e.name = ascii "." ∨ e.name = ascii ".." ∨ e.name = ascii "control" then none
  else e.rdev.map fun (major, minor) =>
    { device := (ascii "mapper/" ++ e.name).take 254, major, minor := minor % 2 ^ 31
      minor_lt := Nat.mod_lt _ (by decide) }

/-- The devices that successive calls of `get_nextpart` return; the device mapper's entries in
`/proc/partitions` are ignored. -/
def getParts (proc : Bytes) (mapper : List MapperEntry) : List Part :=
  ((lines 255 proc).filterMap scanPart).filter (fun p => !p.isdm) ++ mapper.filterMap MapperEntry.part

/-- Whole disks of the supported majors. -/
def isDisk (major minor : ℕ) : Bool :=
  ((major == 3 || major == 22 || major == 33 || major == 34) && minor &&& 0x3F == 0) ||
  ((major == 8 || major == 65 || (72 ≤ major && major ≤ 79) || (104 ≤ major && major ≤ 111)) &&
    minor &&& 0xF == 0)

/-! ## BIOS numbers -/

/-- The file `hdmap`, as the pairs `d=n` read from it. -/
def loadhdmap (file : List (ℕ × UInt32)) : ℕ → UInt32 :=
  file.foldl (fun map dn => Function.update map dn.1 dn.2)
    fun i => if i < 256 then 0xFFFFFFFF else 0

/-- The static variables of `gethdbios`. -/
structure Bios where
  lastnum : ℤ
  hdmap : ℕ → UInt32

/-- The first entry of `hdmap` that fits the size of a disk. -/
def findhd (hdmap : ℕ → UInt32) (sect : UInt32) : Option ℕ :=
  (List.range 256).find? fun i => sect == hdmap i || sect + 1 == hdmap i

/-- The BIOS number of a disk of `sect` sectors. -/
def gethdbios (hasHdmap : Bool) (b : Bios) (sect : UInt32) : ℤ × Bios :=
  if !hasHdmap then (b.lastnum + 1 + 128, { b with lastnum := b.lastnum + 1 })
  else
    match findhd b.hdmap sect with
    | some i => (i + 128, { lastnum := i, hdmap := Function.update b.hdmap i 0xFFFFFFFF })
    | none =>
      (b.lastnum + 1 + 128,
        { lastnum := b.lastnum + 1, hdmap := Function.update b.hdmap 256 0xFFFFFFFF })

/-- The prefix of the files of a disk. `%c` of the character 0 leaves an empty string. -/
def dnum2pre (dnum : ℤ) : Bytes :=
  if 0xFFF ≤ dnum then ascii "Lvm" ++ hex2 (dnum % 256).toNat
  else cstr [UInt8.ofNat ((80 + (dnum - 128)) % 256).toNat]

/-! ## Lines of `conf.txt` -/

/-- The lines that `saveimage` and `save` write; partitions are counted from 0. -/
inductive ConfLine
  | title (hostname : Bytes)
  | desc (date : Bytes)
  | partcopyComment
  | ptabsComment
  | ptabs (disk : ℤ) (pre : Bytes)
  | extent (disk part : ℤ) (tmin tmax ttype : UInt32)
  | partcopy (disk part : ℤ) (tmin : UInt32) (file : Bytes) (device : Option Bytes)
  | error (dnum : ℤ) (poff : ℕ) (ttype : UInt32)
  | bootComment (boot : ℕ)
  | root
  | chainloader
  | blank

/-- `%d` of an unsigned number. -/
def decSigned (n : UInt32) : Bytes := decInt n.toBitVec.toInt

open ConfLine in
/-- The text of a line. -/
def ConfLine.text : ConfLine → Bytes
  | title hostname => ascii "title Image " ++ hostname ++ [10]
  | desc date => ascii "desc (" ++ date ++ ascii ")" ++ [10]
  | partcopyComment => ascii "# Partcopy commands..." ++ [10]
  | ptabsComment => ascii "# Comment next line to remove PTABS reconstruction" ++ [10]
  | ptabs disk pre =>
    ascii "ptabs (hd" ++ decInt disk ++ ascii ") (nd)PATH/" ++ pre ++ ascii "TABS" ++ [10]
  | extent disk part tmin tmax ttype =>
    ascii " # (hd" ++ decInt disk ++ ascii "," ++ decInt part ++ ascii ") " ++ dec tmin.toNat ++
      ascii " " ++ dec tmax.toNat ++ ascii " " ++ decSigned ttype ++ [10]
  | partcopy disk part tmin file device =>
    ascii " partcopy (hd" ++ decInt disk ++ ascii "," ++ decInt part ++ ascii ") " ++
      dec tmin.toNat ++ ascii " PATH/" ++ file ++
      (match device with
        | some d => ascii " " ++ d
        | none => []) ++ [10]
  | error dnum poff ttype =>
    ascii "# ERROR: Unsupported or corrupted FS...(disk " ++ decInt dnum ++ ascii ", part " ++
      dec poff ++ ascii ", type " ++ hex ttype.toNat ++ ascii ")" ++ [10]
  | bootComment boot => ascii "# Boot on 1st disk " ++ dec boot ++ [10]
  | root => ascii " root (hd0)" ++ [10]
  | chainloader => ascii " chainloader +1" ++ [10]
  | blank => [10]

/-! ## The main loop -/

/-- The programs `image_...`. -/
inductive Tool
  | swap | e2fs | fat | ntfs | xfs | jfs | ufs | lvmreiserfs | lvm | raw
  deriving DecidableEq, Repr

/-- The tools that are tried on every partition, in this order. -/
def fslist : List Tool := [.swap, .e2fs, .fat, .ntfs, .xfs, .jfs, .ufs, .lvmreiserfs]

/-- What `save` finds out about the machine it runs on, by the paths of the devices. -/
structure Machine where
  /-- The text of `/proc/partitions`. -/
  proc : Bytes
  mapper : List MapperEntry
  opens : Bytes → Bool
  /-- The start sector that `HDIO_GETGEO` reports. -/
  geo : Bytes → Option UInt32
  /-- The number of sectors that `BLKGETSIZE` reports. -/
  size : Bytes → UInt32
  /-- The last number that `sfdisk --id` prints for a partition of a disk, or -1. -/
  sfdisk : Bytes → ℕ → UInt32
  /-- `image_... device ?` accepts the device. -/
  accepts : Tool → Bytes → Bool
  /-- The file `hdmap`, when there is one. -/
  hdmap : Option (List (ℕ × UInt32))
  /-- The bits of the excluded partitions of every disk. -/
  exclude : ℤ → ℕ
  revoraw : Bool

/-- `(exclude[disk] & (1 << (part - 1))) != 0`, shifts being modulo 32. -/
def Machine.isexcluded (E : Machine) (disk : ℤ) (part : ℕ) : Bool :=
  (E.exclude disk).testBit ((part + 31) % 32)

/-- Extended partitions, of dos, linux, win98 and freebsd. -/
def isExtended (ttype : UInt32) : Bool :=
  ttype == 0x05 || ttype == 0x85 || ttype == 0x0f || ttype == 0xA5

/-- The tool that copies a device. -/
def Machine.tool (E : Machine) (device : Bytes) (ttype : UInt32) : Option Tool :=
  if E.revoraw && E.accepts .raw device then some .raw
  else
    match fslist.find? (E.accepts · device) with
    | some fs => some fs
    | none =>
      if ttype == 0x8e && E.accepts .lvm device then some .lvm
      else if (ttype == 0x12 || ttype == 0xee || ttype == 0xef) && E.accepts .raw device then
        some .raw
      else none

/-- A command `image_<tool> <device> <file>`. -/
structure Image where
  tool : Tool
  device : Bytes
  file : Bytes

structure SaveState where
  dnum : ℤ
  bios : Bios
  /-- The last whole disk. -/
  majorn : Bytes
  shouldBackupLvm : Bool
  conf : List ConfLine
  /-- The disks with a line `ptabs`, and their numbers there. -/
  disks : List (ℤ × Bytes)
  /-- The files `size<major><minor>.txt`. -/
  sizes : ℕ × ℕ → Option ℕ
  images : List Image

/-- The path of a device. -/
def Part.path (p : Part) : Bytes := ascii "/dev/" ++ p.device

/-- The number of a partition; a volume has none. -/
def Part.poff (p : Part) : ℕ := if p.isdm then 0 else p.minor &&& 0xF

/-- The disk number in force for a device. -/
def SaveState.numberFor (st : SaveState) (p : Part) : ℤ :=
  if p.isdm then 0x1000 + p.minor else st.dnum

/-- The start sector of a device, when its geometry is known. -/
def Machine.start (E : Machine) (p : Part) : Option UInt32 := if p.isdm then some 0 else E.geo p.path

/-- `new start of disk`. -/
def SaveState.newDisk (E : Machine) (st : SaveState) (p : Part) : SaveState :=
  let r := gethdbios E.hdmap.isSome st.bios (E.size p.path)
  { st with
    dnum := r.1
    bios := r.2
    disks := st.disks ++ [(r.1 - 128, p.device)]
    sizes := Function.update st.sizes (p.major, p.minor) (some ((E.size p.path).toNat / 2))
    conf := st.conf ++ [.ptabsComment, .ptabs (r.1 - 128) (dnum2pre r.1)] }

/-- The name of the files of a device on disk `dnum`. -/
def Part.file (p : Part) (dnum : ℤ) : Bytes :=
  if p.isdm then dnum2pre dnum else dnum2pre dnum ++ dec p.poff

/-- The lines for a partition. -/
def partLines (E : Machine) (st : SaveState) (p : Part) (tmin ttype : UInt32) : List ConfLine :=
  [.extent (st.dnum - 128) (p.poff - 1) tmin (tmin + E.size p.path - 1) ttype,
    .partcopy (st.dnum - 128) (p.poff - 1) tmin (p.file st.dnum)
      (if p.isdm then some p.device else none)]

/-- A partition is copied, or an error is noted when no tool accepts it. -/
def SaveState.copy (E : Machine) (st : SaveState) (p : Part) (tmin ttype : UInt32) : SaveState :=
  match E.tool p.path ttype with
  | some tool =>
    { st with
      conf := st.conf ++ partLines E st p tmin ttype
      images := st.images ++ [⟨tool, p.path, p.file st.dnum⟩]
      shouldBackupLvm := st.shouldBackupLvm || tool == .lvm }
  | none =>
    { st with conf := st.conf ++ partLines E st p tmin ttype ++ [.error st.dnum p.poff ttype] }

/-- The type of a partition; disks and volumes have none. -/
def Machine.ttype (E : Machine) (st : SaveState) (p : Part) (start : UInt32) : UInt32 :=
  if p.isdm || start == 0 then 0xFFFFFFFF else E.sfdisk st.majorn p.poff

/-- A device taken for a whole disk. -/
def Part.dontsave (p : Part) (start : UInt32) : Bool :=
  isDisk p.major p.minor || (start == 0 && !p.isdm)

/-- A turn of the loop. -/
def SaveState.step (E : Machine) (st : SaveState) (p : Part) : SaveState :=
  let st := { st with dnum := st.numberFor p }
  if p.isdm && !st.shouldBackupLvm then st
  else if !E.opens p.path then st
  else
    match E.start p with
    | none => st
    | some start =>
      let st := if start == 0 && !p.isdm then { st with majorn := p.path } else st
      let ttype := E.ttype st p start
      if p.dontsave start then st.newDisk E p
      else if E.size p.path ≤ 63 || isExtended ttype || E.isexcluded (st.dnum - 128) p.poff then st
      else st.copy E p start ttype

/-- The state before the loop; what `majorn` and the files hold is not known. -/
def Machine.init (E : Machine) (majorn : Bytes) (sizes : ℕ × ℕ → Option ℕ) : SaveState :=
  { dnum := 127, bios := ⟨-1, loadhdmap (E.hdmap.getD [])⟩, majorn, shouldBackupLvm := false
    conf := [.partcopyComment], disks := [], sizes, images := [] }

def Machine.parts (E : Machine) : List Part := getParts E.proc E.mapper

def save (E : Machine) (majorn : Bytes) (sizes : ℕ × ℕ → Option ℕ) : SaveState :=
  E.parts.foldl (SaveState.step E) (E.init majorn sizes)

/-- The lines of `conf.txt`. -/
def saveimage (hostname date : Bytes) (st : SaveState) : List ConfLine :=
  [.title hostname, .desc date] ++ st.conf ++ [.bootComment 0, .root, .chainloader, .blank]

/-- The text of `conf.txt`. -/
def confText (ls : List ConfLine) : Bytes := (ls.map ConfLine.text).flatten

end LinboxRescue
