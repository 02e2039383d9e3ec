import LinboxRescue.Lib.CString
import LinboxRescue.Lib.Fuel

/-!
# The inventory of the machine (`src/client/src_revoboot/builtins_lbs.c`, `common.c`)

The SMBIOS table is a sequence of structures, each with a set of strings behind it that two NULs end.
`smbios_get` looks for a structure of a type; it keeps its place in static variables, from where the
next search goes on, and goes back to the start only when a search has run off the end.
`init_bios_info` asks for the structures one type after the other.
-/

namespace LinboxRescue

/-! ## `smbios_get` -/

/-- The table and the static variables of `smbios_get`. -/
structure Smbios where
  mem : Bytes
  len : ℕ
  num : ℕ
  ver : ℕ
  i : ℕ
  ptr : Option ℕ

/-- The search for the two NULs from `next` on. -/
def stringsEnd (mem : Bytes) (len : ℕ) : ℕ → ℕ → ℕ
  | 0, next => next
  | fuel + 1, next =>
    if next + 1 < len ∧ (byteAt mem next ≠ 0 ∨ byteAt mem (next + 1) ≠ 0) then
      stringsEnd mem len fuel (next + 1)
    else next

/-- Where the structure behind the one at `ptr` begins. -/
def nextStructure (mem : Bytes) (len ptr : ℕ) : ℕ :=
  stringsEnd mem len len (ptr + (byteAt mem (ptr + 1)).toNat) + 2

/-- The loop over the structures, of which `n` are left: what is found, and the new `i` and `ptr`. -/
def smbiosScan (mem : Bytes) (len : ℕ) (rtype : UInt8) : ℕ → ℕ → ℕ → Option ℕ × ℕ × Option ℕ
  | 0, i, _ => (none, i, none)
  | n + 1, i, ptr =>
    if byteAt mem ptr = rtype then (some ptr, i + 1, some (nextStructure mem len ptr))
    else smbiosScan mem len rtype n (i + 1) (nextStructure mem len ptr)

/-- `smbios_get(rtype, NULL)`. -/
def smbiosGet (rtype : UInt8) : StateM Smbios (Option ℕ) := fun s =>
  let i := if s.ptr = none then 0 else s.i
  let r := smbiosScan s.mem s.len rtype (s.num - i) i (s.ptr.getD 0)
  (r.1, { s with i := r.2.1, ptr := r.2.2 })

/-- `smbios_get(-1, NULL)`. -/
def smbiosRewind : StateM Smbios Unit := fun s => ((), { s with ptr := none })

/-! ## What is read from a structure -/

/-- A character that cannot be shown; `char` is signed. -/
def dotted (b : UInt8) : UInt8 := if b.toInt8 < 32 ∨ b = 127 then 46 else b

/-- `n` strings are passed over, but not the end of the set. -/
def skipNames (mem : Bytes) : ℕ → ℕ → ℕ
  | 0, bp => bp
  | n + 1, bp =>
    if byteAt mem bp = 0 then bp else skipNames mem n (bp + (cstr (mem.drop bp)).length + 1)

/-- `smbios_string(dm, s)`: the string, which is made fit to be shown where it is. -/
def smbiosString (dm : ℕ) (s : UInt8) : StateM Smbios Bytes := fun st =>
  if s = 0 then (ascii "-", st)
  else
    let bp := skipNames st.mem (s.toNat - 1) (dm + (byteAt st.mem (dm + 1)).toNat)
    if byteAt st.mem bp = 0 then (ascii "badindex", st)
    else
      let str := (cstr (st.mem.drop bp)).map dotted
      (str, { st with mem := overwrite st.mem bp str })

/-- `*p`. -/
def readByte (p : ℕ) : StateM Smbios UInt8 := fun s => (byteAt s.mem p, s)

/-- `*(__u16 *)p`. -/
def readWord (p : ℕ) : StateM Smbios ℕ := fun s =>
  ((byteAt s.mem p).toNat + 256 * (byteAt s.mem (p + 1)).toNat, s)

structure BiosInfo where
  vendor : Bytes
  version : Bytes
  release : Bytes
  deriving DecidableEq

structure SysInfo where
  manufacturer : Bytes
  product : Bytes
  version : Bytes
  serial : Bytes
  uuid : Bytes
  deriving DecidableEq

structure Enclosure where
  vendor : Bytes
  type : UInt8
  deriving DecidableEq

structure MemoryDevice where
  size : ℤ
  form : UInt8
  location : Bytes
  type : ℕ
  speed : ℕ
  deriving DecidableEq

/-- `smbios_string(ptr, ptr[off])`. -/
def stringField (ptr off : ℕ) : StateM Smbios Bytes := do
  smbiosString ptr (← readByte (ptr + off))

def readBios (ptr : ℕ) : StateM Smbios BiosInfo := do
  let vendor ← stringField ptr 0x4
  let version ← stringField ptr 0x5
  let release ← stringField ptr 0x8
  return { vendor, version, release }

/-- The sixteen bytes of the uuid are printed later; they do not change. -/
def readSystem (ptr : ℕ) : StateM Smbios SysInfo := do
  let manufacturer ← stringField ptr 0x4
  let product ← stringField ptr 0x5
  let version ← stringField ptr 0x6
  let serial ← stringField ptr 0x7
  let uuid ← (List.range 16).mapM fun i => readByte (ptr + 8 + i)
  return { manufacturer, product, version, serial, uuid }

def readEnclosure (ptr : ℕ) : StateM Smbios Enclosure := do
  let vendor ← stringField ptr 0x4
  let type ← readByte (ptr + 0x5)
  return { vendor, type := type &&& 0x7F }

def readMemory (ptr : ℕ) : StateM Smbios MemoryDevice := do
  let size ← readWord (ptr + 0xC)
  let form ← readByte (ptr + 0xE)
  let location ← stringField ptr 0x10
  let type ← readByte (ptr + 0x12)
  let type' ← readByte (ptr + 0x14)
  let type'' ← readByte (ptr + 0x13)
  let speed ← readWord (ptr + 0x15)
  let ver := (← get).ver
  return {
    size := if 0x8000 ≤ size then -((size : ℤ) % 0x8000) else size
    form, location
    type := type.toNat + 256 * type'.toNat + 65536 * type''.toNat
    speed := if 23 ≤ ver then speed else 0 }

/-- A search for a structure, and what is read from it. -/
def smbiosQuery {α : Type} (rtype : UInt8) (read : ℕ → StateM Smbios α) :
    StateM Smbios (Option (ℕ × α)) := do
  match ← smbiosGet rtype with
  | none => return none
  | some ptr => return some (ptr, ← read ptr)

def smbiosGetBiosinfo : StateM Smbios (Option (ℕ × BiosInfo)) := smbiosQuery 0 readBios

def smbiosGetSysinfo : StateM Smbios (Option (ℕ × SysInfo)) := smbiosQuery 1 readSystem

def smbiosGetEnclosure : StateM Smbios (Option (ℕ × Enclosure)) := smbiosQuery 3 readEnclosure

def smbiosGetMemory : StateM Smbios (Option (ℕ × MemoryDevice)) := smbiosQuery 17 readMemory

/-! ## `init_bios_info` -/

inductive SmbiosHalt
  | outOfFuel
  deriving DecidableEq, Repr

/-- `while (query())`. -/
def queryLoop {α : Type} (query : StateM Smbios (Option α)) :
    ℕ → Smbios → Except SmbiosHalt (List α × Smbios)
  | 0, _ => .error .outOfFuel
  | fuel + 1, s =>
    match query.run s with
    | (none, s) => .ok ([], s)
    | (some x, s) => queryLoop query fuel s >>= fun r => .ok (x :: r.1, r.2)

/-- `smbios_get_numcpu()`. -/
def smbiosGetNumcpu (fuel : ℕ) (s : Smbios) : Except SmbiosHalt ℕ :=
  queryLoop (smbiosGet 4) fuel (smbiosRewind.run s).2 >>= fun r =>
    .ok (if r.1.length = 0 then 1 else r.1.length)

/-- What is sent, with the places of the structures it was read from. -/
structure Inventory where
  bios : Option (ℕ × BiosInfo)
  system : Option (ℕ × SysInfo)
  enclosure : Option (ℕ × Enclosure)
  memory : List (ℕ × MemoryDevice)
  cpus : ℕ
  deriving DecidableEq

/-- The calls of `init_bios_info`. -/
def inventory (fuel : ℕ) (s : Smbios) : Except SmbiosHalt Inventory :=
  let (bios, s) := smbiosGetBiosinfo.run s
  let (system, s) := smbiosGetSysinfo.run s
  let (enclosure, s) := smbiosGetEnclosure.run s
  queryLoop smbiosGetMemory fuel s >>= fun (memory, s) =>
    smbiosGetNumcpu fuel s >>= fun cpus => .ok { bios, system, enclosure, memory, cpus }

/-! ## Well-formed tables -/

/-- A structure: its type, what follows its length, and its strings. -/
structure SmbiosStructure where
  type : UInt8
  body : Bytes
  strings : List Bytes
  length_body : 2 ≤ body.length ∧ body.length + 2 < 256
  strings_ne : ∀ s ∈ strings, s ≠ [] ∧ ∀ b ∈ s, b ≠ 0

/-- The strings, each with its NUL; a set without strings has a NUL too. -/
def namesText (strings : List Bytes) : Bytes :=
  if strings = [] then [0] else strings.flatMap (· ++ [0])

/-- The part in front of the strings. -/
def SmbiosStructure.formatted (x : SmbiosStructure) : Bytes :=
  x.type :: UInt8.ofNat (x.body.length + 2) :: x.body

def SmbiosStructure.encode (x : SmbiosStructure) : Bytes := x.formatted ++ (namesText x.strings ++ [0])

/-- The bytes of a table. -/
def encodeTable (xs : List SmbiosStructure) : Bytes := xs.flatMap SmbiosStructure.encode

/-- `smbios_init` has found the table. -/
def Smbios.ofTable (xs : List SmbiosStructure) (ver : ℕ) : Smbios where
  mem := encodeTable xs
  len := (encodeTable xs).length
  num := xs.length
  ver := ver
  i := 0
  ptr := none

/-- Where structure `k` is. -/
def structureAt (xs : List SmbiosStructure) (k : ℕ) : ℕ := (encodeTable (xs.take k)).length

/-- The places of all structures of a type. -/
def structuresOf (xs : List SmbiosStructure) (t : UInt8) : List ℕ :=
  ((List.range xs.length).filter fun k => (xs.map SmbiosStructure.type)[k]? = some t).map (structureAt xs)

/-- The first structure of each type is used, all memory devices, and all processors are counted. -/
structure UsesAll (xs : List SmbiosStructure) (inv : Inventory) : Prop where
  bios : inv.bios.map Prod.fst = (structuresOf xs 0).head?
  system : inv.system.map Prod.fst = (structuresOf xs 1).head?
  enclosure : inv.enclosure.map Prod.fst = (structuresOf xs 3).head?
  memory : inv.memory.map Prod.fst = structuresOf xs 17
  cpus : inv.cpus = max 1 (structuresOf xs 4).length

/-- If there are structures of both types, the first one of type `t` is in front of those of type
`u`. -/
def FirstOf (xs : List SmbiosStructure) (t u : UInt8) : Prop :=
  ∀ p ∈ (structuresOf xs t).head?, ∀ q ∈ structuresOf xs u, p < q

end LinboxRescue
