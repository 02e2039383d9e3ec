import LinboxRescue.Lib.CString
import LinboxRescue.Lib.Stdio
import LinboxRescue.Lib.Stream
import LinboxRescue.Lib.Fuel

/-!
# LVM physical volumes

`lvm_check` of `lvm.c` looks for an LVM header on a device and stores the offset of the saved file
system and, in `lvm_sect`, the number of its sectors. For LVM2 it follows the label to the text of the
metadata and reads it line by line: `LvmParse.turn` is the body of that loop, which counts braces and
goes through four states, and `parseLoop` the loop.
-/

namespace LinboxRescue

/-! ## Lines of the metadata -/

/-- `key = ` of a format: blanks match any white space, also none. -/
def scanKey (key t : Bytes) : Option Bytes :=
  (scanText key t).bind fun t => (scanText [61] (skipSpace t)).map skipSpace

/-- `key = %d` or `key = %lld`, before the value is made to fit its type. -/
def scanField (key t : Bytes) : Option ℤ :=
  (scanKey key t).bind fun t =>
    match scanConv .d t with
    | some (.int n, _) => some n
    | _ => none

/-- `id = "%38s`. -/
def scanId (t : Bytes) : Option Bytes :=
  (scanKey (ascii "id") t).bind fun t =>
    (scanText [34] t).bind fun t => (scanWord 38 t).map Prod.fst

/-- The `long long` that `%lld` stores. -/
def clampLong (n : ℤ) : ℤ := max (-2 ^ 63) (min n (2 ^ 63 - 1))

/-- The `long long` with the same low 64 bits. -/
def wrapLong (n : ℤ) : ℤ := (n + 2 ^ 63) % 2 ^ 64 - 2 ^ 63

/-- The first `n` characters of `uuid_compare(s1, s2)`. -/
def uuidCompare : ℕ → Bytes → Bytes → Bool
  | 0, _, _ => true
  | n + 1, s1, s2 =>
    let s2 := if s2.head? = some 45 then s2.tail else s2
    byteAt s1 0 == byteAt s2 0 && uuidCompare n s1.tail s2.tail

/-- The values of `state`: 0, 1, 2 and -1. -/
inductive LvmState
  | header | volumes | volume | count
  deriving DecidableEq, Repr

/-- The variables of the loop. -/
structure LvmParse where
  state : LvmState
  peCount : ℤ
  extent : ℤ
  lev : ℤ
  offset : ℤ
  deriving DecidableEq

/-- `strstr(b, s) != NULL`. -/
def contains (b s : Bytes) : Bool := (strstr b s).isSome

/-- The two counts of braces. -/
def LvmParse.braces (p : LvmParse) (b : Bytes) : LvmParse :=
  { p with lev := p.lev + (if contains b [123] then 1 else 0) - if contains b [125] then 1 else 0 }

/-- The `switch`. -/
def LvmParse.fields (pvuuid : Bytes) (p : LvmParse) (b : Bytes) : LvmParse :=
  match p.state with
  | .header =>
    { p with
      extent := ((scanField (ascii "extent_size") b).map clampInt).getD p.extent
      state := if contains b (ascii "physical_volumes") then .volumes else .header }
  | .volumes =>
    match scanId b with
    | some uuid => if uuidCompare 32 pvuuid uuid then { p with state := .volume } else p
    | none => p
  | .volume =>
    match scanField (ascii "pe_start") b with
    | some n => { p with offset := clampLong n, state := .count }
    | none => p
  | .count => { p with peCount := ((scanField (ascii "pe_count") b).map clampInt).getD p.peCount }

/-- A turn, with the string `b` in the buffer. -/
def LvmParse.turn (pvuuid : Bytes) (p : LvmParse) (b : Bytes) : LvmParse :=
  (p.braces b).fields pvuuid b

/-- The condition of the `break`, after a turn. -/
def LvmParse.ends (p : LvmParse) (b : Bytes) : Bool :=
  contains b [125] && p.lev == 2 && p.state == .count

/-- Why `lvm_check` has no result. -/
inductive LvmHalt
  | outOfFuel
  /-- A pointer has left the array `buf`. -/
  | outside
  deriving DecidableEq, Repr

/-- The loop on the text `t`; at the end of the file `fgets` leaves the buffer as it is. -/
def parseLoop (pvuuid : Bytes) : ℕ → LvmParse → Bytes → Bytes → Except LvmHalt LvmParse
  | 0, _, _, _ => .error .outOfFuel
  | fuel + 1, p, buffer, t =>
    let buffer := if t = [] then buffer else fgets 127 t ++ [0]
    let p := p.turn pvuuid (cstr buffer)
    if p.ends (cstr buffer) then .ok p
    else parseLoop pvuuid fuel p buffer (t.drop (fgets 127 t).length)

/-! ## The headers -/

/-- `buf[i]`. -/
def word (buf : Bytes) (i : ℕ) : ℕ := leVal ((buf.drop (4 * i)).take 4)

/-- The `__u64` at byte `i`. -/
def longWord (buf : Bytes) (i : ℕ) : ℕ := leVal ((buf.drop i).take 8)

/-- `fread(buf, n, 1, fi)` at offset `off`. -/
def readAt (dev : Bytes) (off n : ℕ) (buf : Bytes) : Bytes := overwrite buf 0 ((dev.drop off).take n)

/-- The offset after `fseek(fi, n, SEEK_SET)`, whose argument is a `long`. -/
def fseek (off n : ℕ) : ℕ := if wrapInt n < 0 then off else (wrapInt n).toNat

/-- The areas of the physical volume are skipped, up to and with a pair that starts with zero, from
byte `i` on. There is no result when the pointer leaves the array. -/
def skipAreas (buf : Bytes) : ℕ → ℕ → Option ℕ
  | 0, _ => none
  | steps + 1, i =>
    if buf.length < i + 8 then none
    else if longWord buf i = 0 then some (i + 16)
    else skipAreas buf steps (i + 16)

/-- How the search for the metadata ends. -/
inductive Lvm2Header
  /-- There is no label, no metadata area or no metadata. -/
  | refused
  | outside
  /-- The uuid of the physical volume, and the file from the metadata on. -/
  | found (pvuuid text : Bytes)
  deriving DecidableEq

/-- The text in front of the metadata header. -/
def fmttMagic : Bytes := [32, 76, 86, 77, 50, 32, 120, 91, 53, 65, 37, 114, 48, 78, 42, 62]

/-- The path from the label in `buf` to the metadata. -/
def lvm2Header (dev buf : Bytes) : Lvm2Header :=
  if word buf 128 ≠ 0x4542414C ∨ word buf 129 ≠ 0x454E4F4C then .refused
  else if word buf 134 ≠ 0x324D564C ∨ word buf 135 ≠ 0x31303020 then .refused
  else
    let pv := 512 + word buf 133
    match skipAreas buf buf.length (pv + 40) with
    | none => .outside
    | some i =>
      if buf.length < i + 8 then .outside
      else
        let mdhOffset := longWord buf i
        let pos := fseek 1024 mdhOffset
        -- the second half of the array, with the uuid, stays
        let buf := readAt dev pos 512 buf
        if (buf.drop 4).take 16 ≠ fmttMagic then .refused
        else
          let off := word buf 10 + word buf 11 * 2 ^ 32
          if off = 0 then .refused
          else
            .found ((buf.drop pv).take 32)
              (dev.drop (fseek (pos + ((dev.drop pos).take 512).length) ((off + mdhOffset) % 2 ^ 64)))

/-! ## `lvm_check` -/

/-- What is left in `*offset` and `lvm_sect`, when `lvm_sect` was `sect` before; `buf` and `b` are not
initialised. The loop only ends in state -1, so that nothing is left to be tested behind it. -/
def lvmCheck (fuel : ℕ) (dev buf b : Bytes) (sect : ℕ) : Except LvmHalt (ℤ × ℕ) :=
  let buf := readAt dev 0 1024 buf
  if word buf 0 = 0x00014d48 then
    .ok (((word buf 9 + word buf 10) % 2 ^ 32 : ℕ), word buf 113 * word buf 115 % 2 ^ 32)
  else
    match lvm2Header dev buf with
    | .refused => .ok (0, sect)
    | .outside => .error .outside
    | .found pvuuid text =>
      parseLoop pvuuid fuel ⟨.header, 0, 0, 0, 0⟩ b text >>= fun p =>
        .ok (wrapLong (p.offset * 512), (p.extent * p.peCount % 2 ^ 32).toNat)

end LinboxRescue
