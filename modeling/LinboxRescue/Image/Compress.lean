import LinboxRescue.Lib.Zlib
import LinboxRescue.Image.Format

/-!
# `compress_volume`

`compress.c` and `compress-loop.h`: a bitmap of used sectors is cut into slices of 22016 bytes; for
each slice the header and the used sectors are given to `deflate` and the compressed bytes go to a
chunk file. The source device is read with relative seeks only.

`compressData` is the drain loop around `deflate`, `readBit` the body of the sector loop,
`compressChunk` one turn of the chunk loop. The C `exit(1)` after a zlib error is
`Halt.zlibError`; `Halt.outOfFuel` only says that the bound on the number of `deflate` calls was too
small.
-/

namespace LinboxRescue

/-- Why a run ends without a result. -/
inductive Halt
  | outOfFuel
  | zlibError
  /-- `flushToDisk` read past the end of `Bitmap` -/
  | bitmapOverrun
  /-- `fread` on a file that could not be opened -/
  | noInputFile
  deriving DecidableEq, Repr

/-! ## The source device -/

/-- An open device: its sectors, the sectors whose `read` fails, the offsets `lseek` accepts and the
current offset in bytes. -/
structure Source where
  data : List Sector
  bad : ℕ → Bool
  seekable : ℕ → Bool
  off : ℕ

/-- The content of sector `i`, when it can be read. -/
def Source.sector (d : Source) (i : ℕ) : Option Sector := if d.bad i then none else d.data[i]?

/-- `read(fi, dataptr, 512)`; a failed read leaves the offset where it was. -/
def Source.read (d : Source) : Option Sector × Source :=
  match d.sector (d.off / 512) with
  | some s => (some s, { d with off := d.off + 512 })
  | none => (none, d)

/-- `lseek(fi, n, SEEK_CUR)`. -/
def Source.lseek (d : Source) (n : ℕ) : Source :=
  if d.seekable (d.off + n) then { d with off := d.off + n } else d

/-! ## The compressor -/

/-- A `COMPRESS`: the deflate state, the bytes waiting in `outbuff`, and the output file. -/
structure Compress (m : ZMachine) where
  z : m.σ
  outbuff : Bytes
  ended : Bool
  state : ZFlush
  header : Bool
  compressedBlocks : ℕ
  cbytes : ℕ
  file : Bytes

def compressInit (m : ZMachine) (bytes : ℕ) : Compress m where
  z := m.init
  outbuff := []
  ended := false
  state := .noFlush
  header := true
  compressedBlocks := 10
  cbytes := bytes
  file := []

/-- The loop of `compress_data`: call `deflate` until the input is used up, or until the end of the
stream when `fin` is set. -/
def deflateLoop (m : ZMachine) (fin : Bool) : ℕ → Compress m → Bytes → Except Halt (Compress m)
  | 0, _, _ => .error .outOfFuel
  | fuel + 1, c, inp =>
    let r := m.call c.z (if fin then .finish else c.state) inp (8192 - c.outbuff.length)
    let inp := inp.drop r.used
    let c := { c with z := r.next, outbuff := c.outbuff ++ r.out }
    if c.outbuff.length = 8192 then
      -- the output buffer is full: write it and call again with the same flush mode
      deflateLoop m fin fuel { c with file := c.file ++ c.outbuff, outbuff := [] } inp
    else
      let c := if c.state ≠ .noFlush ∧ inp = [] then { c with state := .noFlush } else c
      if r.ret = .streamEnd then .ok { c with file := c.file ++ c.outbuff, outbuff := [] }
      else if r.ret ≠ .ok then .error .zlibError
      else if inp ≠ [] ∨ fin then deflateLoop m fin fuel c inp
      else .ok c

/-- The settings `compress_data` makes before its loop. -/
def Compress.prepare {m : ZMachine} (c : Compress m) (lg : ℕ) (fin : Bool) : Compress m :=
  let flush : Bool := 10 ≤ c.compressedBlocks + 1
  { c with
    compressedBlocks := if flush then 0 else c.compressedBlocks + 1
    state := if flush then .fullFlush else c.state
    ended := c.ended || fin
    cbytes := if c.header then c.cbytes else c.cbytes + lg
    header := false }

/-- `compress_data(c, data, lg, out, end)`. -/
def compressData (m : ZMachine) (fuel : ℕ) (c : Compress m) (data : Bytes) (fin : Bool) :
    Except Halt (Compress m) :=
  deflateLoop m fin fuel (c.prepare data.length fin) data

/-- `compress_end(c, out)`. -/
def compressEnd (m : ZMachine) (fuel : ℕ) (c : Compress m) : Except Halt (Compress m) :=
  if c.outbuff ≠ [] ∨ c.ended = false then compressData m fuel c [] true else .ok c

/-! ## The sector loop -/

/-- The locals of the sector loop. `buffer` is the whole array, `datalg` the part in use. -/
structure ReadState (m : ZMachine) where
  fi : Source
  skip : ℕ
  buffer : Bytes
  datalg : ℕ
  c : Compress m

/-- The buffer after a read into offset `off`. A read error leaves the old bytes there, and they are
saved in place of the sector. -/
def readInto (buffer : Bytes) (off : ℕ) : Option Sector → Bytes
  | some s => overwrite buffer off s.bytes
  | none => buffer

/-- The body of the loop for one bit of the table. -/
def readBit (m : ZMachine) (fuel : ℕ) (st : ReadState m) (bit : Bool) :
    Except Halt (ReadState m) :=
  if bit = false then .ok { st with skip := st.skip + 512 }
  else
    let fi := if st.skip ≠ 0 then st.fi.lseek st.skip else st.fi
    let c := { st.c with cbytes := st.c.cbytes + st.skip }
    let (r, fi) := fi.read
    let buffer := readInto st.buffer st.datalg r
    let datalg := st.datalg + 512
    if datalg = 24064 then do
      let c ← compressData m fuel c buffer false
      return { fi, skip := 0, buffer, datalg := 0, c }
    else
      return { fi, skip := 0, buffer, datalg, c }

/-- What follows the sector loop: the sectors left in the buffer, the count of the trailing unused
sectors and `compress_end`. -/
def closeChunk (m : ZMachine) (fuel : ℕ) (st : ReadState m) : Except Halt (Compress m) :=
  let last := if 0 < st.datalg then compressData m fuel st.c (st.buffer.take st.datalg) true
    else .ok st.c
  last >>= fun c => compressEnd m fuel { c with cbytes := c.cbytes + st.skip }

/-! ## The chunk loop -/

/-- `PARAMS`. The bitmap fits the client's 32-bit memory, so that its length can be rounded up to
whole chunks; the number of sectors is an `unsigned long long`. -/
structure Params where
  bitmap : Bytes
  nbSect : ℕ
  bitmap_lt : bitmap.length + 22015 < 2 ^ 32
  nbSect_lt : nbSect < 2 ^ 64

/-- The number of chunks. -/
def Params.nb (p : Params) : ℕ := (p.bitmap.length + 22016 - 1) / 22016

/-- The lines of the file `options`, when there is one. -/
abbrev Options := Option (List Bytes)

/-- `filestring`: what follows `L<i>:` on the first line of `options` that has it. -/
def filestring (options : Options) (i : ℕ) : Bytes :=
  match options with
  | none => []
  | some lines =>
    let numline := ascii "L" ++ pad3 i ++ ascii ":"
    match (lines.map fun l => l.dropLast ++ ascii "|").find? fun l => (strstr l numline).isSome with
    | none => []
    | some l => l.drop 5

/-- What one turn of the chunk loop leaves to the next. -/
structure Volume where
  dir : Dir
  fi : Source
  buffer : Bytes
  bytes : ℕ

/-- One turn of the chunk loop: chunk `i` with the table bytes `slice`. -/
def compressChunk (z : Zlib) (fuel : ℕ) (name : Bytes) (options : Options) (i : ℕ)
    (first slice : Bytes) (v : Volume) : Except Halt Volume := do
  let header := imageHeader (headerText first (filestring options i) slice.length) slice
  let c ← compressData z.deflate fuel (compressInit z.deflate v.bytes) header false
  let st ← (bits slice).foldlM (readBit z.deflate fuel)
    { fi := v.fi, skip := 0, buffer := v.buffer, datalg := 0, c }
  let c ← closeChunk z.deflate fuel st
  return {
    dir := Function.update v.dir (chunkName name i) (some c.file)
    -- the seek over the trailing unused sectors is not checked
    fi := if st.skip ≠ 0 then st.fi.lseek st.skip else st.fi
    buffer := st.buffer
    bytes := c.cbytes }

/-- The chunk loop: `n` chunks are still to be written, the next one is number `i`. -/
def compressLoop (z : Zlib) (fuel : ℕ) (name : Bytes) (options : Options) :
    ℕ → ℕ → Bytes → Bytes → Volume → Except Halt Volume
  | 0, _, _, _, v => .ok v
  | n + 1, i, first, rest, v => do
    let lg := if 22016 < rest.length then 22016 else rest.length
    let v ← compressChunk z fuel name options i first (rest.take lg) v
    compressLoop z fuel name options n (i + 1) [] (rest.drop lg) v

/-- `compress_volume(fi, nameprefix, p, info)`; `buffer` is the content of the array `buffer` on
entry. -/
def compressVolume (z : Zlib) (fuel : ℕ) (name : Bytes) (options : Options) (im : Imager)
    (p : Params) (fi : Source) (buffer : Bytes) (dir : Dir) : Except Halt Volume :=
  compressLoop z fuel name options p.nb 0 (firstString p.nbSect p.nb im.info) p.bitmap
    { dir := Function.update dir (name ++ ascii "idx") (some []), fi, buffer, bytes := 0 }

end LinboxRescue
