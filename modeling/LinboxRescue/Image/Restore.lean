import LinboxRescue.Image.Inflate

/-!
# `restore`

`autorestore.c`: the chunk files of an image are fetched one after the other, inflated into a buffer
of 24064 bytes and written to the target. The first full buffer of a chunk is its header, every
later one holds sectors, which `flushToDisk` writes at the set bits of the header's bitmap with
relative seeks. When `inflate` fails the file is fetched again and the chunk is restored from the
offset where it began.

`BUFFER` and `Bitmap` are allocated once and keep their bytes from chunk to chunk. Sectors are
written whole; a write that fails leaves the offset where it was.
-/

namespace LinboxRescue

/-! ## The target device -/

/-- An open device: its sectors, the sectors whose `write` fails, the offsets `lseek` accepts and
the current offset in bytes. -/
structure Target where
  cells : ℕ → Sector
  bad : ℕ → Bool
  seekable : ℕ → Bool
  off : ℕ

/-- `write(fo, ptr, 512)`. -/
def Target.write (t : Target) (s : Sector) : Target :=
  if t.bad (t.off / 512) then t
  else { t with cells := Function.update t.cells (t.off / 512) s, off := t.off + 512 }

/-- `lseek64(fo, o, SEEK_SET)`. -/
def Target.lseekSet (t : Target) (o : ℕ) : Target := if t.seekable o then { t with off := o } else t

/-- `lseek64(fo, n, SEEK_CUR)`. -/
def Target.lseekCur (t : Target) (n : ℕ) : Target := t.lseekSet (t.off + n)

/-! ## `flushToDisk` -/

/-- The scan for the next used sector from bit `indx` on. The C loop has no bound; here it gives up
(`none`) when it leaves the bitmap, which it does within `8 * bit.length + 1` steps. -/
def nextUsed (bit : Bytes) : ℕ → ℕ → Option ℕ
  | 0, _ => none
  | steps + 1, indx =>
    match bitAt bit indx with
    | none => none
    | some true => some indx
    | some false => nextUsed bit steps (indx + 1)

/-- One turn of the loop of `flushToDisk`: seek over the unused sectors and write one sector. -/
def flushSector (bit : Bytes) (st : ℕ × Target) (s : Sector) : Except Halt (ℕ × Target) :=
  match nextUsed bit (8 * bit.length + 1) st.1 with
  | none => .error .bitmapOverrun
  | some indx =>
    let fo := if indx ≠ st.1 then st.2.lseekCur (512 * (indx - st.1)) else st.2
    .ok (indx + 1, fo.write s)

/-- The sectors that `lg` bytes of a buffer make, the last one being written whole. -/
def bufferSectors (buff : Bytes) (lg : ℕ) : List Sector :=
  (List.range ((lg + 511) / 512)).map fun k => Sector.ofMem buff (512 * k)

/-- `flushToDisk(buff, bit, cp, lg)`, from bit index `bitindex`. -/
def flushToDisk (buff bit : Bytes) (bitindex : ℕ) (fo : Target) (lg : ℕ) :
    Except Halt (ℕ × Target) :=
  (bufferSectors buff lg).foldlM (flushSector bit) (bitindex, fo)

/-! ## One chunk -/

/-- What `restore` keeps while it reads chunks. -/
structure RestoreState where
  firstpass : Bool
  fmax : ℤ
  bitmaplg : ℤ
  bitmap : Bytes
  bitindex : ℕ
  buffer : Bytes
  fo : Target

/-- The header in `BUFFER` is read. -/
def RestoreState.readHeader (st : RestoreState) : RestoreState :=
  { st with
    fmax := (headerInt (ascii "BLOCKS=") st.buffer).getD st.fmax
    bitmaplg := (headerInt (ascii "ALLOCTABLELG=") st.buffer).getD st.bitmaplg
    bitmap := (st.buffer.drop 2048).take 22016 }

/-- The first `lg` bytes of `BUFFER` go to the disk. -/
def RestoreState.flush (st : RestoreState) (lg : ℕ) : Except Halt RestoreState :=
  flushToDisk st.buffer st.bitmap st.bitindex st.fo lg >>= fun r =>
    .ok { st with bitindex := r.1, fo := r.2 }

/-- A full `BUFFER` is dealt with. -/
def RestoreState.drain (st : RestoreState) : Except Halt RestoreState :=
  if st.firstpass then .ok { st.readHeader with bitindex := 0, firstpass := false }
  else st.flush 24064

/-- The loop `do ... while (ret == Z_OK)`. -/
def inflateLoop (m : ZMachine) : ℕ → Inflater m → RestoreState →
    Except Halt (ZRet × Inflater m × RestoreState)
  | 0, _, _ => .error .outOfFuel
  | fuel + 1, i, st =>
    let r := m.call i.z .syncFlush i.inp (24064 - i.out)
    let st := { st with buffer := overwrite st.buffer i.out r.out }
    let i := i.after r
    if r.ret ≠ .ok then .ok (r.ret, i, st)
    else if i.out = 24064 then
      st.drain >>= fun st => inflateLoop m fuel { i with out := 0 }.refill st
    else inflateLoop m fuel i.refill st

/-- What is done at `Z_STREAM_END`: the rest of the buffer is dealt with. -/
def streamEnd {m : ZMachine} (i : Inflater m) (st : RestoreState) : Except Halt RestoreState :=
  if st.firstpass then st.readHeader.flush 0 else st.flush i.out

/-- The call `inflate(&zptr, Z_FINISH)` after the loop. -/
def lastCall {m : ZMachine} (i : Inflater m) (st : RestoreState) : ZRet × RestoreState :=
  let r := m.call i.z .finish i.inp (24064 - i.out)
  (r.ret, { st with buffer := overwrite st.buffer i.out r.out })

/-- One attempt at a chunk whose file holds `file`: the code of the last `inflate` and the new
state. -/
def attempt (m : ZMachine) (fuel : ℕ) (file : Bytes) (st : RestoreState) :
    Except Halt (ZRet × RestoreState) :=
  inflateLoop m fuel (Inflater.start m file)
      { st with firstpass := true, bitmaplg := 0, bitindex := 0 } >>= fun (ret, i, st) =>
    if ret = .streamEnd then streamEnd i st >>= fun st => .ok (lastCall { i with out := 0 } st)
    else .ok (lastCall i st)

/-- The sectors after the last used one are skipped. -/
def RestoreState.skipRest (st : RestoreState) : RestoreState :=
  if st.bitmaplg ≠ 0 ∧ (st.bitindex : ℤ) < st.bitmaplg * 8 then
    { st with fo := st.fo.lseekCur (512 * (st.bitmaplg * 8 - st.bitindex).toNat) }
  else st

/-! ## The whole image -/

/-- What the file of a name holds when it is fetched for the n-th time. -/
abbrev Fetch := Bytes → ℕ → Option Bytes

/-- The files of a directory, which do not change. -/
def Dir.fetch (dir : Dir) : Fetch := fun name _ => dir name

/-- A chunk: attempts from number `n` on until `inflate` does not fail. -/
def restoreChunk (m : ZMachine) (fetch : Fetch) (fname : Bytes) (filenum : ℕ) :
    ℕ → ℕ → RestoreState → Except Halt RestoreState
  | 0, _, _ => .error .outOfFuel
  | fuel + 1, n, st =>
    match fetch (chunkName fname filenum) n with
    | none => .error .noInputFile
    | some file =>
      attempt m fuel file st >>= fun (ret, st') =>
        if ret.neg then
          restoreChunk m fetch fname filenum fuel (n + 1)
            { st' with fo := st'.fo.lseekSet st.fo.off }
        else .ok st'.skipRest

/-- The chunks from number `filenum` on, with the names of the files asked for. -/
def restoreLoop (m : ZMachine) (fetch : Fetch) (fname : Bytes) :
    ℕ → ℕ → List Bytes → RestoreState → Except Halt (List Bytes × RestoreState)
  | 0, _, _, _ => .error .outOfFuel
  | fuel + 1, filenum, log, st =>
    let log := log ++ [chunkName fname filenum]
    match fetch (chunkName fname filenum) 0 with
    | none => .ok (log, st)
    | some _ =>
      restoreChunk m fetch fname filenum fuel 0 st >>= fun st =>
        if st.fmax ≠ -1 ∧ st.fmax ≤ (filenum + 1 : ℕ) then .ok (log, st)
        else restoreLoop m fetch fname fuel (filenum + 1) log st

/-- `BUFFER` and `Bitmap`. -/
structure Memory where
  buffer : Bytes
  bitmap : Bytes
  length_buffer : buffer.length = 24064
  length_bitmap : bitmap.length = 22016

/-- `restore(device, sect, fname)`: the names of the files asked for and the final state. -/
def restore (m : ZMachine) (fuel : ℕ) (fetch : Fetch) (mem : Memory) (device : Target) (sect : ℕ)
    (fname : Bytes) : Except Halt (List Bytes × RestoreState) :=
  restoreLoop m fetch fname fuel 0 []
    { firstpass := true, fmax := -1, bitmaplg := 0, bitmap := mem.bitmap, bitindex := 0
      buffer := mem.buffer, fo := device.lseekSet (512 * sect) }

end LinboxRescue
