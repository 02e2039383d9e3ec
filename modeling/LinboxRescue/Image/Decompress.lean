import LinboxRescue.Image.Restore

/-!
# `decompress`

`decompress.c`: one run of the program reads one chunk file and puts its sectors into an output file,
from an offset given on the command line. `fill` makes up for the unused sectors: it writes zeros at the
end of the file and seeks before it. The new offset is printed to `/tmp/offset`.

`BUFFER` and `Bitmap` are zeroed memory of the program; when `inflate` fails the whole run starts again
with what they hold then.
-/

namespace LinboxRescue

/-! ## The output file -/

/-- An open file: its bytes and the position in it. -/
structure OutFile where
  bytes : Bytes
  pos : ℕ
  deriving DecidableEq

/-- `write(fd, b, lg)`: what lies between the end and the position is filled with zeros. -/
def OutFile.write (f : OutFile) (b : Bytes) : OutFile :=
  { bytes := overwrite (f.bytes ++ List.replicate (f.pos - f.bytes.length) 0) f.pos b
    pos := f.pos + b.length }

/-- `lseek64(fd, o, SEEK_SET)`. -/
def OutFile.lseekSet (f : OutFile) (o : ℕ) : OutFile := { f with pos := o }

/-- `lseek64(fd, n, SEEK_CUR)`. -/
def OutFile.lseekCur (f : OutFile) (n : ℕ) : OutFile := f.lseekSet (f.pos + n)

def OutFile.eof (f : OutFile) : Bool := f.bytes.length == f.pos

/-- The zeros that `fill` writes, 512 at a time. -/
def OutFile.writeZeros (f : OutFile) (bytes : ℕ) : OutFile :=
  if 512 < bytes then (f.write (List.replicate 512 0)).writeZeros (bytes - 512)
  else f.write (List.replicate bytes 0)
termination_by bytes

/-- `fill(fd, bytes, SEEK_CUR)`. -/
def OutFile.fill (f : OutFile) (bytes : ℕ) : OutFile :=
  if f.eof then f.writeZeros bytes else f.lseekCur bytes

/-! ## `flushToDisk` -/

/-- `PARAMS`, what the header says, and the number in `/tmp/blocks`. -/
structure Decompress where
  firstpass : Bool
  bitmaplg : ℤ
  bitmap : Bytes
  bitindex : ℕ
  offset : ℕ
  fo : OutFile
  blocks : Option ℤ

/-- The scan over unused sectors. The C loop has no bound; here it ends when it leaves the bitmap. -/
def Decompress.skipUnused : ℕ → Decompress → Except Halt Decompress
  | 0, _ => .error .bitmapOverrun
  | steps + 1, st =>
    match bitAt st.bitmap st.bitindex with
    | none => .error .bitmapOverrun
    | some true => .ok st
    | some false =>
      skipUnused steps
        { st with bitindex := st.bitindex + 1, offset := st.offset + 512, fo := st.fo.fill 512 }

/-- One turn of the loop of `flushToDisk`. -/
def Decompress.flushSector (st : Decompress) (s : Sector) : Except Halt Decompress :=
  st.skipUnused (8 * st.bitmap.length + 1) >>= fun st =>
    .ok { st with bitindex := st.bitindex + 1, offset := st.offset + 512, fo := st.fo.write s.bytes }

/-- `flushToDisk(buff, Bitmap, cp, lg)`. -/
def Decompress.flushToDisk (st : Decompress) (buff : Bytes) (lg : ℕ) : Except Halt Decompress :=
  (bufferSectors buff lg).foldlM Decompress.flushSector st

/-! ## One run -/

/-- The header in `BUFFER` is read. -/
def Decompress.readHeader (st : Decompress) (buffer : Bytes) : Decompress :=
  { st with
    blocks :=
      if (strstr (cstr buffer) (ascii "BLOCKS=")).isSome then
        some ((headerInt (ascii "BLOCKS=") buffer).getD 0)
      else st.blocks
    bitmaplg := (headerInt (ascii "ALLOCTABLELG=") buffer).getD st.bitmaplg
    bitmap := (buffer.drop 2048).take 22016 }

/-- A full `BUFFER` is dealt with. -/
def Decompress.drain (st : Decompress) (buffer : Bytes) : Except Halt Decompress :=
  if st.firstpass then .ok { st.readHeader buffer with bitindex := 0, firstpass := false }
  else st.flushToDisk buffer 24064

/-- What is done at `Z_STREAM_END`, with `out` bytes in `BUFFER`. -/
def Decompress.streamEnd (st : Decompress) (buffer : Bytes) (out : ℕ) : Except Halt Decompress :=
  if st.firstpass then (st.readHeader buffer).flushToDisk buffer 0 else st.flushToDisk buffer out

/-- `sscanf(argv[3], "%lld", &offset)`. -/
def scanOffset (argv3 : Bytes) : ℕ :=
  match sscanf (fmt "%d") argv3 with
  | [.int n] => n.toNat
  | _ => 0

/-- From `start` on. -/
def Decompress.start (st : Decompress) (argv3 : Bytes) : Decompress :=
  { st with
    firstpass := true, bitmaplg := 0, bitindex := 0, offset := scanOffset argv3
    fo := st.fo.lseekSet (scanOffset argv3) }

/-- One attempt: the code of the last `inflate`, `BUFFER` and the new state. -/
def decompressAttempt (m : ZMachine) (fuel : ℕ) (file argv3 buffer : Bytes) (st : Decompress) :
    Except Halt (ZRet × Bytes × Decompress) :=
  bufferLoop m Decompress.drain fuel (Inflater.start m file) buffer (st.start argv3) >>=
    fun (ret, i, buffer, st) =>
      if ret = .streamEnd then
        st.streamEnd buffer i.out >>= fun st =>
          let r := m.call i.z .finish i.inp 24064
          .ok (r.ret, overwrite buffer 0 r.out, st)
      else
        let r := m.call i.z .finish i.inp (24064 - i.out)
        .ok (r.ret, overwrite buffer i.out r.out, st)

/-- The attempts until `inflate` does not fail. -/
def decompressLoop (m : ZMachine) (file argv3 : Bytes) :
    ℕ → Bytes → Decompress → Except Halt Decompress
  | 0, _, _ => .error .outOfFuel
  | fuel + 1, buffer, st =>
    decompressAttempt m fuel file argv3 buffer st >>= fun (ret, buffer, st) =>
      if ret.neg then decompressLoop m file argv3 fuel buffer st else .ok st

/-- The sectors after the last used one. -/
def Decompress.fillRest (st : Decompress) : Decompress :=
  if st.bitmaplg ≠ 0 ∧ (st.bitindex : ℤ) < st.bitmaplg * 8 then
    let rest := 512 * (st.bitmaplg * 8 - st.bitindex).toNat
    { st with offset := st.offset + rest, fo := st.fo.fill rest }
  else st

/-- What a run works on: the output file, and the files of `/tmp`. -/
structure Extracted where
  out : Bytes
  /-- The text of `/tmp/offset`. -/
  offset : Bytes
  /-- The number in `/tmp/blocks`. -/
  blocks : Option ℤ

/-- A program just started. -/
def Decompress.load (x : Extracted) : Decompress where
  firstpass := true
  bitmaplg := 0
  bitmap := List.replicate 22016 0
  bitindex := 0
  offset := 0
  fo := ⟨x.out, 0⟩
  blocks := x.blocks

def Decompress.save (st : Decompress) : Extracted where
  out := st.fo.bytes
  offset := dec st.offset ++ ascii "\n"
  blocks := st.blocks

/-- A run of `decompress file out argv3`. -/
def decompress (m : ZMachine) (fuel : ℕ) (file : Option Bytes) (argv3 : Bytes) (x : Extracted) :
    Except Halt Extracted :=
  match file with
  | none => .error .noInputFile
  | some file =>
    decompressLoop m file argv3 fuel (List.replicate 24064 0) (Decompress.load x) >>= fun st =>
      .ok st.fillRest.save

/-- `decompress` on `n` files of an image from number `i` on, each run with the offset that the one
before it has printed. -/
def decompressFrom (m : ZMachine) (fuel : ℕ) (dir : Dir) (name : Bytes) (i n : ℕ) (x : Extracted) :
    Except Halt Extracted :=
  (List.range' i n).foldlM (fun x k => decompress m fuel (dir (chunkName name k)) x.offset x) x

end LinboxRescue
