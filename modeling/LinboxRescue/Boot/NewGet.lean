import LinboxRescue.Lib.LinkedQueue
import LinboxRescue.Image.Compress

/-!
# `new_get`

`builtins_lbs.c`, the restorer in the boot loader: a chunk file is fetched over TFTP, inflated and
written to the disk by one loop. A turn of the loop does one of four things: it deals with a full
output buffer, it calls `inflate`, it moves 8192 bytes from the received blocks to `compressed`, or
it does nothing; then it looks at the clock and, when a block can be stored, for a datagram.
Whatever goes wrong, the transfer starts again from `restart:`.

The received blocks wait in a pool of ten `tftpbuffer`s linked by `first`, `last` and `next`. The
variables are kept in three records: `NetSide` for the transfer and the pool, `ZlibSide` for
`inflate` and its input, `DiskSide` for the output buffer, the allocation table and the disk.

A `Session` says what the clock and the network do between two restarts. `received`, `moved`,
`handed` and `writes` record what happened; nothing depends on them. Sector numbers are natural
numbers. Memory behind the table is finite; a scan that leaves it ends the run with
`Halt.bitmapOverrun`.
-/

namespace LinboxRescue

/-! ## `safe_parse_maxint`, `val` and `exist` -/

/-- `grub_tolower`. -/
def tolower (b : UInt8) : ℕ := if 65 ≤ b.toNat ∧ b.toNat ≤ 90 then b.toNat + 32 else b.toNat

/-- The value of a digit to the base `mult`, which is 10 or 16. -/
def parseDigit (mult : ℕ) (b : UInt8) : Option ℕ :=
  if 48 ≤ tolower b ∧ tolower b ≤ 57 then some (tolower b - 48)
  else if mult = 10 then none
  else if 97 ≤ tolower b ∧ tolower b ≤ 102 then some (tolower b - 87)
  else none

/-- The digits at the start of a text, `myint` being the value of those before; `none` when there
are none or the value does not fit an `int`. -/
def parseDigits (mult : ℕ) : Bytes → ℕ → Bool → Option ℕ
  | [], myint, found => if found then some myint else none
  | b :: t, myint, found =>
    match parseDigit mult b with
    | none => if found then some myint else none
    | some digit =>
      if (2147483647 - digit) / mult < myint then none
      else parseDigits mult t (myint * mult + digit) true

/-- `safe_parse_maxint`. -/
def safeParseMaxint : Bytes → Option ℕ
  | b :: c :: t =>
    if b = 48 ∧ tolower c = 120 then parseDigits 16 t 0 false
    else parseDigits 10 (b :: c :: t) 0 false
  | t => parseDigits 10 t 0 false

/-- What follows the first place where `string` stands before a `=`. -/
def afterKey (string : Bytes) : Bytes → Option Bytes
  | [] => none
  | b :: t =>
    if (string ++ ascii "=").isPrefixOf (b :: t) then some ((b :: t).drop (string.length + 1))
    else afterKey string t

/-- `val(string)`. When there is no number after the key, `i` still has the length of the key. -/
def val (string buffer : Bytes) : ℤ :=
  match afterKey string (cstr buffer) with
  | some cp => ((safeParseMaxint cp).getD string.length : ℕ)
  | none => -1

/-- `exist(string)`. -/
def exist (string buffer : Bytes) : Bool := (afterKey string (cstr buffer)).isSome

/-! ## The pool of `tftpbuffer`s -/

abbrev Pool := LinkedQueue (Fin 10) UInt8

/-- `get_empty`. -/
def getEmpty (tbuf : Pool) : Option (Fin 10) :=
  (List.finRange 10).find? fun j => (tbuf.slot j).data.length == 0

/-- `tot_lg`. -/
def totLg (tbuf : Pool) (i : Fin 10) : ℕ := tbuf.totalFrom 9 i

/-- The bytes in the pool, from `first` on. -/
def Pool.contents (tbuf : Pool) : Bytes := tbuf.dataFrom 10 tbuf.first

/-! ## Writing sectors -/

/-- `sectptr` and `sectmask`. -/
structure Cursor where
  sectptr : ℕ
  sectmask : ℕ
  deriving DecidableEq

/-- `inc(&sectptr, &sectmask)`. -/
def Cursor.inc (c : Cursor) : Cursor :=
  if c.sectmask <<< 1 = 256 then ⟨c.sectptr + 1, 1⟩ else ⟨c.sectptr, c.sectmask <<< 1⟩

/-- `alloc[sectptr] & sectmask`. -/
def Cursor.test (alloc : Bytes) (c : Cursor) : Option Bool :=
  alloc[c.sectptr]?.map fun b => b.toNat &&& c.sectmask != 0

/-- The loop over unused sectors. -/
def skipFree (alloc : Bytes) : ℕ → ℕ → Cursor → Option (ℕ × Cursor)
  | 0, _, _ => none
  | steps + 1, sect, c =>
    match c.test alloc with
    | none => none
    | some true => some (sect, c)
    | some false => skipFree alloc steps (sect + 1) c.inc

/-- The loop over used sectors, of which `room` are still in the buffer: their number `nb`. The bit
after the last one is looked at, too. -/
def countRun (alloc : Bytes) : ℕ → Cursor → Option (ℕ × Cursor)
  | 0, c => (c.test alloc).map fun _ => (0, c)
  | room + 1, c =>
    match c.test alloc with
    | none => none
    | some false => some (0, c)
    | some true => (countRun alloc room c.inc).map fun r => (r.1 + 1, r.2)

/-- What a sequence of sector writes leaves on the disk. -/
def putAll (disk : ℕ → Sector) (ws : List (ℕ × Sector)) : ℕ → Sector :=
  ws.foldl (fun d w => Function.update d w.1 w.2) disk

/-- The sectors `biosdisk(BIOSDISK_WRITE, ..., sect, nb, BUFFERSEG + i*32)` writes. -/
def biosdiskWrite (buffer : Bytes) (sect nb i : ℕ) : List (ℕ × Sector) :=
  (List.range nb).map fun j => (sect + j, Sector.ofMem buffer (512 * (i + j)))

/-- Where the writing has got to. -/
structure DiskHead where
  cursor : Cursor
  sect : ℕ
  disk : ℕ → Sector
  writes : List (ℕ × Sector)

def DiskHead.write (h : DiskHead) (ws : List (ℕ × Sector)) : DiskHead :=
  { h with disk := putAll h.disk ws, writes := h.writes ++ ws }

/-- One turn of the loop over the `n` sectors of a buffer, from sector `i` on. Behind the end of the
disk nothing is written. -/
def writeRun (total : ℕ) (alloc buffer : Bytes) (n i : ℕ) (h : DiskHead) : Option (ℕ × DiskHead) :=
  skipFree alloc (8 * alloc.length + 1) h.sect h.cursor >>= fun free =>
    countRun alloc (n - i) free.2 >>= fun run =>
      let sect := free.1
      let h := { h with cursor := run.2 }
      if sect < total then
        let nb := if total < sect + run.1 then total - sect else run.1
        let h := h.write (biosdiskWrite buffer sect nb i)
        some (i + nb, { h with sect := sect + nb })
      else some (i + run.1, { h with sect := sect + run.1 })

/-- The loop over the `n` sectors of a buffer; every turn deals with one of them at least. -/
def writeRuns (total : ℕ) (alloc buffer : Bytes) (n : ℕ) :
    ℕ → ℕ → DiskHead → Except Halt DiskHead
  | 0, _, _ => .error .outOfFuel
  | steps + 1, i, h =>
    if i < n then
      match writeRun total alloc buffer n i h with
      | none => .error .bitmapOverrun
      | some r => writeRuns total alloc buffer n steps r.1 r.2
    else .ok h

/-! ## The state -/

/-- The transfer: the pool, the number of the last block, whether it was the last of the file, and
the seconds since the last datagram; and where the session stands, in datagrams, turns since the
last one and calls of `udp_get`. -/
structure NetSide where
  pool : Pool
  lastblk : ℤ
  tftpend : Bool
  timeout : ℕ
  got : ℕ
  idle : ℕ
  polls : ℕ
  received : Bytes
  moved : Bytes

/-- The values 0, 1 and 2 of `end`: `inflate` is at work, it has reported the end of the stream, and
the last buffer is dealt with. -/
inductive End
  | no | stream | written
  deriving DecidableEq

/-- The decompressor: `inp` is what `next_in` and `avail_in` describe, `compressed` the first
`compr_lg` bytes of that buffer. -/
structure ZlibSide (m : ZMachine) where
  z : m.σ
  state : ZFlush
  inp : Bytes
  compressed : Bytes
  compressedFull : Bool
  ended : End
  handed : Bytes

/-- The output: the memory at `BUFFERADDR` with `out` bytes in it, `dbuf`, and `alloc` with what lies
behind it on the stack. -/
structure DiskSide where
  buffer : Bytes
  out : ℕ
  full : Bool
  size : ℕ
  firstblock : Bool
  alloc : Bytes
  saveSect : ℤ
  files : ℤ
  head : DiskHead

structure GetState (m : ZMachine) where
  net : NetSide
  zip : ZlibSide m
  dsk : DiskSide

/-- The reasons to go to `restart`. -/
inductive Restart
  | zlibError | timeout | unexpectedOack | samePacket | wrongPacket | otherPacket
  deriving DecidableEq, Repr

/-- How a part of a turn ends: the loop goes on, starts again with what is in memory and on the disk,
or `new_get` returns. -/
inductive Outcome (m : ZMachine)
  | next (st : GetState m)
  | restart (why : Restart) (dsk : DiskSide)
  | ret (code : ℕ) (st : GetState m)

def Outcome.andThen {m : ZMachine} (o : Outcome m) (f : GetState m → Outcome m) : Outcome m :=
  match o with
  | .next st => f st
  | o => o

/-! ## A turn -/

/-- The first buffer of a chunk is its header. -/
def DiskSide.readHeader (d : DiskSide) : DiskSide :=
  { d with
    alloc := overwrite d.alloc 0 ((d.buffer.drop 2048).take 22016)
    firstblock := false
    head := { d.head with cursor := ⟨0, 1⟩ }
    saveSect := d.saveSect + val (ascii "ALLOCTABLELG") d.buffer * 8
    files := if exist (ascii "BLOCKS") d.buffer then val (ascii "BLOCKS") d.buffer else d.files }

/-- The later ones are sectors. -/
def DiskSide.writeSectors (total : ℕ) (d : DiskSide) : Except Halt DiskSide :=
  writeRuns total d.alloc d.buffer (d.size / 512) (d.size / 512 + 1) 0 d.head >>= fun h =>
    .ok { d with head := h }

/-- A full buffer is dealt with. -/
def DiskSide.flush (total : ℕ) (d : DiskSide) : Except Halt DiskSide :=
  (if d.firstblock then .ok d.readHeader else d.writeSectors total) >>= fun d =>
    .ok { d with out := 0, full := false }

/-- `dbuf` becomes full. -/
def DiskSide.fill (d : DiskSide) : DiskSide := { d with full := true, size := d.out }

/-- `inflate` put `bs` into the buffer. -/
def DiskSide.store (d : DiskSide) (bs : Bytes) : DiskSide :=
  { d with buffer := overwrite d.buffer d.out bs, out := d.out + bs.length }

section Turn

variable {m : ZMachine}

/-- The bytes in `compressed` are handed to `inflate` when it has used up the last ones. -/
def ZlibSide.hand (zp : ZlibSide m) : ZlibSide m :=
  if zp.ended = .no ∧ zp.compressedFull ∧ zp.inp = [] then
    { zp with inp := zp.compressed, handed := zp.handed ++ zp.compressed }
  else zp

/-- The decompressor after a call that returned `r`. -/
def ZlibSide.after (zp : ZlibSide m) (r : ZCall m.σ) : ZlibSide m :=
  { zp with z := r.next, inp := zp.inp.drop r.used }

/-- The input is used up. -/
def ZlibSide.release (zp : ZlibSide m) : ZlibSide m :=
  { zp with compressedFull := if zp.inp = [] then false else zp.compressedFull }

/-- A call of `inflate`. -/
def GetState.inflate (st : GetState m) : Outcome m :=
  let r := m.call st.zip.z st.zip.state st.zip.inp (24064 - st.dsk.out)
  let zp := st.zip.after r
  let d := st.dsk.store r.out
  let ret := if r.ret = .bufError ∧ d.out = 24064 then .ok else r.ret
  if ret = .streamEnd then
    .next { st with zip := { zp with state := .finish, ended := .stream }, dsk := d.fill }
  else if ret ≠ .ok then .restart .zlibError d
  else .next { st with zip := zp.release, dsk := if d.out = 24064 then d.fill else d }

/-- `n` bytes go from the pool to `compressed`. -/
def GetState.move (st : GetState m) (n : ℕ) : GetState m :=
  let r := LinkedQueue.takeFront 11 n st.net.pool
  { st with
    net := { st.net with pool := r.2, moved := st.net.moved ++ r.1 }
    zip := { st.zip with compressed := r.1, compressedFull := true } }

/-- The next 8192 bytes, or the last ones of the file, go to `compressed`. -/
def GetState.refill (st : GetState m) : GetState m :=
  match st.net.pool.first with
  | none => st
  | some i =>
    let lg := totLg st.net.pool i
    if 8192 ≤ lg ∨ (st.net.tftpend ∧ 0 < lg) then
      if st.zip.compressedFull then st
      else st.move (min (if st.net.tftpend then lg else 8192) 8192)
    else st

/-- What a turn does up to `endturn:`. -/
def GetState.work (total : ℕ) (st : GetState m) : Except Halt (Outcome m) :=
  if st.dsk.full then
    st.dsk.flush total >>= fun d =>
      .ok (.next { st with
        dsk := d
        zip := { st.zip with ended := if st.zip.ended = .stream then .written else st.zip.ended } })
  else
    let st := { st with zip := st.zip.hand }
    if st.dsk.out < 24064 ∧ st.zip.inp ≠ [] then .ok st.inflate
    else .ok (.next st.refill)

/-- What the clock and the network do: `tick k i` says whether a second has passed in turn `i` after
`k` datagrams, `poll n` what call `n` of `udp_get` finds. -/
structure Session where
  tick : ℕ → ℕ → Bool
  poll : ℕ → Option Bytes

/-- The look at the clock. -/
def GetState.clock (ses : Session) (st : GetState m) : Outcome m :=
  let tick := ses.tick st.net.got st.net.idle
  let timeout := if tick then st.net.timeout + 1 else st.net.timeout
  if tick ∧ 10 < timeout then .restart .timeout st.dsk
  else .next { st with net := { st.net with timeout, idle := st.net.idle + 1 } }

/-- The datagram `buffer` was found and is in `tbuf[i]`. -/
def GetState.receive (i : Fin 10) (buffer : Bytes) (st : GetState m) : Outcome m :=
  let st := { st with net := { st.net with timeout := 0, got := st.net.got + 1, idle := 0 } }
  let byte := fun k => (buffer.getD k 0).toNat
  let op := byte 1 + 256 * byte 0
  if op = 6 then
    if st.net.lastblk ≠ -1 then .restart .unexpectedOack st.dsk
    else .next { st with net := { st.net with lastblk := 0 } }
  else if op = 3 then
    let block : ℕ := byte 3 + 256 * byte 2
    if (block : ℤ) = st.net.lastblk then .restart .samePacket st.dsk
    else if (block : ℤ) ≠ st.net.lastblk + 1 then .restart .wrongPacket st.dsk
    else
      let data := (buffer.drop 4).take 1456
      .next { st with net := { st.net with
        lastblk := block
        pool := st.net.pool.push i data
        received := st.net.received ++ data
        tftpend := decide (buffer.length - 4 < 1456) } }
  else if byte 1 = 5 then .ret 1 st
  else .restart .otherPacket st.dsk

/-- The outer loop ends when `end` is 2. -/
def GetState.leave (st : GetState m) : Outcome m :=
  if st.zip.ended = .written then .ret 0 st else .next st

/-- The conditions of the two loops and what is between them: a datagram is looked for when there is
room for it and more of the file is to come. -/
def GetState.listen (ses : Session) (st : GetState m) : Outcome m :=
  if st.dsk.full then .next st
  else match getEmpty st.net.pool with
    | none => .next st
    | some i =>
      if st.net.tftpend then st.leave
      else
        let st' := { st with net := { st.net with polls := st.net.polls + 1 } }
        match ses.poll st.net.polls with
        | none => .next st'
        | some buffer => (st'.receive i buffer).andThen GetState.leave

/-- One turn. -/
def GetState.turn (total : ℕ) (ses : Session) (st : GetState m) : Except Halt (Outcome m) :=
  st.work total >>= fun o =>
    .ok (o.andThen fun st => (st.clock ses).andThen fun st => st.listen ses)

end Turn

/-! ## The whole call -/

/-- The state after `restart:`. -/
def GetState.begin (m : ZMachine) (sect : ℕ) (d : DiskSide) : GetState m where
  net := { pool := .empty, lastblk := -1, tftpend := false, timeout := 0, got := 0, idle := 0, polls := 0
           received := [], moved := [] }
  zip := { z := m.init, state := .syncFlush, inp := [], compressed := [], compressedFull := false
           ended := .no, handed := [] }
  dsk := { d with out := 0, full := false, firstblock := true, saveSect := sect
                  head := { d.head with sect, writes := [] } }

/-- A call of `new_get`: it is in session number `k`, or has returned. -/
inductive Call (m : ZMachine)
  | running (k : ℕ) (st : GetState m)
  | returned (code : ℕ) (st : GetState m)

/-- One more turn of a call that starts at sector `sect`. -/
def Call.step {m : ZMachine} (total sect : ℕ) (net : ℕ → Session) : Call m → Except Halt (Call m)
  | .returned code st => .ok (.returned code st)
  | .running k st =>
    st.turn total (net k) >>= fun
      | .next st => .ok (.running k st)
      | .restart _ d => .ok (.running (k + 1) (.begin m sect d))
      | .ret code st => .ok (.returned code st)

/-- The call after `n` turns. -/
def Call.after (m : ZMachine) (total sect : ℕ) (net : ℕ → Session) (d : DiskSide) :
    ℕ → Except Halt (Call m)
  | 0 => .ok (.running 0 (.begin m sect d))
  | n + 1 => Call.after m total sect net d n >>= Call.step total sect net

/-- `new_get(file, sect, &endsect, 0)`: the value returned and the last state. -/
def newGet (m : ZMachine) (total : ℕ) (net : ℕ → Session) (sect : ℕ) (d : DiskSide) (fuel : ℕ) :
    Except Halt (ℕ × GetState m) :=
  Call.after m total sect net d fuel >>= fun
    | .returned code st => .ok (code, st)
    | .running _ _ => .error .outOfFuel

end LinboxRescue
