import LinboxRescue.Lib.CString

/-!
# `tftp_read`

`pxe.c`, the files that the boot loader reads over TFTP, without `USE_PXE_TFTP`. The stream of a file
only goes forward. `tftpget` reads the next window of it into `buffer`, and `tftp_read` copies from the
window; to go back, and after a failure, the file is opened again.

`tftp_read` is cut at its calls of `tftpget`: a `TftpRead` is what its variables are there, and
`TftpRead.step` goes on to the next such call or to the return. `BUFFERSIZE` is `32768-2048`, without
parentheses: 30720 where it is compared or passed on, but not behind a minus sign. `long` has 32 bits.
-/

namespace LinboxRescue

/-! ## The server and the network -/

/-- Block `n` of the file, counted from 1. -/
def tftpBlock (file : Bytes) (n : ℕ) : Bytes := (file.drop (512 * (n - 1))).take 512

/-- The packet that carries block `n`. -/
def tftpData (n : ℕ) (data : Bytes) : Bytes :=
  [0, 3, UInt8.ofNat (n / 256), UInt8.ofNat (n % 256)] ++ data

/-- The packet has the code of data. -/
def IsData (packet : Bytes) : Prop := byteAt packet 0 = 0 ∧ byteAt packet 1 = 3

instance (packet : Bytes) : Decidable (IsData packet) := inferInstanceAs (Decidable (_ ∧ _))

/-- What comes at the port, `n` being the block that was accepted last. -/
inductive Arrival
  /-- The answer of the server to the last acknowledgement. -/
  | next
  /-- Block `n` once more. -/
  | again
  /-- A packet that is no data. -/
  | other (packet : Bytes) (h : ¬ IsData packet)
  /-- Data with a number that is neither `n` nor `n + 1`. -/
  | stray (k : Fin 65534) (data : Bytes)

/-- The packet. Behind the last block the server sends none. -/
def Arrival.packet (file : Bytes) (n : ℕ) : Arrival → Option Bytes
  | .next => if 512 * n ≤ file.length then some (tftpData (n + 1) (tftpBlock file (n + 1))) else none
  | .again => some (tftpData n (tftpBlock file n))
  | .other packet _ => some packet
  | .stray k data => some (tftpData ((n + 2 + k) % 65536) data)

/-! ## The stream -/

/-- An `unsigned long`. -/
def toUlong (n : ℤ) : ℤ := n % 2 ^ 32

/-- The variables of the stream, with the memory that `buffer` points to. -/
structure Tftp where
  mem : ℤ → UInt8
  bufferend : ℤ
  endoffile : Bool
  savedpos : ℤ
  basepos : ℤ
  nextpacket : ℕ

/-- `tftpopen`. -/
def Tftp.tftpopen (t : Tftp) : Tftp :=
  { t with basepos := 0, bufferend := 0, endoffile := false, savedpos := 0, nextpacket := 0 }

/-- `tftp_close`. -/
def Tftp.tftpClose (t : Tftp) : Tftp := { t with endoffile := true }

/-- `memmove(p, data, size)` with `p` at index `i` of the memory. -/
def storeAt (mem : ℤ → UInt8) (i : ℤ) (data : Bytes) : ℤ → UInt8 := fun j =>
  if i ≤ j ∧ j < i + data.length then byteAt data (j - i).toNat else mem j

/-- The `n` bytes from index `i` on. -/
def copyFrom (mem : ℤ → UInt8) (i n : ℤ) : Bytes := (List.range n.toNat).map fun (k : ℕ) => mem (i + k)

/-- `tftpget`, in its loop: `siz` bytes have been stored. When nothing more arrives, its ten seconds
pass. -/
def tftpget (file : Bytes) : List Arrival → Tftp → ℕ → Bool → ℤ → ℤ × Tftp
  | [], t, siz, _, len => if len ≤ 0 then (siz, t) else (-1, t)
  | a :: arrivals, t, siz, first, len =>
    if len ≤ 0 then (siz, t) else
    match a.packet file t.nextpacket with
    | none => (-1, t)
    | some packet =>
      let number := 256 * (byteAt packet 2).toNat + (byteAt packet 3).toNat
      if byteAt packet 0 ≠ 0 ∨ byteAt packet 1 ≠ 3 then (-1, t)
      -- a duplicate is acknowledged and ignored
      else if number = t.nextpacket then tftpget file arrivals t siz first len
      else if number ≠ t.nextpacket + 1 then (-1, t)
      else
        let data := (packet.drop 4).take 512
        let t := { t with
          nextpacket := number
          mem := storeAt t.mem siz data
          basepos := if first then toUlong (512 * (number - 1)) else t.basepos }
        if data.length ≠ 512 then (siz + data.length, { t with endoffile := true })
        else tftpget file arrivals t (siz + data.length) false (len - data.length)

/-! ## A call -/

/-- Where `tftp_read` is. -/
inductive TftpPlace
  /-- At `tftpget`, to pass over a window. -/
  | skipping
  /-- At `tftpget`, to go on. -/
  | filling
  | returned (ret : ℤ)
  deriving DecidableEq

/-- The variables of a call. `out` are the bytes from `save_addr` up to `addr`. -/
structure TftpRead where
  t : Tftp
  filepos : ℤ
  size : ℤ
  len : ℤ
  out : Bytes
  saveSize : ℤ
  savePos : ℤ
  place : TftpPlace

/-- `memmove(addr, buffer + pos, n)`, and what is added to and taken from the counters. -/
def TftpRead.copy (c : TftpRead) (pos n : ℤ) : TftpRead :=
  { c with out := c.out ++ copyFrom c.t.mem pos n, filepos := c.filepos + n, len := c.len + n }

/-- The body of the second loop, up to `tftpget`. -/
def TftpRead.fill (c : TftpRead) : TftpRead :=
  let remain := wrapInt (c.t.bufferend - (c.filepos - c.t.basepos))
  let pos := wrapInt (c.filepos - c.t.basepos)
  if 30720 < pos then { c with place := .returned 0 }
  else if c.size ≤ remain then { c.copy pos c.size with place := .returned (c.len + c.size) }
  else if 0 < remain then { c.copy pos remain with size := c.size - remain, place := .filling }
  else { c with place := .filling }

/-- What comes behind the loops. -/
def TftpRead.finish (c : TftpRead) : TftpRead :=
  let remain := wrapInt (c.t.bufferend - (c.filepos - c.t.basepos))
  let pos := wrapInt (c.filepos - c.t.basepos)
  let size := if remain < c.size then remain else c.size
  if 0 < remain then { c.copy pos size with size := size, place := .returned (c.len + size) }
  else { c with size := size, place := .returned 0 }

/-- From `next` on. -/
def TftpRead.next (c : TftpRead) : TftpRead :=
  let c := { c with t := { c.t with savedpos := toUlong (c.filepos + c.size) } }
  if c.t.endoffile then c.finish else c.fill

/-- The file is opened again. -/
def TftpRead.reopen (c : TftpRead) : TftpRead := { c with t := c.t.tftpClose.tftpopen }

/-- From the test for `savedpos` on. -/
def TftpRead.seek (c : TftpRead) : TftpRead :=
  if toUlong c.filepos < c.t.savedpos then
    if c.t.basepos ≤ toUlong c.filepos then c.next
    else if c.reopen.t.savedpos < toUlong c.filepos then { c.reopen with place := .skipping }
    else c.reopen.next
  else c.next

/-- From `retransmit` on; `len` keeps its value. -/
def TftpRead.retransmit (c : TftpRead) : TftpRead :=
  TftpRead.seek { c with out := [], size := c.saveSize, filepos := c.savePos }

/-- `tftp_read`, up to the first `tftpget`. -/
def TftpRead.start (t : Tftp) (filepos size : ℤ) : TftpRead :=
  TftpRead.retransmit ⟨t, filepos, size, 0, [], size, filepos, .filling⟩

/-- `tftpget(buffer, BUFFERSIZE)`. -/
def TftpRead.get (file : Bytes) (c : TftpRead) (arrivals : List Arrival) : ℤ × Tftp :=
  tftpget file arrivals c.t 0 true 30720

/-- From a call of `tftpget` on. -/
def TftpRead.step (file : Bytes) (c : TftpRead) (arrivals : List Arrival) : TftpRead :=
  let (ret, t) := c.get file arrivals
  let c' := { c with t := t }
  match c.place with
  | .skipping =>
    if ret < 0 then c'.reopen.retransmit
    else
      let savedpos := toUlong (t.savedpos + 30720)
      if savedpos ≤ toUlong c.filepos then { c' with t := { t with savedpos := savedpos } }
      -- `savedpos - BUFFERSIZE`
      else TftpRead.next { c' with t := { t with
        savedpos := savedpos
        basepos := toUlong (savedpos - 32768 - 2048) } }
  | .filling =>
    let c' := { c' with t := { t with bufferend := ret } }
    if ret = -1 then c'.reopen.retransmit else if ret = 30720 then c'.fill else c'.finish
  | .returned _ => c

/-- What arrives when nothing goes wrong: the blocks of a window. -/
def answers : List Arrival := List.replicate 60 .next

/-- The call after `n` calls of `tftpget`. `net` says what arrives in the first of them; in the others
nothing goes wrong. -/
def TftpRead.after (file : Bytes) : TftpRead → List (List Arrival) → ℕ → TftpRead
  | c, _, 0 => c
  | c, net, n + 1 => (c.step file (net.headD answers)).after file net.tail n

/-- The call returns as `c'`. -/
def TftpRead.Ends (file : Bytes) (c : TftpRead) (net : List (List Arrival)) (c' : TftpRead) : Prop :=
  (∃ n, c.after file net n = c') ∧ ∃ ret, c'.place = .returned ret

/-- The value that is returned. -/
def TftpRead.ret (c : TftpRead) : ℤ := match c.place with
  | .returned ret => ret
  | _ => 0

end LinboxRescue
