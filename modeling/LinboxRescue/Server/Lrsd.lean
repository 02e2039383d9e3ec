import LinboxRescue.Lib.CString
import LinboxRescue.Lib.Stdio

/-!
# The daemon `lrsd` (`src/server/admin/lrsd.c`)

`main` receives a request into a buffer that is never cleared, finds the MAC address of the client
at the end of the request or in the ARP table, and calls `process_packet`, which runs commands,
writes files, logs and answers. `serve` is one turn of the loop of `main`, and `serveAll` a run.

What the daemon does is a list of `Effect`s. A command line or file name keeps apart what was
inserted into it (`Piece`). Where the C code goes on with a null pointer, past the end of an array or
with a format string it was not meant to have, there is a `Fault`. A null pointer ends the list; past
the end of an array, and after such a format, the code goes on.
-/

namespace LinboxRescue

/-! ## What the daemon does -/

inductive Role
  | smac | mac | host | pass | char | num
  deriving DecidableEq, Repr

/-- A part of a command line or file name: written in the source or the configuration, or inserted
by `process_packet`. -/
inductive Piece
  | text (s : Bytes)
  | ins (r : Role) (s : Bytes)
  deriving DecidableEq, Repr

abbrev Line := List Piece

def Piece.bytes : Piece → Bytes
  | .text s | .ins _ s => s

/-- The string that `snprintf(.., n, ..)` leaves. -/
def snprintf (n : ℕ) (l : Line) : Bytes := cstr ((l.flatMap Piece.bytes).take (n - 1))

inductive Fault
  | null                -- a null result of `strrchr` or `strchr`
  | pass | host | gBuff -- past the end of an array
  | file                -- `fprintf` to a file that could not be opened
  | format              -- a log line that is not a format
  deriving DecidableEq, Repr

/-- The command lines are given to the shell: twice by `mysystem`, once in an `echo`; `rotatelog` is run
on a file. -/
inductive Effect
  | mysystem (l : Line)
  | system (l : Line)
  | rotatelog (path : Line)
  | write (path : Line) (text : Bytes)
  | append (path : Line) (text : Bytes)
  | unopened (path : Line)
  | syslog (text : Bytes)
  | send (data : Bytes)
  | fault (f : Fault)
  deriving DecidableEq, Repr

/-- The faults of a list of effects. -/
def faults (es : List Effect) : List Fault :=
  es.filterMap fun
    | .fault f => some f
    | _ => none

/-- What `process_packet` finds around it: the configured directory, the clock, the files that can
be opened for writing, `etc/ether`, the ARP table, the client, the memory after `buf`, and what
`syslog` prints for a line with conversions, which take their values from the stack and `errno`. -/
structure Env where
  basedir : Bytes
  now : ℕ
  ctime : Bytes
  opens : Bytes → Bool
  ether : Option Bytes
  arp : Bytes
  addr : Bytes
  port : ℕ
  after : Bytes
  printed : Bytes → Bytes

/-- The two static variables of `process_packet`. -/
structure Barrier where
  lastfile : ℕ
  lasttime : ℕ
  deriving DecidableEq, Repr

structure Daemon where
  buf : Bytes
  gBuff : Bytes
  barrier : Barrier
  deriving DecidableEq, Repr

variable (env : Env)

/-- The strings inserted into command lines and file names. -/
def Effect.inserts : Effect → List (Role × Bytes)
  | .mysystem l | .system l | .rotatelog l | .write l _ | .append l _ | .unopened l =>
    l.filterMap fun
      | .ins r s => some (r, s)
      | .text _ => none
  | _ => []

/-! ## Finding the MAC address -/

/-- `getmacfrompkt(buf, l)`: the bytes copied to `gBuff`. -/
def getmacfrompkt (buf : Bytes) (l : ℕ) : Option Bytes :=
  if l ≤ 20 then none
  else if byteAt buf (l - 20) = 77 ∧ byteAt buf (l - 19) = 99 ∧ byteAt buf (l - 18) = 58 ∧
      byteAt buf (l - 15) = 58 ∧ byteAt buf (l - 12) = 58 ∧ byteAt buf (l - 9) = 58 ∧
      byteAt buf (l - 6) = 58 ∧ byteAt buf (l - 3) = 58 then
    -- `strncpy` pads with NULs
    let s := cstr ((buf.drop (l - 17)).take 17)
    some (s ++ List.replicate (18 - s.length) 0)
  else none

/-- The loop of `getmac` over the lines of the ARP table: `gBuff` after it, and the line it stopped
at. -/
def arpScan (straddr : Bytes) : Bytes → List Bytes → Bytes × Option Bytes
  | gBuff, [] => (gBuff, none)
  | gBuff, l :: ls =>
    let gBuff := overwrite gBuff 0 (l ++ [0])
    if (strstr (cstr l) straddr).isSome then (gBuff, some (cstr l)) else arpScan straddr gBuff ls

/-- `getmac(addr)`: `gBuff`, and the offset of the MAC in it when there is one. -/
def getmac (gBuff : Bytes) : Except Fault (Bytes × Option ℕ) :=
  match arpScan (env.addr ++ [32]) gBuff (lines 80 env.arp) with
  | (gBuff, none) => .ok (gBuff, none)
  | (gBuff, some l) =>
    match l.findIdx? (· == 58) with
    | none => .error .null
    | some i =>
      -- the MAC starts two bytes before its first colon
      if i < 2 ∨ 80 ≤ i + 15 then .error .gBuff
      else .ok (overwrite gBuff (i + 15) [0], some (i - 2))

/-- `gBuff`, and the offset in it that `mac` points to. -/
def findMac (buf gBuff : Bytes) (plen : ℕ) : Except Fault (Bytes × ℕ) :=
  match getmacfrompkt buf plen with
  | some m => .ok (overwrite gBuff 0 m, 0)
  | none =>
    match getmac env gBuff with
    | .error f => .error f
    | .ok (g, some off) => .ok (g, off)
    | .ok (g, none) => .ok (overwrite g 0 [63, 0], 0)

/-- The short name: `mac` without its colons. -/
def shortMac (mac : Bytes) : Bytes :=
  cstr ([0, 1, 3, 4, 6, 7, 9, 10, 12, 13, 15, 16].map (byteAt mac))

/-! ## `process_packet` -/

/-- `mysyslog`. The log of the client may not be there; it is rotated after each line. The line is given
to `syslog` as the format. -/
def mysyslog (smac text : Bytes) : List Effect :=
  let text := text.take 1022
  let line := env.ctime ++ ascii ": " ++ text ++ [10]
  let path (name : String) : Line :=
    [.text env.basedir, .text (ascii "/images/"), .ins .smac smac, .text (ascii name)]
  let log : List Effect := .syslog ((plainFormat text).getD (env.printed text)) ::
    if formatSafe text then [] else [.fault .format]
  if env.opens (snprintf 255 (path "/log")) then
    .append (path "/log") line ::
      if (strstr text (ascii "restoration comp")).isSome then
        (if env.opens (snprintf 255 (path "/log.lastrestore")) then
          [.write (path "/log.lastrestore") line] else [.unopened (path "/log.lastrestore")]) ++
        log ++ [.rotatelog (path "/log.lastrestore")]
      else log ++ [.rotatelog (path "/log")]
  else .unopened (path "/log") :: log

/-- `sscanf(buf, "%19s%*s%32s", mac, name) == 2`. -/
def scanEther (l : Bytes) : Option (Bytes × Bytes) :=
  match scanWord 19 l with
  | none => none
  | some (mac, t) =>
    match scanConv .s t with
    | none => none
    | some (_, t) => (scanWord 32 t).map fun w => (mac, w.1)

/-- The name in a line of `ether` that is for the MAC: comments and short lines are passed over. -/
def etherName (pktmac l : Bytes) : Option Bytes :=
  if byteAt l 0 ≠ 35 ∧ byteAt l 0 ≠ 59 ∧ 10 < l.length then
    match scanEther l with
    | some (mac, name) => if strncaseeq 17 mac pktmac then some name else none
    | none => none
  else none

/-- `getentry(etherpath, mac)`: the name left in `gBuff`. -/
def getentry (file : Option Bytes) (pktmac : Bytes) : Option Bytes :=
  match file with
  | none => none
  | some t => (lines 100 t).findSome? fun l => etherName pktmac (cstr l)

/-- `sscanf(buf, "T;%c%d;%d", &pnum, &bnum, &to) == 3`, with `(pnum<<16) + bnum` as an `unsigned
int` and `to`. -/
def timeRequest (s : Bytes) : Option (ℕ × ℤ) :=
  match s with
  | 84 :: 59 :: pnum :: t =>
    match scanInt t with
    | some (bnum, 59 :: t) =>
      match scanInt t with
      -- `pnum` is a signed `char`
      | some (timeout, _) => some (((pnum.toInt8.toInt * 65536 + bnum) % 2 ^ 32).toNat, timeout)
      | none => none
    | _ => none
  | _ => none

/-- The wait of a client that asks at the time `now` for `file`, with the timeout `to` of the
source. -/
def Barrier.wait (b : Barrier) (now file : ℕ) (timeout : ℤ) : ℤ × Barrier :=
  let b := if 3600 < ((now : ℤ) - b.lasttime) % 2 ^ 32 then ⟨0, 0⟩ else b
  if file = b.lastfile then
    let wait := wrapInt (timeout + (b.lasttime - now))
    (if wait < 0 then 0 else wait, b)
  else if file < b.lastfile then (0, b)
  else (wrapInt (if b.lasttime = 0 then timeout + 10 else timeout), ⟨file, now % 2 ^ 32⟩)

/-- `sscanf(s, "<name>-%d", &bn) == 1`. -/
def backupNumber (name : String) (s : Bytes) : Option ℤ :=
  match scanText (ascii name) s with
  | none => none
  | some t => (scanInt t).map Prod.fst

/-- The line logged for a log request: the second byte says what happened, the third one and the rest
may say to what. -/
def logText (buf mac what : Bytes) : Option Bytes :=
  let event (text : String) : Bytes :=
    if byteAt buf 2 = 45 then mac ++ ascii text ++ ascii " (" ++ what ++ ascii ")"
    else mac ++ ascii text
  match (byteAt buf 1).toNat with
  | 48 => some (mac ++ ascii " booted")
  | 49 => some (mac ++ ascii " executing menu entry " ++ dec (byteAt buf 2).toNat)
  | 50 => some (event " restoration started")
  | 51 => some (event " restoration completed")
  | 52 => some (event " backup started")
  | 53 => some (event " backup completed")
  | 54 => some (mac ++ ascii " postinstall started")
  | 55 => some (mac ++ ascii " postinstall completed")
  | 56 => some (mac ++ ascii " critical error")
  | _ => none

/-- A backup that is completed is given to root. -/
def backupCompleted (smac what : Bytes) : List Effect :=
  match backupNumber "Local-" what with
  | some bn => [.system [.text (ascii "chown -R 0:0 "), .text env.basedir, .text (ascii "/images/"),
      .ins .smac smac, .text (ascii "/Local-"), .ins .num (decInt bn)]]
  | none =>
    match backupNumber "Base-" what with
    | some bn => [.system [.text (ascii "chown -R 0:0 "), .text env.basedir,
        .text (ascii "/imgbase/Base-"), .ins .num (decInt bn)]]
    | none => []

/-- The log requests. -/
def logRequest (buf mac smac what : Bytes) : List Effect :=
  match logText buf mac what with
  | none => []
  | some text =>
    mysyslog env smac text ++
      if byteAt buf 1 = 53 ∧ byteAt buf 2 = 45 then backupCompleted env smac what else []

/-- The lines written to `log/<smac>.inf` and to `log/ID.log`. -/
def report (mac s : Bytes) : Bytes :=
  ascii ">>>Packet from " ++ env.addr ++ ascii ":" ++ dec env.port ++ ascii "\nMAC Address:" ++ mac ++
    [10] ++ s ++ ascii "\n<<<\n"

/-- The file for the hardware of a client. -/
def infFile (smac : Bytes) : Line :=
  [.text env.basedir, .text (ascii "/log/"), .ins .smac smac, .text (ascii ".inf")]

/-- Hardware information. -/
def hardwareRequest (mac smac s : Bytes) : List Effect :=
  .mysystem [.text env.basedir, .text (ascii "/bin/update_menu "), .ins .smac smac] ::
    if env.opens (snprintf 255 (infFile env smac)) then
      [.write (infFile env smac) (report env mac s),
       .mysystem [.text env.basedir, .text (ascii "/bin/info "), .text env.basedir,
        .text (ascii "/log/"), .ins .smac smac, .text (ascii ".inf "), .text env.basedir,
        .text (ascii "/log/"), .ins .smac smac, .text (ascii ".ini")]]
    else [.unopened (infFile env smac), .fault .file]

def idFile : Line := [.text env.basedir, .text (ascii "/log/ID.log")]

/-- Identification: a host name and a password, with the last colon between them. -/
def idRequest (mac s id : Bytes) : List Effect :=
  if env.opens (snprintf 255 (idFile env)) then
    .append (idFile env) (report env mac s) ::
      match strrchr id 58 with
      | none => [.fault .null]
      | some (hostname, pass) =>
        -- an array that is overrun does not keep the command from being run
        (if 256 ≤ pass.length then [.fault .pass] else []) ++
        (if 256 ≤ hostname.length then [.fault .host] else []) ++
        [.mysystem [.text env.basedir, .text (ascii "/bin/check_add_host "), .ins .mac mac,
          .text (ascii " "), .ins .host hostname, .text (ascii " "), .ins .pass pass]]
  else [.unopened (idFile env), .fault .file]

/-- The requests, by their first byte. -/
inductive Command
  | hardware | id | save | default | log | name | time | other
  deriving DecidableEq, Repr

def command (b : UInt8) : Command :=
  if b = 0xAA then .hardware
  else if b = 0xAD then .id
  else if b = 0xEC then .save
  else if b = 0xCD then .default
  else if b = 0x4C then .log
  else if b = 0x1A then .name
  else if b = 0x54 then .time
  else .other

/-- The C string at an offset of `buf`. It may run into the memory after `buf`. -/
def strAt (buf : Bytes) (off : ℕ) : Bytes := cstr (buf.drop off ++ env.after)

/-- `process_packet`. -/
def processPacket (d : Daemon) (mac smac : Bytes) : List Effect × Daemon :=
  match command (byteAt d.buf 0) with
  | .hardware => (hardwareRequest env mac smac (strAt env d.buf 1), d)
  | .id =>
    (idRequest env mac (strAt env d.buf 0) (strAt env d.buf 3),
      match strrchr (strAt env d.buf 3) 58 with
      | some (hostname, _) => { d with buf := d.buf.set (3 + hostname.length) 0 }
      | none => d)
  | .save =>
    ([.mysystem [.text env.basedir, .text (ascii "/bin/update_dir "), .ins .smac smac,
      .text (ascii " "), .ins .char (cstr [byteAt d.buf 1])]], d)
  | .default =>
    (.mysystem [.text env.basedir, .text (ascii "/bin/set_default "), .ins .smac smac,
      .text (ascii " "), .ins .num (dec (byteAt d.buf 1).toNat)] ::
      mysyslog env smac (mac ++ ascii " default set to " ++ dec (byteAt d.buf 1).toNat), d)
  | .log =>
    (logRequest env d.buf mac smac (strAt env d.buf 3),
      if byteAt d.buf 1 = 51 then { d with barrier := ⟨0, 0⟩ } else d)
  | .name =>
    match getentry env.ether mac with
    | some name =>
      if 80 ≤ name.length then ([.fault .gBuff], d)
      else ([.send (name ++ [0])], { d with gBuff := overwrite d.gBuff 0 (name ++ [0]) })
    | none => ([], d)
  | .time =>
    match timeRequest (strAt env d.buf 0) with
    | some (file, timeout) =>
      let (wait, b) := d.barrier.wait env.now file timeout
      ([.send (decInt wait)],
        { d with buf := overwrite d.buf 0 (decInt wait ++ [0]), barrier := b })
    | none => ([], d)
  | .other => ([], d)

/-! ## The loop of `main` -/

/-- The buffer after a packet was received: the rest is as it was. -/
def receive (pkt buf : Bytes) : Bytes := overwrite buf 0 pkt

/-- One turn of the loop of `main`. Requests have to come from port 1001. -/
def serve (d : Daemon) (pkt : Bytes) : List Effect × Daemon :=
  let d := { d with buf := receive pkt d.buf }
  match findMac env d.buf d.gBuff pkt.length with
  | .error f => ([.fault f], d)
  | .ok (g, off) =>
    let d := { d with gBuff := g }
    if env.port ≠ 1001 then ([], d)
    else processPacket env d (cstr (g.drop off)) (shortMac (g.drop off))

/-- A run: it ends with the first fault. -/
def serveAll : Daemon → List (Env × Bytes) → List (List Effect) × Daemon
  | d, [] => ([], d)
  | d, (env, pkt) :: ps =>
    let (es, d) := serve env d pkt
    if faults es = [] then
      let (ess, d) := serveAll d ps
      (es :: ess, d)
    else ([es], d)

end LinboxRescue
