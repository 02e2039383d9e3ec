import LinboxRescue.Lib.CString

/-!
# The boot menu (`src/client/src_revoboot/stage2.c`)

`cmain` reads a configuration file line by line into three areas: the titles, the commands and the
descriptions of the entries. Strings end with a NUL, and the commands of an entry with one more. The
descriptions start at `HISTORY_BUF` and are not limited: behind 11200 bytes of them come the titles, in
`MENU_BUF`. `Parse` is what the three areas hold as long as none of them runs into another.
`run_menu` shows the titles in a box of twelve lines, of which `first_entry` is the first one and
`entryno` the one that is highlighted, with a description below.
-/

namespace LinboxRescue

/-! ## Lines of the configuration file -/

/-- `get_line_from_config`: the line, and what is left of the file. Comments and empty lines are passed
over; a backslash takes the next byte as it is, or joins two lines. -/
def getLine (maxlen : ℕ) : Bytes → Bytes → Bool → Bool → Bytes × Bytes
  | [], cmdline, _, _ => (cmdline, [])
  | c :: t, cmdline, literal, comment =>
    if c = 92 ∧ literal = false then getLine maxlen t cmdline true comment
    else if c = 13 then getLine maxlen t cmdline literal comment
    else
      let c := if c = 9 ∨ (literal = true ∧ c = 10) then 32 else c
      if comment then getLine maxlen t cmdline false (c ≠ 10)
      else if cmdline = [] then
        if c = 35 then getLine maxlen t cmdline false true
        else if c ≠ 32 ∧ c ≠ 10 then getLine maxlen t [c] false false
        else getLine maxlen t cmdline false false
      else if c = 10 then (cmdline, t)
      else if cmdline.length < maxlen then getLine maxlen t (cmdline ++ [c]) false false
      else getLine maxlen t cmdline false false

/-- The lines of a file: the last one is followed by none. -/
def configLinesAux : ℕ → Bytes → List Bytes
  | 0, _ => []
  | fuel + 1, t =>
    let r := getLine 1500 t [] false false
    if r.1 = [] then [] else cstr r.1 :: configLinesAux fuel r.2

/-- Every line takes a byte at least. -/
def configLines (t : Bytes) : List Bytes := configLinesAux (t.length + 1) t

/-! ## Commands -/

/-- A command of `builtin_table`, with the flags that `cmain` looks at. -/
structure Builtin where
  name : Bytes
  isTitle : Bool
  isDesc : Bool
  isMenu : Bool
  name_ne : name ≠ []
  deriving DecidableEq, Repr

/-- `grub_strcmp(s, t) < 0`. -/
def strcmpLt : Bytes → Bytes → Bool
  | [], t => t ≠ []
  | _ :: _, [] => false
  | a :: s, b :: t => a.toInt8 < b.toInt8 || (a == b && strcmpLt s t)

def isSep (b : UInt8) : Bool := b == 32 || b == 9 || b == 61

/-- The search through the table, which is sorted. -/
def findBuiltin (name : Bytes) : List Builtin → Option Builtin
  | [] => none
  | b :: bs =>
    if name = b.name then some b else if strcmpLt name b.name then none else findBuiltin name bs

/-- `find_command`. -/
def findCommand (table : List Builtin) (cmdline : Bytes) : Option Builtin :=
  findBuiltin (cmdline.takeWhile fun b => !isSep b) table

/-- `skip_to (1, cmdline)`. -/
def skipTo (cmdline : Bytes) : Bytes := (cmdline.dropWhile fun b => !isSep b).dropWhile isSep

/-! ## What is read -/

/-- The three areas, the variables of `cmain` while it reads the file, and the lines of the commands it
has run. -/
structure Parse where
  menu : Bytes
  config : Bytes
  desc : Bytes
  prevMenuLen : ℕ
  prevConfigLen : ℕ
  state : ℕ
  gotDesc : Bool
  numEntries : ℕ
  ran : List Bytes
  deriving DecidableEq, Repr

def Parse.start : Parse := ⟨[], [], [], 0, 0, 0, false, 0, []⟩

/-- The description of an entry that has none: it ends with the number of the entry. -/
def noDescription (num : ℕ) : Bytes := ascii "No description... 0" ++ [UInt8.ofNat (48 + num)]

/-- The end of an entry that has commands. -/
def Parse.close (p : Parse) : Parse :=
  { p with
    numEntries := p.numEntries + 1
    config := p.config ++ [0]
    desc := if p.gotDesc then p.desc else p.desc ++ noDescription (p.numEntries + 1) ++ [0] }

/-- An entry without commands is forgotten. -/
def Parse.forget (p : Parse) : Parse :=
  { p with menu := p.menu.take p.prevMenuLen, config := p.config.take p.prevConfigLen }

/-- One line of the file. -/
def Parse.line (table : List Builtin) (p : Parse) (cmdline : Bytes) : Parse :=
  match findCommand table cmdline with
  | none => p
  | some b =>
    if b.isDesc then { p with desc := p.desc ++ skipTo cmdline ++ [0], gotDesc := true }
    else if b.isTitle then
      let p :=
        if 1 < p.state then
          { p.close with prevMenuLen := p.close.menu.length, prevConfigLen := p.close.config.length }
        else p.forget
      { p with state := 1, gotDesc := false, menu := p.menu ++ skipTo cmdline ++ [0] }
    else if p.state = 0 then
      if b.isMenu then { p with ran := p.ran ++ [cmdline] } else p
    else { p with state := p.state + 1, config := p.config ++ cmdline ++ [0] }

/-- The end of the file. -/
def Parse.finish (p : Parse) : Parse :=
  let p := if 1 < p.state then p.close else p.forget
  { p with menu := p.menu ++ [0], config := p.config ++ [0], desc := p.desc ++ [0] }

/-- The areas, each on its own. -/
def readConfig (table : List Builtin) (file : Bytes) : Parse :=
  ((configLines file).foldl (Parse.line table) Parse.start).finish

/-! ## `cmain` -/

/-- `MENU_BUF - HISTORY_BUF`. -/
def menuBuf : ℕ := 11200

/-- `MENU_BUFLEN`. -/
def menuBufLen : ℕ := 19456

/-- `n` bytes of the memory, from `i` on. -/
def peek (mem : ℕ → UInt8) (i n : ℕ) : Bytes := (List.range n).map fun k => mem (i + k)

/-- A string is copied to `i`, with its NUL. -/
def pokeString (mem : ℕ → UInt8) (i : ℕ) (s : Bytes) : ℕ → UInt8 := fun k =>
  if i ≤ k ∧ k < i + (s ++ [0]).length then byteAt (s ++ [0]) (k - i) else mem k

/-- The variables of `cmain`, with the memory from `HISTORY_BUF` on: the descriptions and, from
`menuBuf` on, the titles. The commands are behind the memory map. -/
structure Cmain where
  low : ℕ → UInt8
  descLen : ℕ
  menuLen : ℕ
  config : Bytes
  prevMenuLen : ℕ
  prevConfigLen : ℕ
  state : ℕ
  gotDesc : Bool
  numEntries : ℕ
  ran : List Bytes

namespace Cmain

def start (low : ℕ → UInt8) : Cmain := ⟨low, 0, 0, [], 0, 0, 0, false, 0, []⟩

/-- The areas end where `MENU_BUF` ends and, for the commands, `room` bytes behind the memory map. -/
def check (room : ℕ) (c : Cmain) : Option Cmain :=
  if c.descLen ≤ menuBuf + menuBufLen ∧ c.menuLen ≤ menuBufLen ∧ c.config.length ≤ room then some c
  else none

def addDesc (c : Cmain) (text : Bytes) : Cmain :=
  { c with low := pokeString c.low c.descLen text, descLen := c.descLen + text.length + 1 }

def addTitle (c : Cmain) (text : Bytes) : Cmain :=
  { c with
    low := pokeString c.low (menuBuf + c.menuLen) text
    menuLen := c.menuLen + text.length + 1 }

/-- The end of an entry that has commands. -/
def close (c : Cmain) : Cmain :=
  let c := { c with numEntries := c.numEntries + 1, config := c.config ++ [0] }
  if c.gotDesc then c else c.addDesc (noDescription c.numEntries)

/-- An entry without commands is forgotten. -/
def forget (c : Cmain) : Cmain :=
  { c with menuLen := c.prevMenuLen, config := c.config.take c.prevConfigLen }

/-- One line of the file. -/
def line (table : List Builtin) (room : ℕ) (c : Cmain) (cmdline : Bytes) : Option Cmain :=
  match findCommand table cmdline with
  | none => some c
  | some b =>
    if b.isDesc then { c.addDesc (skipTo cmdline) with gotDesc := true }.check room
    else if b.isTitle then
      let c :=
        if 1 < c.state then
          { c.close with prevMenuLen := c.close.menuLen, prevConfigLen := c.close.config.length }
        else c.forget
      { c.addTitle (skipTo cmdline) with state := 1, gotDesc := false }.check room
    else if c.state = 0 then
      if b.isMenu then some { c with ran := c.ran ++ [cmdline] } else some c
    else { c with state := c.state + 1, config := c.config ++ cmdline ++ [0] }.check room

/-- The end of the file: the titles and the descriptions are moved behind the commands. -/
def finish (room : ℕ) (c : Cmain) : Option Parse := do
  let c := if 1 < c.state then c.close else c.forget
  let c := { (c.addTitle []).addDesc [] with config := c.config ++ [0] }
  let c ← c.check room
  if c.config.length + c.menuLen + c.descLen ≤ room then
    some { menu := peek c.low menuBuf c.menuLen, config := c.config, desc := peek c.low 0 c.descLen,
           prevMenuLen := c.prevMenuLen, prevConfigLen := c.prevConfigLen, state := c.state,
           gotDesc := c.gotDesc, numEntries := c.numEntries, ran := c.ran }
  else none

end Cmain

/-- The three areas that `cmain` gives to `run_menu`, from what was in the memory before and the `room`
between the memory map and the stack. There is no result if an area runs out of the memory for it. -/
def cmain (table : List Builtin) (low : ℕ → UInt8) (room : ℕ) (file : Bytes) : Option Parse := do
  let c ← (configLines file).foldlM (Cmain.line table room) (Cmain.start low)
  c.finish room

/-! ## `run_menu` -/

/-- After a string. -/
def skipString : Bytes → Bytes
  | [] => []
  | b :: t => if b = 0 then t else skipString t

/-- After the strings up to an empty one. -/
def skipStrings : ℕ → Bytes → Bytes
  | 0, list => list
  | fuel + 1, list =>
    match skipString list with
    | [] => []
    | b :: t => if b = 0 then t else skipStrings fuel t

/-- `get_entry`: where the entry `num` starts. -/
def getEntry (list : Bytes) (num : ℕ) (nested : Bool) : Bytes :=
  match num with
  | 0 => list
  | num + 1 => getEntry (if nested then skipStrings list.length list else skipString list) num nested

/-- The commands of an entry, as `run_script` runs them: strings up to an empty one. -/
def scriptAux : ℕ → Bytes → List Bytes
  | 0, _ => []
  | fuel + 1, t => if cstr t = [] then [] else cstr t :: scriptAux fuel (skipString t)

def script (t : Bytes) : List Bytes := scriptAux t.length t

inductive Key
  | up | down
  deriving DecidableEq, Repr

/-- The place in the menu. -/
structure Place where
  firstEntry : ℕ
  entryno : ℕ
  deriving DecidableEq, Repr

/-- Where `run_menu` starts. -/
def Place.start (entryno : ℕ) : Place :=
  if 11 < entryno then ⟨entryno - 11, 11⟩ else ⟨0, entryno⟩

def Place.key (num : ℕ) (m : Place) : Key → Place
  | .up =>
    if 0 < m.entryno then { m with entryno := m.entryno - 1 }
    else if 0 < m.firstEntry then { m with firstEntry := m.firstEntry - 1 }
    else m
  | .down =>
    if m.firstEntry + m.entryno + 1 < num then
      if m.entryno < 11 then { m with entryno := m.entryno + 1 }
      else if 12 + m.firstEntry < num then { m with firstEntry := m.firstEntry + 1 }
      else m
    else m

def Place.keys (num : ℕ) (m : Place) (ks : List Key) : Place := ks.foldl (Place.key num) m

/-- The title that is highlighted, as `print_entry` draws it when the place moves in the box. -/
def Parse.highlighted (p : Parse) (m : Place) : Bytes :=
  cstr (getEntry p.menu (m.firstEntry + m.entryno) false)

/-- The titles that `print_entries` draws, one in a line of the box. The end of an empty title is not
passed over: the byte before it is zero too. -/
def printEntries : ℕ → Bytes → List Bytes
  | 0, _ => []
  | size + 1, t => cstr t :: printEntries size (if cstr t = [] then t else skipString t)

/-- The title in the highlighted line when the box is drawn anew. -/
def Parse.drawn (p : Parse) (m : Place) : Bytes :=
  (printEntries 12 (getEntry p.menu m.firstEntry false)).getD m.entryno []

/-- `show_desc(entryno)`. -/
def Parse.shown (p : Parse) (m : Place) : Bytes := cstr (getEntry p.desc m.entryno false)

/-- The commands that are run when the entry is booted. -/
def Parse.booted (p : Parse) (m : Place) : List Bytes :=
  script (getEntry p.config (m.firstEntry + m.entryno) true)

end LinboxRescue
