import LinboxRescue.Admin.Lbs
import LinboxRescue.Boot.Writing
import LinboxRescue.Boot.MenuSpec

/-!
# The boot menu of a host (`makeUserMenu`, `set_default`)

`makeUserMenu` of `src/server/admin/perl/lbs-lib.pl` writes the configuration file that the boot loader
reads: the items of the section `header`, in which `DEFNUM` is replaced by the number of the default
menu, and one stanza for each visible menu. `set_default` makes one visible menu the default.
-/

namespace LinboxRescue

/-! ## Texts -/

/-- `s/pat/rep/`. -/
def substFirst (pat rep : Bytes) : Bytes → Bytes
  | [] => []
  | b :: t =>
    if pat.isPrefixOf (b :: t) then rep ++ (b :: t).drop pat.length else b :: substFirst pat rep t

def substAllAux (pat rep : Bytes) : ℕ → Bytes → Bytes
  | 0, s => s
  | _ + 1, [] => []
  | fuel + 1, b :: t =>
    if pat.isPrefixOf (b :: t) then rep ++ substAllAux pat rep fuel ((b :: t).drop pat.length)
    else b :: substAllAux pat rep fuel t

/-- `s/pat/rep/g`. -/
def substAll (pat rep s : Bytes) : Bytes := substAllAux pat rep (s.length + 1) s

/-- The rest after the first place where a text stands. -/
def afterText (pat : Bytes) : Bytes → Option Bytes
  | [] => none
  | b :: t => if pat.isPrefixOf (b :: t) then some ((b :: t).drop pat.length) else afterText pat t

/-- `addEmptyLine`. -/
def addEmptyLine (text : Bytes) : Bytes := text.rdropWhile (· = 10) ++ [10, 10]

/-- `encodeCP850`. -/
def encodeCP850 (text : Bytes) : Bytes :=
  text.map fun b =>
    (([0xe2, 0xe4, 0xe0, 0xe9, 0xea, 0xeb, 0xe8, 0xef, 0xee, 0xf4, 0xf6, 0xfc, 0xfb, 0xf9, 0xff,
      0xe7] : Bytes).zip ([0x83, 0x84, 0x85, 0x82, 0x88, 0x89, 0x8a, 0x8b, 0x8c, 0x93, 0x94, 0x81, 0x96,
      0x97, 0x98, 0x87] : Bytes)).lookup b |>.getD b

/-- The first line that fits is changed. -/
def editFirst (p : Bytes → Bool) (edit : Bytes → Bytes) : List Bytes → List Bytes
  | [] => []
  | l :: ls => if p l then edit l :: ls else l :: editFirst p edit ls

/-- `m/kernel \(nd\).* revo.*/`. -/
def isKernelLine (l : Bytes) : Bool :=
  match afterText (ascii "kernel (nd)") l with
  | some r => (afterText (ascii " revo") r).isSome
  | none => false

/-- `s/(kernel \(nd\).* revo.*)/$1…/`. -/
def addKernelOption (option text : Bytes) : Bytes :=
  joinLines (editFirst isKernelLine (· ++ option) (lineFields text))

/-! ## Sections -/

/-- The files that `hdrLoad` includes: those that are not empty, without the newlines at their end. -/
def hdrInc (conf : Ini) (files : Bytes → Option Bytes) (v : Bytes) : Option Bytes :=
  if (iniGetSections conf).any fun s => ((conf.data s).getD []).contains (ascii "include", v) then
    match files v with
    | some text => if text = [] then none else some (text.rdropWhile (· = 10))
    | none => none
  else none

/-- `hdrConcatMenuItems`. -/
def hdrConcatMenuItems (conf : Ini) (inc : Bytes → Option Bytes) (s : Bytes) : Bytes :=
  joinLines (((conf.data s).getD []).flatMap fun p =>
    if lc p.1 = ascii "item" then [p.2]
    else if lc p.1 = ascii "include" then (inc p.2).toList
    else [])

/-- What `makeUserMenu` takes from outside of the header. -/
structure MenuEnv where
  home : Bytes
  mac : Bytes
  copynum : Bytes
  basenum : Bytes
  restoreType : Bytes
  mtftpWait : Bytes
  splashimage : Bytes
  keymap : Bytes

/-- `$minfo` of a menu, as far as it is used. -/
structure MenuInfo where
  dflt : Bytes
  visu : Bytes
  image : Bytes
  deriving DecidableEq, Repr

/-- `hdrGetMenuInfo` leaves the values of the menu before it if there is no such section. -/
def hdrGetMenuInfo (conf : Ini) (s : Bytes) (info : MenuInfo) : MenuInfo :=
  if iniHasSection conf s then
    ⟨iniGetVal conf s (ascii "def"), iniGetVal conf s (ascii "visu"), iniGetVal conf s (ascii "image")⟩
  else info

/-- `m/((Base|Local)-[0-9].*)/`. -/
def isNumberedImage (image : Bytes) : Bool :=
  image.tails.any fun t => [ascii "Base-", ascii "Local-"].any fun w =>
    w.isPrefixOf t && ((t.drop w.length).head?.any isDigit)

/-- The last line that starts with the word. -/
def lastItem (word : Bytes) (lines : List Bytes) : Bytes :=
  lines.foldl (fun o l => if word.isPrefixOf (l.dropWhile isSpace) then l else o) []

/-- The stanza of an image that is restored by a Linux system. -/
def linuxStanza (env : MenuEnv) (image one : Bytes) : Bytes :=
  let oTitle := lastItem (ascii "title ") (splitLines one)
  let oDesc := lastItem (ascii "desc ") (splitLines one)
  let suffix :=
    if oTitle = [] then []
    else if env.restoreType = ascii "1" then ascii " (NFS)"
    else if env.restoreType = ascii "2" then ascii " (MTFTP)"
    else []
  let imgo :=
    if env.restoreType = ascii "1" then ascii "revorestorenfs"
    else if env.mtftpWait ≠ ascii "0" then ascii "revorestore revowait=" ++ env.mtftpWait
    else ascii "revorestore"
  let imgt := if (afterText (ascii "Local") image).isSome then ascii "images/" ++ env.mac else ascii "imgbase"
  oTitle ++ suffix ++ 10 :: oDesc ++ ascii "\nkernel (nd)" ++ env.home ++
    ascii "/bin/bzImage.initrd revosavedir=/" ++ imgt ++ 47 :: image ++ 32 :: imgo ++
    ascii " quiet revopost\ninitrd (nd)" ++ env.home ++ ascii "/bin/initrd.gz\n"

/-- The items of a menu, with what stands for the host and its images filled in. -/
def menuBody (env : MenuEnv) (conf : Ini) (inc : Bytes → Option Bytes) (m image : Bytes) : Bytes :=
  let one := encodeCP850 (hdrConcatMenuItems conf inc m)
  let one := substFirst (ascii "MAC") env.mac one
  let one := substAll (ascii "PATH") (env.home ++ ascii "/images/" ++ env.mac ++ 47 :: image) one
  let one := substFirst (ascii "COPYNUM") env.copynum one
  let one := substFirst (ascii "BASENUM") env.basenum one
  if env.restoreType = [] ∨ env.restoreType = ascii "0" then one
  else if isNumberedImage image then linuxStanza env image one
  else one

/-- The options of the Linux kernel. -/
def addKernelOptions (env : MenuEnv) (conf : Ini) (one : Bytes) : Bytes :=
  let eth := iniGetVal conf (ascii "header") (ascii "ethnum")
  let kernelopts := iniGetVal conf (ascii "header") (ascii "kernelopts")
  let one := addKernelOption
    (if eth ≠ ascii "0" ∧ eth ≠ [] then ascii " revoeth" ++ eth else ascii " revomac=" ++ env.mac) one
  if kernelopts = [] then one else addKernelOption (32 :: kernelopts) one

/-- The stanza of a visible menu. -/
def menuText (env : MenuEnv) (conf : Ini) (inc : Bytes → Option Bytes) (m image : Bytes) : Bytes :=
  addKernelOptions env conf (addEmptyLine (menuBody env conf inc m image))

/-! ## `makeUserMenu` -/

structure MenuAcc where
  info : MenuInfo
  defaultpos : ℕ
  numselect : ℕ
  bootmenu : Bytes

section Make

variable (env : MenuEnv) (conf : Ini) (inc : Bytes → Option Bytes)

def MenuAcc.menu (a : MenuAcc) (m : Bytes) : MenuAcc :=
  let info := hdrGetMenuInfo conf m a.info
  if info.visu = ascii "yes" then
    { info := info
      defaultpos := if info.dflt = ascii "yes" then a.numselect else a.defaultpos
      numselect := a.numselect + 1
      bootmenu := a.bootmenu ++ menuText env conf inc m info.image }
  else { a with info := info }

/-- The items of the header, with the number of the default menu. -/
def menuHeader (defaultpos : ℕ) : Bytes :=
  let text := substFirst (ascii "DEFNUM") (dec defaultpos)
    (hdrConcatMenuItems conf inc (ascii "header"))
  let text := if env.keymap = [] then text else text ++ ascii "\nkbd" ++ env.keymap ++ [10]
  let text :=
    if env.splashimage = [] then text else text ++ ascii "\nsplashimage (nd)" ++ env.splashimage ++ [10]
  addEmptyLine text

/-- What `makeUserMenu` writes for a header that was loaded. -/
def makeUserMenu : Bytes :=
  let a := (hdrGetMenuNames conf).foldl (MenuAcc.menu env conf inc) ⟨⟨[], [], []⟩, 0, 0, []⟩
  menuHeader env conf inc a.defaultpos ++ a.bootmenu

end Make

/-! ## `set_default` -/

/-- One section; `ii` counts those that are visible. -/
def setDefaultSection (newdef : ℕ) (st : ℕ × Ini) (s : Bytes) : ℕ × Ini :=
  let visu := iniGetVal st.2 s (ascii "visu")
  if visu = ascii "no" ∨ visu = [] then st
  else (st.1 + 1, iniSetVal st.2 s (ascii "def") (if st.1 = newdef then ascii "yes" else ascii "no"))

def setDefault (newdef : ℕ) (file : IniFile) : IniFile :=
  iniSave ((iniGetSections (iniLoad file)).foldl (setDefaultSection newdef) (0, iniLoad file)).2

/-! ## `default_func` -/

/-- A command of the menu, and what it does to `default_entry`; `saved` is `saved_entryno`. -/
def defaultFunc (table : List Builtin) (saved d : ℕ) (cmdline : Bytes) : ℕ :=
  match findCommand table cmdline with
  | some b =>
    if b.name = ascii "default" then
      if skipTo cmdline = ascii "saved" then saved else (safeParseMaxint (skipTo cmdline)).getD d
    else d
  | none => d

/-- `default_entry`, after the commands of the menu were run. -/
def defaultEntry (table : List Builtin) (saved : ℕ) (ran : List Bytes) : ℕ :=
  ran.foldl (defaultFunc table saved) 0

end LinboxRescue
