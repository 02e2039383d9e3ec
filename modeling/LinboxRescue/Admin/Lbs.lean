import LinboxRescue.Admin.Ini
import LinboxRescue.Server.Ether

/-!
# The directory of the rescue server (`src/server/admin/perl/lbs-lib.pl`)

`etc/ether` has the hosts. Each has a directory `images/MAC` with its boot menu `header.lst`, the menu
for scheduled boots `header.lst.wol` and its images: directories, or links to the base images of
`imgbase`. `imgskel` is what the directory of a new host is copied from.

System calls can fail. What they did is an argument of each operation (`Os`), and an operation gives
its result with the directory it leaves.
-/

namespace LinboxRescue

/-! ## Headers -/

/-- `hdrGetMenuNames`: the names that match `m/^menu/i`. -/
def isMenuName (s : Bytes) : Bool := lc (s.take 4) = ascii "menu"

def hdrGetMenuNames (conf : Ini) : List Bytes := (iniGetSections conf).filter isMenuName

def hdrFindMenu (conf : Ini) (key val : Bytes) : Option Bytes :=
  (hdrGetMenuNames conf).find? fun m => iniHasKey conf m key && iniGetVal conf m key == val

/-- `hdrUniqueName`. The numbers of the menus are lost, because `substr($_,0,4) = ""` has an empty
string as its value: the number is always one. -/
def hdrUniqueName (_conf : Ini) : Bytes := ascii "menu1"

/-- The values of a menu for an image. -/
def hdrSetMenu (conf : Ini) (menu visu image incl : Bytes) : Ini :=
  let conf := iniSetVal conf menu (ascii "def") (ascii "no")
  let conf := iniSetVal conf menu (ascii "visu") visu
  let conf := iniSetVal conf menu (ascii "image") image
  if incl = [] then conf else iniSetVal conf menu (ascii "include") incl

/-! ## Directories -/

inductive ImageDir
  | dir (files : List Bytes)
  | link
  deriving DecidableEq, Repr

/-- `images/MAC`. A link goes to the base image of its name. -/
structure HostDir where
  header : Option IniFile
  wol : Option IniFile
  images : Bytes → Option ImageDir

structure Lbs where
  ether : Option Bytes
  hosts : Bytes → Option HostDir
  imgbase : Bytes → Option (List Bytes)
  skel : HostDir
  cfg : Bytes → Bool
  log : Bytes → Bool

/-- What the system calls of one operation did. -/
structure Os where
  /-- `ether` could be opened for writing. -/
  etherOpens : Bool
  /-- A `cp` of `imgskel` that failed, and what it left. -/
  cpFailed : Option (Option HostDir)
  /-- The copy of `header.lst` to `header.lst.wol` was made. -/
  cpWol : Bool
  symlink : Bool
  unlink : Bytes → Bool
  /-- A `rm` that failed, and what it left: of a host, of the image of a host, of a base image. -/
  rmHostFailed : Option HostDir
  rmImageFailed : Bytes → Option (List Bytes)
  rmBaseFailed : Option (List Bytes)
  /-- All files that the header includes could be written back by `hdrSave`. -/
  incSaved : Bool

def toUpper (b : UInt8) : UInt8 := if 97 ≤ b.toNat ∧ b.toNat ≤ 122 then b - 32 else b

theorem toUpper_ne {b c : UInt8} (hc : c.toNat < 65) (h : b ≠ c) : toUpper b ≠ c := by
  unfold toUpper
  split_ifs with hb
  · rintro rfl
    rw [UInt8.toNat_sub_of_le _ _ (UInt8.le_iff_toNat_le.mpr (by show 32 ≤ _; omega))] at hc
    exact absurd hc (by show ¬b.toNat - 32 < 65; omega)
  · exact h

def toMacFileName (mac : Bytes) : Bytes := (mac.map toUpper).filter (· ≠ 58)

def Lbs.host (l : Lbs) (mac : Bytes) : Option HostDir := l.hosts (toMacFileName mac)

def Lbs.setHost (l : Lbs) (mac : Bytes) (h : Option HostDir) : Lbs :=
  { l with hosts := Function.update l.hosts (toMacFileName mac) h }

def HostDir.setImage (h : HostDir) (image : Bytes) (d : Option ImageDir) : HostDir :=
  { h with images := Function.update h.images image d }

/-- The header of a host, if there is one to load. -/
def Lbs.header (l : Lbs) (mac : Bytes) : Option (HostDir × IniFile) :=
  (l.host mac).bind fun h => h.header.map fun f => (h, f)

/-- `-d "$hostdir/$image"`. -/
def Lbs.isDir (l : Lbs) (h : HostDir) (image : Bytes) : Bool :=
  match h.images image with
  | none => false
  | some (.dir _) => true
  | some .link => (l.imgbase image).isSome

/-- The file that is included for an image: its `conf.txt`, if it has one. -/
def Lbs.includeOf (l : Lbs) (h : HostDir) (image : Bytes) : Bytes :=
  let files :=
    match h.images image with
    | none => []
    | some (.dir files) => files
    | some .link => (l.imgbase image).getD []
  if files.contains (ascii "conf.txt") then image ++ ascii "/conf.txt" else []

/-! ## The table of hosts -/

/-- `%einfo`: of two lines for a MAC, the last one counts. -/
def einfoHosts (einfo : Einfo) : List Host :=
  einfo.foldl (fun hosts e => hosts.filter (fun h => h.mac ≠ e.1) ++
    [⟨e.1, e.2.1.getD [], e.2.2.getD []⟩]) []

/-- The MACs that are registered, in the order of `etherGetMacs`. -/
def registered (text : Bytes) : List Bytes := etherGetMacs (einfoHosts (etherLoad text))

/-- `etherAdd` fails if there is a host of this name or this MAC. -/
def etherAdd (hosts : List Host) (mac ip name : Bytes) : Option (List Host) :=
  if hosts.any fun h => lc h.name == lc name then none
  else if hosts.any fun h => h.mac == mac then none
  else some (hosts ++ [⟨mac, ip, name⟩])

/-! ## Hosts -/

def createEntry (os : Os) (l : Lbs) (mac ip name : Bytes) : Bool × Lbs :=
  if (l.host mac).isSome then (false, l)
  else
    match l.ether with
    | none => (false, l)
    | some text =>
      match etherAdd (einfoHosts (etherLoad text)) mac ip name with
      | none => (false, l)
      | some hosts =>
        if os.etherOpens then
          let l := { l with ether := some (etherSave hosts) }
          match os.cpFailed with
          | some left => (false, l.setHost mac left)
          | none => (true, l.setHost mac (some l.skel))
        else (false, l)

/-- The menu and the logs of a host are removed. -/
def Lbs.unlinkFiles (l : Lbs) (mac : Bytes) : Lbs :=
  { l with
    cfg := Function.update l.cfg (toMacFileName mac) false
    log := Function.update l.log (toMacFileName mac) false }

def deleteEntry (os : Os) (l : Lbs) (mac : Bytes) : Bool × Lbs :=
  match l.ether with
  | none => (false, l)
  | some text =>
    let l := l.unlinkFiles mac
    match l.host mac with
    | none => (false, l)
    | some _ =>
      match os.rmHostFailed with
      | some left => (false, l.setHost mac (some left))
      | none =>
        let hosts := (einfoHosts (etherLoad text)).filter fun h => h.mac ≠ mac
        (true, { l.setHost mac none with
          ether := if os.etherOpens then some (etherSave hosts) else some text })

/-! ## Menus -/

/-- The scheduled menu gets the change of the regular one, or becomes a copy of it. -/
def HostDir.sync (os : Os) (h : HostDir) (change : Ini → Ini) : HostDir :=
  match h.wol with
  | some w => { h with wol := some (iniSave (change (iniLoad w))) }
  | none => if os.cpWol then { h with wol := h.header } else h

def moveHdr2Local (os : Os) (l : Lbs) (mac image : Bytes) (test : Bool) : Bool × Lbs :=
  match l.header mac with
  | none => (false, l)
  | some (h, f) =>
    match hdrFindMenu (iniLoad f) (ascii "image") image with
    | none => (false, l)
    | some menu =>
      if test then (true, l)
      else
        let h := { h with header := some (iniSave (iniDeleteSection (iniLoad f) menu)) }
        (true, l.setHost mac (some (h.sync os fun conf => iniDeleteSection conf menu)))

/-- A new menu in both headers. The result of the second `hdrAddMenu` is not looked at. -/
def HostDir.addMenu (os : Os) (h : HostDir) (conf : Ini) (menu visu image incl : Bytes) : HostDir :=
  { h with header := some (iniSave (hdrSetMenu conf menu (ascii "yes") image incl)) }.sync os
    fun conf => hdrSetMenu ((iniAddSection conf menu).getD conf) menu visu image incl

section Menus

variable (unique : Ini → Bytes)

def moveLocal2Hdr (os : Os) (l : Lbs) (mac image : Bytes) (test : Bool) : Bool × Lbs :=
  match l.header mac with
  | none => (false, l)
  | some (h, f) =>
    match hdrFindMenu (iniLoad f) (ascii "image") image with
    | some _ => (false, l)
    | none =>
      if l.isDir h image = false then (false, l)
      else if test then (true, l)
      else
        match iniAddSection (iniLoad f) (unique (iniLoad f)) with
        | none => (false, l)
        | some conf => (true, l.setHost mac (some (h.addMenu os conf (unique (iniLoad f)) (ascii "yes")
            image (l.includeOf h image))))

def moveBase2Hdr (os : Os) (l : Lbs) (mac image : Bytes) (test : Bool) : Bool × Lbs :=
  if l.imgbase image = none then (false, l)
  else if ((l.host mac).any fun h => l.isDir h image) then (false, l)
  else
    match l.header mac with
    | none => (false, l)
    | some (h, f) =>
      match hdrFindMenu (iniLoad f) (ascii "image") image with
      | some _ => (false, l)
      | none =>
        if test then (true, l)
        else if os.symlink = false then (false, l)
        else
          let h := h.setImage image (some .link)
          match iniAddSection (iniLoad f) (unique (iniLoad f)) with
          | none => (false, l.setHost mac (some h))
          | some conf => (true, l.setHost mac (some (h.addMenu os conf (unique (iniLoad f))
              (ascii "no") image (l.includeOf h image))))

/-- `setHeader` of `update_dir`. -/
def setHeader (os : Os) (l : Lbs) (mac image : Bytes) : Bool × Lbs :=
  match l.header mac with
  | none => (false, l)
  | some (h, f) =>
    match iniAddSection (iniLoad f) (unique (iniLoad f)) with
    | none => (false, l)
    | some conf =>
      let conf := hdrSetMenu conf (unique (iniLoad f)) (ascii "yes") image (image ++ ascii "/conf.txt")
      (os.incSaved, l.setHost mac (some { h with header := some (iniSave conf) }))

end Menus

/-! ## Images -/

def imgDeleteLocal (os : Os) (l : Lbs) (mac image : Bytes) : Bool × Lbs :=
  match l.header mac with
  | none => (false, l)
  | some (h, f) =>
    match hdrFindMenu (iniLoad f) (ascii "image") image with
    | some _ => (false, l)
    | none =>
      if l.isDir h image = false then (false, l)
      else
        match h.images image with
        | some (.dir _) =>
          match os.rmImageFailed (toMacFileName mac) with
          | some left => (false, l.setHost mac (some (h.setImage image (some (.dir left)))))
          | none => (true, l.setHost mac (some (h.setImage image none)))
        | _ =>
          if os.unlink (toMacFileName mac) then (true, l.setHost mac (some (h.setImage image none)))
          else (false, l)

/-- The loop of `imgDeleteBase`: it stops at the first host that does not give its image away. -/
def imgDeleteHosts (os : Os) (image : Bytes) : List Bytes → Lbs → Bool × Lbs
  | [], l => (true, l)
  | mac :: macs, l =>
    if (l.host mac).any fun h => l.isDir h image then
      match imgDeleteLocal os l mac image with
      | (false, l') => (false, l')
      | (true, l') => imgDeleteHosts os image macs l'
    else imgDeleteHosts os image macs l

/-- `skelDeleteBaseLink`, whose result is not looked at. -/
def skelDeleteBaseLink (os : Os) (l : Lbs) (image : Bytes) : Lbs :=
  match l.skel.images image, l.skel.header with
  | some .link, some f =>
    let conf :=
      match hdrFindMenu (iniLoad f) (ascii "image") image with
      | some m => iniDeleteSection (iniLoad f) m
      | none => iniLoad f
    let skel := { l.skel with header := some (iniSave conf) }
    { l with skel := if os.incSaved then skel.setImage image none else skel }
  | _, _ => l

/-- The end of `imgDeleteBase`, after the loop. -/
def rmBase (os : Os) (image : Bytes) : Bool × Lbs → Bool × Lbs
  | (false, l) => (false, l)
  | (true, l) =>
    match os.rmBaseFailed with
    | some left => (false, { l with imgbase := Function.update l.imgbase image (some left) })
    | none =>
      (true, skelDeleteBaseLink os { l with imgbase := Function.update l.imgbase image none } image)

def imgDeleteBase (os : Os) (l : Lbs) (image : Bytes) : Bool × Lbs :=
  if l.imgbase image = none then (false, l)
  else
    match l.ether with
    | none => (false, l)
    | some text => rmBase os image (imgDeleteHosts os image (registered text) l)

/-- The menu for an image in the header of `imgskel`. -/
def skelAddMenu (unique : Ini → Bytes) (os : Os) (l : Lbs) (image : Bytes) (skel : HostDir) :
    Bool × Lbs :=
  match skel.header with
  | none => (false, { l with skel := skel })
  | some f =>
    match hdrFindMenu (iniLoad f) (ascii "image") image with
    | some _ => (os.incSaved, { l with skel := { skel with header := some (iniSave (iniLoad f)) } })
    | none =>
      match iniAddSection (iniLoad f) (unique (iniLoad f)) with
      | none => (false, { l with skel := skel })
      | some conf =>
        let conf :=
          hdrSetMenu conf (unique (iniLoad f)) (ascii "no") image (image ++ ascii "/conf.txt")
        (os.incSaved, { l with skel := { skel with header := some (iniSave conf) } })

/-- `skelAddBaseLink`. The result of `symlink` is not looked at. -/
def skelAddBaseLink (unique : Ini → Bytes) (os : Os) (l : Lbs) (image : Bytes) : Bool × Lbs :=
  if l.imgbase image = none then (false, l)
  else if (l.skel.images image).isSome then (false, l)
  else
    skelAddMenu unique os l image
      (if os.symlink then l.skel.setImage image (some .link) else l.skel)

/-! ## Calls -/

inductive LbsCall
  | createEntry (mac ip name : Bytes)
  | deleteEntry (mac : Bytes)
  | moveHdr2Local (mac image : Bytes) (test : Bool)
  | moveLocal2Hdr (mac image : Bytes) (test : Bool)
  | moveBase2Hdr (mac image : Bytes) (test : Bool)
  | setHeader (mac image : Bytes)
  | imgDeleteLocal (mac image : Bytes)
  | imgDeleteBase (image : Bytes)
  | skelAddBaseLink (image : Bytes)

/-- The result of a call, and the directory it leaves. -/
def Lbs.call (unique : Ini → Bytes) (os : Os) (l : Lbs) : LbsCall → Bool × Lbs
  | .createEntry mac ip name => LinboxRescue.createEntry os l mac ip name
  | .deleteEntry mac => LinboxRescue.deleteEntry os l mac
  | .moveHdr2Local mac image test => LinboxRescue.moveHdr2Local os l mac image test
  | .moveLocal2Hdr mac image test => LinboxRescue.moveLocal2Hdr unique os l mac image test
  | .moveBase2Hdr mac image test => LinboxRescue.moveBase2Hdr unique os l mac image test
  | .setHeader mac image => LinboxRescue.setHeader unique os l mac image
  | .imgDeleteLocal mac image => LinboxRescue.imgDeleteLocal os l mac image
  | .imgDeleteBase image => LinboxRescue.imgDeleteBase os l image
  | .skelAddBaseLink image => LinboxRescue.skelAddBaseLink unique os l image

end LinboxRescue
