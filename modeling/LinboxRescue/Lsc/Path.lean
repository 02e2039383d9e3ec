import LinboxRescue.Lib.Ere
import LinboxRescue.Server.Ether

/-!
# Targets (`src/webmin/lsc/include/path.inc.php`)

A target is a path: a profile, groups and a host. `get_hosts_list` looks for its hosts in the table
of hosts, which is an array with the full names as keys. The path becomes a regular expression, or
the key of a host.

What PHP and the database do with names is given: `Runtime`.
-/

namespace LinboxRescue

/-! ## `LSC_Path` -/

structure LscPath where
  profile : Bytes
  groups : List Bytes
  host : Bytes
  deriving DecidableEq, Repr

/-- What is before the colon, and what is after it. -/
def splitProfile (path : Bytes) : Bytes × Bytes :=
  if path.contains 58 = false then ([], path)
  else if path.head? = some 58 then ([], path.drop 1)
  else
    match path.splitOn 58 with
    | profile :: buffer :: _ => (profile, buffer)
    | _ => ([], path)

/-- The constructor. -/
def LscPath.ofBytes (path : Bytes) : LscPath :=
  let (profile, buffer) := splitProfile path
  if buffer.contains 47 then
    let parts := buffer.splitOn 47
    ⟨profile, parts.dropLast.filter (· ≠ []), parts.getLastD []⟩
  else ⟨profile, [], buffer⟩

/-- `implode("/", …)`. -/
def implode (parts : List Bytes) : Bytes := List.intercalate [47] parts

/-! ## `get_hosts_list` -/

structure HostInfo where
  fullHostname : Bytes
  ip : Bytes
  mac : Bytes
  hostname : Bytes
  deriving DecidableEq, Repr

/-- What the scripts run on. -/
structure Runtime where
  /-- `==`, of the host in a key of the table and a name. -/
  looseEq : Bytes → Bytes → Bool
  looseEq_self : ∀ name, looseEq name (LscPath.ofBytes name).host = true
  ksort : List HostInfo → List HostInfo
  ksort_perm : ∀ l, (ksort l).Perm l
  /-- The database finds a text in a column that has the same key. -/
  columnKey : Bytes → Bytes

/-- What is returned: an array whose keys are the names of hosts, an array with a key of the table
or with one host, or nothing. -/
inductive HostsList
  | keyed (hosts : List HostInfo)
  | named (key : Bytes)
  | found (host : HostInfo)
  | missing
  deriving DecidableEq, Repr

/-- `"all"` and `"none"`. -/
def profileAll : Bytes := ascii "all"

def profileNone : Bytes := ascii "none"

/-- The regular expression of a path without a host. -/
def LscPath.matchPattern (p : LscPath) : Bytes :=
  if p.profile = profileAll ∨ p.profile = [] then
    if p.groups = [] then ascii "^."
    else ascii ".*:?" ++ implode p.groups ++ ascii "/.*"
  else if p.profile = profileNone then ascii "^:?" ++ implode p.groups ++ ascii "/.*"
  else ascii "^" ++ p.profile ++ ascii ":" ++ implode p.groups ++ ascii ".*"

/-- The key of a host, with a colon. -/
def colonKey (key : Bytes) : Bytes := if key.contains 58 then key else 58 :: key

/-- What is after the last byte `b`. -/
def afterLast (b : UInt8) (s : Bytes) : Bytes := (s.splitOn b).getLastD []

/-- The name of the host in a key. -/
def shortName (key : Bytes) : Bytes := afterLast 47 (afterLast 58 key)

/-- `$buffer_out["$hostname"] = …`. -/
def insertHost (out : List HostInfo) (h : HostInfo) : List HostInfo :=
  if out.any (fun x => x.hostname == h.hostname) then
    out.map fun x => if x.hostname = h.hostname then h else x
  else out ++ [h]

def hostInfo (key : Bytes) (h : Host) : HostInfo := ⟨key, h.ip, h.mac, shortName key⟩

/-- The hosts that match. -/
def LscPath.matched (p : LscPath) (ether : List Host) : List Host :=
  ether.filter fun h => ereg p.matchPattern (colonKey h.name)

section HostsList

variable (rt : Runtime) (ether : List Host)

/-- A key of the table. -/
def etherAt (key : Bytes) : Option Host := ether.find? fun h => h.name == key

def LscPath.getHostsList (p : LscPath) : HostsList :=
  if p.host = [] then
    .keyed (rt.ksort ((p.matched ether).foldl
      (fun out h => insertHost out (hostInfo (colonKey h.name) h)) []))
  else
    let full := p.profile ++ ascii ":" ++ implode p.groups ++ ascii "/" ++ p.host
    if (etherAt ether full).isSome then .named full
    else
      let key := p.profile ++ ascii ":" ++ p.host
      match etherAt ether key with
      | some h => .found (hostInfo key h)
      | none =>
        match ether.find? fun h => rt.looseEq h.name p.host with
        | some h => .found ⟨h.name, h.ip, h.mac, p.host⟩
        | none => .missing

/-- `$host["hostname"]` for each entry: of a text, this is its first character. -/
def HostsList.hostnames : HostsList → List Bytes
  | .keyed hosts => hosts.map HostInfo.hostname
  | .named key => [key.take 1]
  | .found host => [host.hostname]
  | .missing => []

/-- `$hosts_list[0]["mac"]`. A host with the name `0` has the key `0`. -/
def HostsList.firstMac : HostsList → Bytes
  | .keyed hosts => ((hosts.find? fun h => h.hostname == ascii "0").map HostInfo.mac).getD []
  | .named key => key.take 1
  | .found host => host.mac
  | .missing => []

/-- `get_mac_address_from_full_hostname`. -/
def getMacAddressFromFullHostname (fullHostname : Bytes) : Bytes :=
  ((LscPath.ofBytes fullHostname).getHostsList rt ether).firstMac

/-- The hosts of a target. -/
def targetHosts (target : Bytes) : List Bytes :=
  ((LscPath.ofBytes target).getHostsList rt ether).hostnames

end HostsList

end LinboxRescue
