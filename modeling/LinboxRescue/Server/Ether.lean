import LinboxRescue.Lib.Perl
import LinboxRescue.Server.Lrsd
import Mathlib.Data.List.Sort

/-!
# The table of hosts

`etc/ether` has one line for each host: its MAC address, its IP address and its name. The scripts
write it with `etherSave` and read it with `etherLoad` and `etherGetNameByMac`
(`src/server/admin/perl/lbs-lib.pl`); the daemon reads it with `getentry`, which has room for lines of
99 bytes and names of 32.

1. `etherGetNameByMac_host`: the scripts read back what they have written.
2. `getentry_etherSave`: the daemon passes over the comments and looks at each host.
3. `getentry_eq_etherGetNameByMac`: both find the same name, for hosts that fit (`HostFits`).
-/

namespace LinboxRescue

/-! ## `lbs-lib.pl` -/

/-- An entry of `%einfo`: the MAC is the key. -/
structure Host where
  mac : Bytes
  ip : Bytes
  name : Bytes
  deriving DecidableEq, Repr

/-- `%einfo` as it is filled by `etherLoad`: a line may have fewer than three fields. -/
abbrev Einfo := List (Bytes × Option Bytes × Option Bytes)

/-- A line of the file. Lines that do not start with a word are passed over. -/
def etherLoadLine (l : Bytes) : Option (Bytes × Option Bytes × Option Bytes) :=
  if (l.dropWhile isBlank).head?.any isPerlWord then
    let buf := perlSplit 3 (perlTrim l)
    some (buf.headD [], buf[1]?, buf[2]?)
  else none

/-- `etherLoad`. -/
def etherLoad (file : Bytes) : Einfo := (perlLines file).filterMap etherLoadLine

/-- `etherGetNameByMac`: of two lines for a MAC, the last one counts. -/
def etherGetNameByMac (einfo : Einfo) (mac : Bytes) : Option Bytes :=
  match einfo.reverse.find? fun e => e.1 == mac with
  | some e => e.2.2
  | none => none

/-- The order of `sort`. -/
def bytesLE : Bytes → Bytes → Bool
  | [], _ => true
  | _ :: _, [] => false
  | a :: s, b :: t => a.toNat < b.toNat || (a == b && bytesLE s t)

/-- `etherGetMacs`. -/
def etherGetMacs (hosts : List Host) : List Bytes :=
  (hosts.map Host.mac).insertionSort fun s t => bytesLE s t = true

/-- The line for a MAC, with the address and the name that `%einfo` has for it. -/
def etherLine (hosts : List Host) (mac : Bytes) : Bytes :=
  match hosts.find? fun h => h.mac == mac with
  | some h => mac ++ 32 :: (h.ip ++ 32 :: h.name)
  | none => mac ++ [32, 32]

/-- `etherSave`: what the file holds afterwards. -/
def etherSave (hosts : List Host) : Bytes :=
  ascii "# MAC_ADDRESS     IP_ADDRESS    HOSTNAME\n\n" ++
    (etherGetMacs hosts).flatMap fun mac => etherLine hosts mac ++ [10]

/-! ## Hosts that fit -/

/-- A word: no white space, and something there. -/
def NoSpace (s : Bytes) : Prop := s ≠ [] ∧ ∀ b ∈ s, isSpace b = false ∧ b ≠ 0

instance (s : Bytes) : Decidable (NoSpace s) := inferInstanceAs (Decidable (_ ∧ _))

/-- The line of a host. -/
def Host.line (h : Host) : Bytes := h.mac ++ 32 :: (h.ip ++ 32 :: h.name)

/-- The host fits into the buffers of `getentry`: a MAC of at most 17 characters that starts with a word
character, a name of one word of at most 32, and a line that is neither too long nor taken for an
empty one. -/
structure HostFits (h : Host) : Prop where
  mac : NoSpace h.mac
  mac_length : h.mac.length ≤ 17
  mac_word : h.mac.head?.any isPerlWord = true
  ip : NoSpace h.ip
  name : NoSpace h.name
  name_length : h.name.length ≤ 32
  length_line : 10 ≤ h.line.length ∧ h.line.length ≤ 99

/-- The hosts of a table: no MAC is there twice, in whatever case. -/
structure Table (hosts : List Host) : Prop where
  fits : ∀ h ∈ hosts, HostFits h
  distinct : (hosts.map fun h => h.mac.map toLower).Nodup

/-- A host of three words, of which the first one starts with a word character. -/
structure HostPlain (h : Host) : Prop where
  mac : NoSpace h.mac
  mac_word : h.mac.head?.any isPerlWord = true
  ip : NoSpace h.ip
  name : NoSpace h.name

/-- A MAC stands for one host. -/
def MacInj (hosts : List Host) : Prop := ∀ h ∈ hosts, ∀ h' ∈ hosts, h.mac = h'.mac → h = h'

variable {hosts : List Host} {h : Host}

theorem HostFits.plain (hf : HostFits h) : HostPlain h := ⟨hf.mac, hf.mac_word, hf.ip, hf.name⟩

theorem NoSpace.isBlank {s : Bytes} (hs : NoSpace s) : ∀ b ∈ s, isBlank b = false := by
  intro b hb
  have := (hs.2 b hb).1
  simp only [isSpace, Bool.or_eq_false_iff, beq_eq_false_iff_ne, Bool.and_eq_false_iff,
    decide_eq_false_iff_not] at this
  unfold LinboxRescue.isBlank
  simp only [Bool.or_eq_false_iff, beq_eq_false_iff_ne]
  refine ⟨this.1, ?_⟩
  rintro rfl
  rcases this.2 with h | h <;> exact h (by decide)

theorem NoSpace.head {s : Bytes} (hs : NoSpace s) (t : Bytes) :
    ∀ b ∈ (s ++ t).head?, LinboxRescue.isBlank b = false := by
  obtain ⟨c, r, rfl⟩ := List.exists_cons_of_ne_nil hs.1
  intro b hb
  obtain rfl := Option.some.inj hb
  exact hs.isBlank c (by simp)

theorem NoSpace.newline {s : Bytes} (hs : NoSpace s) : ∀ b ∈ s, b ≠ 10 := by
  rintro b hb rfl
  exact absurd (hs.2 10 hb).1 (by decide)

theorem HostPlain.line_bytes (hf : HostPlain h) : ∀ b ∈ h.line, b ≠ 10 ∧ b ≠ 0 := by
  unfold Host.line
  simp only [List.forall_mem_append, List.forall_mem_cons]
  exact ⟨fun b hb => ⟨hf.mac.newline b hb, (hf.mac.2 b hb).2⟩, by decide,
    fun b hb => ⟨hf.ip.newline b hb, (hf.ip.2 b hb).2⟩, by decide,
    fun b hb => ⟨hf.name.newline b hb, (hf.name.2 b hb).2⟩⟩

/-! ## Lines -/

/-- Bytes without a blank or the end of a line. -/
def EtherWord (s : Bytes) : Prop := s ≠ [] ∧ ∀ b ∈ s, isBlank b = false ∧ b ≠ 10

/-- A host whose line can be taken apart: two words, and a name on one line without blanks around it. -/
structure HostText (h : Host) : Prop where
  mac : EtherWord h.mac
  ip : EtherWord h.ip
  newline : 10 ∉ h.name
  head : ∀ b ∈ h.name.head?, isBlank b = false
  last : ∀ b ∈ h.name.getLast?, isBlank b = false

theorem NoSpace.etherWord {s : Bytes} (hs : NoSpace s) : EtherWord s :=
  ⟨hs.1, fun b hb => ⟨hs.isBlank b hb, hs.newline b hb⟩⟩

theorem HostPlain.text (hf : HostPlain h) : HostText h where
  mac := hf.mac.etherWord
  ip := hf.ip.etherWord
  newline hb := hf.name.newline 10 hb rfl
  head b hb := hf.name.isBlank b (List.mem_of_mem_head? hb)
  last b hb := hf.name.isBlank b (List.mem_of_getLast? hb)

theorem EtherWord.head {s : Bytes} (hs : EtherWord s) (t : Bytes) :
    ∀ b ∈ (s ++ t).head?, isBlank b = false := by
  obtain ⟨c, r, rfl⟩ := List.exists_cons_of_ne_nil hs.1
  intro b hb
  obtain rfl := Option.some.inj hb
  exact (hs.2 c List.mem_cons_self).1

theorem HostText.not_mem_line (ht : HostText h) : 10 ∉ h.line := by
  unfold Host.line
  rw [List.mem_append, List.mem_cons, List.mem_append, List.mem_cons]
  rintro (hm | hm | hm | hm | hm)
  · exact (ht.mac.2 10 hm).2 rfl
  · cases hm
  · exact (ht.ip.2 10 hm).2 rfl
  · cases hm
  · exact ht.newline hm

/-- A word is a field of its own. -/
theorem perlSplit_word {s : Bytes} (hs : EtherWord s) (n : ℕ) : perlSplit (n + 2) s = [s] := by
  have hdrop : s.dropWhile (fun b => !isBlank b) = [] :=
    List.dropWhile_eq_nil_iff.mpr fun b hb => by simp [(hs.2 b hb).1]
  rw [perlSplit, hdrop, if_pos rfl]

/-- The fields of the line of a host. -/
theorem perlSplit_line (ht : HostText h) : perlSplit 3 (perlTrim h.line) =
    if h.name = [] then [h.mac, h.ip] else [h.mac, h.ip, h.name] := by
  have hmac : ∀ b ∈ h.mac, isBlank b = false := fun b hb => (ht.mac.2 b hb).1
  have hip : ∀ b ∈ h.ip, isBlank b = false := fun b hb => (ht.ip.2 b hb).1
  by_cases hname : h.name = []
  · have hline : h.line = h.mac ++ 32 :: h.ip ++ [32] := by simp [Host.line, hname]
    have htrim : perlTrim h.line = h.mac ++ 32 :: h.ip := by
      have hlast : ∀ b ∈ (h.mac ++ 32 :: h.ip).getLast?, isBlank b = false := by
        intro b hb
        rw [List.getLast?_append_of_ne_nil _ (List.cons_ne_nil _ _),
          List.getLast?_cons_of_ne_nil ht.ip.1] at hb
        exact hip b (List.mem_of_getLast? hb)
      have hdrop : h.line.dropWhile isBlank = h.line := by
        obtain ⟨c, r, hc⟩ := List.exists_cons_of_ne_nil ht.mac.1
        rw [hline, hc, List.append_assoc, List.cons_append]
        exact List.dropWhile_cons_of_neg (by simp [hmac c (by rw [hc]; simp)])
      rw [perlTrim, hdrop, hline, List.rdropWhile_concat_pos _ _ _ rfl]
      rw [List.rdropWhile_eq_self_iff]
      intro hne hb
      rw [hlast _ (List.getLast?_eq_some_getLast hne)] at hb
      cases hb
    have hfields : perlSplit 3 (h.mac ++ 32 :: h.ip) = h.mac :: perlSplit 2 h.ip :=
      perlSplit_field hmac 1 (by have := ht.ip.head []; rwa [List.append_nil] at this)
    rw [if_pos hname, htrim, hfields, perlSplit_word ht.ip]
  · have hlast : ∀ b ∈ h.line.getLast?, isBlank b = false := by
      intro b hb
      have hsnoc : h.line = h.mac ++ 32 :: (h.ip ++ [32]) ++ h.name := by simp [Host.line]
      rw [hsnoc, List.getLast?_append_of_ne_nil _ hname] at hb
      exact ht.last b hb
    rw [if_neg hname, perlTrim_eq_self (s := h.line) (ht.mac.head _) hlast]
    unfold Host.line
    rw [perlSplit_field hmac 1 (ht.ip.head _), perlSplit_field hip 0 ht.head]
    rfl

/-- What the scripts read from the line of a host. -/
theorem etherLoadLine_text (ht : HostText h) : etherLoadLine h.line =
    if h.mac.head?.any isPerlWord then
      some (h.mac, some h.ip, if h.name = [] then none else some h.name)
    else none := by
  obtain ⟨c, r, hc⟩ := List.exists_cons_of_ne_nil ht.mac.1
  have hdrop : h.line.dropWhile isBlank = h.line := by
    unfold Host.line
    rw [hc, List.cons_append]
    exact List.dropWhile_cons_of_neg (by simp [(ht.mac.2 c (by rw [hc]; simp)).1])
  have hfirst : h.line.head? = h.mac.head? := by
    unfold Host.line
    rw [hc]
    rfl
  unfold etherLoadLine
  rw [hdrop, hfirst, perlSplit_line ht]
  split_ifs
  · rfl
  · rfl
  · rfl

/-- The scripts read the line of a host back. -/
theorem etherLoadLine_host (hf : HostPlain h) :
    etherLoadLine h.line = some (h.mac, some h.ip, some h.name) := by
  rw [etherLoadLine_text hf.text, if_pos hf.mac_word, if_neg hf.name.1]

/-! ## The daemon -/

/-- What `getentry` reads of a line: a line of 99 bytes fills the buffer, and its end is read alone. -/
def etherReads (l : Bytes) : List Bytes := if l.length = 99 then [l, [10]] else [l ++ [10]]

theorem flatten_etherReads (l : Bytes) : (etherReads l).flatten = l ++ [10] := by
  unfold etherReads
  split_ifs
  · rfl
  · exact List.flatten_singleton

theorem isRead_etherReads {l : Bytes} (hl : ∀ b ∈ l, b ≠ 10) (hlen : l.length ≤ 99) :
    ∀ r ∈ etherReads l, IsRead 100 r := by
  unfold etherReads
  split_ifs with hfull
  · have hne : l ≠ [] := by
      rintro rfl
      cases hfull
    have hread := isRead_full hl hne
    rw [hfull] at hread
    refine List.forall_mem_cons.mpr ⟨hread, List.forall_mem_singleton.mpr ?_⟩
    exact (isLine_append (w := []) (by simp) (by decide)).isRead
  · exact List.forall_mem_singleton.mpr (isLine_append hl (by omega)).isRead

/-- The daemon reads the line of a host too. -/
theorem scanEther_host (hf : HostFits h) {r : Bytes} (hr : ∀ b ∈ r.head?, isSpace b = true) :
    scanEther (h.line ++ r) = some (h.mac, h.name) := by
  have hmac : scanWord 19 (h.line ++ r) = some (h.mac, 32 :: (h.ip ++ 32 :: (h.name ++ r))) := by
    have := @scanWord_word 19 0 h.mac (32 :: (h.ip ++ 32 :: (h.name ++ r)))
      (fun b hb => (hf.mac.2 b hb).1) hf.mac.1 (le_trans hf.mac_length (by omega))
      (by intro b hb; obtain rfl := Option.some.inj hb; rfl)
    rw [← this]
    unfold Host.line blanks
    simp
  have hip : scanConv .s (32 :: (h.ip ++ 32 :: (h.name ++ r))) =
      some (.str h.ip, 32 :: (h.name ++ r)) := by
    have := scanConv_blanks .s 1 (h.ip ++ 32 :: (h.name ++ r))
    rw [← List.singleton_append, show [(32 : UInt8)] = blanks 1 from rfl, this]
    exact scanConv_s_word (fun b hb => (hf.ip.2 b hb).1) hf.ip.1
      (by intro b hb; obtain rfl := Option.some.inj hb; rfl)
  have hname : scanWord 32 (32 :: (h.name ++ r)) = some (h.name, r) :=
    @scanWord_word 32 1 h.name r (fun b hb => (hf.name.2 b hb).1) hf.name.1 hf.name_length hr
  unfold scanEther
  rw [hmac]
  dsimp only
  rw [hip]
  dsimp only
  rw [hname]
  rfl

theorem etherName_host (hf : HostFits h) (pktmac : Bytes) {r : Bytes}
    (hr : ∀ b ∈ r, isSpace b = true ∧ b ≠ 0) (hlen : 10 < (h.line ++ r).length) :
    etherName pktmac (cstr (h.line ++ r)) =
      if strncaseeq 17 h.mac pktmac then some h.name else none := by
  have hc : cstr (h.line ++ r) = h.line ++ r := cstr_eq_self
    (List.forall_mem_append.mpr ⟨fun b hb => (hf.plain.line_bytes b hb).2, fun b hb => (hr b hb).2⟩)
  obtain ⟨c, t, hmac⟩ := List.exists_cons_of_ne_nil hf.mac.1
  have hfirst : byteAt (h.line ++ r) 0 = c := by
    unfold Host.line
    rw [hmac]
    rfl
  have hword : isPerlWord c = true := by
    have := hf.mac_word
    rwa [hmac] at this
  have h35 : c ≠ 35 := by rintro rfl; exact absurd hword (by decide)
  have h59 : c ≠ 59 := by rintro rfl; exact absurd hword (by decide)
  unfold etherName
  rw [hc, hfirst, if_pos ⟨h35, h59, hlen⟩,
    scanEther_host hf fun b hb => (hr b (List.mem_of_mem_head? hb)).1]

/-- What `getentry` finds in the line of a host. -/
theorem findSome?_etherReads (hf : HostFits h) (pktmac : Bytes) :
    ((etherReads h.line).findSome? fun l => etherName pktmac (cstr l)) =
      if strncaseeq 17 h.mac pktmac then some h.name else none := by
  have hlen := hf.length_line.1
  unfold etherReads
  by_cases hfull : h.line.length = 99
  · have hline := etherName_host hf pktmac (r := []) (by simp) (by rw [List.append_nil]; omega)
    rw [List.append_nil] at hline
    rw [if_pos hfull, List.findSome?_cons, hline]
    split_ifs <;> rfl
  · have hline := etherName_host hf pktmac (r := [10]) (by decide)
      (by rw [List.length_append, List.length_singleton]; omega)
    rw [if_neg hfull, List.findSome?_cons, hline]
    split_ifs <;> rfl

/-! ## The file -/

theorem Table.mac_inj (ht : Table hosts) {h h' : Host} (hh : h ∈ hosts) (hh' : h' ∈ hosts)
    (he : h.mac.map toLower = h'.mac.map toLower) : h = h' :=
  List.inj_on_of_nodup_map ht.distinct hh hh' he

theorem Table.macInj (ht : Table hosts) : MacInj hosts := fun _ hh _ hh' he =>
  ht.mac_inj hh hh' (by rw [he])

/-- `%einfo` has for a MAC what it was given. -/
theorem etherLine_host (hi : MacInj hosts) (hh : h ∈ hosts) : etherLine hosts h.mac = h.line := by
  unfold etherLine
  cases hf : hosts.find? fun x => x.mac == h.mac with
  | none =>
    have := List.find?_eq_none.mp hf h hh
    simp at this
  | some h' =>
    have hmac : h'.mac = h.mac := by simpa using List.find?_some hf
    have : h' = h := hi h' (List.mem_of_find?_eq_some hf) h hh hmac
    rw [this]
    rfl

/-- The first line of the file is a comment, the second one is empty. -/
def etherComment : Bytes := ascii "# MAC_ADDRESS     IP_ADDRESS    HOSTNAME"

theorem exists_hosts {ms : List Bytes} (hms : ∀ m ∈ ms, ∃ h ∈ hosts, h.mac = m) :
    ∃ hs : List Host, hs.map Host.mac = ms ∧ ∀ h ∈ hs, h ∈ hosts := by
  induction ms with
  | nil => exact ⟨[], rfl, fun h hh => by cases hh⟩
  | cons m ms ih =>
    obtain ⟨⟨h, hh, hm⟩, hms⟩ := List.forall_mem_cons.mp hms
    obtain ⟨hs, hmap, hmem⟩ := ih hms
    exact ⟨h :: hs, by rw [List.map_cons, hm, hmap], List.forall_mem_cons.mpr ⟨hh, hmem⟩⟩

/-- The lines of the file: the same hosts, in the order of their MACs. -/
theorem etherSave_sorted (hi : MacInj hosts) : ∃ hs : List Host, hs.map Host.mac = etherGetMacs hosts ∧
    (∀ h, h ∈ hs ↔ h ∈ hosts) ∧
    etherSave hosts = (etherComment :: [] :: hs.map Host.line).flatMap (· ++ [10]) := by
  have hperm : (etherGetMacs hosts).Perm (hosts.map Host.mac) := List.perm_insertionSort _ _
  obtain ⟨hs, hmap, hmem⟩ := @exists_hosts hosts (etherGetMacs hosts) fun m hm => by
    obtain ⟨h, hh, rfl⟩ := List.mem_map.mp (hperm.mem_iff.mp hm)
    exact ⟨h, hh, rfl⟩
  refine ⟨hs, hmap, fun h => ⟨hmem h, fun hh => ?_⟩, ?_⟩
  · have hm : h.mac ∈ hs.map Host.mac := by
      rw [hmap]
      exact hperm.mem_iff.mpr (List.mem_map_of_mem hh)
    obtain ⟨h', hh', he⟩ := List.mem_map.mp hm
    rwa [← hi h' (hmem h' hh') h hh he]
  · unfold etherSave
    rw [← hmap, List.flatMap_map, List.flatMap_cons, List.flatMap_cons, List.flatMap_map, ← List.append_assoc]
    congr 1
    refine List.flatMap_congr fun h hh => ?_
    rw [etherLine_host hi (hmem h hh)]

theorem etherSave_eq (hi : MacInj hosts) : ∃ hs : List Host, (∀ h, h ∈ hs ↔ h ∈ hosts) ∧
    etherSave hosts = (etherComment :: [] :: hs.map Host.line).flatMap (· ++ [10]) := by
  obtain ⟨hs, -, hs'⟩ := etherSave_sorted hi
  exact ⟨hs, hs'⟩

/-- **The scripts read back what they have written.** -/
theorem etherGetNameByMac_host (ht : Table hosts) (hh : h ∈ hosts) :
    etherGetNameByMac (etherLoad (etherSave hosts)) h.mac = some h.name := by
  obtain ⟨hs, hmem, hsave⟩ := etherSave_eq ht.macInj
  have hfits : ∀ h ∈ hs, HostFits h := fun h hh => ht.fits h ((hmem h).mp hh)
  have hload : etherLoad (etherSave hosts) = hs.map fun h => (h.mac, some h.ip, some h.name) := by
    unfold etherLoad
    rw [hsave, perlLines_flatMap]
    · rw [List.filterMap_cons_none (by decide), List.filterMap_cons_none (by decide), List.filterMap_map]
      rw [← List.filterMap_eq_map]
      refine List.filterMap_congr fun h hh => ?_
      exact etherLoadLine_host (hfits h hh).plain
    · rw [List.forall_mem_cons, List.forall_mem_cons]
      refine ⟨by decide, by decide, ?_⟩
      rintro l hl b hb
      obtain ⟨h, hh, rfl⟩ := List.mem_map.mp hl
      exact ((hfits h hh).plain.line_bytes b hb).1
  unfold etherGetNameByMac
  rw [hload]
  cases hf : (hs.map fun h => (h.mac, some h.ip, some h.name)).reverse.find? (fun e => e.1 == h.mac) with
  | none =>
    have := List.find?_eq_none.mp hf (h.mac, some h.ip, some h.name) (by
      rw [List.mem_reverse]
      exact List.mem_map.mpr ⟨h, (hmem h).mpr hh, rfl⟩)
    simp at this
  | some e =>
    have hmac : e.1 = h.mac := by simpa using List.find?_some hf
    obtain ⟨h', hh', rfl⟩ := List.mem_map.mp (List.mem_reverse.mp (List.mem_of_find?_eq_some hf))
    rw [ht.mac_inj ((hmem h').mp hh') hh (by rw [show h'.mac = h.mac from hmac])]

/-- `getentry` looks at the lines of the hosts. -/
theorem getentry_etherSave (ht : Table hosts) (pktmac : Bytes) : ∃ hs : List Host,
    (∀ h, h ∈ hs ↔ h ∈ hosts) ∧ getentry (some (etherSave hosts)) pktmac =
      hs.findSome? fun h => if strncaseeq 17 h.mac pktmac then some h.name else none := by
  obtain ⟨hs, hmem, hsave⟩ := etherSave_eq ht.macInj
  have hfits : ∀ h ∈ hs, HostFits h := fun h hh => ht.fits h ((hmem h).mp hh)
  refine ⟨hs, hmem, ?_⟩
  have hlines : lines 100 (etherSave hosts) =
      (etherComment ++ [10]) :: [10] :: hs.flatMap fun h => etherReads h.line := by
    have hfile : etherSave hosts =
        ((etherComment ++ [10]) :: [10] :: hs.flatMap fun h => etherReads h.line).flatten := by
      rw [hsave, List.flatten_cons, List.flatten_cons, List.flatMap_def, List.flatMap_def,
        List.map_cons, List.map_cons, List.flatten_cons, List.flatten_cons, List.map_map,
        List.flatten_flatten, List.map_map]
      exact congrArg (fun ls : List Bytes => etherComment ++ [10] ++ ([10] ++ ls.flatten))
        (List.map_congr_left fun h _ => (flatten_etherReads h.line).symm)
    rw [hfile]
    refine lines_reads (List.forall_mem_cons.mpr ⟨?_, List.forall_mem_cons.mpr ⟨?_, ?_⟩⟩)
    · exact (isLine_append (by decide) (by decide)).isRead
    · exact (isLine_append (w := []) (by simp) (by decide)).isRead
    · intro l hl
      obtain ⟨h, hh, hl⟩ := List.mem_flatMap.mp hl
      have hfits := hfits h hh
      exact isRead_etherReads (fun b hb => (hfits.plain.line_bytes b hb).1) hfits.length_line.2 l hl
  have hc1 : etherName pktmac (cstr (etherComment ++ [10])) = none := rfl
  have hc2 : etherName pktmac (cstr [10]) = none := rfl
  have hget : getentry (some (etherSave hosts)) pktmac =
      (lines 100 (etherSave hosts)).findSome? fun l => etherName pktmac (cstr l) := rfl
  rw [hget, hlines]
  simp only [List.findSome?_cons, hc1, hc2]
  clear hlines hsave hmem hget
  induction hs with
  | nil => rfl
  | cons h hs ih =>
    obtain ⟨hf, hfits⟩ := List.forall_mem_cons.mp hfits
    rw [List.flatMap_cons, List.findSome?_append, findSome?_etherReads hf, ih hfits,
      List.findSome?_cons]
    split_ifs <;> rfl

theorem strncaseeq_iff {s t : Bytes} (hs : s.length ≤ 17) (ht : t.length ≤ 17) :
    strncaseeq 17 s t = true ↔ s.map toLower = t.map toLower := by
  unfold strncaseeq
  rw [List.take_of_length_le hs, List.take_of_length_le ht, beq_iff_eq]

/-- **The host table is read the same way by the daemon and the scripts**: for every host both find its
name, and the daemon finds none for a MAC that no host has. -/
theorem getentry_eq_etherGetNameByMac (ht : Table hosts) :
    (∀ h ∈ hosts, getentry (some (etherSave hosts)) h.mac =
      etherGetNameByMac (etherLoad (etherSave hosts)) h.mac ∧
      getentry (some (etherSave hosts)) h.mac = some h.name) ∧
    ∀ pktmac : Bytes, pktmac.length ≤ 17 →
      (∀ h ∈ hosts, h.mac.map toLower ≠ pktmac.map toLower) →
        getentry (some (etherSave hosts)) pktmac = none := by
  constructor
  · intro h hh
    rw [etherGetNameByMac_host ht hh, and_self]
    obtain ⟨hs, hmem, hget⟩ := getentry_etherSave ht h.mac
    rw [hget]
    -- any host that is found is this one
    have hfound : ∀ x ∈ hs, ∀ n, (if strncaseeq 17 x.mac h.mac then some x.name else none) = some n →
        n = h.name := by
      intro x hx n hn
      split_ifs at hn with heq
      have hx' := (hmem x).mp hx
      rw [strncaseeq_iff (ht.fits x hx').mac_length (ht.fits h hh).mac_length] at heq
      rw [← Option.some.inj hn, ht.mac_inj hx' hh heq]
    cases hf : hs.findSome? fun x => if strncaseeq 17 x.mac h.mac then some x.name else none with
    | none =>
      have := List.findSome?_eq_none_iff.mp hf h ((hmem h).mpr hh)
      rw [if_pos ((strncaseeq_iff (ht.fits h hh).mac_length (ht.fits h hh).mac_length).mpr rfl)] at this
      cases this
    | some n =>
      obtain ⟨x, hx, hn⟩ := List.exists_of_findSome?_eq_some hf
      rw [hfound x hx n hn]
  · intro pktmac hlen hnot
    obtain ⟨hs, hmem, hget⟩ := getentry_etherSave ht pktmac
    rw [hget, List.findSome?_eq_none_iff]
    intro x hx
    have hx' := (hmem x).mp hx
    refine if_neg fun heq => hnot x hx' ?_
    exact (strncaseeq_iff (ht.fits x hx').mac_length hlen).mp heq

/-- The name that the daemon finds for a host alone in the table, and the one that the scripts find. -/
def bothNames (mac ip name : String) : Option Bytes × Option Bytes :=
  let file := etherSave [⟨ascii mac, ascii ip, ascii name⟩]
  (getentry (some file) (ascii mac), etherGetNameByMac (etherLoad file) (ascii mac))

/-- A name of two words, of 33 letters or at the end of a line of 100 bytes is cut by the daemon, a
short line is passed over, and a MAC that starts with no word character is passed over by the scripts. -/
theorem bothNames_differ :
    bothNames "00:0C:29:3E:5F:7A" "10.0.0.2" "lab pc" = (some (ascii "lab"), some (ascii "lab pc")) ∧
    bothNames "00:0C:29:3E:5F:7A" "10.0.0.2" "abcdefghijklmnopqrstuvwxyzabcdefg" =
      (some (ascii "abcdefghijklmnopqrstuvwxyzabcdef"), some (ascii "abcdefghijklmnopqrstuvwxyzabcdefg")) ∧
    bothNames "00:0C:29:3E:5F:7A"
      "10.0.0.2-------------------------------------------------------------10.0.0.30" "lab" =
        (some (ascii "la"), some (ascii "lab")) ∧
    bothNames "1" "10.0" "a" = (none, some (ascii "a")) ∧
    bothNames ":0C:29:3E:5F:7A:1" "10.0.0.2" "lab" = (some (ascii "lab"), none) := by
  decide +kernel

/-- Two hosts. -/
def etherPair : List Host :=
  [⟨ascii "00:0C:29:3E:5F:7A", ascii "10.0.0.2", ascii "lab-pc"⟩,
    ⟨ascii "00:0C:29:3E:5F:7B", ascii "10.0.0.3", ascii "lab-server"⟩]

theorem getentry_eq_etherGetNameByMac_lab : Table etherPair ∧
    (∀ h ∈ etherPair, getentry (some (etherSave etherPair)) h.mac =
      etherGetNameByMac (etherLoad (etherSave etherPair)) h.mac ∧
      getentry (some (etherSave etherPair)) h.mac = some h.name) ∧
    getentry (some (etherSave etherPair)) (ascii "00:0c:29:3e:5f:7c") = none := by
  have ht : Table etherPair := by
    refine ⟨fun h hh => ?_, by decide⟩
    rcases List.mem_pair.mp hh with rfl | rfl <;>
      exact ⟨by decide, by decide, by decide, by decide, by decide, by decide, by decide⟩
  obtain ⟨hnames, hnone⟩ := getentry_eq_etherGetNameByMac ht
  exact ⟨ht, hnames, hnone _ (by decide) (by decide)⟩

end LinboxRescue
