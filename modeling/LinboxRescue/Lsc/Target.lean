import LinboxRescue.Lsc.Cursor
import LinboxRescue.Lsc.Names

/-!
# The hosts of a command

`dispatch` makes a row for each host that `get_hosts_list` finds for the target. The row holds the
short name of the host; the launcher looks for the short name in the table to get the MAC.

1. `mem_targetHosts`, `targetHosts_host`: the short names that a target finds.
2. `getMac_short`: what a short name is resolved to.
3. `rows_perm_of_mem`, `mem_iff_of_rows_perm`: the rows, when the target finds the right names.
4. `goes_to_target`: a command goes to the hosts of its target if their names are unmistakable.
-/

namespace LinboxRescue

open Tables (tinyText)

/-! ## The table -/

/-- A host of the table. -/
structure Entry where
  name : HostName
  ip : Bytes
  mac : Bytes
  deriving DecidableEq

def Entry.host (e : Entry) : Host := ⟨e.mac, e.ip, e.name.bytes⟩

/-- The short name. -/
def Entry.short (e : Entry) : Bytes := e.name.host.1

/-- The hosts of the target in the table. -/
def LscTarget.hostsIn (g : LscTarget) (table : List Entry) : List Entry :=
  table.filter fun e => g.Has e.name

/-- The key of a host that is named with profile and groups. -/
def LscTarget.fullKey (g : LscTarget) (h : NamePart) : Bytes :=
  partBytes g.profile ++ ascii ":" ++ implode (groupBytes g.groups) ++ ascii "/" ++ h.1

section Found

variable {rt : Runtime} {table : List Entry} {g : LscTarget}

theorem looseEq_bytes (n : HostName) : rt.looseEq n.bytes n.host.1 = true := by
  have h := rt.looseEq_self n.bytes
  rwa [n.ofBytes_bytes] at h

theorem find?_table (q : Bytes → Bool) :
    (table.map Entry.host).find? (fun h => q h.name) =
      (table.find? fun e => q e.name.bytes).map Entry.host := List.find?_map

theorem etherAt_isSome {key : Bytes} :
    (etherAt (table.map Entry.host) key).isSome = true ↔ ∃ e ∈ table, e.name.bytes = key := by
  unfold etherAt
  rw [find?_table fun name => name == key, Option.isSome_map, List.find?_isSome]
  exact exists_congr fun e => and_congr_right fun _ => beq_iff_eq

/-! ## A target without a host -/

theorem mem_insertHost {out : List HostInfo} {h : HostInfo} {x : Bytes} :
    x ∈ (insertHost out h).map HostInfo.hostname ↔ x ∈ out.map HostInfo.hostname ∨ x = h.hostname := by
  unfold insertHost
  split_ifs with hany
  · -- the key is there already, and stays
    obtain ⟨y, hy, heq⟩ := List.any_eq_true.mp hany
    have hsame : (out.map fun x => if x.hostname = h.hostname then h else x).map HostInfo.hostname =
        out.map HostInfo.hostname := by
      rw [List.map_map]
      refine List.map_congr_left fun z _ => ?_
      dsimp only [Function.comp_apply]
      split_ifs with hz
      · exact hz.symm
      · rfl
    rw [hsame]
    refine ⟨.inl, fun hx => hx.elim id fun hx => ?_⟩
    rw [hx, ← eq_of_beq heq]
    exact List.mem_map_of_mem hy
  · rw [List.map_append, List.mem_append, List.map_singleton, List.mem_singleton]

theorem mem_foldl_insertHost (f : Host → HostInfo) (hosts : List Host) (out : List HostInfo) {x : Bytes} :
    x ∈ (hosts.foldl (fun out h => insertHost out (f h)) out).map HostInfo.hostname ↔
      x ∈ out.map HostInfo.hostname ∨ ∃ h ∈ hosts, (f h).hostname = x := by
  induction hosts generalizing out with
  | nil => simp
  | cons h hosts ih =>
    rw [List.foldl_cons, ih, mem_insertHost, or_assoc]
    refine or_congr_right ⟨?_, ?_⟩
    · rintro (hx | ⟨y, hy, hx⟩)
      · exact ⟨h, List.mem_cons_self, hx.symm⟩
      · exact ⟨y, List.mem_cons_of_mem h hy, hx⟩
    · rintro ⟨y, hy, hx⟩
      obtain rfl | hy := List.mem_cons.mp hy
      · exact .inl hx.symm
      · exact .inr ⟨y, hy, hx⟩

/-- **Without a host**: the short names of all hosts that match. -/
theorem mem_targetHosts (hhost : g.host = none) {x : Bytes} :
    x ∈ targetHosts rt (table.map Entry.host) g.bytes ↔
      ∃ e ∈ table, ereg g.path.matchPattern (colonKey e.name.bytes) = true ∧ e.short = x := by
  have hpath : LscPath.ofBytes g.bytes = g.path := g.ofBytes_bytes
  have hnil : g.path.host = [] := by
    unfold LscTarget.path
    rw [hhost]
    rfl
  unfold targetHosts LscPath.getHostsList
  rw [hpath, if_pos hnil]
  unfold HostsList.hostnames
  dsimp only
  rw [((rt.ksort_perm _).map _).mem_iff, mem_foldl_insertHost, List.map_nil, or_iff_right List.not_mem_nil]
  have hshort : ∀ e : Entry, (hostInfo (colonKey e.host.name) e.host).hostname = e.short :=
    fun e => e.name.shortName_colonKey
  refine ⟨?_, fun ⟨e, he, hm, hx⟩ => ?_⟩
  · rintro ⟨h, hh, rfl⟩
    obtain ⟨hh, hm⟩ := List.mem_filter.mp hh
    obtain ⟨e, he, rfl⟩ := List.mem_map.mp hh
    exact ⟨e, he, hm, (hshort e).symm⟩
  · exact ⟨e.host, List.mem_filter.mpr ⟨List.mem_map_of_mem he, hm⟩, (hshort e).trans hx⟩

/-! ## A target with a host -/

theorem pathBytes_host (profile : Option NamePart) (w : Bytes) :
    pathBytes profile true [] w = partBytes profile ++ 58 :: w := by
  cases profile with
  | some p => rfl
  | none => rfl

theorem shortName_key (h : NamePart) : shortName (partBytes g.profile ++ 58 :: h.1) = h.1 := by
  unfold shortName afterLast
  rw [List.splitOn_append_cons_self_of_not_mem (partBytes_spec g.profile).1,
    List.splitOn_eq_singleton h.2.2.1]
  change (h.1.splitOn 47).getLastD [] = _
  rw [List.splitOn_eq_singleton h.2.2.2]
  rfl

/-- **With a host**: the first byte of its key, or its name if there is a host that PHP takes as
equal. -/
theorem targetHosts_host {h : NamePart} (hhost : g.host = some h) :
    targetHosts rt (table.map Entry.host) g.bytes =
      if ∃ e ∈ table, e.name.bytes = g.fullKey h then [(g.fullKey h).take 1]
      else if ∃ e ∈ table, rt.looseEq e.name.bytes h.1 = true then [h.1] else [] := by
  have hpath : LscPath.ofBytes g.bytes = ⟨partBytes g.profile, groupBytes g.groups, h.1⟩ := by
    rw [g.ofBytes_bytes, hhost]
    rfl
  unfold targetHosts LscPath.getHostsList
  rw [hpath, if_neg h.2.1]
  dsimp only
  by_cases hfull : ∃ e ∈ table, e.name.bytes = g.fullKey h
  · rw [if_pos hfull]
    exact congrArg HostsList.hostnames (if_pos (etherAt_isSome.mpr hfull))
  · rw [if_neg hfull]
    have hno : ¬(etherAt (table.map Entry.host) (g.fullKey h)).isSome = true := mt etherAt_isSome.mp hfull
    refine (congrArg HostsList.hostnames (if_neg hno)).trans ?_
    rw [find?_table fun name => rt.looseEq name h.1]
    have hkey : partBytes g.profile ++ ascii ":" ++ h.1 = partBytes g.profile ++ 58 :: h.1 := by
      rw [List.append_assoc]
      rfl
    cases hat : etherAt (table.map Entry.host) (partBytes g.profile ++ ascii ":" ++ h.1) with
    | some x =>
      -- a key `profile:host` has this host
      obtain ⟨e, he, hname⟩ := etherAt_isSome.mp (Option.isSome_of_eq_some hat)
      rw [hkey] at hname ⊢
      have hhost : e.name.host.1 = h.1 := by
        have hpath := e.name.ofBytes_bytes
        rw [hname, ← pathBytes_host, ofBytes_pathBytes h.2.2.1 h.2.2.2] at hpath
        exact (congrArg LscPath.host hpath).symm
      rw [if_pos ⟨e, he, hhost ▸ looseEq_bytes e.name⟩]
      exact congrArg (fun x => [x]) (shortName_key h)
    | none =>
      cases hfind : table.find? fun e => rt.looseEq e.name.bytes h.1 with
      | some e =>
        have he : rt.looseEq e.name.bytes h.1 = true := by simpa using List.find?_some hfind
        rw [if_pos ⟨e, List.mem_of_find?_eq_some hfind, he⟩]
        rfl
      | none =>
        rw [if_neg]
        · rfl
        · rintro ⟨e, he, hl⟩
          exact List.find?_eq_none.mp hfind e he hl

/-! ## From a short name to a MAC -/

theorem etherAt_colon (w : Bytes) : etherAt (table.map Entry.host) (58 :: w) = none := by
  rw [← Option.not_isSome_iff_eq_none, etherAt_isSome]
  rintro ⟨e, -, he⟩
  exact e.name.head?_bytes (congrArg List.head? he)

/-- **The launcher** takes the first host of the table that has the short name. -/
theorem getMac_short (e : Entry) : getMacAddressFromFullHostname rt (table.map Entry.host) e.short =
    ((table.find? fun x => rt.looseEq x.name.bytes e.short).map Entry.mac).getD [] := by
  have hpath : LscPath.ofBytes (pathBytes none false [] e.short) = ⟨[], [], e.short⟩ :=
    ofBytes_pathBytes e.name.host.2.2.1 e.name.host.2.2.2
  change (LscPath.getHostsList rt (table.map Entry.host)
    (LscPath.ofBytes (pathBytes none false [] e.short))).firstMac = _
  rw [hpath]
  unfold LscPath.getHostsList
  dsimp only
  rw [if_neg (show e.short ≠ [] from e.name.host.2.1)]
  have hfull : ¬(etherAt (table.map Entry.host)
      ([] ++ ascii ":" ++ implode [] ++ ascii "/" ++ e.short)).isSome = true := by
    change ¬(etherAt (table.map Entry.host) (58 :: 47 :: e.short)).isSome = true
    rw [etherAt_colon]
    exact Bool.false_ne_true
  have hkey : etherAt (table.map Entry.host) ([] ++ ascii ":" ++ e.short) = none := etherAt_colon e.short
  rw [if_neg hfull, hkey]
  dsimp only
  rw [find?_table fun name => rt.looseEq name e.short]
  cases table.find? fun x => rt.looseEq x.name.bytes e.short with
  | none => rfl
  | some x => rfl

end Found

/-! ## The rows -/

section Rows

variable {rt : Runtime} {c : CommandRow} {t : Tables} {hosts names : List Bytes}

/-- The database tells the hosts of the rows apart. -/
theorem nodup_addRows (hlen : ∀ x ∈ hosts, x.length ≤ 255)
    (h : ((t.rowsOf c.id).map fun r => rt.columnKey r.host).Nodup) :
    (((t.addRows rt c hosts).rowsOf c.id).map fun r => rt.columnKey r.host).Nodup :=
  addRows_induction (fun t => ((t.rowsOf c.id).map fun r => rt.columnKey r.host).Nodup)
    (fun _ x hx hno h => nodup_insertRow h (hlen x hx) hno _) h

/-- A row is for one of the hosts, as the column keeps it, or was there before. -/
theorem mem_addRows :
    ∀ r ∈ (t.addRows rt c hosts).rowsOf c.id, r ∈ t.rowsOf c.id ∨ ∃ x ∈ hosts, r.host = tinyText x := by
  refine addRows_induction
    (fun t' => ∀ r ∈ t'.rowsOf c.id, r ∈ t.rowsOf c.id ∨ ∃ x ∈ hosts, r.host = tinyText x)
    (fun t' h hh _ ih r hr => ?_) fun r hr => .inl hr
  rw [rowsOf_insertRow, List.mem_append, List.mem_singleton] at hr
  obtain hr | rfl := hr
  · exact ih r hr
  · exact .inr ⟨h, hh, rfl⟩

variable (hnew : t.rowsOf c.id = [])
include hnew

/-- The column cuts the names of the hosts. -/
theorem length_hosts_le {x : Bytes} (h : x ∈ ((t.addRows rt c hosts).rowsOf c.id).map HostRow.host) :
    x.length ≤ 255 := by
  obtain ⟨r, hr, rfl⟩ := List.mem_map.mp h
  obtain hr | ⟨y, -, hy⟩ := mem_addRows r hr
  · rw [hnew] at hr
    exact absurd hr List.not_mem_nil
  · exact hy ▸ length_tinyText_le y

variable (hlen : ∀ x ∈ hosts, x.length ≤ 255)
include hlen

theorem nodup_hosts :
    ((((t.addRows rt c hosts).rowsOf c.id).map HostRow.host).map rt.columnKey).Nodup := by
  rw [List.map_map]
  refine nodup_addRows hlen ?_
  rw [hnew]
  exact List.nodup_nil

theorem hosts_subset {x : Bytes} (h : x ∈ ((t.addRows rt c hosts).rowsOf c.id).map HostRow.host) :
    x ∈ hosts := by
  obtain ⟨r, hr, rfl⟩ := List.mem_map.mp h
  obtain hr | ⟨y, hy, hr⟩ := mem_addRows r hr
  · rw [hnew] at hr
    exact absurd hr List.not_mem_nil
  · rw [hr, tinyText_eq_self (hlen y hy)]
    exact hy

/-- **The right rows**: the names that are found are those of the hosts, and the database tells
these apart. -/
theorem rows_perm_of_mem (hapart : (names.map rt.columnKey).Nodup) (hmem : ∀ x, x ∈ hosts ↔ x ∈ names) :
    (((t.addRows rt c hosts).rowsOf c.id).map HostRow.host).Perm names := by
  refine (List.perm_ext_iff_of_nodup ((nodup_hosts hnew hlen).of_map _) (hapart.of_map _)).mpr fun x => ?_
  refine ⟨fun hx => (hmem x).mp (hosts_subset hnew hlen hx), fun hx => ?_⟩
  have hcov : Covered rt (t.addRows rt c hosts) c.id hosts := covered_addRows hosts
  obtain ⟨r, hr, hk⟩ := hcov x ((hmem x).mpr hx)
  have hr := List.mem_map_of_mem (f := HostRow.host) hr
  have hname := (hmem r.host).mp (hosts_subset hnew hlen hr)
  have hk := hk.columnKey_eq (hlen x ((hmem x).mpr hx))
  exact List.inj_on_of_nodup_map hapart hname hx hk ▸ hr

/-- The other way round, if the database tells the names apart that are found. -/
theorem mem_iff_of_rows_perm (htell : ∀ x ∈ hosts, ∀ y ∈ hosts, rt.columnKey x = rt.columnKey y → x = y)
    (h : (((t.addRows rt c hosts).rowsOf c.id).map HostRow.host).Perm names) :
    (names.map rt.columnKey).Nodup ∧ ∀ x, x ∈ hosts ↔ x ∈ names := by
  have hcov : Covered rt (t.addRows rt c hosts) c.id hosts := covered_addRows hosts
  refine ⟨(h.map rt.columnKey).nodup_iff.mp (nodup_hosts hnew hlen), fun x => ⟨fun hx => ?_, fun hx => ?_⟩⟩
  · obtain ⟨r, hr, hk⟩ := hcov x hx
    have hk := hk.columnKey_eq (hlen x hx)
    have hr := List.mem_map_of_mem (f := HostRow.host) hr
    rw [htell x hx r.host (hosts_subset hnew hlen hr) hk.symm]
    exact h.mem_iff.mp hr
  · exact hosts_subset hnew hlen (h.mem_iff.mpr hx)

end Rows

/-! ## The hosts of the target -/

section Reached

variable {rt : Runtime} {table : List Entry} {g : LscTarget}

/-- Each host of the target has one row, which is resolved to its MAC; there is no other row. -/
def GoesToTarget (rt : Runtime) (table : List Entry) (g : LscTarget) (rows : List HostRow) : Prop :=
  (rows.map fun r => (r.host, getMacAddressFromFullHostname rt (table.map Entry.host) r.host)).Perm
    ((g.hostsIn table).map fun e => (e.short, e.mac))

/-- The target finds its hosts, and what it finds beside them has the name of one of them. -/
def LscTarget.FindsOwn (rt : Runtime) (table : List Entry) (g : LscTarget) : Prop :=
  match g.host with
  | none => (∀ e ∈ g.hostsIn table, ∃ e' ∈ table,
        ereg g.path.matchPattern (colonKey e'.name.bytes) = true ∧ e'.short = e.short) ∧
      ∀ e ∈ table, ereg g.path.matchPattern (colonKey e.name.bytes) = true →
        ∃ e' ∈ g.hostsIn table, e'.short = e.short
  | some h => ((∃ e ∈ table, e.name.bytes = g.fullKey h) →
        g.hostsIn table ≠ [] ∧ (g.fullKey h).take 1 = h.1) ∧
      ((∃ e ∈ table, rt.looseEq e.name.bytes h.1 = true) → g.hostsIn table ≠ [])

/-- **Names that cannot be mistaken**, neither for the regular expression, nor for the database, nor
when a short name is looked for in the table. -/
structure Unmistakable (rt : Runtime) (table : List Entry) (g : LscTarget) : Prop where
  own : g.FindsOwn rt table
  fits : ∀ e ∈ g.hostsIn table, e.short.length ≤ 255
  apart : ((g.hostsIn table).map fun e => rt.columnKey e.short).Nodup
  first : ∀ e ∈ g.hostsIn table,
    (table.find? fun x => rt.looseEq x.name.bytes e.short).map Entry.mac = some e.mac

/-- The database keeps the names, and tells those apart that are not the same. -/
structure TellsApart (rt : Runtime) (table : List Entry) : Prop where
  fits : ∀ e ∈ table, e.short.length ≤ 255
  apart : ∀ e ∈ table, ∀ e' ∈ table, rt.columnKey e.short = rt.columnKey e'.short → e.short = e'.short

theorem mem_hostsIn {e : Entry} : e ∈ g.hostsIn table ↔ e ∈ table ∧ g.Has e.name := by
  unfold LscTarget.hostsIn
  rw [List.mem_filter, decide_eq_true_iff]

theorem findsOwn_group (hhost : g.host = none) : g.FindsOwn rt table ↔
    ∀ x, x ∈ targetHosts rt (table.map Entry.host) g.bytes ↔ x ∈ (g.hostsIn table).map Entry.short := by
  unfold LscTarget.FindsOwn
  rw [hhost]
  dsimp only
  constructor
  · rintro ⟨hfound, hown⟩ x
    rw [mem_targetHosts hhost]
    refine ⟨?_, fun hx => ?_⟩
    · rintro ⟨e, he, hm, rfl⟩
      obtain ⟨e', he', hshort⟩ := hown e he hm
      exact List.mem_map.mpr ⟨e', he', hshort⟩
    · obtain ⟨e, he, rfl⟩ := List.mem_map.mp hx
      exact hfound e he
  · intro h
    refine ⟨fun e he => ?_, fun e he hm => ?_⟩
    · exact (mem_targetHosts hhost).mp ((h e.short).mpr (List.mem_map_of_mem he))
    · exact List.mem_map.mp ((h e.short).mp ((mem_targetHosts hhost).mpr ⟨e, he, hm, rfl⟩))

/-- **Without special bytes**: the target is not about the hosts without a profile in any group, and a
stray host has the name of a host of the target. -/
theorem findsOwn_plain (hhost : g.host = none) (hplain : g.Plain) : g.FindsOwn rt table ↔
    (g.Unmatched → g.hostsIn table = []) ∧
      ∀ e ∈ table, g.Stray e.name → ∃ e' ∈ g.hostsIn table, e'.short = e.short := by
  have hfound : ∀ e ∈ table, ereg g.path.matchPattern (colonKey e.name.bytes) = true ↔
      e ∈ g.hostsIn table ∧ ¬g.Unmatched ∨ g.Stray e.name := by
    intro e he
    rw [matched_iff hhost hplain, mem_hostsIn, and_iff_right he]
  unfold LscTarget.FindsOwn
  rw [hhost]
  dsimp only
  constructor
  · rintro ⟨hown, hname⟩
    refine ⟨fun hun => ?_, fun e he hs => hname e he ((hfound e he).mpr (.inr hs))⟩
    rw [List.eq_nil_iff_forall_not_mem]
    intro e he
    -- what is found for its name is stray, but a target for no profile finds nothing stray
    obtain ⟨e', he', hm, -⟩ := hown e he
    obtain ⟨-, hnot⟩ | hs := (hfound e' he').mp hm
    · exact hnot hun
    · exact hs.not_unmatched hun
  · rintro ⟨hnone, hstray⟩
    refine ⟨fun e he => ?_, fun e he hm => ?_⟩
    · have hun : ¬g.Unmatched := fun h => by
        rw [hnone h] at he
        exact absurd he List.not_mem_nil
      have htab := (mem_hostsIn.mp he).1
      exact ⟨e, htab, (hfound e htab).mpr (.inl ⟨he, hun⟩), rfl⟩
    · obtain ⟨hown, -⟩ | hs := (hfound e he).mp hm
      · exact ⟨e, hown, rfl⟩
      · exact hstray e he hs

theorem findsOwn_host {h : NamePart} (hhost : g.host = some h) : g.FindsOwn rt table ↔
    ∀ x, x ∈ targetHosts rt (table.map Entry.host) g.bytes ↔ x ∈ (g.hostsIn table).map Entry.short := by
  have hown : ∀ e ∈ g.hostsIn table, e.short = h.1 := by
    intro e he
    exact congrArg Subtype.val ((mem_hostsIn.mp he).2.2.2 h hhost)
  have hmem : ∀ x, x ∈ (g.hostsIn table).map Entry.short ↔ g.hostsIn table ≠ [] ∧ x = h.1 := by
    intro x
    refine ⟨fun hx => ?_, fun ⟨hne, hx⟩ => ?_⟩
    · obtain ⟨e, he, rfl⟩ := List.mem_map.mp hx
      exact ⟨List.ne_nil_of_mem he, hown e he⟩
    · obtain ⟨e, he⟩ := List.exists_mem_of_ne_nil _ hne
      exact List.mem_map.mpr ⟨e, he, (hown e he).trans hx.symm⟩
  have hloose : g.hostsIn table ≠ [] → ∃ e ∈ table, rt.looseEq e.name.bytes h.1 = true := by
    intro hne
    obtain ⟨e, he⟩ := List.exists_mem_of_ne_nil _ hne
    exact ⟨e, (mem_hostsIn.mp he).1, hown e he ▸ looseEq_bytes e.name⟩
  unfold LscTarget.FindsOwn
  rw [hhost, targetHosts_host hhost]
  simp only [hmem]
  split_ifs with hfull hl
  · simp only [List.mem_singleton]
    refine ⟨fun hf x => ?_, fun hx => ?_⟩
    · obtain ⟨hne, htake⟩ := hf.1 hfull
      rw [htake, and_iff_right hne]
    · obtain ⟨hne, htake⟩ := (hx _).mp rfl
      exact ⟨fun _ => ⟨hne, htake⟩, fun _ => hne⟩
  · simp only [List.mem_singleton]
    refine ⟨fun hf x => (and_iff_right (hf.2 hl)).symm, fun hx => ?_⟩
    exact ⟨fun hf => absurd hf hfull, fun _ => ((hx _).mp rfl).1⟩
  · refine ⟨fun _ x => iff_of_false List.not_mem_nil fun hx => hl (hloose hx.1), fun _ => ?_⟩
    exact ⟨fun hf => absurd hf hfull, fun hf => absurd hf hl⟩

/-- **The right names are found**. -/
theorem findsOwn_iff : g.FindsOwn rt table ↔
    ∀ x, x ∈ targetHosts rt (table.map Entry.host) g.bytes ↔ x ∈ (g.hostsIn table).map Entry.short := by
  cases hhost : g.host with
  | none => exact findsOwn_group hhost
  | some h => exact findsOwn_host hhost

/-- The names that a target finds are told apart: there is only one, or they are names of the
table. -/
theorem targetHosts_apart (htell : g.host = none → TellsApart rt table) :
    ∀ x ∈ targetHosts rt (table.map Entry.host) g.bytes, ∀ y ∈ targetHosts rt (table.map Entry.host) g.bytes,
      rt.columnKey x = rt.columnKey y → x = y := by
  intro x hx y hy hk
  cases hhost : g.host with
  | none =>
    obtain ⟨e, he, -, rfl⟩ := (mem_targetHosts hhost).mp hx
    obtain ⟨e', he', -, rfl⟩ := (mem_targetHosts hhost).mp hy
    exact (htell hhost).apart e he e' he' hk
  | some h =>
    rw [targetHosts_host hhost] at hx hy
    split_ifs at hx hy
    · rw [List.mem_singleton.mp hx, List.mem_singleton.mp hy]
    · rw [List.mem_singleton.mp hx, List.mem_singleton.mp hy]
    · exact absurd hx List.not_mem_nil

/-- The names that a target finds fit in the column: they are names of the table, or the name of its host,
which is found only if the target has hosts. -/
theorem targetHosts_fit (htell : g.host = none → TellsApart rt table)
    (hown : ∀ e ∈ g.hostsIn table, e.short.length ≤ 255)
    (hsome : g.hostsIn table = [] → targetHosts rt (table.map Entry.host) g.bytes = []) :
    ∀ x ∈ targetHosts rt (table.map Entry.host) g.bytes, x.length ≤ 255 := by
  intro x hx
  cases hhost : g.host with
  | none =>
    obtain ⟨e, he, -, rfl⟩ := (mem_targetHosts hhost).mp hx
    exact (htell hhost).fits e he
  | some h =>
    have hne : g.hostsIn table ≠ [] := fun hnil => List.ne_nil_of_mem hx (hsome hnil)
    obtain ⟨e, he⟩ := List.exists_mem_of_ne_nil _ hne
    have hshort : e.short = h.1 := congrArg Subtype.val ((mem_hostsIn.mp he).2.2.2 h hhost)
    rw [targetHosts_host hhost] at hx
    split_ifs at hx
    · rw [List.mem_singleton.mp hx, List.length_take]
      omega
    · rw [List.mem_singleton.mp hx, ← hshort]
      exact hown e he
    · exact absurd hx List.not_mem_nil

/-- The MAC of each host of the target. -/
theorem first_iff {e : Entry} (he : e ∈ table) :
    (table.find? fun x => rt.looseEq x.name.bytes e.short).map Entry.mac = some e.mac ↔
      getMacAddressFromFullHostname rt (table.map Entry.host) e.short = e.mac := by
  rw [getMac_short]
  cases hfind : table.find? fun x => rt.looseEq x.name.bytes e.short with
  | none => exact absurd (looseEq_bytes e.name) (List.find?_eq_none.mp hfind e he)
  | some x => exact Option.some_inj

theorem goesToTarget_iff {rows : List HostRow} : GoesToTarget rt table g rows ↔
    (rows.map HostRow.host).Perm ((g.hostsIn table).map Entry.short) ∧
    ∀ e ∈ g.hostsIn table,
      (table.find? fun x => rt.looseEq x.name.bytes e.short).map Entry.mac = some e.mac := by
  unfold GoesToTarget
  refine ⟨fun h => ⟨?_, fun e he => ?_⟩, fun ⟨hrows, hfirst⟩ => ?_⟩
  · have hfst := h.map Prod.fst
    rwa [List.map_map, List.map_map] at hfst
  · obtain ⟨r, -, hr⟩ := List.mem_map.mp (h.mem_iff.mpr (List.mem_map_of_mem he))
    obtain ⟨hhost, hmac⟩ := Prod.mk.inj hr
    rw [hhost] at hmac
    exact (first_iff (mem_hostsIn.mp he).1).mpr hmac
  · have hpair := hrows.map fun x => (x, getMacAddressFromFullHostname rt (table.map Entry.host) x)
    rw [List.map_map, List.map_map] at hpair
    refine hpair.trans (List.Perm.of_eq (List.map_congr_left fun e he => ?_))
    exact Prod.ext rfl ((first_iff (mem_hostsIn.mp he).1).mp (hfirst e he))

/-- **A command goes to the hosts of its target** if their names are unmistakable. The condition is
exact for a target with a host, and also for one without if the database keeps the names of the table
and tells them apart; that the names of the hosts fit is always needed. The last part says in terms of
the names what a target without special bytes finds. -/
theorem goes_to_target (rt : Runtime) (table : List Entry) (g : LscTarget) (c : CommandRow)
    (hc : c.target = g.bytes) (t : Tables) (hdis : t.getDispatched c.id = false)
    (hnew : t.rowsOf c.id = []) (left : List ℕ) :
    (Unmistakable rt table g → GoesToTarget rt table g
      (((dispatch rt (table.map Entry.host) c).run (t, left)).2.1.rowsOf c.id)) ∧
    (GoesToTarget rt table g (((dispatch rt (table.map Entry.host) c).run (t, left)).2.1.rowsOf c.id) →
      (∀ e ∈ g.hostsIn table, e.short.length ≤ 255) ∧
      ((g.host = none → TellsApart rt table) → Unmistakable rt table g)) ∧
    (g.host = none → g.Plain → (g.FindsOwn rt table ↔ (g.Unmatched → g.hostsIn table = []) ∧
      ∀ e ∈ table, g.Stray e.name → ∃ e' ∈ g.hostsIn table, e'.short = e.short)) := by
  have hhosts : c.hosts rt (table.map Entry.host) = targetHosts rt (table.map Entry.host) g.bytes :=
    congrArg _ hc
  rw [run_dispatch hdis, hhosts]
  dsimp only
  rw [rowsOf_setDispatched, goesToTarget_iff]
  refine ⟨fun h => ⟨?_, h.first⟩, fun h => ?_, fun hhost hplain => findsOwn_plain hhost hplain⟩
  · have hmem := findsOwn_iff.mp h.own
    refine rows_perm_of_mem hnew (fun x hx => ?_) ?_ hmem
    · obtain ⟨e, he, rfl⟩ := List.mem_map.mp ((hmem x).mp hx)
      exact h.fits e he
    · rw [List.map_map]
      exact h.apart
  · have hfits : ∀ e ∈ g.hostsIn table, e.short.length ≤ 255 := fun e he =>
      length_hosts_le hnew (h.1.mem_iff.mpr (List.mem_map_of_mem he))
    refine ⟨hfits, fun htell => ?_⟩
    have hsome : g.hostsIn table = [] → targetHosts rt (table.map Entry.host) g.bytes = [] := by
      intro hnil
      rw [hnil, List.map_nil, List.perm_nil, List.map_eq_nil_iff] at h
      refine List.eq_nil_iff_forall_not_mem.mpr fun x hx => ?_
      have hcovered : Covered rt (t.addRows rt c (targetHosts rt (table.map Entry.host) g.bytes)) c.id
          (targetHosts rt (table.map Entry.host) g.bytes) := covered_addRows _
      obtain ⟨r, hr, -⟩ := hcovered x hx
      rw [h.1] at hr
      exact absurd hr List.not_mem_nil
    obtain ⟨hapart, hmem⟩ := mem_iff_of_rows_perm hnew (targetHosts_fit htell hfits hsome)
      (targetHosts_apart htell) h.1
    rw [List.map_map] at hapart
    exact ⟨findsOwn_iff.mpr hmem, hfits, hapart, h.2⟩

/-- `profile1:lab.1/lab1` and `profile1:group2/lab2`. -/
def groupTable : List Entry :=
  [⟨⟨some ⟨ascii "profile1", by decide⟩, [⟨ascii "lab.1", by decide⟩], ⟨ascii "lab1", by decide⟩⟩,
      ascii "10.0.0.1", ascii "00:11:22:33:44:55"⟩,
    ⟨⟨some ⟨ascii "profile1", by decide⟩, [⟨ascii "group2", by decide⟩], ⟨ascii "lab2", by decide⟩⟩,
      ascii "10.0.0.2", ascii "00:11:22:33:44:66"⟩]

/-- `profile1:lab.1/`: the dot stands for any byte. -/
def groupTarget : LscTarget :=
  ⟨some ⟨ascii "profile1", by decide⟩, false, [⟨ascii "lab.1", by decide⟩], none⟩

/-- A command for this target, and the tables when it has been added. -/
def commandFor (g : LscTarget) : CommandRow := { labCommand with target := g.bytes }

def tablesFor (g : LscTarget) : Tables := ⟨[commandFor g], []⟩

/-- A command for one of two groups. -/
theorem goes_to_target_group :
    Unmistakable exactRuntime groupTable groupTarget ∧
    GoesToTarget exactRuntime groupTable groupTarget
      (((dispatch exactRuntime (groupTable.map Entry.host) (commandFor groupTarget)).run
        (tablesFor groupTarget, [])).2.1.rowsOf 1) := by
  have h : Unmistakable exactRuntime groupTable groupTarget := by
    refine ⟨⟨?_, ?_⟩, by decide, by decide, by decide⟩
    · decide +kernel
    · decide +kernel
  exact ⟨h, (goes_to_target exactRuntime groupTable groupTarget (commandFor groupTarget) rfl
    (tablesFor groupTarget) (by decide) rfl []).1 h⟩

/-- `profile1:group1/group2/host2`. -/
def deepTable : List Entry :=
  [⟨⟨some ⟨ascii "profile1", by decide⟩, [⟨ascii "group1", by decide⟩, ⟨ascii "group2", by decide⟩],
    ⟨ascii "host2", by decide⟩⟩, ascii "10.0.0.2", ascii "00:11:22:33:44:66"⟩]

/-- The host, with its profile and groups. -/
def deepTarget : LscTarget :=
  ⟨some ⟨ascii "profile1", by decide⟩, false, [⟨ascii "group1", by decide⟩, ⟨ascii "group2", by decide⟩],
    some ⟨ascii "host2", by decide⟩⟩

/-- The row is for a host `p`. -/
theorem misses_target :
    deepTarget.bytes = ascii "profile1:group1/group2/host2" ∧
    ¬GoesToTarget exactRuntime deepTable deepTarget
      (((dispatch exactRuntime (deepTable.map Entry.host) (commandFor deepTarget)).run
        (tablesFor deepTarget, [])).2.1.rowsOf 1) := by
  refine ⟨by decide, fun h => ?_⟩
  have hrow := (goesToTarget_iff.mp h).1.mem_iff (a := ascii "host2")
  exact absurd hrow (by decide)

end Reached

end LinboxRescue
