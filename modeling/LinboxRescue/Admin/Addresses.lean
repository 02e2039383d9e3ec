import LinboxRescue.Admin.Registration
import LinboxRescue.Lib.PerlRange

/-!
# Addresses of new hosts (`src/server/admin/perl/check_add_host`)

A host gets the first address of a range that no host in `etc/ether` has, or the one of its lease if
that is free. The ends of the range are texts of `lbs.conf`, and between `01` and `10` Perl counts `01`,
`02` and so on, which are no addresses of the table.

1. `getIp_spec`: when there is an address, and which one it is.
2. `parseEther_insertEther`: the table is written and read again.
3. `shared_run`: hosts that share an address have had it before the first registration.
4. `addresses_apart_iff`: the ranges for which all this is so.
-/

namespace LinboxRescue

/-! ## `get_ip` -/

/-- The section `dhcp` of `lbs.conf`. The network is one word. -/
structure DhcpConfig where
  minip : Option IntText
  maxip : Option IntText
  network : Option Bytes
  network_word : ∀ n ∈ network, ∀ b ∈ n, isPerlSpace b = false

/-- What `get_leases` has found: matches of `[0-9\.]+`. -/
structure Leases where
  ip : Bytes → Option Bytes
  ip_bytes : ∀ mac, ∀ a ∈ ip mac, ∀ b ∈ a, isDigit b = true ∨ b = 46

/-- The first word of a value of `%ether`. -/
def addressOf (value : Bytes) : Bytes := (perlSplitSpace value).1

/-- `$network.".$i"`. -/
def inNetwork (network i : Bytes) : Bytes := network ++ 46 :: i

/-- The last byte of a lease. Where there is none, there is the empty text, which is also 0. -/
def leaseByte (ip : Bytes) : Bytes := ((ip.splitOn 46)[3]?).getD []

/-- The bytes that are tried: the one of the lease, if it is in the range, and the range. -/
def tried (min max : IntText) (lease : Option Bytes) : List Bytes :=
  let r := perlRange min max
  match lease with
  | some ip =>
    if min.val ≤ digitsVal (leaseByte ip) ∧ (digitsVal (leaseByte ip) : ℤ) ≤ max.val then
      leaseByte ip :: r
    else r
  | none => r

/-- Some host has this address. -/
def isUsed (existing : List (Bytes × Bytes)) (ip : Bytes) : Bool :=
  existing.any fun e => ip == addressOf e.2

/-- `get_ip`: the result, and what it leaves in `$ip`. -/
def getIp (existing : List (Bytes × Bytes)) (rng : DhcpConfig) (leases : Leases) (mac : Bytes) :
    ℤ × Option Bytes :=
  match rng.minip with
  | none => (-1, none)
  | some min =>
    match rng.maxip with
    | none => (-2, none)
    | some max =>
      match rng.network with
      | none => (-3, none)
      | some network =>
        match (tried min max (leases.ip mac)).find? fun i => !isUsed existing (inNetwork network i) with
        | some i => (1, some (inNetwork network i))
        | none => (0, none)

/-! ## Which address it is -/

/-- An address as the DHCP server writes it. -/
def dottedQuad (a b c d : ℕ) : Bytes := dec a ++ 46 :: (dec b ++ 46 :: (dec c ++ 46 :: dec d))

/-- The file of the leases was written by the DHCP server. -/
def DottedQuads (leases : Leases) : Prop :=
  ∀ mac, ∀ ip ∈ leases.ip mac, ∃ a b c d, ip = dottedQuad a b c d

theorem leaseByte_dottedQuad (a b c d : ℕ) : leaseByte (dottedQuad a b c d) = dec d := by
  have hdot : ∀ n, 46 ∉ dec n := fun n h => dec_ne (by decide) 46 h rfl
  unfold leaseByte dottedQuad
  rw [List.splitOn_append_cons_self_of_not_mem (hdot a),
    List.splitOn_append_cons_self_of_not_mem (hdot b),
    List.splitOn_append_cons_self_of_not_mem (hdot c), List.splitOn_eq_singleton (hdot d)]
  rfl

theorem isPerlSpace_of_isDigit {b : UInt8} (h : isDigit b = true) : isPerlSpace b = false := by
  unfold isPerlSpace
  simp only [Bool.or_eq_false_iff, beq_eq_false_iff_ne]
  refine ⟨⟨⟨⟨?_, ?_⟩, ?_⟩, ?_⟩, ?_⟩ <;> exact isDigit_ne h (by decide)

theorem perlRange_word {min max : IntText} {s : Bytes} (h : s ∈ perlRange min max) :
    ∀ b ∈ s, isPerlSpace b = false := by
  intro b hb
  rcases perlRange_bytes h b hb with hdigit | rfl
  · exact isPerlSpace_of_isDigit hdigit
  · decide

/-- What is tried has no white space. -/
theorem tried_word {min max : IntText} {leases : Leases} {mac s : Bytes}
    (h : s ∈ tried min max (leases.ip mac)) : ∀ b ∈ s, isPerlSpace b = false := by
  unfold tried at h
  cases hip : leases.ip mac with
  | none =>
    rw [hip] at h
    exact perlRange_word h
  | some ip =>
    rw [hip] at h
    dsimp only at h
    split_ifs at h
    · rcases List.mem_cons.mp h with rfl | h
      · intro b hb
        have hmem : b ∈ ip := by
          unfold leaseByte at hb
          cases hfield : (ip.splitOn 46)[3]? with
          | none => rw [hfield] at hb; cases hb
          | some c =>
            rw [hfield] at hb
            exact (of_mem_splitOn (List.mem_of_getElem? hfield)).2 hb
        rcases leases.ip_bytes mac ip hip b hmem with hdigit | rfl
        · exact isPerlSpace_of_isDigit hdigit
        · decide
      · exact perlRange_word h
    · exact perlRange_word h

/-- Only bytes of the range are tried, and all of them. -/
theorem mem_tried {min max : IntText} (hcounts : CountsIntegers min max) {leases : Leases}
    (hl : DottedQuads leases) {mac s : Bytes} : s ∈ tried min max (leases.ip mac) ↔
      ∃ i : ℤ, (min.val ≤ i ∧ i ≤ max.val) ∧ s = decInt i := by
  unfold tried
  cases hip : leases.ip mac with
  | none => exact mem_perlRange hcounts s
  | some ip =>
    obtain ⟨a, b, c, d, rfl⟩ := hl mac ip hip
    dsimp only
    rw [leaseByte_dottedQuad, digitsVal_dec]
    split_ifs with hd
    · rw [List.mem_cons, mem_perlRange hcounts]
      exact or_iff_right_of_imp fun hs => ⟨d, hd, hs⟩
    · exact mem_perlRange hcounts s

section Spec

variable {existing : List (Bytes × Bytes)} {rng : DhcpConfig} {min max : IntText} {network : Bytes}
  {leases : Leases} {mac : Bytes}

theorem getIp_eq (hmin : rng.minip = some min) (hmax : rng.maxip = some max)
    (hnet : rng.network = some network) : getIp existing rng leases mac =
      match (tried min max (leases.ip mac)).find? fun i => !isUsed existing (inNetwork network i) with
      | some i => (1, some (inNetwork network i))
      | none => (0, none) := by
  unfold getIp
  rw [hmin, hmax, hnet]

/-- No host of the table has it. -/
def Unused (existing : List (Bytes × Bytes)) (network : Bytes) (i : ℤ) : Prop :=
  isUsed existing (inNetwork network (decInt i)) = false

/-- What `get_ip` is for: there is an address if one of the range is left, it is such an address, and
the one of the lease if it is. -/
structure Allocated (existing : List (Bytes × Bytes)) (rng : DhcpConfig) (leases : Leases) (mac : Bytes)
    (min max : ℤ) (network : Bytes) : Prop where
  found : (getIp existing rng leases mac).1 = 1 ↔
    ∃ i, (min ≤ i ∧ i ≤ max) ∧ Unused existing network i
  unused : (getIp existing rng leases mac).1 = 1 → ∃ i, (min ≤ i ∧ i ≤ max) ∧
    Unused existing network i ∧
      (getIp existing rng leases mac).2 = some (inNetwork network (decInt i))
  lease : ∀ a b c d : ℕ, leases.ip mac = some (dottedQuad a b c d) → (min ≤ d ∧ d ≤ max) →
    Unused existing network d →
      getIp existing rng leases mac = (1, some (inNetwork network (decInt d)))

/-- **`get_ip`** between ends where Perl counts integers. -/
theorem getIp_spec (hcounts : CountsIntegers min max) (hl : DottedQuads leases)
    (hmin : rng.minip = some min) (hmax : rng.maxip = some max) (hnet : rng.network = some network) :
    Allocated existing rng leases mac min.val max.val network := by
  have heq : getIp existing rng leases mac = _ := getIp_eq hmin hmax hnet
  refine ⟨?_, ?_, ?_⟩ <;> rw [heq]
  · cases hfind : (tried min max (leases.ip mac)).find? fun i =>
      !isUsed existing (inNetwork network i) with
    | none =>
      refine ⟨fun h => absurd (show (0 : ℤ) = 1 from h) (by decide), fun ⟨i, hi, hfree⟩ => ?_⟩
      have hused := List.find?_eq_none.mp hfind (decInt i) ((mem_tried hcounts hl).mpr ⟨i, hi, rfl⟩)
      rw [show isUsed existing (inNetwork network (decInt i)) = false from hfree] at hused
      exact absurd rfl hused
    | some s =>
      obtain ⟨i, hi, rfl⟩ := (mem_tried hcounts hl).mp (List.mem_of_find?_eq_some hfind)
      exact ⟨fun _ => ⟨i, hi, by simpa [Unused] using List.find?_some hfind⟩, fun _ => rfl⟩
  · cases hfind : (tried min max (leases.ip mac)).find? fun i =>
      !isUsed existing (inNetwork network i) with
    | none => exact fun h => absurd (show (0 : ℤ) = 1 from h) (by decide)
    | some s =>
      obtain ⟨i, hi, rfl⟩ := (mem_tried hcounts hl).mp (List.mem_of_find?_eq_some hfind)
      exact fun _ => ⟨i, hi, by simpa [Unused] using List.find?_some hfind, rfl⟩
  · intro a b c d hlease hd hfree
    have htried : tried min max (leases.ip mac) = dec d :: perlRange min max := by
      unfold tried
      rw [hlease]
      dsimp only
      rw [leaseByte_dottedQuad, digitsVal_dec, if_pos hd]
    rw [htried, List.find?_cons_of_pos]
    · rfl
    · rw [Bool.not_eq_true']
      exact hfree

/-- The address that is found, whatever the leases are: one that was tried. -/
theorem getIp_some {ip : Bytes} (h : (getIp existing rng leases mac).2 = some ip) :
    isUsed existing ip = false ∧ ∃ min max network s, rng.minip = some min ∧ rng.maxip = some max ∧
      rng.network = some network ∧ s ∈ tried min max (leases.ip mac) ∧ ip = inNetwork network s := by
  unfold getIp at h
  cases hmin : rng.minip with
  | none => rw [hmin] at h; cases h
  | some min =>
    cases hmax : rng.maxip with
    | none => rw [hmin, hmax] at h; cases h
    | some max =>
      cases hnet : rng.network with
      | none => rw [hmin, hmax, hnet] at h; cases h
      | some network =>
        rw [hmin, hmax, hnet] at h
        dsimp only at h
        cases hfind : (tried min max (leases.ip mac)).find? fun i =>
            !isUsed existing (inNetwork network i) with
        | none => rw [hfind] at h; cases h
        | some s =>
          rw [hfind] at h
          obtain rfl := Option.some.inj h
          exact ⟨by simpa using List.find?_some hfind, min, max, network, s, rfl, rfl, rfl,
            List.mem_of_find?_eq_some hfind, rfl⟩

/-- It is one word. -/
theorem getIp_word {ip : Bytes} (h : (getIp existing rng leases mac).2 = some ip) :
    ip ≠ [] ∧ ∀ b ∈ ip, isPerlSpace b = false := by
  obtain ⟨-, min, max, network, s, -, -, hnet, hs, rfl⟩ := getIp_some h
  refine ⟨List.append_ne_nil_of_right_ne_nil _ (List.cons_ne_nil _ _), fun b hb => ?_⟩
  rcases List.mem_append.mp hb with hb | hb
  · exact rng.network_word network hnet b hb
  · rcases List.mem_cons.mp hb with rfl | hb
    · decide
    · exact tried_word hs b hb

end Spec

/-! ## The table, written and read again -/

/-- An entry that was read from a line. -/
structure EntryOk (e : Bytes × Bytes) : Prop where
  key_ne : e.1 ≠ []
  key_word : ∀ b ∈ e.1, isPerlSpace b = false
  value_head : ∀ b ∈ e.2.head?, isPerlSpace b = false
  value_line : 10 ∉ e.2

/-- The line of the entry is taken for a comment. A line with white space in front can give such a
key. -/
def Commented (e : Bytes × Bytes) : Prop := e.1.head? = some 59 ∨ e.1.head? = some 35

instance (e : Bytes × Bytes) : Decidable (Commented e) := inferInstanceAs (Decidable (_ ∨ _))

theorem head_dropWhile {p : UInt8 → Bool} {s : Bytes} {b : UInt8} (h : b ∈ (s.dropWhile p).head?) :
    p b = false := by
  have := List.head?_dropWhile_not p s
  rw [Option.mem_def.mp h] at this
  simpa using this

theorem EntryOk.of_getInfoLine {l : Bytes} (hl : 10 ∉ l) {e : Bytes × Bytes}
    (h : getInfoLine l = some e) : EntryOk e := by
  unfold getInfoLine at h
  split_ifs at h with hskip
  obtain rfl := Option.some.inj h
  simp only [not_or] at hskip
  unfold perlSplitSpace
  dsimp only
  obtain ⟨c, t, ht⟩ : ∃ c t, l.dropWhile isPerlSpace = c :: t :=
    List.exists_cons_of_ne_nil fun hnil => hskip.2.2
      (List.all_eq_true.mpr (List.dropWhile_eq_nil_iff.mp hnil))
  have hc : isPerlSpace c = false := head_dropWhile (by rw [ht]; rfl)
  rw [ht]
  refine ⟨?_, fun b hb => ?_, fun b hb => head_dropWhile hb, fun hmem => hl ?_⟩
  · rw [List.takeWhile_cons_of_pos (by rw [hc]; rfl)]
    exact List.cons_ne_nil _ _
  · simpa using List.mem_takeWhile_imp hb
  · have hsub := (List.dropWhile_suffix isPerlSpace).trans
      (List.dropWhile_suffix fun b => !isPerlSpace b) |>.subset hmem
    rw [← ht] at hsub
    exact (List.dropWhile_suffix isPerlSpace).subset hsub

theorem getInfoLine_entry {e : Bytes × Bytes} (he : EntryOk e) :
    getInfoLine (e.1 ++ 32 :: e.2) = if Commented e then none else some e := by
  obtain ⟨c, k, hk⟩ := List.exists_cons_of_ne_nil he.key_ne
  have hc : isPerlSpace c = false := he.key_word c (hk ▸ List.mem_cons_self)
  have hhead : (e.1 ++ 32 :: e.2).head? = e.1.head? := by rw [hk]; rfl
  have hall : (e.1 ++ 32 :: e.2).all isPerlSpace = false := by
    rw [hk, List.cons_append, List.all_cons, hc, Bool.false_and]
  have hword : ∀ b ∈ e.1, (!isPerlSpace b) = true := fun b hb => by rw [he.key_word b hb]; rfl
  have hstart : (e.1 ++ 32 :: e.2).dropWhile isPerlSpace = e.1 ++ 32 :: e.2 := by
    rw [hk, List.cons_append, List.dropWhile_cons_of_neg (by rw [hc]; exact Bool.false_ne_true)]
  have hvalue : e.2.dropWhile isPerlSpace = e.2 := by
    cases hv : e.2 with
    | nil => rfl
    | cons b v =>
      have hb : isPerlSpace b = false := he.value_head b (by rw [hv]; rfl)
      rw [List.dropWhile_cons_of_neg (by rw [hb]; exact Bool.false_ne_true)]
  have hsplit : perlSplitSpace (e.1 ++ 32 :: e.2) = e := by
    unfold perlSplitSpace
    dsimp only
    rw [hstart, List.takeWhile_append_of_pos hword, List.dropWhile_append_of_pos hword,
      List.takeWhile_cons_of_neg (by decide), List.append_nil, List.dropWhile_cons_of_neg (by decide),
      List.dropWhile_cons_of_pos (by decide), hvalue]
  unfold getInfoLine
  rw [hhead, hall, hsplit]
  exact if_congr (by simp [Commented]) rfl rfl

/-- What is read from a file. -/
theorem parseEther_ok (file : Bytes) :
    (∀ e ∈ parseEther file, EntryOk e) ∧ ((parseEther file).map Prod.fst).Nodup := by
  obtain ⟨hn, hmem⟩ := hash_spec Prod.fst id ((perlLines file).filterMap getInfoLine) [] List.nodup_nil
  refine ⟨fun e he => ?_, hn⟩
  rcases hmem e he with h | ⟨_, h, rfl⟩
  · cases h
  · obtain ⟨l, hl, hle⟩ := List.mem_filterMap.mp h
    exact EntryOk.of_getInfoLine (mem_perlLines hl) hle

/-- **The table that is read again** has the entries that are no comment, and the new one. -/
theorem parseEther_insertEther {old : List (Bytes × Bytes)} {new : Bytes × Bytes}
    (hold : ∀ e ∈ old, EntryOk e) (hn : (old.map Prod.fst).Nodup) (hnew : EntryOk new)
    (hplain : ¬Commented new) (hkey : new.1 ∉ old.map Prod.fst) :
    parseEther (insertEther old (new.1 ++ 32 :: new.2)) = old.filter (¬Commented ·) ++ [new] := by
  have hline : ∀ e, EntryOk e → 10 ∉ e.1 ++ 32 :: e.2 := fun e he hmem => by
    rcases List.mem_append.mp hmem with hmem | hmem
    · exact absurd (he.key_word 10 hmem) (by decide)
    · exact he.value_line ((List.mem_cons.mp hmem).resolve_left (by decide))
  have hread : ((old.map fun e => e.1 ++ 32 :: e.2) ++ [new.1 ++ 32 :: new.2]).filterMap getInfoLine =
      old.filter (¬Commented ·) ++ [new] := by
    have hnone : ∀ e ∈ old, getInfoLine (e.1 ++ 32 :: e.2) = Option.guard (¬Commented ·) e := by
      intro e he
      rw [getInfoLine_entry (hold e he)]
      by_cases hc : Commented e
      · rw [if_pos hc, Option.guard_eq_none_iff.mpr (by simpa using hc)]
      · rw [if_neg hc, Option.guard_eq_some_iff.mpr ⟨rfl, by simpa using hc⟩]
    have hentry := (getInfoLine_entry hnew).trans (if_neg hplain)
    rw [List.filterMap_append, List.filterMap_map, List.filterMap_cons_some hentry, List.filterMap_nil,
      ← List.filterMap_eq_filter]
    exact congrArg (· ++ [new]) (List.filterMap_congr hnone)
  have hkeys : ((old.filter (¬Commented ·) ++ [new]).map fun e => (id e).1).Nodup := by
    rw [List.map_append]
    refine List.nodup_append.mpr ⟨hn.sublist (List.filter_sublist.map _), List.nodup_singleton _, ?_⟩
    rintro a ha b hb rfl
    rw [List.mem_singleton.mp hb] at ha
    exact hkey ((List.filter_sublist.map _).subset ha)
  unfold parseEther
  rw [insertEther_eq, perlLines_flatMap, List.filterMap_cons_none (by decide),
    List.filterMap_cons_none (by decide), hread]
  · exact (hash_of_nodup Prod.fst id hkeys).trans (List.map_id _)
  · refine List.forall_mem_cons.mpr ⟨by decide,
      List.forall_mem_cons.mpr ⟨by decide, fun l hl b hb => ?_⟩⟩
    obtain ⟨e, he, rfl⟩ : ∃ e, EntryOk e ∧ l = e.1 ++ 32 :: e.2 := by
      rcases List.mem_append.mp hl with hl | hl
      · obtain ⟨e, he, rfl⟩ := List.mem_map.mp hl
        exact ⟨e, hold e he, rfl⟩
      · exact ⟨new, hnew, List.mem_singleton.mp hl⟩
    exact fun h10 => hline e he (h10 ▸ hb)

/-! ## Registrations -/

/-- A run of `check_add_host` that takes the address from `get_ip`. -/
structure Registration where
  mac : Bytes
  mac_ne : mac ≠ []
  mac_word : ∀ b ∈ mac, isPerlSpace b = false
  mac_head : mac.head? ≠ some 59 ∧ mac.head? ≠ some 35
  /-- None if the host gets its address for a name. -/
  hostname : Option Bytes
  hostname_line : ∀ n ∈ hostname, 10 ∉ n
  cfg : DhcpConfig
  leases : Leases
  outcome : JobOutcome

/-- The entry of the host. -/
def Registration.entry (r : Registration) (ip : Bytes) : Bytes × Bytes :=
  (r.mac.map toUpper, ip ++ 32 :: r.hostname.getD ip)

/-- `etc/ether` after the run. -/
def Registration.run (file : Bytes) (r : Registration) : Bytes :=
  let mac := r.mac.map toUpper
  let ether := parseEther file
  if r.mac = ascii "--sync" ∨ r.mac = ascii "-s" ∨ mac = ascii "?" ∨ ether.any (fun e => e.1 == mac) ∨
      r.outcome.granted = false then file
  else
    match (getIp ether r.cfg r.leases mac).2 with
    | none => file
    | some ip =>
      if r.outcome.opens then
        insertEther (r.outcome.keys ether) (mac ++ 32 :: (ip ++ 32 :: r.hostname.getD ip))
      else file

theorem isPerlSpace_toUpper {b : UInt8} (h : isPerlSpace b = false) :
    isPerlSpace (toUpper b) = false := by
  unfold isPerlSpace at *
  simp only [Bool.or_eq_false_iff, beq_eq_false_iff_ne] at *
  obtain ⟨⟨⟨⟨h1, h2⟩, h3⟩, h4⟩, h5⟩ := h
  exact ⟨⟨⟨⟨toUpper_ne (by decide) h1, toUpper_ne (by decide) h2⟩, toUpper_ne (by decide) h3⟩,
    toUpper_ne (by decide) h4⟩, toUpper_ne (by decide) h5⟩

section Entry

variable {r : Registration} {ip : Bytes} (hne : ip ≠ []) (hip : ∀ b ∈ ip, isPerlSpace b = false)
include hne hip

theorem Registration.entry_ok : EntryOk (r.entry ip) ∧ ¬Commented (r.entry ip) := by
  obtain ⟨c, t, ht⟩ := List.exists_cons_of_ne_nil r.mac_ne
  obtain ⟨b, i, hi⟩ := List.exists_cons_of_ne_nil hne
  have h10 : 10 ∉ ip := fun h => absurd (hip 10 h) (by decide)
  refine ⟨⟨?_, ?_, ?_, ?_⟩, ?_⟩
  · exact fun h => r.mac_ne (List.map_eq_nil_iff.mp h)
  · intro x hx
    obtain ⟨y, hy, rfl⟩ := List.mem_map.mp hx
    exact isPerlSpace_toUpper (r.mac_word y hy)
  · intro x hx
    unfold Registration.entry at hx
    rw [hi] at hx
    obtain rfl := Option.some.inj hx
    exact hip b (hi ▸ List.mem_cons_self)
  · unfold Registration.entry
    intro hmem
    rcases List.mem_append.mp hmem with hmem | hmem
    · exact h10 hmem
    · have hname := (List.mem_cons.mp hmem).resolve_left (by decide)
      cases hh : r.hostname with
      | none =>
        rw [hh] at hname
        exact h10 hname
      | some n =>
        rw [hh] at hname
        exact r.hostname_line n hh hname
  · unfold Commented Registration.entry
    have hhead := r.mac_head
    rw [ht] at hhead ⊢
    rw [List.map_cons]
    rintro (h | h)
    · exact toUpper_ne (by decide) (fun e => hhead.1 (congrArg some e)) (Option.some.inj h)
    · exact toUpper_ne (by decide) (fun e => hhead.2 (congrArg some e)) (Option.some.inj h)

theorem Registration.addressOf_entry : addressOf (r.entry ip).2 = ip := by
  obtain ⟨b, i, rfl⟩ := List.exists_cons_of_ne_nil hne
  have hb : isPerlSpace b = false := hip b List.mem_cons_self
  have hword : ∀ x ∈ b :: i, (!isPerlSpace x) = true := fun x hx => by rw [hip x hx]; rfl
  unfold addressOf perlSplitSpace Registration.entry
  dsimp only
  rw [List.cons_append, List.dropWhile_cons_of_neg (by rw [hb]; exact Bool.false_ne_true),
    ← List.cons_append, List.takeWhile_append_of_pos hword, List.takeWhile_cons_of_neg (by decide),
    List.append_nil]

end Entry

/-- A registration that changes the file. -/
theorem Registration.run_cases (file : Bytes) (r : Registration) : r.run file = file ∨
    ∃ ip, (getIp (parseEther file) r.cfg r.leases (r.mac.map toUpper)).2 = some ip ∧
      ∀ x ∈ parseEther (r.run file), x ∈ parseEther file ∨ x = r.entry ip := by
  unfold Registration.run
  dsimp only
  by_cases hskip : r.mac = ascii "--sync" ∨ r.mac = ascii "-s" ∨ r.mac.map toUpper = ascii "?" ∨
      (parseEther file).any (fun e => e.1 == r.mac.map toUpper) ∨ r.outcome.granted = false
  · exact .inl (if_pos hskip)
  · rw [if_neg hskip]
    cases hip : (getIp (parseEther file) r.cfg r.leases (r.mac.map toUpper)).2 with
    | none => exact .inl rfl
    | some ip =>
      dsimp only
      split_ifs
      · obtain ⟨hne, hword⟩ := getIp_word hip
        refine .inr ⟨ip, rfl, fun x hx => ?_⟩
        obtain ⟨hok, hplain⟩ := Registration.entry_ok (r := r) hne hword
        obtain ⟨hall, hn⟩ := parseEther_ok file
        have hperm := r.outcome.keys_perm (parseEther file)
        have hkey : (r.entry ip).1 ∉ (r.outcome.keys (parseEther file)).map Prod.fst := by
          rw [(hperm.map Prod.fst).mem_iff]
          intro hmem
          obtain ⟨e, he, hek⟩ := List.mem_map.mp hmem
          simp only [not_or] at hskip
          exact hskip.2.2.2.1 (List.any_eq_true.mpr ⟨e, he, beq_iff_eq.mpr hek⟩)
        have htable := parseEther_insertEther (fun e he => hall e (hperm.mem_iff.mp he))
          ((hperm.map Prod.fst).nodup_iff.mpr hn) hok hplain hkey
        have hx : x ∈ parseEther (insertEther (r.outcome.keys (parseEther file))
            ((r.entry ip).1 ++ 32 :: (r.entry ip).2)) := hx
        rw [htable] at hx
        rcases List.mem_append.mp hx with hx | hx
        · exact .inl (hperm.mem_iff.mp (List.mem_of_mem_filter hx))
        · exact .inr (List.mem_singleton.mp hx)
      · exact .inl rfl

/-- What two hosts share after a registration, they have shared before. -/
theorem Registration.run_shared {file : Bytes} {r : Registration} {x y : Bytes × Bytes}
    (hx : x ∈ parseEther (r.run file)) (hy : y ∈ parseEther (r.run file)) (hkey : x.1 ≠ y.1)
    (h : addressOf x.2 = addressOf y.2) : x ∈ parseEther file ∧ y ∈ parseEther file := by
  rcases r.run_cases file with hrun | ⟨ip, hip, hmem⟩
  · rw [hrun] at hx hy
    exact ⟨hx, hy⟩
  · obtain ⟨hne, hword⟩ := getIp_word hip
    have hfree := (getIp_some hip).1
    have hnew : ∀ e ∈ parseEther file, addressOf e.2 ≠ addressOf (r.entry ip).2 := by
      intro e he heq
      rw [Registration.addressOf_entry hne hword] at heq
      have hused : isUsed (parseEther file) ip = true :=
        List.any_eq_true.mpr ⟨e, he, by rw [heq, beq_self_eq_true]⟩
      exact Bool.false_ne_true (hfree.symm.trans hused)
    rcases hmem x hx with hx | rfl <;> rcases hmem y hy with hy | rfl
    · exact ⟨hx, hy⟩
    · exact absurd h (hnew x hx)
    · exact absurd h.symm (hnew y hy)
    · exact absurd rfl hkey

/-- Hosts that have one address after a run of registrations, as a text, have had it before. -/
theorem shared_run (regs : List Registration) (file : Bytes) :
    ∀ x ∈ parseEther (regs.foldl Registration.run file),
      ∀ y ∈ parseEther (regs.foldl Registration.run file),
      x.1 ≠ y.1 → addressOf x.2 = addressOf y.2 → x ∈ parseEther file ∧ y ∈ parseEther file := by
  induction regs generalizing file with
  | nil => exact fun x hx y hy _ _ => ⟨hx, hy⟩
  | cons r regs ih =>
    intro x hx y hy hkey h
    obtain ⟨hx, hy⟩ := ih (r.run file) x hx y hy hkey h
    exact Registration.run_shared hx hy hkey h

/-! ## Addresses as numbers -/

/-- Two texts for the same address of a network: `10.0.0.1` and `10.0.0.01`. -/
def SameNumber (a b : Bytes) : Prop :=
  ∃ network s t, a = inNetwork network s ∧ b = inNetwork network t ∧
    ((∀ c ∈ s, isDigit c = true) ∧ ∀ c ∈ t, isDigit c = true) ∧ digitsVal s = digitsVal t

/-- The registrations of a server whose range is between two texts. -/
def AllInRange (min max : IntText) (regs : List Registration) : Prop :=
  ∀ r ∈ regs, r.cfg.minip = some min ∧ r.cfg.maxip = some max ∧ DottedQuads r.leases

theorem inNetwork_inj {m n s t : Bytes} (hs : 46 ∉ s) (ht : 46 ∉ t)
    (h : inNetwork m s = inNetwork n t) : m = n ∧ s = t := by
  have hrev := congrArg (fun l : Bytes => l.reverse.splitOn 46) h
  unfold inNetwork at hrev h
  simp only [List.reverse_append, List.reverse_cons, List.append_assoc, List.singleton_append] at hrev
  rw [List.splitOn_append_cons_self_of_not_mem (mt List.mem_reverse.mp hs),
    List.splitOn_append_cons_self_of_not_mem (mt List.mem_reverse.mp ht)] at hrev
  obtain rfl := List.reverse_injective (List.cons.inj hrev).1
  exact ⟨List.append_cancel_right h, rfl⟩

theorem decInt_of_digits {i : ℤ} (h : ∀ c ∈ decInt i, isDigit c = true) : decInt i = dec i.toNat := by
  cases i with
  | ofNat n => rfl
  | negSucc n => exact absurd (h 45 List.mem_cons_self) (by decide)

theorem dot_notMem {s : Bytes} (h : ∀ c ∈ s, isDigit c = true) : 46 ∉ s :=
  fun hmem => absurd (h 46 hmem) (by decide)

/-- Numerals of one number are one text. -/
theorem SameNumber.eq {m n : Bytes} {i j : ℤ}
    (h : SameNumber (inNetwork m (decInt i)) (inNetwork n (decInt j))) :
    inNetwork m (decInt i) = inNetwork n (decInt j) := by
  have hdot : ∀ k : ℤ, 46 ∉ decInt k := fun k hmem => decInt_ne (by decide) (by decide) 46 hmem rfl
  obtain ⟨network, s, t, ha, hb, ⟨hs, ht⟩, hval⟩ := h
  obtain ⟨rfl, rfl⟩ := inNetwork_inj (hdot i) (dot_notMem hs) ha
  obtain ⟨rfl, rfl⟩ := inNetwork_inj (hdot j) (dot_notMem ht) hb
  rw [decInt_of_digits hs, decInt_of_digits ht, digitsVal_dec, digitsVal_dec] at hval
  rw [decInt_of_digits hs, decInt_of_digits ht, hval]

/-- A host that was registered has a numeral of the range. -/
theorem registered_run {min max : IntText} (hcounts : CountsIntegers min max)
    (regs : List Registration) : ∀ file : Bytes, AllInRange min max regs →
      ∀ x ∈ parseEther (regs.foldl Registration.run file),
        x ∈ parseEther file ∨ ∃ network i, addressOf x.2 = inNetwork network (decInt i) := by
  induction regs with
  | nil => exact fun _ _ x hx => .inl hx
  | cons r regs ih =>
    intro file hrange x hx
    obtain ⟨⟨hmin, hmax, hl⟩, hrest⟩ := List.forall_mem_cons.mp hrange
    refine (ih (r.run file) hrest x hx).elim (fun hx => ?_) .inr
    rcases r.run_cases file with hrun | ⟨ip, hip, hmem⟩
    · exact .inl (hrun ▸ hx)
    · refine (hmem x hx).imp_right fun hnew => ?_
      obtain ⟨hne, hword⟩ := getIp_word hip
      obtain ⟨-, min', max', network, s, hmin', hmax', -, hs, rfl⟩ := getIp_some hip
      obtain rfl := Option.some.inj (hmin.symm.trans hmin')
      obtain rfl := Option.some.inj (hmax.symm.trans hmax')
      obtain ⟨i, -, rfl⟩ := (mem_tried hcounts hl).mp hs
      exact ⟨network, i, by rw [hnew, Registration.addressOf_entry hne hword]⟩

/-! ## The ranges -/

/-- `get_ip` does its work for every table. -/
def Allocates (min max : IntText) : Prop :=
  ∀ (existing : List (Bytes × Bytes)) (rng : DhcpConfig) (network : Bytes) (leases : Leases)
    (mac : Bytes), (existing.map Prod.fst).Nodup → DottedQuads leases → rng.minip = some min →
      rng.maxip = some max → rng.network = some network →
        Allocated existing rng leases mac min.val max.val network

/-- After any run of registrations two hosts have one address only if both had it before, and a new one
has none that is another text for the address of another new one. -/
def NeverShares (min max : IntText) : Prop :=
  ∀ (regs : List Registration) (file : Bytes), AllInRange min max regs →
    ∀ x ∈ parseEther (regs.foldl Registration.run file),
      ∀ y ∈ parseEther (regs.foldl Registration.run file), x.1 ≠ y.1 →
        (addressOf x.2 = addressOf y.2 → x ∈ parseEther file ∧ y ∈ parseEther file) ∧
        (SameNumber (addressOf x.2) (addressOf y.2) → x ∈ parseEther file ∨ y ∈ parseEther file)

theorem neverShares_of_counts {min max : IntText} (hcounts : CountsIntegers min max) :
    NeverShares min max := by
  intro regs file hrange x hx y hy hkey
  refine ⟨shared_run regs file x hx y hy hkey, fun hsame => ?_⟩
  rcases registered_run hcounts regs file hrange x hx with hold | ⟨m, i, hi⟩
  · exact .inl hold
  · rcases registered_run hcounts regs file hrange y hy with hold | ⟨n, j, hj⟩
    · exact .inr hold
    · rw [hi, hj] at hsame
      exact .inl (shared_run regs file x hx y hy hkey (by rw [hi, hj, hsame.eq])).1

/-- A network of the table. -/
def labNetwork : Bytes := ascii "10.0.0"

def dhcpOf (min max : IntText) : DhcpConfig := ⟨some min, some max, some labNetwork, by decide⟩

def noLeases : Leases := ⟨fun _ => none, fun _ _ h => nomatch h⟩

/-- A table with these addresses. -/
def entriesAt (texts : List Bytes) : List (Bytes × Bytes) :=
  texts.dedup.map fun s => (s, inNetwork labNetwork s)

theorem nodup_entriesAt (texts : List Bytes) : ((entriesAt texts).map Prod.fst).Nodup := by
  unfold entriesAt
  rw [List.map_map]
  exact (List.map_id _).symm ▸ texts.nodup_dedup

/-- Digits with a sign. -/
def IsNumber (s : Bytes) : Prop := ∀ b ∈ s, isDigit b = true ∨ b = 45

theorem IsNumber.addressOf {s : Bytes} (h : IsNumber s) :
    addressOf (inNetwork labNetwork s) = inNetwork labNetwork s := by
  have hword : ∀ b ∈ inNetwork labNetwork s, (!isPerlSpace b) = true := by
    refine List.forall_mem_append.mpr ⟨by decide, List.forall_mem_cons.mpr ⟨by decide, fun b hb => ?_⟩⟩
    rcases h b hb with hdigit | rfl
    · rw [isPerlSpace_of_isDigit hdigit]
      rfl
    · decide
  exact List.takeWhile_eq_self_iff.mpr hword

theorem isUsed_entriesAt {texts : List Bytes} (h : ∀ t ∈ texts, IsNumber t) (s : Bytes) :
    isUsed (entriesAt texts) (inNetwork labNetwork s) = true ↔ s ∈ texts := by
  unfold isUsed entriesAt
  rw [List.any_map, List.any_eq_true]
  constructor
  · rintro ⟨t, ht, hst⟩
    have ht := List.mem_dedup.mp ht
    have hst : inNetwork labNetwork s = inNetwork labNetwork t :=
      (beq_iff_eq.mp hst).trans (h t ht).addressOf
    rwa [(List.cons.inj (List.append_cancel_left hst)).2]
  · exact fun hs => ⟨s, List.mem_dedup.mpr hs, beq_iff_eq.mpr (h s hs).addressOf.symm⟩

theorem getIp_dhcpOf (existing : List (Bytes × Bytes)) (min max : IntText) (mac : Bytes) :
    (getIp existing (dhcpOf min max) noLeases mac).1 = 1 ↔
      ∃ s ∈ perlRange min max, isUsed existing (inNetwork labNetwork s) = false := by
  rw [getIp_eq rfl rfl rfl, show tried min max (noLeases.ip mac) = perlRange min max from rfl]
  cases hfind : (perlRange min max).find? fun i => !isUsed existing (inNetwork labNetwork i) with
  | none =>
    refine iff_of_false (show (0 : ℤ) ≠ 1 by decide) fun ⟨s, hs, hfree⟩ => ?_
    exact absurd (List.find?_eq_none.mp hfind s hs) (by rw [hfree]; decide)
  | some s =>
    exact iff_of_true rfl ⟨s, List.mem_of_find?_eq_some hfind, by simpa using List.find?_some hfind⟩

theorem counts_of_allocates {min max : IntText} (h : Allocates min max) : CountsIntegers min max := by
  have halloc : ∀ texts : List Bytes, (∀ t ∈ texts, IsNumber t) →
      ((∃ s ∈ perlRange min max, s ∉ texts) ↔
        ∃ i, (min.val ≤ i ∧ i ≤ max.val) ∧ decInt i ∉ texts) := by
    intro texts htexts
    have hfound := (h (entriesAt texts) (dhcpOf min max) labNetwork noLeases [] (nodup_entriesAt texts)
      (fun _ _ h => nomatch h) rfl rfl rfl).found
    have hunused : ∀ s, isUsed (entriesAt texts) (inNetwork labNetwork s) = false ↔ s ∉ texts := by
      intro s
      rw [← isUsed_entriesAt htexts s, Bool.not_eq_true]
    rw [getIp_dhcpOf] at hfound
    simpa only [Unused, hunused] using hfound
  refine perlRange_counts_iff.mp fun s => ⟨fun hs => ?_, ?_⟩
  · -- a table that has all numerals of the range
    by_contra hno
    have hnumber : ∀ t ∈ decInts min.val max.val, IsNumber t := fun t ht => by
      obtain ⟨i, -, rfl⟩ := mem_decInts.mp ht
      exact decInt_bytes i
    obtain ⟨i, hi, hfree⟩ := (halloc _ hnumber).mp ⟨s, hs, mt mem_decInts.mp hno⟩
    exact hfree (mem_decInts.mpr ⟨i, hi, rfl⟩)
  · -- a table that has all texts of the range
    rintro ⟨i, hi, rfl⟩
    by_contra hno
    obtain ⟨s, hs, hfree⟩ :=
      (halloc (perlRange min max) fun t ht => perlRange_bytes ht).mpr ⟨i, hi, hno⟩
    exact hfree hs

/-- **Addresses are apart** exactly between ends where Perl counts integers. -/
theorem addresses_apart_iff (min max : IntText) :
    Allocates min max ∧ NeverShares min max ↔ CountsIntegers min max :=
  ⟨fun h => counts_of_allocates h.1, fun h => ⟨fun _ _ _ _ _ _ hl => getIp_spec h hl,
    neverShares_of_counts h⟩⟩

def text01 : IntText := ⟨[], ascii "01", by decide, by decide, by decide, by decide⟩

def text10 : IntText := ⟨[], ascii "10", by decide, by decide, by decide, by decide⟩

/-- One host has a lease. -/
def labLeases : Leases where
  ip mac := if mac = ascii "0A" then some (dottedQuad 10 0 0 1) else none
  ip_bytes := by
    intro mac a ha b hb
    split_ifs at ha
    · obtain rfl := Option.some.inj ha
      exact (by decide : ∀ b ∈ dottedQuad 10 0 0 1, isDigit b = true ∨ b = 46) b hb
    · cases ha

theorem labLeases_dotted : DottedQuads labLeases := by
  intro mac ip h
  have h : (if mac = ascii "0A" then some (dottedQuad 10 0 0 1) else none) = some ip := h
  split_ifs at h
  exact ⟨10, 0, 0, 1, (Option.some.inj h).symm⟩

/-- The host with the lease. -/
def leaseHost : Registration where
  mac := ascii "0a"
  mac_ne := by decide
  mac_word := by decide
  mac_head := by decide
  hostname := some (ascii "pc1")
  hostname_line := by decide
  cfg := dhcpOf text01 text10
  leases := labLeases
  outcome := calmOutcome

/-- A host without. -/
def newHost : Registration := { leaseHost with
  mac := ascii "0b"
  mac_ne := by decide
  mac_word := by decide
  mac_head := by decide
  hostname := some (ascii "pc2")
  hostname_line := by decide }

def twoHosts : List (Bytes × Bytes) :=
  [(ascii "0A", ascii "10.0.0.1 pc1"), (ascii "0B", ascii "10.0.0.01 pc2")]

/-- Between `01` and `10` the two hosts get `10.0.0.1` and `10.0.0.01`. -/
theorem addresses_not_apart :
    parseEther ([leaseHost, newHost].foldl Registration.run []) = twoHosts ∧
    SameNumber (addressOf (ascii "10.0.0.1 pc1")) (addressOf (ascii "10.0.0.01 pc2")) ∧
    ¬NeverShares text01 text10 ∧ ¬Allocates text01 text10 := by
  have hrun : parseEther ([leaseHost, newHost].foldl Registration.run []) = twoHosts := by
    decide +kernel
  have hsame : SameNumber (addressOf (ascii "10.0.0.1 pc1")) (addressOf (ascii "10.0.0.01 pc2")) :=
    ⟨labNetwork, ascii "1", ascii "01", by decide, by decide, by decide, by decide⟩
  refine ⟨hrun, hsame, fun h => ?_, fun h => ?_⟩
  · have hrange : AllInRange text01 text10 [leaseHost, newHost] :=
      List.forall_mem_cons.mpr ⟨⟨rfl, rfl, labLeases_dotted⟩,
        List.forall_mem_singleton.mpr ⟨rfl, rfl, labLeases_dotted⟩⟩
    have hold := (h [leaseHost, newHost] [] hrange (ascii "0A", ascii "10.0.0.1 pc1")
      (hrun ▸ List.mem_cons_self) (ascii "0B", ascii "10.0.0.01 pc2")
      (hrun ▸ List.mem_cons_of_mem _ List.mem_cons_self) (by decide)).2 hsame
    exact (by decide : ¬((ascii "0A", ascii "10.0.0.1 pc1") ∈ parseEther [] ∨
      (ascii "0B", ascii "10.0.0.01 pc2") ∈ parseEther [])) hold
  · rcases counts_of_allocates h with hhead | ⟨hzero, -⟩ | ⟨hlen, -⟩
    · exact hhead rfl
    · exact absurd hzero (by decide)
    · exact absurd hlen (by decide)

end LinboxRescue
