import LinboxRescue.Admin.Lbs

/-!
# Adding a host to `dhcpd.conf` (`src/server/admin/perl/check_add_host`)

The file is split at the line where the braces close, its lines are searched for the addresses of the
host, and if they are not there the block of the host is written between the two parts.

1. `getCfgInfo_eq`: the split keeps the lines, and where it is.
2. `dhcpUpdate`: what the file should be, with the words of the file for its declarations.
3. `checkDhcp_iff`: when that is what is written.
-/

namespace LinboxRescue

/-! ## `get_cfg_info` -/

/-- `/^[^\#]*c/`. -/
def hasBefore (c : UInt8) (l : Bytes) : Bool := (l.takeWhile (· ≠ 35)).contains c

structure CfgInfo where
  phase : ℕ
  par : ℤ
  before : List Bytes
  after : List Bytes

/-- The braces of a line are counted: one of each kind. -/
def CfgInfo.braces (s : CfgInfo) (l : Bytes) : CfgInfo :=
  let s := if hasBefore 123 l then { s with par := s.par + 1, phase := 1 } else s
  if hasBefore 125 l then { s with par := s.par - 1 } else s

/-- One line of the file. -/
def CfgInfo.line (s : CfgInfo) (l : Bytes) : CfgInfo :=
  let s :=
    if s.phase = 0 ∨ s.phase = 1 then
      let s := s.braces l
      if s.par = 0 ∧ s.phase = 1 then { s with phase := 2 } else { s with before := s.before ++ [l] }
    else s
  if s.phase = 2 then { s with after := s.after ++ [l] } else s

/-- `get_cfg_info`: the lines before the new block, and after it. -/
def getCfgInfo (file : Option Bytes) : List Bytes × List Bytes :=
  let s := (perlLines (file.getD [])).foldl CfgInfo.line ⟨0, 0, [], []⟩
  (s.before, s.after)

/-! ## `insert_dhcp_one` -/

/-- `/^[Yy1Oo]/`. -/
def isTrue (v : Bytes) : Bool := v.head?.any fun b => b ∈ ascii "Yy1Oo"

def unlines (ls : List Bytes) : Bytes := ls.flatMap (· ++ [10])

/-- The lines of a block that depend on `lbs.conf`. -/
def hostOptions (conf : Ini) (name : Bytes) : Bytes :=
  let dhcp := ascii "dhcp"
  (if iniHasKey conf dhcp (ascii "tftpserver") then
    ascii "\t next-server " ++ iniGetVal conf dhcp (ascii "tftpserver") ++ ascii ";\n" else []) ++
  (if iniHasKey conf dhcp (ascii "filename") then
    ascii "\t filename \"" ++ iniGetVal conf dhcp (ascii "filename") ++ ascii "\";\n" else []) ++
  (if isTrue (iniGetVal conf dhcp (ascii "optionhostname")) then
    ascii "\t option host-name \"" ++ name ++ ascii "\";\n" else [])

/-- The block of a host. `value` is the entry of `%ether`. -/
def hostBlock (conf : Ini) (mac value : Bytes) : Bytes :=
  let ip := (perlSplitSpace value).1
  let name := (perlSplitSpace (perlSplitSpace value).2).1
  ascii "host " ++ name ++ ascii "\n\t\x7b\n" ++
  ascii "\t hardware ethernet " ++ mac ++ ascii ";\n" ++
  ascii "\t fixed-address " ++ ip ++ ascii ";\n" ++
  hostOptions conf name ++ ascii "\t\x7d\n\n"

def insertDhcpOne (file : Option Bytes) (conf : Ini) (mac ip value : Bytes) : Option Bytes :=
  if ip = ascii "Dynamic" then file
  else some (unlines (getCfgInfo file).1 ++ hostBlock conf mac value ++ unlines (getCfgInfo file).2)

/-! ## The search -/

/-- A pattern of one byte after the other. -/
def matchAt : List (UInt8 → Bool) → Bytes → Bool
  | [], _ => true
  | _ :: _, [] => false
  | p :: ps, b :: t => p b && matchAt ps t

/-- It matches somewhere. -/
def hasMatch (ps : List (UInt8 → Bool)) (s : Bytes) : Bool := s.tails.any (matchAt ps)

/-- Text in a pattern, with no special bytes but dots. -/
def interpolated (s : Bytes) : List (UInt8 → Bool) :=
  s.map fun c => if c = 46 then (· != 10) else (· == c)

/-- `HARDWARE\sETHERNET\s$mac`. -/
def hardwarePattern (mac : Bytes) : List (UInt8 → Bool) :=
  interpolated (ascii "HARDWARE") ++ isPerlSpace :: (interpolated (ascii "ETHERNET") ++
    isPerlSpace :: interpolated mac)

/-- `FIXED-ADDRESS\s$ip`. -/
def fixedPattern (ip : Bytes) : List (UInt8 → Bool) :=
  interpolated (ascii "FIXED-ADDRESS") ++ isPerlSpace :: interpolated ip

/-- `$found` after one more line. -/
def foundIn (mac ip : Bytes) (found : ℕ) (l : Bytes) : ℕ :=
  let l := l.map toUpper
  let found := if hasMatch (hardwarePattern mac) l then 1 else found
  if hasMatch (fixedPattern ip) l then 2 else found

/-- The last part of the program, if there is a file or not. -/
def checkDhcp (file : Option Bytes) (conf : Ini) (mac ip value : Bytes) : Option Bytes :=
  let found :=
    match file with
    | some text => (perlLines text).foldl (foundIn mac ip) 0
    | none => 0
  if found = 0 then insertDhcpOne file conf mac ip value else file

/-! ## What the file should be -/

def flushWord (w : Bytes) : List Bytes := if w = [] then [] else [w]

/-- The words of a line: without comments, with the brackets, commas and semicolons as words and
strings in one word. `w` was read before. -/
def dhcpWords (w : Bytes) (quoted : Bool) : Bytes → List Bytes
  | [] => flushWord w
  | b :: t =>
    if quoted then
      if b = 34 then (w ++ [b]) :: dhcpWords [] false t else dhcpWords (w ++ [b]) true t
    else if b = 35 then flushWord w
    else if isPerlSpace b then flushWord w ++ dhcpWords [] false t
    else if b = 34 then flushWord w ++ dhcpWords [b] true t
    else if b ∈ ascii ",;\x7b\x7d" then flushWord w ++ [b] :: dhcpWords [] false t
    else dhcpWords (w ++ [b]) false t

def lineWords (l : Bytes) : List Bytes := dhcpWords [] false (l.map toUpper)

/-- `hardware ethernet m`. -/
def hardwareAddresses (ws : List Bytes) : List Bytes :=
  ws.tails.filterMap fun
    | k :: e :: m :: _ => if k = ascii "HARDWARE" ∧ e = ascii "ETHERNET" then some m else none
    | _ => none

/-- Addresses with commas between them. -/
def addressList : List Bytes → List Bytes
  | a :: [44] :: t => a :: addressList t
  | a :: _ => [a]
  | [] => []

/-- `fixed-address a, b`. -/
def fixedAddresses (ws : List Bytes) : List Bytes :=
  ws.tails.flatMap fun
    | k :: t => if k = ascii "FIXED-ADDRESS" then addressList t else []
    | [] => []

/-- The file declares the hardware address or the fixed address. -/
def Declares (text mac ip : Bytes) : Prop :=
  mac ∈ hardwareAddresses ((perlLines text).flatMap lineWords) ∨
    ip ∈ fixedAddresses ((perlLines text).flatMap lineWords)

instance (text mac ip : Bytes) : Decidable (Declares text mac ip) := inferInstanceAs (Decidable (_ ∨ _))

/-- The braces that are open after some words, unless the outermost one was closed. -/
def depthAfter : ℕ → List Bytes → Option ℕ
  | d, [] => some d
  | d, w :: ws =>
    if w = [123] then depthAfter (d + 1) ws
    else if w = [125] then if d = 1 then none else depthAfter (d - 1) ws
    else depthAfter d ws

/-- The lines before the one that first closes the outermost brace, and the rest. -/
def splitAtClose : ℕ → List Bytes → List Bytes × List Bytes
  | _, [] => ([], [])
  | d, l :: ls =>
    match depthAfter d (lineWords l) with
    | none => ([], l :: ls)
    | some d' => (l :: (splitAtClose d' ls).1, (splitAtClose d' ls).2)

/-- What should become of the file. -/
def dhcpUpdate (text : Bytes) (conf : Ini) (mac ip value : Bytes) : Bytes :=
  if Declares text mac ip then text
  else
    let (before, after) := splitAtClose 0 (perlLines text)
    unlines before ++ hostBlock conf mac value ++ unlines after

/-! ## The split of the lines -/

/-- As many of the lines have an opening brace as have a closing one, and some have. -/
def LinesClose (ls : List Bytes) : Prop :=
  0 < ls.countP (hasBefore 123) ∧ ls.countP (hasBefore 123) = ls.countP (hasBefore 125)

instance (ls : List Bytes) : Decidable (LinesClose ls) := inferInstanceAs (Decidable (_ ∧ _))

/-- Line `i` is the first one up to which that is so, or `i` is the end. -/
def ClosesAt (ls : List Bytes) (i : ℕ) : Prop :=
  (i < ls.length → LinesClose (ls.take (i + 1))) ∧ ∀ k < i, ¬LinesClose (ls.take (k + 1))

theorem ClosesAt.unique {ls : List Bytes} {i j : ℕ} (hi : i ≤ ls.length) (hj : j ≤ ls.length)
    (h : ClosesAt ls i) (h' : ClosesAt ls j) : i = j := by
  rcases lt_trichotomy i j with hlt | heq | hlt
  · exact absurd (h.1 (by omega)) (h'.2 i hlt)
  · exact heq
  · exact absurd (h'.1 (by omega)) (h.2 j hlt)

/-- What `get_cfg_info` knows before the braces have closed. -/
def CfgInfo.inside (ls : List Bytes) : CfgInfo :=
  ⟨if 0 < ls.countP (hasBefore 123) then 1 else 0,
    ls.countP (hasBefore 123) - ls.countP (hasBefore 125), ls, []⟩

theorem CfgInfo.braces_inside (ls : List Bytes) (l : Bytes) :
    (CfgInfo.inside ls).braces l = { CfgInfo.inside (ls ++ [l]) with before := ls } := by
  unfold CfgInfo.braces CfgInfo.inside
  rw [List.countP_append, List.countP_append, List.countP_singleton, List.countP_singleton]
  cases hasBefore 123 l <;> cases hasBefore 125 l <;> simp
  · ring
  · ring

theorem CfgInfo.line_inside (ls : List Bytes) (l : Bytes) : (CfgInfo.inside ls).line l =
    if LinesClose (ls ++ [l]) then ⟨2, 0, ls, [l]⟩ else CfgInfo.inside (ls ++ [l]) := by
  have hphase : ∀ ls, (CfgInfo.inside ls).phase = 0 ∨ (CfgInfo.inside ls).phase = 1 := by
    intro ls
    unfold CfgInfo.inside
    dsimp only
    split_ifs
    · exact .inr rfl
    · exact .inl rfl
  have hcond : (CfgInfo.inside (ls ++ [l])).par = 0 ∧ (CfgInfo.inside (ls ++ [l])).phase = 1 ↔
      LinesClose (ls ++ [l]) := by
    unfold CfgInfo.inside LinesClose
    dsimp only
    split_ifs with hopen
    · exact ⟨fun h => ⟨hopen, by omega⟩, fun h => ⟨by omega, rfl⟩⟩
    · exact ⟨fun h => absurd h.2 (by decide), fun h => absurd h.1 hopen⟩
  have hne : (CfgInfo.inside (ls ++ [l])).phase ≠ 2 := by
    have := hphase (ls ++ [l])
    omega
  unfold CfgInfo.line
  rw [if_pos (hphase ls), CfgInfo.braces_inside]
  dsimp only
  by_cases hc : LinesClose (ls ++ [l])
  · rw [if_pos hc, if_pos (hcond.mpr hc), if_pos rfl, (hcond.mpr hc).1]
    rfl
  · rw [if_neg hc, if_neg (mt hcond.mp hc), if_neg hne]
    rfl

/-- What it knows after some lines. -/
inductive CfgInfo.At (ls : List Bytes) : CfgInfo → Prop
  | inside (closes : ∀ k < ls.length, ¬LinesClose (ls.take (k + 1))) : CfgInfo.At ls (.inside ls)
  | closed (i : ℕ) (lt : i < ls.length) (par : ℤ) (closes : ClosesAt ls i) :
    CfgInfo.At ls ⟨2, par, ls.take i, ls.drop i⟩

theorem CfgInfo.At.line {ls : List Bytes} {s : CfgInfo} (h : CfgInfo.At ls s) (l : Bytes) :
    CfgInfo.At (ls ++ [l]) (s.line l) := by
  have hlen : (ls ++ [l]).length = ls.length + 1 := List.length_append
  have htake : ∀ k < ls.length, (ls ++ [l]).take (k + 1) = ls.take (k + 1) := fun k hk =>
    List.take_append_of_le_length hk
  have hall : (ls ++ [l]).take (ls.length + 1) = ls ++ [l] := List.take_of_length_le hlen.le
  cases h with
  | inside closes =>
    have hbefore : ∀ k < ls.length, ¬LinesClose ((ls ++ [l]).take (k + 1)) := fun k hk => by
      rw [htake k hk]
      exact closes k hk
    rw [CfgInfo.line_inside]
    split_ifs with hc
    · have hclosed := CfgInfo.At.closed ls.length (by omega) 0 ⟨fun _ => hall.symm ▸ hc, hbefore⟩
      rwa [List.take_left, List.drop_left] at hclosed
    · refine .inside fun k hk => ?_
      rcases Nat.lt_succ_iff_lt_or_eq.mp (hlen ▸ hk) with hk | rfl
      · exact hbefore k hk
      · rw [hall]
        exact hc
  | closed i lt par closes =>
    have hclosed : CfgInfo.At (ls ++ [l]) ⟨2, par, (ls ++ [l]).take i, (ls ++ [l]).drop i⟩ := by
      refine .closed i (by omega) par ⟨fun _ => ?_, fun k hk => ?_⟩
      · rw [htake i lt]
        exact closes.1 lt
      · rw [htake k (hk.trans lt)]
        exact closes.2 k hk
    rwa [List.take_append_of_le_length lt.le, List.drop_append_of_le_length lt.le] at hclosed

theorem CfgInfo.at_foldl (ls : List Bytes) : CfgInfo.At ls (ls.foldl CfgInfo.line ⟨0, 0, [], []⟩) := by
  induction ls using List.reverseRecOn with
  | nil => exact .inside fun k hk => absurd hk (Nat.not_lt_zero k)
  | append_singleton ls l ih =>
    rw [List.foldl_append]
    exact ih.line l

/-- **`get_cfg_info`** splits the lines where the braces close, line by line. -/
theorem getCfgInfo_eq (file : Option Bytes) : ∃ i ≤ (perlLines (file.getD [])).length,
    getCfgInfo file = ((perlLines (file.getD [])).take i, (perlLines (file.getD [])).drop i) ∧
      ClosesAt (perlLines (file.getD [])) i := by
  have hat := CfgInfo.at_foldl (perlLines (file.getD []))
  unfold getCfgInfo
  dsimp only
  generalize (perlLines (file.getD [])).foldl CfgInfo.line ⟨0, 0, [], []⟩ = s at hat
  cases hat with
  | inside closes =>
    refine ⟨_, le_rfl, ?_, fun hlt => absurd hlt (Nat.lt_irrefl _), closes⟩
    rw [List.take_length, List.drop_length]
    rfl
  | closed i lt par closes => exact ⟨i, lt.le, rfl, closes⟩

/-! ## What the search finds -/

/-- The same text, with any byte for a dot of the first one. -/
def LooksLike (w x : Bytes) : Prop := List.Forall₂ (fun c b => c = 46 ∨ b = c) w x

/-- A line has the keywords with one white space after each, and then a text like the address. -/
inductive Spells (mac ip l : Bytes) : Prop
  | hardware (a c x : Bytes) (s t : UInt8) (hs : isPerlSpace s = true) (ht : isPerlSpace t = true)
      (like : LooksLike mac x)
      (line : l.map toUpper = a ++ ascii "HARDWARE" ++ s :: (ascii "ETHERNET" ++ t :: (x ++ c)))
  | fixed (a c x : Bytes) (s : UInt8) (hs : isPerlSpace s = true) (like : LooksLike ip x)
      (line : l.map toUpper = a ++ ascii "FIXED-ADDRESS" ++ s :: (x ++ c))

theorem looksLike_iff_eq {w x : Bytes} (hw : 46 ∉ w) : LooksLike w x ↔ x = w := by
  induction w generalizing x with
  | nil => exact List.forall₂_nil_left_iff
  | cons c w ih =>
    rw [List.mem_cons, not_or] at hw
    unfold LooksLike at *
    rw [List.forall₂_cons_left_iff]
    constructor
    · rintro ⟨b, u, hb, hu, rfl⟩
      rw [(ih hw.2).mp hu, hb.resolve_left (Ne.symm hw.1)]
    · rintro rfl
      exact ⟨c, w, .inr rfl, (ih hw.2).mpr rfl, rfl⟩

theorem matchAt_interpolated {ps : List (UInt8 → Bool)} {w s : Bytes} (hs : 10 ∉ s) :
    matchAt (interpolated w ++ ps) s = true ↔
      ∃ x t, s = x ++ t ∧ LooksLike w x ∧ matchAt ps t = true := by
  induction w generalizing s with
  | nil =>
    constructor
    · exact fun h => ⟨[], s, rfl, .nil, h⟩
    · rintro ⟨x, t, rfl, hx, ht⟩
      rw [List.forall₂_nil_left_iff.mp hx]
      exact ht
  | cons c w ih =>
    cases s with
    | nil =>
      refine ⟨fun h => absurd h Bool.false_ne_true, ?_⟩
      rintro ⟨x, t, hnil, hx, -⟩
      rw [(List.append_eq_nil_iff.mp hnil.symm).1] at hx
      cases hx
    | cons b s =>
      rw [List.mem_cons, not_or] at hs
      have hb : (if c = 46 then (· != 10) else (· == c)) b = true ↔ c = 46 ∨ b = c := by
        split_ifs with hc
        · simp [hc, Ne.symm hs.1]
        · simp [hc]
      show ((if c = 46 then (· != 10) else (· == c)) b && matchAt (interpolated w ++ ps) s) = true ↔ _
      rw [Bool.and_eq_true, hb, ih hs.2]
      constructor
      · rintro ⟨hc, x, t, rfl, hx, ht⟩
        exact ⟨b :: x, t, rfl, .cons hc hx, ht⟩
      · rintro ⟨x, t, hst, hx, ht⟩
        obtain ⟨b', x', hc, hx', rfl⟩ := List.forall₂_cons_left_iff.mp hx
        obtain ⟨rfl, rfl⟩ := List.cons_eq_cons.mp hst
        exact ⟨hc, x', t, rfl, hx', ht⟩

theorem matchAt_word {ps : List (UInt8 → Bool)} {w s : Bytes} (hw : 46 ∉ w) (hs : 10 ∉ s) :
    matchAt (interpolated w ++ ps) s = true ↔ ∃ t, s = w ++ t ∧ matchAt ps t = true := by
  rw [matchAt_interpolated hs]
  constructor
  · rintro ⟨x, t, rfl, hx, ht⟩
    rw [(looksLike_iff_eq hw).mp hx]
    exact ⟨t, rfl, ht⟩
  · rintro ⟨t, rfl, ht⟩
    exact ⟨w, t, rfl, (looksLike_iff_eq hw).mpr rfl, ht⟩

theorem matchAt_space {ps : List (UInt8 → Bool)} {s : Bytes} : matchAt (isPerlSpace :: ps) s = true ↔
    ∃ b t, s = b :: t ∧ isPerlSpace b = true ∧ matchAt ps t = true := by
  cases s with
  | nil =>
    refine ⟨fun h => absurd h Bool.false_ne_true, ?_⟩
    rintro ⟨_, _, h, -⟩
    cases h
  | cons b s =>
    show (isPerlSpace b && matchAt ps s) = true ↔ _
    rw [Bool.and_eq_true]
    constructor
    · rintro ⟨hb, hm⟩
      exact ⟨b, s, rfl, hb, hm⟩
    · rintro ⟨_, _, h, hb, hm⟩
      obtain ⟨rfl, rfl⟩ := List.cons_eq_cons.mp h
      exact ⟨hb, hm⟩

theorem matchAt_end {w s : Bytes} (hs : 10 ∉ s) :
    matchAt (interpolated w) s = true ↔ ∃ x t, s = x ++ t ∧ LooksLike w x := by
  have h := @matchAt_interpolated [] w s hs
  rw [List.append_nil] at h
  rw [h]
  exact exists₂_congr fun x t => and_congr_right fun _ => and_iff_left rfl

theorem hasMatch_iff {ps : List (UInt8 → Bool)} {s : Bytes} :
    hasMatch ps s = true ↔ ∃ a t, s = a ++ t ∧ matchAt ps t = true := by
  unfold hasMatch
  rw [List.any_eq_true]
  constructor
  · rintro ⟨t, ht, hm⟩
    obtain ⟨a, rfl⟩ := (List.mem_tails t s).mp ht
    exact ⟨a, t, rfl, hm⟩
  · rintro ⟨a, t, rfl, hm⟩
    exact ⟨t, (List.mem_tails t _).mpr (List.suffix_append a t), hm⟩

/-- The two patterns. -/
theorem spells_iff {mac ip l : Bytes} (hl : 10 ∉ l) : Spells mac ip l ↔
    hasMatch (hardwarePattern mac) (l.map toUpper) = true ∨
      hasMatch (fixedPattern ip) (l.map toUpper) = true := by
  have hupper : 10 ∉ l.map toUpper := fun h => by
    obtain ⟨b, hb, h10⟩ := List.mem_map.mp h
    exact toUpper_ne (by decide) (fun e : b = 10 => hl (e ▸ hb)) h10
  have hrest : ∀ {a t : Bytes}, l.map toUpper = a ++ t → 10 ∉ t := fun h ht =>
    hupper (h ▸ List.mem_append_right _ ht)
  rw [hasMatch_iff, hasMatch_iff]
  unfold hardwarePattern fixedPattern
  constructor
  · rintro (⟨a, c, x, s, t, hs, ht, like, line⟩ | ⟨a, c, x, s, hs, like, line⟩)
    · rw [List.append_assoc] at line
      have h1 := hrest line
      have h2 : 10 ∉ ascii "ETHERNET" ++ t :: (x ++ c) := fun h =>
        h1 (List.mem_append_right _ (List.mem_cons_of_mem _ h))
      have h3 : 10 ∉ x ++ c := fun h => h2 (List.mem_append_right _ (List.mem_cons_of_mem _ h))
      refine .inl ⟨a, _, line, (matchAt_word (by decide) h1).mpr ⟨_, rfl,
        matchAt_space.mpr ⟨s, _, rfl, hs, ?_⟩⟩⟩
      exact (matchAt_word (by decide) h2).mpr ⟨_, rfl, matchAt_space.mpr ⟨t, _, rfl, ht,
        (matchAt_end h3).mpr ⟨x, c, rfl, like⟩⟩⟩
    · rw [List.append_assoc] at line
      have h1 := hrest line
      have h2 : 10 ∉ x ++ c := fun h => h1 (List.mem_append_right _ (List.mem_cons_of_mem _ h))
      exact .inr ⟨a, _, line, (matchAt_word (by decide) h1).mpr ⟨_, rfl,
        matchAt_space.mpr ⟨s, _, rfl, hs, (matchAt_end h2).mpr ⟨x, c, rfl, like⟩⟩⟩⟩
  · rintro (⟨a, t, line, hm⟩ | ⟨a, t, line, hm⟩)
    · have h1 := hrest line
      obtain ⟨t, rfl, hm⟩ := (matchAt_word (by decide) h1).mp hm
      obtain ⟨s, t, rfl, hs, hm⟩ := matchAt_space.mp hm
      have h2 : 10 ∉ t := fun h => h1 (List.mem_append_right _ (List.mem_cons_of_mem _ h))
      obtain ⟨u, rfl, hm⟩ := (matchAt_word (by decide) h2).mp hm
      obtain ⟨t, u, rfl, ht, hm⟩ := matchAt_space.mp hm
      have h3 : 10 ∉ u := fun h => h2 (List.mem_append_right _ (List.mem_cons_of_mem _ h))
      obtain ⟨x, c, rfl, like⟩ := (matchAt_end h3).mp hm
      exact .hardware a c x s t hs ht like (by rw [line, List.append_assoc])
    · have h1 := hrest line
      obtain ⟨t, rfl, hm⟩ := (matchAt_word (by decide) h1).mp hm
      obtain ⟨s, t, rfl, hs, hm⟩ := matchAt_space.mp hm
      have h2 : 10 ∉ t := fun h => h1 (List.mem_append_right _ (List.mem_cons_of_mem _ h))
      obtain ⟨x, c, rfl, like⟩ := (matchAt_end h2).mp hm
      exact .fixed a c x s hs like (by rw [line, List.append_assoc])

/-- Some line of the file spells one of the addresses. -/
def Spelled (text mac ip : Bytes) : Prop := ∃ l ∈ perlLines text, Spells mac ip l

theorem foundIn_foldl (mac ip : Bytes) (ls : List Bytes) (hls : ∀ l ∈ ls, 10 ∉ l) (found : ℕ) :
    ls.foldl (foundIn mac ip) found = 0 ↔ found = 0 ∧ ∀ l ∈ ls, ¬Spells mac ip l := by
  induction ls generalizing found with
  | nil => exact ⟨fun h => ⟨h, fun l hl => absurd hl List.not_mem_nil⟩, And.left⟩
  | cons l ls ih =>
    obtain ⟨hl, hls⟩ := List.forall_mem_cons.mp hls
    have hstep : foundIn mac ip found l = 0 ↔ found = 0 ∧ ¬Spells mac ip l := by
      rw [spells_iff hl, not_or]
      unfold foundIn
      dsimp only
      split_ifs with hfixed hhard
      · simp [hfixed]
      · simp [hhard]
      · simp [hfixed, hhard]
    rw [List.foldl_cons, ih hls, hstep, List.forall_mem_cons, and_assoc]

/-- `$found` stays 0 if no line spells an address. -/
theorem found_eq_zero (text mac ip : Bytes) :
    (perlLines text).foldl (foundIn mac ip) 0 = 0 ↔ ¬Spelled text mac ip := by
  rw [foundIn_foldl mac ip _ fun l hl => mem_perlLines hl]
  unfold Spelled
  push Not
  exact and_iff_right rfl

/-! ## The block -/

/-- A host with a static address. The MAC is in upper case. -/
structure NewHost where
  mac : Bytes
  ip : Bytes
  hostname : Bytes
  mac_ne : mac ≠ []
  mac_bytes : ∀ b ∈ mac, isDigit b = true ∨ (65 ≤ b.toNat ∧ b.toNat ≤ 70) ∨ b = 58
  ip_ne : ip ≠ []
  ip_bytes : ∀ b ∈ ip, isDigit b = true ∨ b = 46

/-- Its entry in `%ether`. -/
def NewHost.value (h : NewHost) : Bytes := h.ip ++ 32 :: h.hostname

def hardwareLine (mac : Bytes) : Bytes := ascii "\t hardware ethernet " ++ (mac ++ [59])

/-- The third line of the block has the hardware address. -/
theorem hostBlock_start (conf : Ini) (mac value : Bytes) : ∃ name rest, 10 ∉ name ∧
    hostBlock conf mac value =
      (ascii "host " ++ name) ++ 10 :: (ascii "\t\x7b" ++ 10 :: (hardwareLine mac ++ 10 :: rest)) := by
  refine ⟨(perlSplitSpace (perlSplitSpace value).2).1, ascii "\t fixed-address " ++
    ((perlSplitSpace value).1 ++ (ascii ";\n" ++
      (hostOptions conf (perlSplitSpace (perlSplitSpace value).2).1 ++ ascii "\t\x7d\n\n"))),
    fun h => ?_, ?_⟩
  · exact absurd (List.mem_takeWhile_imp h) (by decide)
  · have hopen : ascii "\n\t\x7b\n" = 10 :: (ascii "\t\x7b" ++ [10]) := rfl
    have hend : ascii ";\n" = [59] ++ [10] := rfl
    unfold hostBlock hardwareLine
    dsimp only
    rw [hopen, hend]
    simp only [List.append_assoc, List.cons_append, List.nil_append]

theorem unlines_append (ls ls' : List Bytes) : unlines (ls ++ ls') = unlines ls ++ unlines ls' :=
  List.flatMap_append

theorem perlLines_unlines_append {ls : List Bytes} (h : ∀ l ∈ ls, 10 ∉ l) (t : Bytes) :
    perlLines (unlines ls ++ t) = ls ++ perlLines t := by
  induction ls with
  | nil => rfl
  | cons l ls ih =>
    obtain ⟨hl, h⟩ := List.forall_mem_cons.mp h
    have hunlines : unlines (l :: ls) ++ t = l ++ 10 :: (unlines ls ++ t) := by
      unfold unlines
      rw [List.flatMap_cons]
      simp only [List.append_assoc, List.cons_append, List.nil_append]
    rw [hunlines, perlLines_line fun b hb e => hl (e ▸ hb), ih h, List.cons_append]

/-- The last line may have no end. -/
theorem length_le_unlines (text : Bytes) : text.length ≤ (unlines (perlLines text)).length := by
  induction text with
  | nil => exact Nat.zero_le _
  | cons b t ih =>
    rw [perlLines]
    split_ifs with hb
    · have hlen : (unlines ([] :: perlLines t)).length = (unlines (perlLines t)).length + 1 := by
        unfold unlines
        rw [List.flatMap_cons, List.length_append]
        exact Nat.add_comm _ _
      rw [hlen, List.length_cons]
      exact Nat.succ_le_succ ih
    · cases hls : perlLines t with
      | nil =>
        rw [hls] at ih
        have hnil : t.length = 0 := Nat.le_zero.mp ih
        rw [List.length_cons, hnil]
        exact Nat.le_add_left 1 1
      | cons l ls =>
        rw [hls] at ih
        exact Nat.succ_le_succ ih

section Words

/-- A byte that only words have. -/
def PlainByte (b : UInt8) : Prop := isPerlSpace b = false ∧ b ≠ 34 ∧ b ≠ 35 ∧ b ∉ ascii ",;\x7b\x7d"

instance (b : UInt8) : Decidable (PlainByte b) := inferInstanceAs (Decidable (_ ∧ _))

theorem dhcpWords_plain {w w' : Bytes} (h : ∀ b ∈ w', PlainByte b) (t : Bytes) :
    dhcpWords w false (w' ++ t) = dhcpWords (w ++ w') false t := by
  induction w' generalizing w with
  | nil => rw [List.append_nil, List.nil_append]
  | cons b w' ih =>
    obtain ⟨⟨hspace, hquote, hhash, hmark⟩, h⟩ := List.forall_mem_cons.mp h
    rw [List.cons_append, dhcpWords, if_neg Bool.false_ne_true, if_neg hhash, hspace,
      if_neg Bool.false_ne_true, if_neg hquote, if_neg hmark, ih h, List.append_assoc,
      List.singleton_append]

/-- A word and the blank after it. -/
theorem dhcpWords_blank {w : Bytes} (hne : w ≠ []) (h : ∀ b ∈ w, PlainByte b) (t : Bytes) :
    dhcpWords [] false (w ++ 32 :: t) = w :: dhcpWords [] false t := by
  rw [dhcpWords_plain h, List.nil_append, dhcpWords, if_neg Bool.false_ne_true, if_neg (by decide),
    if_pos (by decide)]
  unfold flushWord
  rw [if_neg hne, List.singleton_append]

variable (h : NewHost)

theorem NewHost.mac_plain : ∀ b ∈ h.mac, PlainByte b := by
  intro b hb
  have hne : ∀ c, isDigit c = false → ¬(65 ≤ c.toNat ∧ c.toNat ≤ 70) → c ≠ 58 → b ≠ c := by
    rintro c hdigit hhex hcolon rfl
    rcases h.mac_bytes b hb with h1 | h2 | h3
    · exact Bool.false_ne_true (hdigit.symm.trans h1)
    · exact hhex h2
    · exact hcolon h3
  refine ⟨?_, hne _ (by decide) (by decide) (by decide), hne _ (by decide) (by decide) (by decide), ?_⟩
  · unfold isPerlSpace
    simp only [Bool.or_eq_false_iff, beq_eq_false_iff_ne]
    refine ⟨⟨⟨⟨?_, ?_⟩, ?_⟩, ?_⟩, ?_⟩ <;> exact hne _ (by decide) (by decide) (by decide)
  · intro hmark
    have hmark : b ∈ [44, 59, 123, 125] := hmark
    simp only [List.mem_cons, List.not_mem_nil, or_false] at hmark
    rcases hmark with rfl | rfl | rfl | rfl <;>
      exact hne _ (by decide) (by decide) (by decide) rfl

theorem NewHost.mac_upper : h.mac.map toUpper = h.mac := by
  refine (List.map_congr_left fun b hb => if_neg fun hlow => ?_).trans (List.map_id _)
  rcases h.mac_bytes b hb with hdigit | hhex | rfl
  · unfold isDigit at hdigit
    simp at hdigit
    omega
  · omega
  · exact absurd hlow.1 (by decide)

theorem NewHost.lineWords_hardwareLine : lineWords (hardwareLine h.mac) =
    [ascii "HARDWARE", ascii "ETHERNET", h.mac, [59]] := by
  have hupper : (hardwareLine h.mac).map toUpper =
      9 :: 32 :: (ascii "HARDWARE" ++ 32 :: (ascii "ETHERNET" ++ 32 :: (h.mac ++ [59]))) := by
    unfold hardwareLine
    rw [List.map_append, List.map_append, h.mac_upper]
    rfl
  have hstart : ∀ t, dhcpWords [] false (9 :: 32 :: t) = dhcpWords [] false t := fun t => rfl
  unfold lineWords
  rw [hupper, hstart, dhcpWords_blank (by decide) (by decide), dhcpWords_blank (by decide) (by decide),
    dhcpWords_plain h.mac_plain, List.nil_append]
  have hend : dhcpWords h.mac false [59] = flushWord h.mac ++ [[59]] := rfl
  rw [hend]
  unfold flushWord
  rw [if_neg h.mac_ne]
  rfl

/-- A file that has the line declares the address. -/
theorem NewHost.declares_of_mem {text : Bytes} (hmem : hardwareLine h.mac ∈ perlLines text) :
    Declares text h.mac h.ip := by
  obtain ⟨as, bs, hls⟩ := List.append_of_mem hmem
  refine .inl ?_
  unfold hardwareAddresses
  rw [hls, List.flatMap_append, List.flatMap_cons, h.lineWords_hardwareLine]
  refine List.mem_filterMap.mpr ⟨_, (List.mem_tails _ _).mpr (List.suffix_append _ _), ?_⟩
  exact if_pos ⟨rfl, rfl⟩

end Words

/-! ## What is written -/

theorem splitAtClose_append (d : ℕ) (ls : List Bytes) :
    (splitAtClose d ls).1 ++ (splitAtClose d ls).2 = ls := by
  induction ls generalizing d with
  | nil => rfl
  | cons l ls ih =>
    unfold splitAtClose
    cases depthAfter d (lineWords l) with
    | none => rfl
    | some d' => exact congrArg (l :: ·) (ih d')

/-- The file with the block after the first `i` lines. -/
def placed (ls : List Bytes) (block : Bytes) (i : ℕ) : Bytes :=
  unlines (ls.take i) ++ block ++ unlines (ls.drop i)

theorem lt_length_placed (text : Bytes) {block : Bytes} (hne : block ≠ []) (i : ℕ) :
    text.length < (placed (perlLines text) block i).length := by
  have hsplit : (unlines (perlLines text)).length =
      (unlines ((perlLines text).take i)).length + (unlines ((perlLines text).drop i)).length := by
    rw [← List.length_append, ← unlines_append, List.take_append_drop]
  have hle := length_le_unlines text
  have hpos := List.length_pos_iff.mpr hne
  unfold placed
  rw [List.length_append, List.length_append]
  omega

/-- Two places of a block: its third line is a line of the file, or one of its first two. -/
theorem mem_of_place {ls : List Bytes} {i j : ℕ} (hij : i < j) (hj : j ≤ ls.length) {b0 b1 b2 : Bytes}
    {r r' : List Bytes} (h : ls.take i ++ b0 :: b1 :: b2 :: r = ls.take j ++ b0 :: b1 :: r') :
    b2 ∈ ls ∨ b2 = b0 ∨ b2 = b1 := by
  obtain ⟨k, rfl⟩ := Nat.exists_eq_add_of_lt hij
  rw [Nat.add_assoc, List.take_add, List.append_assoc, List.append_cancel_left_eq] at h
  have hsub : ∀ x ∈ (ls.drop i).take (k + 1), x ∈ ls := fun x hx =>
    List.mem_of_mem_drop (List.mem_of_mem_take hx)
  obtain ⟨c, w, hw⟩ := List.exists_cons_of_ne_nil (l := (ls.drop i).take (k + 1))
    (List.ne_nil_of_length_pos (by rw [List.length_take, List.length_drop]; omega))
  rw [hw] at h hsub
  rcases w with _ | ⟨d, _ | ⟨e, w⟩⟩
  · injection h with h0 h
    injection h with h1 h
    injection h with h2 h
    exact .inr (.inr h2)
  · injection h with h0 h
    injection h with h1 h
    injection h with h2 h
    exact .inr (.inl h2)
  · injection h with h0 h
    injection h with h1 h
    injection h with h2 h
    exact .inl (hsub b2 (by rw [h2]; simp))

theorem placed_ne {ls : List Bytes} (hls : ∀ l ∈ ls, 10 ∉ l) {h : NewHost}
    (hnot : hardwareLine h.mac ∉ ls) (conf : Ini) {i j : ℕ} (hij : i < j) (hj : j ≤ ls.length) :
    placed ls (hostBlock conf h.mac h.value) i ≠ placed ls (hostBlock conf h.mac h.value) j := by
  intro heq
  obtain ⟨name, rest, hname, hblock⟩ := hostBlock_start conf h.mac h.value
  have hhost : ∀ b ∈ ascii "host " ++ name, b ≠ 10 := fun b hb e => by
    rcases List.mem_append.mp hb with hb | hb
    · exact absurd (e ▸ hb) (by decide)
    · exact hname (e ▸ hb)
  have hhard : ∀ b ∈ hardwareLine h.mac, b ≠ 10 := fun b hb e => by
    rcases List.mem_append.mp hb with hb | hb
    · exact absurd (e ▸ hb) (by decide)
    · rcases List.mem_append.mp hb with hb | hb
      · exact absurd (h.mac_plain 10 (e ▸ hb)).1 (by decide)
      · exact absurd (e ▸ hb) (by decide)
  have hlines : ∀ k, ∃ r, perlLines (placed ls (hostBlock conf h.mac h.value) k) =
      ls.take k ++ (ascii "host " ++ name) :: ascii "\t\x7b" :: hardwareLine h.mac :: r := by
    intro k
    refine ⟨perlLines (rest ++ unlines (ls.drop k)), ?_⟩
    unfold placed
    rw [List.append_assoc, perlLines_unlines_append fun l hl => hls l (List.mem_of_mem_take hl), hblock]
    simp only [List.append_assoc, List.cons_append]
    rw [← List.append_assoc, perlLines_line hhost, perlLines_line (by decide), perlLines_line hhard]
  obtain ⟨r, hr⟩ := hlines i
  obtain ⟨r', hr'⟩ := hlines j
  rw [heq, hr'] at hr
  rcases mem_of_place hij hj hr.symm with hmem | h0 | h1
  · exact hnot hmem
  · exact absurd (show some (9 : UInt8) = some 104 from congrArg List.head? h0) (by decide)
  · exact absurd (show some (32 : UInt8) = some 123 from congrArg (·[1]?) h1) (by decide)

theorem placed_inj {ls : List Bytes} (hls : ∀ l ∈ ls, 10 ∉ l) {h : NewHost}
    (hnot : hardwareLine h.mac ∉ ls) (conf : Ini) {i j : ℕ} (hi : i ≤ ls.length) (hj : j ≤ ls.length) :
    placed ls (hostBlock conf h.mac h.value) i = placed ls (hostBlock conf h.mac h.value) j ↔
      i = j := by
  refine ⟨fun e => ?_, fun e => e ▸ rfl⟩
  rcases lt_trichotomy i j with hlt | heq | hlt
  · exact absurd e (placed_ne hls hnot conf hlt hj)
  · exact heq
  · exact absurd e.symm (placed_ne hls hnot conf hlt hi)

theorem length_splitAtClose_le (d : ℕ) (ls : List Bytes) :
    (splitAtClose d ls).1.length ≤ ls.length := by
  conv_rhs => rw [← splitAtClose_append d ls]
  rw [List.length_append]
  exact Nat.le_add_right _ _

/-- What should be written for a new host. -/
theorem dhcpUpdate_placed {text mac ip : Bytes} (conf : Ini) (value : Bytes)
    (hd : ¬Declares text mac ip) : dhcpUpdate text conf mac ip value =
      placed (perlLines text) (hostBlock conf mac value)
        (splitAtClose 0 (perlLines text)).1.length := by
  have happend := splitAtClose_append 0 (perlLines text)
  set j := (splitAtClose 0 (perlLines text)).1.length
  have htake : (perlLines text).take j = (splitAtClose 0 (perlLines text)).1 := by
    conv_lhs => rw [← happend]
    exact List.take_left
  have hdrop : (perlLines text).drop j = (splitAtClose 0 (perlLines text)).2 := by
    conv_lhs => rw [← happend]
    exact List.drop_left
  unfold dhcpUpdate placed
  rw [if_neg hd, htake, hdrop]

theorem NewHost.ip_ne_dynamic (h : NewHost) : h.ip ≠ ascii "Dynamic" := fun e => by
  rcases h.ip_bytes 68 (e ▸ by decide) with hd | hd
  · exact absurd hd (by decide)
  · exact absurd hd (by decide)

/-- What is written. -/
theorem checkDhcp_spec (text : Bytes) (conf : Ini) (h : NewHost) :
    (Spelled text h.mac h.ip → checkDhcp (some text) conf h.mac h.ip h.value = some text) ∧
    ∃ i ≤ (perlLines text).length, ClosesAt (perlLines text) i ∧ (¬Spelled text h.mac h.ip →
      checkDhcp (some text) conf h.mac h.ip h.value =
        some (placed (perlLines text) (hostBlock conf h.mac h.value) i)) := by
  obtain ⟨i, hi, hsplit, hcloses⟩ := getCfgInfo_eq (some text)
  rw [Option.getD_some] at hi hsplit hcloses
  unfold checkDhcp
  refine ⟨fun hs => if_neg fun h0 => (found_eq_zero _ _ _).mp h0 hs, i, hi, hcloses, fun hs => ?_⟩
  unfold insertDhcpOne
  dsimp only
  rw [if_pos ((found_eq_zero _ _ _).mpr hs), if_neg h.ip_ne_dynamic, hsplit]
  rfl

/-- **`dhcpd.conf` is updated as it should be** exactly if one of the addresses is declared and one is
spelled, or if neither is and the braces close where the lines do. -/
theorem checkDhcp_iff (text : Bytes) (conf : Ini) (h : NewHost) :
    checkDhcp (some text) conf h.mac h.ip h.value = some (dhcpUpdate text conf h.mac h.ip h.value) ↔
      (Declares text h.mac h.ip ∧ Spelled text h.mac h.ip) ∨
      (¬Declares text h.mac h.ip ∧ ¬Spelled text h.mac h.ip ∧
        ClosesAt (perlLines text) (splitAtClose 0 (perlLines text)).1.length) := by
  obtain ⟨hleft, i, hi, hcloses, hcode⟩ := checkDhcp_spec text conf h
  have hlonger : ∀ k, text ≠ placed (perlLines text) (hostBlock conf h.mac h.value) k := by
    obtain ⟨name, rest, -, hblock⟩ := hostBlock_start conf h.mac h.value
    have hne : hostBlock conf h.mac h.value ≠ [] := by
      rw [hblock]
      exact List.append_ne_nil_of_right_ne_nil _ (List.cons_ne_nil _ _)
    exact fun k e => absurd (congrArg List.length e) (lt_length_placed text hne k).ne
  have hkeep : Declares text h.mac h.ip → dhcpUpdate text conf h.mac h.ip h.value = text := fun hd =>
    if_pos hd
  by_cases hd : Declares text h.mac h.ip <;> by_cases hs : Spelled text h.mac h.ip
  · rw [hleft hs, hkeep hd]
    exact iff_of_true rfl (.inl ⟨hd, hs⟩)
  · rw [hcode hs, hkeep hd]
    refine iff_of_false (fun e => hlonger i (Option.some.inj e).symm) ?_
    rintro (h1 | h2)
    · exact hs h1.2
    · exact h2.1 hd
  · rw [hleft hs, dhcpUpdate_placed conf h.value hd]
    refine iff_of_false (fun e => hlonger _ (Option.some.inj e)) ?_
    rintro (h1 | h2)
    · exact hd h1.1
    · exact h2.2.1 hs
  · have hnot : hardwareLine h.mac ∉ perlLines text := fun hmem => hd (h.declares_of_mem hmem)
    have hj := length_splitAtClose_le 0 (perlLines text)
    rw [hcode hs, dhcpUpdate_placed conf h.value hd, Option.some_inj,
      placed_inj (fun l hl => mem_perlLines hl) hnot conf hi hj]
    constructor
    · rintro rfl
      exact .inr ⟨hd, hs, hcloses⟩
    · rintro (h1 | h2)
      · exact absurd h1.1 hd
      · exact hcloses.unique hi hj h2.2.2

/-- A file with one host. -/
def otherHost : Bytes :=
  ascii "host pc2 \x7b\n\thardware ethernet 00:00:00:00:00:02;\n\tfixed-address 10.0.0.50;\n\x7d\n"

/-- The address of the new host is the beginning of the one that is declared. -/
def shortHost : NewHost :=
  ⟨ascii "00:00:00:00:00:01", ascii "10.0.0.5", ascii "pc1", by decide, by decide, by decide, by decide⟩

/-- No section of `lbs.conf` has a key. -/
def noConf : Ini := ⟨[], fun _ => none⟩

/-- The host is not added. -/
theorem shortHost_missed : ¬Declares otherHost shortHost.mac shortHost.ip ∧
    checkDhcp (some otherHost) noConf shortHost.mac shortHost.ip shortHost.value = some otherHost ∧
    checkDhcp (some otherHost) noConf shortHost.mac shortHost.ip shortHost.value ≠
      some (dhcpUpdate otherHost noConf shortHost.mac shortHost.ip shortHost.value) := by
  decide +kernel

/-- Two braces that are opened in one line are one for `get_cfg_info`. -/
example : (getCfgInfo (some (ascii "a \x7b b \x7b\n\x7d\n\x7d\n"))).1.length = 1 ∧
    (splitAtClose 0 (perlLines (ascii "a \x7b b \x7b\n\x7d\n\x7d\n"))).1.length = 2 := by
  decide +kernel

end LinboxRescue
