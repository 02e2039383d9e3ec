import LinboxRescue.Fs.LvmSpec

/-!
# Does the loop over the metadata end?

The loop of `lvm_check` has no end but its `break`. Behind the end of the file `fgets` leaves the last
line in the buffer, which is then read again and again; `lev` is an `int`, and to count beyond its range
is not defined. `LoopEnds` says that the `break` is reached.

1. `loopEnds_iff_strings`: what is read are the lines of the text, and the last one again.
2. `foldl_turn_lev` and `foldl_turn_count`: the level is the difference of the braces, and the last
   state is reached when the three lines that are looked for came one behind the other.
3. `closes_echoed_iff`: the loop ends in a closing line of the text, or in the last line when that
   closes sections and more than two are open.
-/

namespace LinboxRescue

/-! ## The end of the loop -/

/-- What `fgets` leaves in the buffer. -/
def nextBuffer (buffer t : Bytes) : Bytes := if t = [] then buffer else fgets 127 t ++ [0]

/-- The text behind the line. -/
def afterLine (t : Bytes) : Bytes := t.drop (fgets 127 t).length

/-- In a turn on the string `b`, `lev` stays in the range of its type. -/
def LvmParse.LevFits (p : LvmParse) (b : Bytes) : Prop :=
  p.lev + (if 123 ∈ b then 1 else 0) < 2 ^ 31 ∧
    -2 ^ 31 ≤ p.lev + (if 123 ∈ b then 1 else 0) - if 125 ∈ b then 1 else 0

/-- The `break` is reached. -/
inductive LoopEnds (u : Bytes) : LvmParse → Bytes → Bytes → Prop
  | last {p : LvmParse} {buffer t : Bytes} : p.LevFits (cstr (nextBuffer buffer t)) →
      (p.turn u (cstr (nextBuffer buffer t))).ends (cstr (nextBuffer buffer t)) = true →
      LoopEnds u p buffer t
  | turn {p : LvmParse} {buffer t : Bytes} : p.LevFits (cstr (nextBuffer buffer t)) →
      (p.turn u (cstr (nextBuffer buffer t))).ends (cstr (nextBuffer buffer t)) = false →
      LoopEnds u (p.turn u (cstr (nextBuffer buffer t))) (nextBuffer buffer t) (afterLine t) →
      LoopEnds u p buffer t

/-! ## The lines of the metadata -/

/-- The strings that the lines of the text make. -/
def metaLines (t : Bytes) : List Bytes := (lines 127 t).map cstr

/-- How many sections are open behind the lines. -/
def level (ls : List Bytes) : ℤ := (ls.countP (123 ∈ ·) : ℤ) - ls.countP (125 ∈ ·)

/-- The level stays in the range of `int`. -/
def LevelFits (ls : List Bytes) : Prop := ∀ xs l, xs ++ [l] <+: ls →
  level xs + (if 123 ∈ l then 1 else 0) < 2 ^ 31 ∧ -2 ^ 31 ≤ level (xs ++ [l])

/-- The line gives the uuid of the physical volume. -/
def NamesVolume (u l : Bytes) : Prop := ∃ w, scanId l = some w ∧ uuidCompare 32 u w = true

/-- The line gives the start of a volume. -/
def GivesStart (l : Bytes) : Prop := (scanField (ascii "pe_start") l).isSome

/-- Among the lines are some with these properties, one behind the other. -/
def InTurn (Ps : List (Bytes → Prop)) (ls : List Bytes) : Prop :=
  ∃ ms, List.Sublist ms ls ∧ List.Forall₂ (fun P m => P m) Ps ms

/-- What the states wait for. -/
def LvmState.awaits (u : Bytes) : LvmState → List (Bytes → Prop)
  | .header => [(contains · (ascii "physical_volumes") = true), NamesVolume u, GivesStart]
  | .volumes => [NamesVolume u, GivesStart]
  | .volume => [GivesStart]
  | .count => []

/-- The text `physical_volumes`, the uuid and the start come one behind the other. -/
def Located (u : Bytes) (ls : List Bytes) : Prop := InTurn (LvmState.header.awaits u) ls

/-- The last of the lines closes the section that the loop ends with. -/
structure Closes (u : Bytes) (ls : List Bytes) : Prop where
  fits : LevelFits ls
  located : Located u ls
  level : level ls = 2
  brace : ∃ l ∈ ls.getLast?, 125 ∈ l

/-- The last line closes sections, of which more than two are open. -/
structure ClosesAgain (u : Bytes) (ls : List Bytes) : Prop where
  fits : LevelFits ls
  located : Located u ls
  level : 2 < level ls
  brace : ∃ l ∈ ls.getLast?, 125 ∈ l ∧ 123 ∉ l

/-! ## What is read -/

/-- The strings of the first `n` turns. -/
def readStrings : ℕ → Bytes → Bytes → List Bytes
  | 0, _, _ => []
  | n + 1, buffer, t => cstr (nextBuffer buffer t) :: readStrings n (nextBuffer buffer t) (afterLine t)

/-- The lines, and the last one again. -/
def echoed (l : Bytes) (ls : List Bytes) (n : ℕ) : List Bytes :=
  (ls ++ List.replicate n (ls.getLastD l)).take n

theorem metaLines_nil : metaLines [] = [] := rfl

theorem metaLines_cons {t : Bytes} (ht : t ≠ []) :
    metaLines t = cstr (fgets 127 t ++ [0]) :: metaLines (afterLine t) := by
  unfold metaLines
  rw [lines_eq_cons (by decide) ht, List.map_cons, cstr_append_cons_zero]
  rfl

theorem readStrings_eq (n : ℕ) : ∀ buffer t : Bytes,
    readStrings n buffer t = echoed (cstr buffer) (metaLines t) n := by
  induction n with
  | zero => exact fun _ _ => rfl
  | succ n ih =>
    intro buffer t
    rw [readStrings, ih]
    unfold nextBuffer echoed
    by_cases ht : t = []
    · subst ht
      have hafter : afterLine [] = [] := rfl
      rw [if_pos rfl, hafter, metaLines_nil, List.nil_append, List.nil_append, List.replicate_succ,
        List.take_succ_cons]
      rfl
    · rw [if_neg ht, metaLines_cons ht, List.cons_append, List.take_succ_cons]
      have hlast : (cstr (fgets 127 t ++ [0]) :: metaLines (afterLine t)).getLastD (cstr buffer) =
          (metaLines (afterLine t)).getLastD (cstr (fgets 127 t ++ [0])) := List.getLastD_cons ..
      have hroom : n ≤ (metaLines (afterLine t) ++ List.replicate n
          ((metaLines (afterLine t)).getLastD (cstr (fgets 127 t ++ [0])))).length := by
        rw [List.length_append, List.length_replicate]
        exact Nat.le_add_left _ _
      rw [hlast, List.replicate_succ', ← List.append_assoc, List.take_append_of_le_length hroom]

/-- The levels fit in all turns. -/
def AllFit (u : Bytes) : LvmParse → List Bytes → Prop
  | _, [] => True
  | p, l :: ls => p.LevFits l ∧ AllFit u (p.turn u l) ls

/-- **The strings that are read** decide whether the loop ends. -/
theorem loopEnds_iff_strings {u : Bytes} {p : LvmParse} {buffer t : Bytes} : LoopEnds u p buffer t ↔
    ∃ n xs l, readStrings n buffer t = xs ++ [l] ∧ AllFit u p (xs ++ [l]) ∧
      ((xs ++ [l]).foldl (LvmParse.turn u) p).ends l = true := by
  constructor
  · intro h
    induction h with
    | last hfits hends => exact ⟨1, [], _, rfl, ⟨hfits, trivial⟩, hends⟩
    | turn hfits _ _ ih =>
      obtain ⟨n, xs, l, hread, hall, hends⟩ := ih
      exact ⟨n + 1, _ :: xs, l, by rw [readStrings, hread]; rfl, ⟨hfits, hall⟩, hends⟩
  · rintro ⟨n, xs, l, hread, hall, hends⟩
    induction n generalizing p buffer t xs with
    | zero => exact absurd hread.symm (List.append_ne_nil_of_right_ne_nil xs (List.cons_ne_nil l []))
    | succ n ih =>
      rw [readStrings] at hread
      cases xs with
      | nil =>
        obtain ⟨rfl, -⟩ := List.cons.inj hread
        exact .last hall.1 hends
      | cons x xs =>
        obtain ⟨rfl, htail⟩ := List.cons.inj hread
        cases hx : (p.turn u (cstr (nextBuffer buffer t))).ends (cstr (nextBuffer buffer t)) with
        | true => exact .last hall.1 hx
        | false => exact .turn hall.1 hx (ih xs htail hall.2 hends)

/-! ## Levels -/

section Levels

variable {u : Bytes}

theorem level_append (xs ys : List Bytes) : level (xs ++ ys) = level xs + level ys := by
  unfold level
  rw [List.countP_append, List.countP_append]
  push_cast
  ring

theorem level_cons (l : Bytes) (ls : List Bytes) : level (l :: ls) = level [l] + level ls :=
  level_append [l] ls

theorem level_singleton (l : Bytes) :
    level [l] = (if 123 ∈ l then 1 else 0) - if 125 ∈ l then 1 else 0 := by
  unfold level
  simp only [List.countP_cons, List.countP_nil, decide_eq_true_eq, Nat.zero_add]
  split_ifs <;> rfl

theorem turn_lev (p : LvmParse) (l : Bytes) : (p.turn u l).lev = p.lev + level [l] := by
  have hfields : (LvmParse.fields u (p.braces l) l).lev = (p.braces l).lev := by
    unfold LvmParse.fields
    split
    · rfl
    · split
      · split_ifs <;> rfl
      · rfl
    · split <;> rfl
    · rfl
  unfold LvmParse.turn
  rw [hfields, level_singleton]
  unfold LvmParse.braces
  simp only [contains_byte]
  ring

theorem foldl_turn_lev (p : LvmParse) (ls : List Bytes) :
    (ls.foldl (LvmParse.turn u) p).lev = p.lev + level ls := by
  induction ls generalizing p with
  | nil => exact (add_zero _).symm
  | cons l ls ih =>
    rw [List.foldl_cons, ih, turn_lev, level_cons l ls, add_assoc]

theorem levFits_iff (p : LvmParse) (l : Bytes) : p.LevFits l ↔
    p.lev + (if 123 ∈ l then 1 else 0) < 2 ^ 31 ∧ -2 ^ 31 ≤ p.lev + level [l] := by
  unfold LvmParse.LevFits
  rw [level_singleton, add_sub_assoc]

/-- The levels fit when they fit behind each of the lines. -/
theorem allFit_iff (p : LvmParse) (ls : List Bytes) : AllFit u p ls ↔ ∀ xs l, xs ++ [l] <+: ls →
    p.lev + level xs + (if 123 ∈ l then 1 else 0) < 2 ^ 31 ∧ -2 ^ 31 ≤ p.lev + level (xs ++ [l]) := by
  induction ls generalizing p with
  | nil => exact ⟨fun _ xs l h => by simp at h, fun _ => trivial⟩
  | cons m ls ih =>
    rw [AllFit, levFits_iff, ih]
    constructor
    · rintro ⟨hm, hls⟩ xs l hpre
      cases xs with
      | nil =>
        obtain ⟨rfl, -⟩ := List.cons_prefix_cons.mp hpre
        rwa [show level [] = 0 from rfl, add_zero]
      | cons x xs =>
        obtain ⟨rfl, htail⟩ := List.cons_prefix_cons.mp hpre
        have hl := hls xs l htail
        rwa [turn_lev, add_assoc p.lev (level [x]) (level xs),
          add_assoc p.lev (level [x]) (level (xs ++ [l])),
          ← level_cons, ← level_cons] at hl
    · intro h
      refine ⟨?_, fun xs l hpre => ?_⟩
      · have hm := h [] m (List.cons_prefix_cons.mpr ⟨rfl, List.nil_prefix⟩)
        rwa [show level [] = 0 from rfl, add_zero] at hm
      · have hl := h (m :: xs) l (List.cons_prefix_cons.mpr ⟨rfl, hpre⟩)
        rwa [turn_lev, add_assoc p.lev (level [m]) (level xs),
          add_assoc p.lev (level [m]) (level (xs ++ [l])),
          ← level_cons, ← level_cons]

end Levels

/-! ## States -/

section States

variable {u : Bytes} {P : Bytes → Prop} {Ps : List (Bytes → Prop)} {l : Bytes} {ls : List Bytes}

theorem inTurn_nil : InTurn [] ls := ⟨[], List.nil_sublist ls, .nil⟩

theorem not_inTurn_nil : ¬ InTurn (P :: Ps) [] := by
  rintro ⟨ms, hsub, hall⟩
  obtain rfl := List.sublist_nil.mp hsub
  cases hall

theorem inTurn_of_pos (h : P l) : InTurn (P :: Ps) (l :: ls) ↔ InTurn Ps ls := by
  constructor
  · rintro ⟨ms, hsub, hall⟩
    cases hall with
    | cons _ hall =>
      cases hsub with
      | cons _ hsub => exact ⟨_, (List.sublist_cons_self ..).trans hsub, hall⟩
      | cons_cons _ hsub => exact ⟨_, hsub, hall⟩
  · rintro ⟨ms, hsub, hall⟩
    exact ⟨l :: ms, hsub.cons_cons l, .cons h hall⟩

theorem inTurn_of_neg (h : ¬ P l) : InTurn (P :: Ps) (l :: ls) ↔ InTurn (P :: Ps) ls := by
  constructor
  · rintro ⟨ms, hsub, hall⟩
    cases hall with
    | @cons _ m _ ms hm hall =>
      refine ⟨m :: ms, ?_, .cons hm hall⟩
      cases hsub with
      | cons _ hsub => exact hsub
      | cons_cons _ _ => exact absurd hm h
  · rintro ⟨ms, hsub, hall⟩
    exact ⟨ms, hsub.cons l, hall⟩

/-- The state behind a turn. -/
theorem turn_state (p : LvmParse) (l : Bytes) : (p.turn u l).state =
    match p.state with
    | .header => if contains l (ascii "physical_volumes") then .volumes else .header
    | .volumes =>
      match scanId l with
      | some w => if uuidCompare 32 u w then .volume else .volumes
      | none => .volumes
    | .volume => if (scanField (ascii "pe_start") l).isSome then .count else .volume
    | .count => .count := by
  obtain ⟨state, peCount, extent, lev, offset⟩ := p
  unfold LvmParse.turn LvmParse.braces LvmParse.fields
  cases state with
  | header => rfl
  | volumes =>
    dsimp only
    cases scanId l with
    | none => rfl
    | some w =>
      dsimp only
      split_ifs <;> rfl
  | volume =>
    dsimp only
    cases scanField (ascii "pe_start") l <;> rfl
  | count => rfl

theorem foldl_turn_count (p : LvmParse) (ls : List Bytes) :
    (ls.foldl (LvmParse.turn u) p).state = .count ↔ InTurn (p.state.awaits u) ls := by
  induction ls generalizing p with
  | nil =>
    cases hp : p.state with
    | count => exact ⟨fun _ => inTurn_nil, fun _ => hp⟩
    | header | volumes | volume =>
      refine ⟨fun h => ?_, fun h => absurd h not_inTurn_nil⟩
      rw [List.foldl_nil, hp] at h
      cases h
  | cons l ls ih =>
    rw [List.foldl_cons, ih, turn_state]
    cases p.state with
    | header =>
      dsimp only
      by_cases h : contains l (ascii "physical_volumes") = true
      · rw [if_pos h]
        exact (inTurn_of_pos h).symm
      · rw [if_neg h]
        exact (inTurn_of_neg h).symm
    | volumes =>
      dsimp only
      cases hid : scanId l with
      | none =>
        refine (inTurn_of_neg ?_).symm
        rintro ⟨w, hw, -⟩
        rw [hid] at hw
        cases hw
      | some w =>
        dsimp only
        by_cases h : uuidCompare 32 u w = true
        · rw [if_pos h]
          exact (inTurn_of_pos ⟨w, hid, h⟩).symm
        · rw [if_neg h]
          refine (inTurn_of_neg ?_).symm
          rintro ⟨w', hw', h'⟩
          rw [hid] at hw'
          obtain rfl := Option.some.inj hw'
          exact h h'
    | volume =>
      dsimp only
      by_cases h : (scanField (ascii "pe_start") l).isSome = true
      · rw [if_pos h]
        exact (inTurn_of_pos h).symm
      · rw [if_neg h]
        exact (inTurn_of_neg h).symm
    | count => exact ⟨fun _ => inTurn_nil, fun _ => inTurn_nil⟩

end States

/-! ## The whole text -/

section Text

variable {u : Bytes} {ls : List Bytes}

/-- The state in front of the first turn. -/
def LvmParse.start : LvmParse := ⟨.header, 0, 0, 0, 0⟩

/-- **The loop ends** when some of the lines that are read close what they should. -/
theorem loopEnds_iff_closes (u b t : Bytes) : LoopEnds u .start b t ↔
    ∃ n, Closes u (echoed (cstr b) (metaLines t) n) := by
  rw [loopEnds_iff_strings]
  have hends : ∀ xs l, AllFit u .start (xs ++ [l]) ∧
      ((xs ++ [l]).foldl (LvmParse.turn u) .start).ends l = true ↔ Closes u (xs ++ [l]) := by
    intro xs l
    have hlev := foldl_turn_lev (u := u) .start (xs ++ [l])
    have hcount := foldl_turn_count (u := u) .start (xs ++ [l])
    have hfits : AllFit u .start (xs ++ [l]) ↔ LevelFits (xs ++ [l]) := by
      rw [allFit_iff]
      simp only [LvmParse.start, zero_add]
      rfl
    unfold LvmParse.ends
    rw [hfits, hlev, Bool.and_eq_true, Bool.and_eq_true, contains_byte, beq_iff_eq, beq_iff_eq, hcount]
    constructor
    · rintro ⟨hf, ⟨hb, hl⟩, hc⟩
      exact ⟨hf, hc, by simpa [LvmParse.start] using hl, l, by simp, hb⟩
    · rintro ⟨hf, hc, hl, m, hm, hb⟩
      obtain rfl : l = m := by simpa using hm
      exact ⟨hf, ⟨hb, by simpa [LvmParse.start] using hl⟩, hc⟩
  constructor
  · rintro ⟨n, xs, l, hread, h⟩
    rw [readStrings_eq] at hread
    exact ⟨n, hread ▸ (hends xs l).mp h⟩
  · rintro ⟨n, h⟩
    rcases List.eq_nil_or_concat' (echoed (cstr b) (metaLines t) n) with hnil | ⟨xs, l, hxs⟩
    · obtain ⟨l, hl, -⟩ := h.brace
      rw [hnil] at hl
      cases hl
    · rw [hxs] at h
      exact ⟨n, xs, l, (readStrings_eq n b t).trans hxs, (hends xs l).mpr h⟩

theorem InTurn.append {Ps : List (Bytes → Prop)} (h : InTurn Ps ls) (ls' : List Bytes) :
    InTurn Ps (ls ++ ls') := by
  obtain ⟨ms, hsub, hall⟩ := h
  exact ⟨ms, hsub.trans (List.sublist_append_left ..), hall⟩

/-- A line has one key. -/
theorem not_namesVolume_and_givesStart (l : Bytes) : ¬ (NamesVolume u l ∧ GivesStart l) := by
  rintro ⟨⟨w, hw, -⟩, hs⟩
  obtain ⟨r, hr, -⟩ := Option.bind_eq_some_iff.mp hw
  obtain ⟨n, hn⟩ := Option.isSome_iff_exists.mp hs
  obtain ⟨r', hr', -⟩ := Option.bind_eq_some_iff.mp hn
  have hid := (lineKey_of_scanKey (by decide) hr).1
  have hstart := (lineKey_of_scanKey (by decide) hr').1
  exact absurd (hid.symm.trans hstart) (by decide)

theorem of_inTurn_replicate {Ps : List (Bytes → Prop)} {l : Bytes} {m : ℕ}
    (h : InTurn Ps (List.replicate m l)) : ∀ P ∈ Ps, P l := by
  obtain ⟨ms, hsub, hall⟩ := h
  have hms : ∀ x ∈ ms, x = l := fun x hx => List.eq_of_mem_replicate (hsub.mem hx)
  clear hsub
  induction hall with
  | nil => exact fun _ hP => absurd hP List.not_mem_nil
  | cons hx _ ih =>
    obtain ⟨rfl, hms⟩ := List.forall_mem_cons.mp hms
    exact List.forall_mem_cons.mpr ⟨hx, ih hms⟩

/-- Reading the last line again does not find what was not found before. -/
theorem located_of_echo {l : Bytes} {m : ℕ} (hl : ls = [] ∨ ls.getLast? = some l)
    (h : Located u (ls ++ List.replicate m l)) : Located u ls := by
  have hcount := (foldl_turn_count (u := u) .start (ls ++ List.replicate m l)).mpr h
  rw [List.foldl_append, foldl_turn_count] at hcount
  refine (foldl_turn_count (u := u) .start ls).mp ?_
  have hall := of_inTurn_replicate hcount
  by_contra hne
  cases hstate : (ls.foldl (LvmParse.turn u) .start).state with
  | count => exact hne hstate
  | header | volumes =>
    rw [hstate] at hall
    exact not_namesVolume_and_givesStart l
      ⟨hall (NamesVolume u) (by simp [LvmState.awaits]), hall GivesStart (by simp [LvmState.awaits])⟩
  | volume =>
    -- the last line has been read in state 1 or 2
    rw [hstate] at hall
    have hs : GivesStart l := hall _ (by simp [LvmState.awaits])
    rcases hl with rfl | hl
    · cases hstate
    · obtain ⟨xs, rfl⟩ := List.getLast?_eq_some_iff.mp hl
      rw [List.foldl_append, List.foldl_cons, List.foldl_nil, turn_state] at hstate
      cases hprev : (xs.foldl (LvmParse.turn u) .start).state with
      | header =>
        rw [hprev] at hstate
        dsimp only at hstate
        split_ifs at hstate
      | volumes =>
        rw [hprev] at hstate
        dsimp only at hstate
        cases hid : scanId l with
        | none =>
          rw [hid] at hstate
          cases hstate
        | some w =>
          rw [hid] at hstate
          dsimp only at hstate
          split_ifs at hstate with hw
          exact not_namesVolume_and_givesStart l ⟨⟨w, hid, hw⟩, hs⟩
      | volume =>
        rw [hprev] at hstate
        dsimp only at hstate
        rw [if_pos (show (scanField (ascii "pe_start") l).isSome = true from hs)] at hstate
        cases hstate
      | count =>
        rw [hprev] at hstate
        cases hstate

theorem level_replicate (m : ℕ) (l : Bytes) : level (List.replicate m l) = m * level [l] := by
  induction m with
  | zero => simp [level]
  | succ m ih =>
    rw [List.replicate_succ, level_cons, ih]
    push_cast
    ring

theorem LevelFits.prefix {ls' : List Bytes} (h : LevelFits ls) (hpre : ls' <+: ls) : LevelFits ls' :=
  fun xs l hxs => h xs l (hxs.trans hpre)

/-- The level that is reached fits too. -/
theorem LevelFits.lt {l : Bytes} (h : LevelFits ls) (hl : ls.getLast? = some l) (h123 : 123 ∉ l) :
    level ls < 2 ^ 31 := by
  obtain ⟨xs, rfl⟩ := List.getLast?_eq_some_iff.mp hl
  have hlast := (h xs l List.prefix_rfl).1
  rw [if_neg h123, add_zero] at hlast
  rw [level_append, level_singleton, if_neg h123]
  split_ifs <;> omega

/-- Closing sections, one after the other, stays in the range. -/
theorem LevelFits.echo {l : Bytes} {m : ℕ} (h : LevelFits ls) (hl : ls.getLast? = some l)
    (h123 : 123 ∉ l)
    (h125 : 125 ∈ l) (hm : (m : ℤ) ≤ level ls) : LevelFits (ls ++ List.replicate m l) := by
  have hone : level [l] = -1 := by
    rw [level_singleton, if_neg h123, if_pos h125]
    rfl
  induction m with
  | zero => rwa [List.replicate_zero, List.append_nil]
  | succ m ih =>
    have hlt := h.lt hl h123
    intro xs x hpre
    rw [List.replicate_succ', ← List.append_assoc] at hpre
    rcases List.prefix_concat_iff.mp hpre with heq | hpre
    · obtain ⟨rfl, hx⟩ := List.append_inj' heq rfl
      obtain ⟨rfl, -⟩ := List.cons.inj hx
      have hlev : level (ls ++ List.replicate m x) = level ls - m := by
        rw [level_append, level_replicate, hone]
        ring
      rw [level_append (ls ++ List.replicate m x), hlev, hone, if_neg h123]
      push_cast at hm
      omega
    · exact ih (by push_cast at hm; omega) xs x hpre

theorem echoed_of_le {d : Bytes} {n : ℕ} (h : n ≤ ls.length) : echoed d ls n = ls.take n :=
  List.take_append_of_le_length h

theorem echoed_add (d : Bytes) (ls : List Bytes) (m : ℕ) :
    echoed d ls (ls.length + m) = ls ++ List.replicate m (ls.getLastD d) := by
  unfold echoed
  rw [List.take_length_add_append, List.take_replicate, Nat.min_eq_left (Nat.le_add_left _ _)]

/-- The lines that are read close what they should in the text, or behind its end. -/
theorem closes_echoed_iff (d : Bytes) (ls : List Bytes) : (∃ n, Closes u (echoed d ls n)) ↔
    (∃ ls', ls' <+: ls ∧ Closes u ls') ∨ ClosesAgain u ls := by
  constructor
  · rintro ⟨n, h⟩
    rcases Nat.le_total n ls.length with hn | hn
    · rw [echoed_of_le hn] at h
      exact .inl ⟨_, List.take_prefix .., h⟩
    obtain ⟨m, rfl⟩ := Nat.exists_eq_add_of_le hn
    rw [echoed_add] at h
    have hlast : ls = [] ∨ ls.getLast? = some (ls.getLastD d) := by
      cases hx : ls.getLast? with
      | none => exact .inl (List.getLast?_eq_none_iff.mp hx)
      | some l => exact .inr (by rw [List.getLastD_eq_getLast?, hx]; rfl)
    generalize ls.getLastD d = l at h hlast
    have hloc := located_of_echo hlast h.located
    have hl : ls.getLast? = some l := by
      rcases hlast with rfl | hl
      · obtain ⟨ms, hsub, hall⟩ := hloc
        obtain rfl := List.sublist_nil.mp hsub
        cases hall
      · exact hl
    have hfits := h.fits.prefix (List.prefix_append ls _)
    have hbrace : 125 ∈ l := by
      obtain ⟨x, hx, hb⟩ := h.brace
      cases m with
      | zero =>
        rw [List.replicate_zero, List.append_nil, hl] at hx
        rwa [Option.some.inj hx]
      | succ m =>
        rw [List.replicate_succ', ← List.append_assoc, List.getLast?_concat] at hx
        rwa [Option.some.inj hx]
    have hlev := h.level
    rw [level_append, level_replicate, level_singleton, if_pos hbrace] at hlev
    by_cases h123 : 123 ∈ l
    · rw [if_pos h123, sub_self, mul_zero, add_zero] at hlev
      exact .inl ⟨ls, List.prefix_rfl, ⟨hfits, hloc, hlev, l, hl, hbrace⟩⟩
    · rw [if_neg h123] at hlev
      rcases Nat.eq_zero_or_pos m with rfl | hm
      · exact .inl ⟨ls, List.prefix_rfl, ⟨hfits, hloc, by simpa using hlev, l, hl, hbrace⟩⟩
      · exact .inr ⟨hfits, hloc, by omega, l, hl, hbrace, h123⟩
  · rintro (⟨ls', hpre, h⟩ | h)
    · refine ⟨ls'.length, ?_⟩
      rwa [echoed_of_le hpre.length_le, ← List.prefix_iff_eq_take.mp hpre]
    · obtain ⟨l, hl, h125, h123⟩ := h.brace
      have hlev := h.level
      obtain ⟨m, hm⟩ : ∃ m : ℕ, level ls = 2 + m := ⟨(level ls - 2).toNat, by omega⟩
      have hlast : ls.getLastD d = l := by
        rw [List.getLastD_eq_getLast?, hl]
        rfl
      obtain ⟨m, rfl⟩ : ∃ k, m = k + 1 := ⟨m - 1, by omega⟩
      refine ⟨ls.length + (m + 1), ?_⟩
      rw [echoed_add, hlast]
      refine ⟨h.fits.echo hl h123 h125 (by omega), h.located.append _, ?_, l, ?_, h125⟩
      · rw [level_append, level_replicate, level_singleton, if_neg h123, if_pos h125, hm]
        push_cast
        ring
      · rw [List.replicate_succ', ← List.append_assoc, List.getLast?_concat]
        rfl

end Text

/-! ## `lvm_check` -/

theorem parseLoop_succ (u : Bytes) (fuel : ℕ) (p : LvmParse) (buffer t : Bytes) :
    parseLoop u (fuel + 1) p buffer t =
      if (p.turn u (cstr (nextBuffer buffer t))).ends (cstr (nextBuffer buffer t)) then
        .ok (p.turn u (cstr (nextBuffer buffer t)))
      else parseLoop u fuel (p.turn u (cstr (nextBuffer buffer t))) (nextBuffer buffer t) (afterLine t) := rfl

theorem LoopEnds.returns {u : Bytes} {p : LvmParse} {buffer t : Bytes} (h : LoopEnds u p buffer t) :
    ∃ q, Returns (fun fuel => parseLoop u fuel p buffer t) q := by
  induction h with
  | last _ hends => exact ⟨_, Returns.last fun fuel => by rw [parseLoop_succ, if_pos hends]⟩
  | turn _ hends _ ih =>
    obtain ⟨q, hq⟩ := ih
    refine ⟨q, Returns.step (fun fuel => ?_) hq⟩
    rw [parseLoop_succ, hends, if_neg (by decide)]

section Check

variable {dev buf u t : Bytes}

theorem lvmCheck_eq (hword : word (readAt dev 0 1024 buf) 0 ≠ 0x00014d48)
    (h : lvm2Header dev (readAt dev 0 1024 buf) = .found u t) (fuel : ℕ) (b : Bytes) (sect : ℕ) :
    lvmCheck fuel dev buf b sect = parseLoop u fuel .start b t >>= fun p =>
      .ok (wrapLong (p.offset * 512), (p.extent * p.peCount % 2 ^ 32).toNat) := by
  unfold lvmCheck
  dsimp only
  rw [if_neg hword, h]
  rfl

/-- **The loop over the metadata ends**, and with it `lvm_check`, when a line of the text closes the
section of the volume and leaves two open; behind the text, when its last line closes sections of which
more than two are open. In no other case it does. -/
theorem lvmCheck_ends_iff (hword : word (readAt dev 0 1024 buf) 0 ≠ 0x00014d48)
    (h : lvm2Header dev (readAt dev 0 1024 buf) = .found u t) (b : Bytes) (sect : ℕ) :
    (LoopEnds u .start b t ↔ (∃ ls, ls <+: metaLines t ∧ Closes u ls) ∨ ClosesAgain u (metaLines t)) ∧
      (LoopEnds u .start b t → ∃ r, Returns (fun fuel => lvmCheck fuel dev buf b sect) r) := by
  refine ⟨(loopEnds_iff_closes u b t).trans (closes_echoed_iff _ _), fun hends => ?_⟩
  obtain ⟨p, hp⟩ := hends.returns
  exact ⟨_, Returns.congr (fun fuel => lvmCheck_eq hword h fuel b sect) (hp.bind (Returns.pure _))⟩

end Check

/-- In a short text no level leaves the range. -/
theorem levelFits_of_length {ls : List Bytes} (h : ls.length < 2 ^ 31) : LevelFits ls := by
  intro xs l hpre
  have hlen := hpre.length_le
  have h1 := List.countP_le_length (p := (123 ∈ ·)) (l := xs)
  have h2 := List.countP_le_length (p := (125 ∈ ·)) (l := xs ++ [l])
  rw [List.length_append, List.length_singleton] at hlen h2
  unfold level
  constructor
  · split_ifs <;> omega
  · omega

/-- A device with the volume `b`. -/
def textOnB (t : Bytes) : Bytes := labelB ++ (mdaHeader ++ t)

theorem readAt_textOnB (t : Bytes) : readAt (textOnB t) 0 1024 [] = labelB := by
  unfold readAt textOnB overwrite
  rw [List.drop_zero, List.take_left' length_labelB]
  simp

/-- The section of the volume, and no more. -/
def closedText : List Bytes :=
  [ascii "vg \x7b\n", ascii "physical_volumes \x7b\n", ascii "pv0 \x7b\n",
    ascii "id = " ++ 34 :: (ascii "bbbbbb-bbbb-bbbb-bbbb-bbbb-bbbb-bbbbbb" ++ [34, 10]),
    ascii "pe_start = 384\n", ascii "\x7d\n"]

theorem lvmCheck_ends_iff_closed :
    ∃ r, Returns (fun fuel => lvmCheck fuel (textOnB closedText.flatten) [] [] 0) r := by
  have hlines : metaLines closedText.flatten = closedText := by decide +kernel
  have hread := readAt_textOnB closedText.flatten
  have hword : word (readAt (textOnB closedText.flatten) 0 1024 []) 0 ≠ 0x00014d48 := by
    rw [hread]
    decide +kernel
  have hends := lvmCheck_ends_iff hword ((congrArg _ hread).trans (lvm2Header_labelB closedText.flatten)) [] 0
  refine hends.2 (hends.1.mpr (.inl ⟨closedText, hlines ▸ List.prefix_rfl,
    ⟨levelFits_of_length (by decide),
      ⟨(closedText.drop 1).eraseIdx 1 |>.take 3, by decide, ?_⟩, by decide, ?_⟩⟩))
  · exact .cons (by decide) (.cons ⟨_, rfl, by decide⟩ (.cons (by unfold GivesStart; decide) .nil))
  · exact ⟨_, rfl, by decide⟩

/-- Once a line that is read again changes nothing, the loop goes on for ever. -/
theorem parseLoop_stuck {u : Bytes} {p : LvmParse} {buffer : Bytes} (hp : p.turn u (cstr buffer) = p)
    (hends : p.ends (cstr buffer) = false) (fuel : ℕ) :
    parseLoop u fuel p buffer [] = .error .outOfFuel := by
  induction fuel with
  | zero => rfl
  | succ fuel ih =>
    have hbuf : nextBuffer buffer [] = buffer := if_pos rfl
    rw [parseLoop_succ, hbuf, hp, hends, if_neg (by decide)]
    exact ih

/-- The beginning of the metadata of a group. -/
def cutText : Bytes := ascii "vg \x7b\nseqno = 1\n"

/-- `lvm_check` does not come back. -/
theorem not_lvmCheck_ends :
    lvm2Header (textOnB cutText) (readAt (textOnB cutText) 0 1024 []) =
      .found (List.replicate 32 98) cutText ∧
      ¬ LoopEnds (List.replicate 32 98) .start [] cutText ∧
      ∀ fuel, lvmCheck fuel (textOnB cutText) [] [] 0 = .error .outOfFuel := by
  have hread := readAt_textOnB cutText
  have hheader : lvm2Header (textOnB cutText) (readAt (textOnB cutText) 0 1024 []) =
      .found (List.replicate 32 98) cutText := by
    rw [hread]
    exact lvm2Header_labelB cutText
  have hfirst : LvmParse.start.turn (List.replicate 32 98) (ascii "vg \x7b\n") = ⟨.header, 0, 0, 1, 0⟩ := by
    decide +kernel
  have hsecond : LvmParse.turn (List.replicate 32 98) ⟨.header, 0, 0, 1, 0⟩ (ascii "seqno = 1\n") =
      ⟨.header, 0, 0, 1, 0⟩ := by
    decide +kernel
  have hopen : LvmParse.ends ⟨.header, 0, 0, 1, 0⟩ (ascii "vg \x7b\n") = false := by decide +kernel
  have hstill : LvmParse.ends ⟨.header, 0, 0, 1, 0⟩ (ascii "seqno = 1\n") = false := by decide +kernel
  have hnot : ¬ Located (List.replicate 32 98) (metaLines cutText) := fun h => by
    have hlines : metaLines cutText = [ascii "vg \x7b\n", ascii "seqno = 1\n"] := by decide +kernel
    have hcount := (foldl_turn_count (u := List.replicate 32 98) .start (metaLines cutText)).mpr h
    rw [hlines, List.foldl_cons, List.foldl_cons, List.foldl_nil, hfirst, hsecond] at hcount
    cases hcount
  refine ⟨hheader, fun h => ?_, fun fuel => ?_⟩
  · rw [loopEnds_iff_closes, closes_echoed_iff] at h
    rcases h with ⟨ls, ⟨ls', hls⟩, h⟩ | h
    · exact hnot (hls ▸ h.located.append ls')
    · exact hnot h.located
  · have hloop : parseLoop (List.replicate 32 98) fuel .start [] cutText = .error .outOfFuel := by
      have hline : cstr (nextBuffer [] cutText) = ascii "vg \x7b\n" := by decide +kernel
      have hrest : afterLine cutText = ascii "seqno = 1\n" := by decide +kernel
      have hlast : ∀ b, nextBuffer b (ascii "seqno = 1\n") = ascii "seqno = 1\n" ++ [0] := fun _ =>
        if_neg (by decide)
      have hcstr : cstr (ascii "seqno = 1\n" ++ [0]) = ascii "seqno = 1\n" := by decide +kernel
      have hend : afterLine (ascii "seqno = 1\n") = [] := by decide +kernel
      cases fuel with
      | zero => rfl
      | succ fuel =>
        rw [parseLoop_succ, hline, hfirst, hopen, if_neg Bool.false_ne_true, hrest]
        cases fuel with
        | zero => rfl
        | succ fuel =>
          rw [parseLoop_succ, hlast, hcstr, hsecond, hstill, if_neg Bool.false_ne_true, hend]
          exact parseLoop_stuck (hcstr ▸ hsecond) (hcstr ▸ hstill) fuel
    rw [lvmCheck_eq (by rw [hread]; decide +kernel) hheader, hloop]
    rfl

end LinboxRescue
