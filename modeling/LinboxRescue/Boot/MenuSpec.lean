import LinboxRescue.Boot.Menu

/-!
# Titles, commands and descriptions of the boot menu

1. `Outline`: the stanzas of a configuration file, each with its title, descriptions and commands.
2. `Matches.line`, `readConfig_spec`: the three areas, each on its own, from the stanzas.
3. `getEntry_strings`, `getEntry_scripts`: what `get_entry` finds in them.
4. `keys_lt`: the keys do not leave the menu.
5. `highlighted_eq`, `drawn_eq`, `booted_eq`, `shown_eq`: title, commands and description of a place in
   the menu.
-/

namespace LinboxRescue

/-! ## Stanzas -/

structure Stanza where
  title : Bytes
  descs : List Bytes
  commands : List Bytes
  deriving DecidableEq, Repr

/-- The descriptions before the first title, the stanzas that are complete, and the last one. -/
structure Outline where
  pre : List Bytes
  done : List Stanza
  cur : Option Stanza
  deriving DecidableEq, Repr

variable (table : List Builtin)

def Outline.stanzas (o : Outline) : List Stanza := o.done ++ o.cur.toList

def Outline.addDesc (o : Outline) (text : Bytes) : Outline :=
  match o.cur with
  | none => { o with pre := o.pre ++ [text] }
  | some s => { o with cur := some { s with descs := s.descs ++ [text] } }

def Outline.addTitle (o : Outline) (text : Bytes) : Outline :=
  { o with done := o.stanzas, cur := some ⟨text, [], []⟩ }

def Outline.addCommand (o : Outline) (cmdline : Bytes) : Outline :=
  match o.cur with
  | none => o
  | some s => { o with cur := some { s with commands := s.commands ++ [cmdline] } }

def Outline.line (o : Outline) (cmdline : Bytes) : Outline :=
  match findCommand table cmdline with
  | none => o
  | some b =>
    if b.isDesc then o.addDesc (skipTo cmdline)
    else if b.isTitle then o.addTitle (skipTo cmdline)
    else o.addCommand cmdline

/-- The outline of a configuration file. -/
def outline (file : Bytes) : Outline := (configLines file).foldl (Outline.line table) ⟨[], [], none⟩

/-- The stanzas that become entries of the menu: those with commands. -/
def entries (ss : List Stanza) : List Stanza := ss.filter fun s => s.commands ≠ []

/-! ## The areas -/

/-- Strings, each with its NUL. -/
def strings (ss : List Bytes) : Bytes := ss.flatMap fun s => s ++ [0]

/-- Scripts, each with its NUL. -/
def scripts (cs : List (List Bytes)) : Bytes := cs.flatMap fun c => strings c ++ [0]

/-- The descriptions that are stored for stanzas, when there are `k` entries before them. -/
def descsFrom : ℕ → List Stanza → List Bytes
  | _, [] => []
  | k, s :: ss =>
    if s.commands = [] then s.descs ++ descsFrom k ss
    else (if s.descs = [] then [noDescription (k + 1)] else s.descs) ++ descsFrom (k + 1) ss

theorem strings_append (ss ts : List Bytes) : strings (ss ++ ts) = strings ss ++ strings ts :=
  List.flatMap_append

theorem strings_singleton (s : Bytes) : strings [s] = s ++ [0] := by simp [strings]

theorem scripts_append (cs ds : List (List Bytes)) : scripts (cs ++ ds) = scripts cs ++ scripts ds :=
  List.flatMap_append

theorem scripts_singleton (c : List Bytes) : scripts [c] = strings c ++ [0] := by simp [scripts]

theorem entries_append (ss ts : List Stanza) : entries (ss ++ ts) = entries ss ++ entries ts :=
  List.filter_append ..

theorem descsFrom_append (ss ts : List Stanza) (k : ℕ) :
    descsFrom k (ss ++ ts) = descsFrom k ss ++ descsFrom (k + (entries ss).length) ts := by
  induction ss generalizing k with
  | nil => rfl
  | cons s ss ih =>
    rw [List.cons_append, descsFrom, descsFrom]
    by_cases h : s.commands = []
    · rw [if_pos h, if_pos h, ih, List.append_assoc]
      simp [entries, h]
    · have hk : k + 1 + (entries ss).length = k + (entries (s :: ss)).length := by
        simp [entries, h]
        omega
      rw [if_neg h, if_neg h, ih, List.append_assoc, hk]

/-- The variables of `cmain` for an outline. -/
structure Matches (p : Parse) (o : Outline) : Prop where
  before : o.cur = none → o.done = [] ∧ p.menu = [] ∧ p.config = [] ∧ p.prevMenuLen = 0 ∧
    p.prevConfigLen = 0 ∧ p.state = 0 ∧ p.numEntries = 0 ∧ p.desc = strings o.pre
  inside : ∀ s, o.cur = some s →
    p.menu = strings ((entries o.done).map Stanza.title) ++ strings [s.title] ∧
    p.config = scripts ((entries o.done).map Stanza.commands) ++ strings s.commands ∧
    p.prevMenuLen = (strings ((entries o.done).map Stanza.title)).length ∧
    p.prevConfigLen = (scripts ((entries o.done).map Stanza.commands)).length ∧
    p.state = 1 + s.commands.length ∧ p.numEntries = (entries o.done).length ∧
    p.gotDesc = decide (s.descs ≠ []) ∧
    p.desc = strings (o.pre ++ descsFrom 0 o.done) ++ strings s.descs

theorem matches_start : Matches Parse.start ⟨[], [], none⟩ :=
  ⟨fun _ => ⟨rfl, rfl, rfl, rfl, rfl, rfl, rfl, rfl⟩, fun s h => by cases h⟩

section Step

variable {table} {p : Parse} {o : Outline}

/-- The end of the last stanza. -/
def Parse.settle (p : Parse) : Parse :=
  if 1 < p.state then
    { p.close with prevMenuLen := p.close.menu.length, prevConfigLen := p.close.config.length }
  else p.forget

/-- The areas when the last stanza is over: a stanza without commands leaves only its descriptions. -/
theorem Matches.settle (h : Matches p o) :
    p.settle.menu = strings ((entries o.stanzas).map Stanza.title) ∧
    p.settle.config = scripts ((entries o.stanzas).map Stanza.commands) ∧
    p.settle.prevMenuLen = p.settle.menu.length ∧ p.settle.prevConfigLen = p.settle.config.length ∧
    p.settle.numEntries = (entries o.stanzas).length ∧
    p.settle.desc = strings (o.pre ++ descsFrom 0 o.stanzas) := by
  unfold Outline.stanzas Parse.settle
  cases hc : o.cur with
  | none =>
    obtain ⟨hd, h1, h2, h3, h4, h5, h6, h7⟩ := h.before hc
    rw [h5, if_neg (by omega), hd]
    unfold Parse.forget
    rw [h1, h2, h3, h4]
    exact ⟨rfl, rfl, rfl, rfl, h6, by rw [h7]; simp [descsFrom]⟩
  | some s =>
    obtain ⟨h1, h2, h3, h4, h5, h6, h7, h8⟩ := h.inside s hc
    rw [Option.toList_some, entries_append, descsFrom_append, Nat.zero_add]
    by_cases hs : s.commands = []
    · have he : entries [s] = [] := by simp [entries, hs]
      have hd : descsFrom (entries o.done).length [s] = s.descs := by simp [descsFrom, hs]
      rw [h5, hs, List.length_nil, if_neg (by omega), he, hd]
      unfold Parse.forget
      rw [h1, h2, h3, h4, hs, h8, h6]
      simp [strings]
    · have he : entries [s] = [s] := by simp [entries, hs]
      have hlen := List.length_pos_iff.mpr hs
      rw [h5, if_pos (by omega), he]
      unfold Parse.close
      simp only [h1, h2, h6, h7, h8, List.map_append, strings_append, scripts_append, List.map_cons,
        List.map_nil, scripts_singleton, List.append_assoc, List.length_append, List.length_singleton,
        true_and]
      by_cases hd : s.descs = []
      · simp [hd, descsFrom, hs, strings]
      · simp [hd, descsFrom, hs, strings]

/-- A description goes to the stanza that is being read. -/
theorem Matches.addDesc (h : Matches p o) (text : Bytes) :
    Matches { p with desc := p.desc ++ text ++ [0], gotDesc := true } (o.addDesc text) := by
  unfold Outline.addDesc
  cases hc : o.cur with
  | none =>
    obtain ⟨hd, h1, h2, h3, h4, h5, h6, h7⟩ := h.before hc
    refine ⟨fun _ => ⟨hd, h1, h2, h3, h4, h5, h6, ?_⟩, fun s hs => absurd hs.symm (Option.some_ne_none s)⟩
    dsimp only
    rw [h7, strings_append, strings_singleton, List.append_assoc]
  | some s =>
    obtain ⟨h1, h2, h3, h4, h5, h6, h7, h8⟩ := h.inside s hc
    refine ⟨fun hn => (by cases hn), fun s' hs' => ?_⟩
    obtain rfl := Option.some.inj hs'
    refine ⟨h1, h2, h3, h4, h5, h6, by simp, ?_⟩
    dsimp only
    rw [h8, strings_append s.descs, strings_singleton, List.append_assoc, List.append_assoc]

/-- A title ends the stanza before it. -/
theorem Matches.addTitle (h : Matches p o) (text : Bytes) :
    Matches { p.settle with state := 1, gotDesc := false, menu := p.settle.menu ++ text ++ [0] }
      (o.addTitle text) := by
  obtain ⟨h1, h2, h3, h4, h5, h6⟩ := h.settle
  refine ⟨fun hn => (by cases hn), fun s' hs' => ?_⟩
  obtain rfl := Option.some.inj hs'
  refine ⟨?_, ?_, ?_, ?_, rfl, h5, rfl, ?_⟩
  · rw [h1, strings_singleton, List.append_assoc]
    rfl
  · rw [h2]
    exact (List.append_nil _).symm
  · rw [h3, h1]
    rfl
  · rw [h4, h2]
    rfl
  · rw [h6]
    exact (List.append_nil _).symm

/-- Any other command belongs to the stanza. -/
theorem Matches.addCommand (h : Matches p o) (hstate : p.state ≠ 0) (cmdline : Bytes) :
    Matches { p with state := p.state + 1, config := p.config ++ cmdline ++ [0] }
      (o.addCommand cmdline) := by
  unfold Outline.addCommand
  cases hc : o.cur with
  | none => exact absurd (h.before hc).2.2.2.2.2.1 hstate
  | some s =>
    obtain ⟨h1, h2, h3, h4, h5, h6, h7, h8⟩ := h.inside s hc
    refine ⟨fun hn => (by cases hn), fun s' hs' => ?_⟩
    obtain rfl := Option.some.inj hs'
    refine ⟨h1, ?_, h3, h4, ?_, h6, h7, h8⟩
    · dsimp only
      rw [h2, strings_append, strings_singleton, List.append_assoc, List.append_assoc]
    · dsimp only
      rw [h5, List.length_append, List.length_singleton, Nat.add_assoc]

/-- Before the first title no command is of a stanza. -/
theorem Matches.addCommand_eq (h : Matches p o) (hstate : p.state = 0) (cmdline : Bytes) :
    o.addCommand cmdline = o := by
  unfold Outline.addCommand
  cases hc : o.cur with
  | none => rfl
  | some s =>
    have h5 := (h.inside s hc).2.2.2.2.1
    omega

/-- **One line** of the file. -/
theorem Matches.line (h : Matches p o) (cmdline : Bytes) :
    Matches (p.line table cmdline) (o.line table cmdline) := by
  unfold Parse.line Outline.line
  cases findCommand table cmdline with
  | none => exact h
  | some b =>
    dsimp only
    by_cases hdesc : b.isDesc = true
    · rw [if_pos hdesc, if_pos hdesc]
      exact h.addDesc (skipTo cmdline)
    rw [if_neg hdesc, if_neg hdesc]
    by_cases htitle : b.isTitle = true
    · rw [if_pos htitle, if_pos htitle]
      exact h.addTitle (skipTo cmdline)
    rw [if_neg htitle, if_neg htitle]
    split_ifs with hstate hmenu
    · rw [h.addCommand_eq hstate]
      exact ⟨h.before, h.inside⟩
    · rw [h.addCommand_eq hstate]
      exact h
    · exact h.addCommand hstate cmdline

/-- The whole file. -/
theorem Matches.lines (h : Matches p o) (ls : List Bytes) :
    Matches (ls.foldl (Parse.line table) p) (ls.foldl (Outline.line table) o) := by
  induction ls generalizing p o with
  | nil => exact h
  | cons l ls ih => exact ih (h.line l)

end Step

/-- **The areas** of a file. -/
theorem readConfig_spec (file : Bytes) :
    (readConfig table file).menu =
      strings ((entries (outline table file).stanzas).map Stanza.title) ++ [0] ∧
    (readConfig table file).config =
      scripts ((entries (outline table file).stanzas).map Stanza.commands) ++ [0] ∧
    (readConfig table file).numEntries = (entries (outline table file).stanzas).length ∧
    (readConfig table file).desc =
      strings ((outline table file).pre ++ descsFrom 0 (outline table file).stanzas) ++ [0] := by
  have h : Matches ((configLines file).foldl (Parse.line table) Parse.start) (outline table file) :=
    matches_start.lines (configLines file)
  obtain ⟨h1, h2, -, -, h5, h6⟩ := h.settle
  rw [← h1, ← h2, ← h5, ← h6]
  unfold readConfig Parse.finish Parse.settle
  split_ifs <;> exact ⟨rfl, rfl, rfl, rfl⟩

/-! ## No NUL in a line -/

/-- A line has no NUL. -/
def NoNul (s : Bytes) : Prop := ∀ b ∈ s, b ≠ 0

theorem noNul_skipTo {s : Bytes} (h : NoNul s) : NoNul (skipTo s) := fun b hb =>
  h b (List.dropWhile_subset _ (List.dropWhile_subset _ hb))

theorem noNul_configLines (file : Bytes) : ∀ l ∈ configLines file, NoNul l := by
  suffices h : ∀ fuel t, ∀ l ∈ configLinesAux fuel t, NoNul l from h _ _
  intro fuel
  induction fuel with
  | zero => exact fun t l hl => absurd hl List.not_mem_nil
  | succ fuel ih =>
    intro t l hl
    unfold configLinesAux at hl
    dsimp only at hl
    split_ifs at hl
    · exact absurd hl List.not_mem_nil
    · obtain rfl | hl := List.mem_cons.mp hl
      · exact fun b hb => cstr_ne_zero b hb
      · exact ih _ l hl

theorem name_of_findBuiltin {name : Bytes} {b : Builtin} (h : findBuiltin name table = some b) :
    b.name = name := by
  induction table with
  | nil => cases h
  | cons c cs ih =>
    unfold findBuiltin at h
    split_ifs at h with h1 h2
    · exact Option.some.inj h ▸ h1.symm
    · exact ih h

/-- A command has a name. -/
theorem ne_nil_of_findCommand {cmdline : Bytes} {b : Builtin}
    (h : findCommand table cmdline = some b) : cmdline ≠ [] := by
  rintro rfl
  exact b.name_ne (name_of_findBuiltin table h)

structure Stanza.Clean (s : Stanza) : Prop where
  title : NoNul s.title
  descs : ∀ d ∈ s.descs, NoNul d
  commands : ∀ c ∈ s.commands, c ≠ [] ∧ NoNul c

/-- Something is added to the last stanza. -/
theorem Outline.setCur_clean {o : Outline} (h : ∀ s ∈ o.stanzas, s.Clean) {c : Stanza} (hc : o.cur = some c)
    {c' : Stanza} (hclean : c.Clean → c'.Clean) :
    ∀ s ∈ ({ o with cur := some c' } : Outline).stanzas, s.Clean := by
  unfold Outline.stanzas at *
  rw [hc] at h
  obtain ⟨hdone, hcur⟩ := List.forall_mem_append.mp h
  have hlast := hclean (hcur c (List.mem_singleton.mpr rfl))
  exact List.forall_mem_append.mpr ⟨hdone, List.forall_mem_singleton.mpr hlast⟩

theorem Outline.addDesc_clean {o : Outline} (h : ∀ s ∈ o.stanzas, s.Clean) {text : Bytes}
    (ht : NoNul text) : ∀ s ∈ (o.addDesc text).stanzas, s.Clean := by
  unfold Outline.addDesc
  cases hc : o.cur with
  | none =>
    unfold Outline.stanzas at *
    rw [hc] at h
    exact h
  | some c =>
    refine o.setCur_clean h hc fun hcl => ⟨hcl.title, ?_, hcl.commands⟩
    exact List.forall_mem_append.mpr ⟨hcl.descs, List.forall_mem_singleton.mpr ht⟩

theorem Outline.addTitle_clean {o : Outline} (h : ∀ s ∈ o.stanzas, s.Clean) {text : Bytes}
    (ht : NoNul text) : ∀ s ∈ (o.addTitle text).stanzas, s.Clean := by
  intro s hs
  obtain hs | hs := List.mem_append.mp hs
  · exact h s hs
  · obtain rfl := List.mem_singleton.mp hs
    exact ⟨ht, fun d hd => absurd hd List.not_mem_nil, fun c hc => absurd hc List.not_mem_nil⟩

theorem Outline.addCommand_clean {o : Outline} (h : ∀ s ∈ o.stanzas, s.Clean) {cmdline : Bytes}
    (hne : cmdline ≠ []) (ht : NoNul cmdline) : ∀ s ∈ (o.addCommand cmdline).stanzas, s.Clean := by
  unfold Outline.addCommand
  cases hc : o.cur with
  | none => exact h
  | some c =>
    refine o.setCur_clean h hc fun hcl => ⟨hcl.title, hcl.descs, ?_⟩
    exact List.forall_mem_append.mpr ⟨hcl.commands, List.forall_mem_singleton.mpr ⟨hne, ht⟩⟩

theorem Outline.line_clean {o : Outline} (h : ∀ s ∈ o.stanzas, s.Clean) {cmdline : Bytes}
    (ht : NoNul cmdline) : ∀ s ∈ (o.line table cmdline).stanzas, s.Clean := by
  unfold Outline.line
  cases hf : findCommand table cmdline with
  | none => exact h
  | some b =>
    dsimp only
    split_ifs
    · exact o.addDesc_clean h (noNul_skipTo ht)
    · exact o.addTitle_clean h (noNul_skipTo ht)
    · exact o.addCommand_clean h (ne_nil_of_findCommand table hf) ht

theorem outline_clean (file : Bytes) : ∀ s ∈ (outline table file).stanzas, s.Clean := by
  unfold outline
  suffices h : ∀ (ls : List Bytes) (o : Outline), (∀ l ∈ ls, NoNul l) → (∀ s ∈ o.stanzas, s.Clean) →
      ∀ s ∈ (ls.foldl (Outline.line table) o).stanzas, s.Clean from
    h _ _ (noNul_configLines file) fun s hs => absurd hs List.not_mem_nil
  intro ls
  induction ls with
  | nil => exact fun o _ h => h
  | cons l ls ih =>
    intro o hl h
    obtain ⟨hl, hls⟩ := List.forall_mem_cons.mp hl
    exact ih _ hls (o.line_clean table h hl)

/-! ## Looking up an entry -/

theorem skipString_append {s : Bytes} (h : NoNul s) (t : Bytes) : skipString (s ++ 0 :: t) = t := by
  induction s with
  | nil => rfl
  | cons b s ih =>
    obtain ⟨hb, hs⟩ := List.forall_mem_cons.mp h
    rw [List.cons_append, skipString, if_neg hb, ih hs]

theorem strings_cons_append (s : Bytes) (ss : List Bytes) (t : Bytes) :
    strings (s :: ss) ++ t = s ++ 0 :: (strings ss ++ t) := by
  simp [strings]

/-- `get_entry` passes over strings. -/
theorem getEntry_strings {before : List Bytes} (h : ∀ s ∈ before, NoNul s) (t : Bytes) :
    getEntry (strings before ++ t) before.length false = t := by
  induction before with
  | nil => rfl
  | cons s ss ih =>
    obtain ⟨hs, hss⟩ := List.forall_mem_cons.mp h
    rw [List.length_cons, getEntry, strings_cons_append, if_neg Bool.false_ne_true,
      skipString_append hs, ih hss]

/-- Strings that are commands: none of them is empty. -/
def Commands (c : List Bytes) : Prop := ∀ s ∈ c, s ≠ [] ∧ NoNul s

/-- The first byte of a command after the first one is read as the end would be. -/
theorem skipStrings_append {s : Bytes} (hs : NoNul s) {ss : List Bytes} (h : Commands ss) (t : Bytes)
    {fuel : ℕ} (hf : ss.length < fuel) : skipStrings fuel (strings (s :: ss) ++ 0 :: t) = t := by
  induction ss generalizing s fuel with
  | nil =>
    obtain ⟨fuel, rfl⟩ : ∃ k, fuel = k + 1 := ⟨fuel - 1, by rw [List.length_nil] at hf; omega⟩
    rw [skipStrings, strings_cons_append, skipString_append hs]
    rfl
  | cons s' ss ih =>
    rw [List.length_cons] at hf
    obtain ⟨fuel, rfl⟩ : ∃ k, fuel = k + 1 := ⟨fuel - 1, by omega⟩
    obtain ⟨⟨hne, hs'⟩, hss⟩ := List.forall_mem_cons.mp h
    obtain ⟨b, s', rfl⟩ := List.exists_cons_of_ne_nil hne
    obtain ⟨hb, hs'⟩ := List.forall_mem_cons.mp hs'
    have ih := @ih _ hs' hss fuel (by omega)
    rw [strings_cons_append] at ih
    rw [skipStrings, strings_cons_append, skipString_append hs, strings_cons_append, List.cons_append]
    dsimp only
    rw [if_neg hb, ih]

theorem length_le_strings (c : List Bytes) : c.length ≤ (strings c).length := by
  induction c with
  | nil => exact Nat.le_refl 0
  | cons s ss ih =>
    simp only [strings, List.flatMap_cons, List.length_append, List.length_cons] at *
    omega

theorem scripts_cons_append (c : List Bytes) (cs : List (List Bytes)) (t : Bytes) :
    scripts (c :: cs) ++ t = strings c ++ 0 :: (scripts cs ++ t) := by
  simp [scripts]

/-- `get_entry` passes over scripts. -/
theorem getEntry_scripts {before : List (List Bytes)} (hne : ∀ c ∈ before, c ≠ [])
    (h : ∀ c ∈ before, Commands c) (t : Bytes) :
    getEntry (scripts before ++ t) before.length true = t := by
  induction before with
  | nil => rfl
  | cons c cs ih =>
    obtain ⟨hc, hcs⟩ := List.forall_mem_cons.mp h
    obtain ⟨hnc, hncs⟩ := List.forall_mem_cons.mp hne
    obtain ⟨s, ss, rfl⟩ := List.exists_cons_of_ne_nil hnc
    obtain ⟨⟨-, hs⟩, hss⟩ := List.forall_mem_cons.mp hc
    have hf : ss.length < (strings (s :: ss) ++ 0 :: (scripts cs ++ t)).length := by
      have := length_le_strings (s :: ss)
      rw [List.length_cons] at this
      rw [List.length_append]
      omega
    rw [List.length_cons, getEntry, if_pos rfl, scripts_cons_append,
      skipStrings_append hs hss _ hf, ih hncs hcs]

/-- The commands that `run_script` runs. -/
theorem script_append {c : List Bytes} (h : Commands c) (t : Bytes) :
    script (strings c ++ 0 :: t) = c := by
  unfold script
  have hf : c.length < (strings c ++ 0 :: t).length := by
    have := length_le_strings c
    rw [List.length_append, List.length_cons]
    omega
  generalize (strings c ++ 0 :: t).length = fuel at hf
  induction c generalizing fuel with
  | nil =>
    obtain ⟨fuel, rfl⟩ := Nat.exists_eq_add_of_lt hf
    rfl
  | cons s ss ih =>
    obtain ⟨⟨hne, hs⟩, hss⟩ := List.forall_mem_cons.mp h
    rw [List.length_cons] at hf
    obtain ⟨fuel, rfl⟩ : ∃ k, fuel = k + 1 := ⟨fuel - 1, by omega⟩
    rw [scriptAux, strings_cons_append, cstr_append_zero hs, if_neg hne, skipString_append hs,
      ih hss _ (by omega)]

/-- `print_entries` draws strings that are not empty. -/
theorem printEntries_getD {before : List Bytes} (h : ∀ s ∈ before, s ≠ [] ∧ NoNul s) {size : ℕ}
    (hs : before.length < size) (t : Bytes) :
    (printEntries size (strings before ++ t)).getD before.length [] = cstr t := by
  induction before generalizing size with
  | nil =>
    obtain ⟨size, rfl⟩ := Nat.exists_eq_add_of_lt hs
    rfl
  | cons s ss ih =>
    obtain ⟨⟨hne, hs'⟩, hss⟩ := List.forall_mem_cons.mp h
    rw [List.length_cons] at hs
    obtain ⟨size, rfl⟩ : ∃ k, size = k + 1 := ⟨size - 1, by omega⟩
    rw [printEntries, strings_cons_append, cstr_append_zero hs', if_neg hne, skipString_append hs',
      List.length_cons, List.getD_cons_succ, ih hss (by omega)]

/-! ## The place in the menu -/

theorem Place.key_entryno {num : ℕ} {m : Place} (h : m.entryno ≤ 11) (k : Key) :
    (m.key num k).entryno ≤ 11 := by
  cases k <;> grind [Place.key]

theorem Place.key_lt {num : ℕ} {m : Place} (h : m.firstEntry + m.entryno < num) (k : Key) :
    (m.key num k).firstEntry + (m.key num k).entryno < num := by
  cases k <;> grind [Place.key]

/-- The highlighted line is in the box. -/
theorem keys_entryno (num default : ℕ) (ks : List Key) :
    ((Place.start default).keys num ks).entryno ≤ 11 := by
  unfold Place.keys
  refine List.foldlRecOn (motive := fun m : Place => m.entryno ≤ 11) ks _ ?_
    fun m h k _ => Place.key_entryno h k
  unfold Place.start
  split_ifs
  · exact Nat.le_refl 11
  · dsimp only
    omega

/-- The keys do not leave the menu. -/
theorem keys_lt {num default : ℕ} (h : default < num) (ks : List Key) :
    ((Place.start default).keys num ks).firstEntry +
      ((Place.start default).keys num ks).entryno < num := by
  unfold Place.keys
  refine List.foldlRecOn (motive := fun m : Place => m.firstEntry + m.entryno < num) ks _ ?_
    fun m h k _ => Place.key_lt h k
  unfold Place.start
  split_ifs <;> dsimp only <;> omega

/-! ## Alignment -/

/-- No description too many: a stanza that becomes an entry has one at most, any other none. -/
def Stanza.Tidy (s : Stanza) : Prop :=
  if s.commands = [] then s.descs = [] else s.descs.length ≤ 1

instance (s : Stanza) : Decidable s.Tidy := by unfold Stanza.Tidy; infer_instance

/-- Tidy stanzas store one description for each entry. -/
theorem length_descsFrom {ss : List Stanza} (h : ∀ s ∈ ss, s.Tidy) (k : ℕ) :
    (descsFrom k ss).length = (entries ss).length := by
  induction ss generalizing k with
  | nil => rfl
  | cons s ss ih =>
    obtain ⟨hs, hss⟩ := List.forall_mem_cons.mp h
    unfold Stanza.Tidy at hs
    rw [descsFrom]
    by_cases hc : s.commands = []
    · rw [if_pos hc] at hs ⊢
      rw [hs, List.nil_append, ih hss]
      simp [entries, hc]
    · rw [if_neg hc] at hs ⊢
      have hone : (if s.descs = [] then [noDescription (k + 1)] else s.descs).length = 1 := by
        split_ifs with hd
        · rfl
        · have := List.length_pos_iff.mpr hd
          omega
      have he : (entries (s :: ss)).length = 1 + (entries ss).length := by
        simp [entries, hc, Nat.add_comm]
      rw [List.length_append, hone, ih hss, he]

theorem noNul_noDescription {num : ℕ} (h : num < 208) : NoNul (noDescription num) := by
  have htext : ∀ b ∈ ascii "No description... 0", b ≠ 0 := by decide
  intro b hb
  obtain hb | hb := List.mem_append.mp hb
  · exact htext b hb
  · rw [List.mem_singleton.mp hb]
    intro h0
    have h48 := congrArg UInt8.toNat h0
    have hlt : 48 + num < 256 := by omega
    rw [UInt8.toNat_ofNat_of_lt' hlt] at h48
    exact absurd h48 (by simp)

theorem noNul_descsFrom {ss : List Stanza} (h : ∀ s ∈ ss, s.Clean) {k : ℕ}
    (hk : k + (entries ss).length < 208) : ∀ d ∈ descsFrom k ss, NoNul d := by
  induction ss generalizing k with
  | nil => exact fun d hd => absurd hd List.not_mem_nil
  | cons s ss ih =>
    obtain ⟨hs, hss⟩ := List.forall_mem_cons.mp h
    intro d hd
    rw [descsFrom] at hd
    by_cases hc : s.commands = []
    · have he : entries (s :: ss) = entries ss := by simp [entries, hc]
      rw [if_pos hc] at hd
      obtain hd | hd := List.mem_append.mp hd
      · exact hs.descs d hd
      · exact ih hss (he ▸ hk) d hd
    · have he : (entries (s :: ss)).length = (entries ss).length + 1 := by simp [entries, hc]
      rw [if_neg hc] at hd
      obtain hd | hd := List.mem_append.mp hd
      · split_ifs at hd
        · rw [List.mem_singleton.mp hd]
          exact noNul_noDescription (by omega)
        · exact hs.descs d hd
      · exact ih hss (by omega) d hd

/-- An entry of the menu is a stanza with commands. -/
theorem exists_split {ss : List Stanza} {i : ℕ} (h : i < (entries ss).length) :
    ∃ before s after, ss = before ++ s :: after ∧ s.commands ≠ [] ∧ (entries before).length = i := by
  induction ss generalizing i with
  | nil => exact absurd h (Nat.not_lt_zero i)
  | cons s ss ih =>
    by_cases hc : s.commands = []
    · have he : entries (s :: ss) = entries ss := by simp [entries, hc]
      obtain ⟨before, s', after, rfl, hs, hl⟩ := ih (he ▸ h)
      exact ⟨s :: before, s', after, rfl, hs, by rw [← hl]; simp [entries, hc]⟩
    · cases i with
      | zero => exact ⟨[], s, ss, rfl, hc, rfl⟩
      | succ i =>
        have he : (entries (s :: ss)).length = (entries ss).length + 1 := by simp [entries, hc]
        obtain ⟨before, s', after, rfl, hs, hl⟩ := ih (i := i) (by omega)
        exact ⟨s :: before, s', after, rfl, hs, by rw [← hl]; simp [entries, hc]⟩

/-- Title, commands and description of the place are those of one stanza. -/
def AlignedAt (o : Outline) (p : Parse) (m : Place) : Prop :=
  ∃ before s after, o.stanzas = before ++ s :: after ∧ s.commands ≠ [] ∧
    (entries before).length = m.firstEntry + m.entryno ∧
    p.highlighted m = s.title ∧ p.booted m = s.commands ∧
    p.shown m = s.descs.headD (noDescription (m.firstEntry + m.entryno + 1))

section Lookup

variable {table} {file : Bytes} {before after : List Stanza} {s : Stanza} {m : Place}
  (ho : (outline table file).stanzas = before ++ s :: after) (hs : s.commands ≠ [])
  (hi : (entries before).length = m.firstEntry + m.entryno)

include ho in
theorem clean_of_outline : (∀ b ∈ entries before, b.Clean) ∧ s.Clean := by
  have hclean := outline_clean table file
  rw [ho] at hclean
  exact ⟨fun b hb => hclean b (List.mem_append_left _ (List.mem_of_mem_filter hb)),
    hclean s (by simp)⟩

include ho hs in
theorem menu_eq : ∃ rest, (readConfig table file).menu =
    strings ((entries before).map Stanza.title) ++ (s.title ++ 0 :: rest) := by
  have he : entries (s :: after) = s :: entries after := by simp [entries, hs]
  refine ⟨strings ((entries after).map Stanza.title) ++ [0], ?_⟩
  rw [(readConfig_spec table file).1, ho, entries_append, he, List.map_append, strings_append,
    List.append_assoc, List.map_cons, strings_cons_append]

include ho hs hi in
/-- The title of the place. -/
theorem highlighted_eq : (readConfig table file).highlighted m = s.title := by
  obtain ⟨hbefore, hclean⟩ := clean_of_outline ho
  obtain ⟨rest, hmenu⟩ := menu_eq ho hs
  have hlen : ((entries before).map Stanza.title).length = m.firstEntry + m.entryno := by
    rw [List.length_map, hi]
  have htitles : ∀ t ∈ (entries before).map Stanza.title, NoNul t := by
    intro t ht
    obtain ⟨b, hb, rfl⟩ := List.mem_map.mp ht
    exact (hbefore b hb).title
  unfold Parse.highlighted
  rw [hmenu, ← hlen, getEntry_strings htitles, cstr_append_zero hclean.title]

include ho hs hi in
/-- The box shows it too, unless an empty title stands before it. -/
theorem drawn_eq (hm : m.entryno ≤ 11) (hne : ∀ b ∈ before, b.commands ≠ [] → b.title ≠ []) :
    (readConfig table file).drawn m = s.title := by
  obtain ⟨hbefore, hclean⟩ := clean_of_outline ho
  obtain ⟨rest, hmenu⟩ := menu_eq ho hs
  -- the titles above the box, and those in it
  obtain ⟨above, shown, happ, hlen⟩ : ∃ above shown : List Bytes,
      (entries before).map Stanza.title = above ++ shown ∧ above.length = m.firstEntry :=
    ⟨_, _, (List.take_append_drop m.firstEntry _).symm, by
      rw [List.length_take, List.length_map]
      omega⟩
  have hlen' : shown.length = m.entryno := by
    have := congrArg List.length happ
    rw [List.length_map, List.length_append] at this
    omega
  have htitles : ∀ t ∈ above ++ shown, t ≠ [] ∧ NoNul t := by
    intro t ht
    obtain ⟨b, hb, rfl⟩ := List.mem_map.mp (happ ▸ ht)
    obtain ⟨hmem, hcmd⟩ := List.mem_filter.mp hb
    exact ⟨hne b hmem (of_decide_eq_true hcmd), (hbefore b hb).title⟩
  unfold Parse.drawn
  rw [hmenu, happ, strings_append, List.append_assoc, ← hlen,
    getEntry_strings fun t ht => (htitles t (List.mem_append_left _ ht)).2, ← hlen',
    printEntries_getD (fun t ht => htitles t (List.mem_append_right _ ht)) (by omega),
    cstr_append_zero hclean.title]

include ho hs hi in
/-- The commands of the place. -/
theorem booted_eq : (readConfig table file).booted m = s.commands := by
  obtain ⟨hbefore, hclean⟩ := clean_of_outline ho
  have he : entries (s :: after) = s :: entries after := by simp [entries, hs]
  have hlen : ((entries before).map Stanza.commands).length = m.firstEntry + m.entryno := by
    rw [List.length_map, hi]
  have hne : ∀ c ∈ (entries before).map Stanza.commands, c ≠ [] := by
    intro c hc
    obtain ⟨b, hb, rfl⟩ := List.mem_map.mp hc
    exact of_decide_eq_true (List.mem_filter.mp hb).2
  have hcmd : ∀ c ∈ (entries before).map Stanza.commands, Commands c := by
    intro c hc
    obtain ⟨b, hb, rfl⟩ := List.mem_map.mp hc
    exact (hbefore b hb).commands
  unfold Parse.booted
  rw [(readConfig_spec table file).2.1, ho, entries_append, he, List.map_append, scripts_append,
    List.append_assoc, List.map_cons, scripts_cons_append, ← hlen, getEntry_scripts hne hcmd,
    script_append hclean.commands]

include ho hs hi in
/-- The description of the place, when the list is not scrolled. -/
theorem shown_eq (hm : m.entryno ≤ 11) (hfirst : m.firstEntry = 0) (hpre : (outline table file).pre = [])
    (htidy : ∀ b ∈ before, b.Tidy) :
    (readConfig table file).shown m = s.descs.headD (noDescription (m.firstEntry + m.entryno + 1)) := by
  have hclean := outline_clean table file
  rw [ho] at hclean
  have hbefore : ∀ b ∈ before, b.Clean := fun b hb => hclean b (List.mem_append_left _ hb)
  have hlen : (descsFrom 0 before).length = m.entryno := by
    rw [length_descsFrom htidy, hi, hfirst, Nat.zero_add]
  have hnul : ∀ d ∈ descsFrom 0 before, NoNul d := noNul_descsFrom hbefore (by omega)
  -- the first description that is stored for the stanza
  obtain ⟨rest, hdescs⟩ : ∃ rest, descsFrom (entries before).length (s :: after) =
      s.descs.headD (noDescription (m.firstEntry + m.entryno + 1)) :: rest := by
    rw [descsFrom, if_neg hs, hi]
    cases s.descs with
    | nil => exact ⟨_, rfl⟩
    | cons d ds => exact ⟨_, rfl⟩
  have hhead : NoNul (s.descs.headD (noDescription (m.firstEntry + m.entryno + 1))) := by
    cases hd : s.descs with
    | nil => exact noNul_noDescription (by omega)
    | cons d ds => exact (hclean s (by simp)).descs d (hd ▸ List.mem_cons_self)
  generalize s.descs.headD (noDescription (m.firstEntry + m.entryno + 1)) = d at *
  unfold Parse.shown
  rw [(readConfig_spec table file).2.2.2, ho, hpre, List.nil_append, descsFrom_append, Nat.zero_add, hdescs,
    strings_append, List.append_assoc, strings_cons_append, ← hlen, getEntry_strings hnul,
    cstr_append_zero hhead]

end Lookup

end LinboxRescue
