import LinboxRescue.Lib.Interleave
import LinboxRescue.Boot.Menu

/-!
# The selected entry of the menu

`run_menu` as a state machine: what a key, a second of the clock and the end of a script do to the
place in the menu. The place is kept in two variables, and the editor for the commands of an entry is
another call of `run_menu`. The texts of the editor, the screen and the terminals are left out.

1. `RunMenu.Inside` holds of a call: there is an entry at the place, and when the box has been scrolled
   it is full.
2. `MenuState.Safe.step`: keys, seconds and scripts keep it, unless the fallback entry is used and does
   not exist.
3. `runMenu_selected`: so the selected entry exists in every state, when the default entry does. It is
   not in front of the first one, unless a line is inserted into an empty list.
-/

namespace LinboxRescue

/-! ## The variables -/

/-- The variables of a call of `run_menu`. The editor has no `config_entries`. -/
structure RunMenu where
  config : Option Bytes
  numEntries : ℤ
  firstEntry : ℤ
  entryno : ℤ
  deriving DecidableEq

/-- Where the call waits. -/
inductive MenuPhase
  /-- The menu is hidden. -/
  | hidden
  /-- The selected entry is highlighted and described. -/
  | shown
  /-- The selected entry is booted. -/
  | booting
  /-- `run_menu` does not come back. -/
  | gone
  deriving DecidableEq

/-- The running call, the one it was called from, and the global variables. -/
structure MenuState where
  menu : RunMenu
  outer : Option RunMenu
  timeout : ℤ
  fallback : ℤ
  showMenu : Bool
  phase : MenuPhase
  deriving DecidableEq

inductive MenuKey
  | reload | up | down | enter | delete | after | before | escape | boot | edit | command | other
  deriving DecidableEq

inductive MenuEvent
  | second
  | key (k : MenuKey)
  | script (failed : Bool)
  deriving DecidableEq

/-! ## Keys -/

/-- The loop at `restart`. -/
def RunMenu.scroll (m : RunMenu) : RunMenu :=
  if 11 < m.entryno then { m with firstEntry := m.firstEntry + (m.entryno - 11), entryno := 11 } else m

def RunMenu.up (m : RunMenu) : RunMenu :=
  if 0 < m.entryno then { m with entryno := m.entryno - 1 }
  else if 0 < m.firstEntry then { m with firstEntry := m.firstEntry - 1 }
  else m

def RunMenu.down (m : RunMenu) : RunMenu :=
  if m.firstEntry + m.entryno + 1 < m.numEntries then
    if m.entryno < 11 then { m with entryno := m.entryno + 1 }
    else if 12 + m.firstEntry < m.numEntries then { m with firstEntry := m.firstEntry + 1 }
    else m
  else m

/-- `O`. -/
def RunMenu.before (m : RunMenu) : RunMenu := { m with numEntries := m.numEntries + 1 }

/-- `o`. -/
def RunMenu.after (m : RunMenu) : RunMenu :=
  if m.entryno < 11 then { m with entryno := m.entryno + 1 }.before
  else { m with firstEntry := m.firstEntry + 1 }.before

/-- `d`. -/
def RunMenu.delete (m : RunMenu) : RunMenu :=
  if 0 < m.numEntries then
    let num := m.numEntries - 1
    { m with
      numEntries := num
      entryno := if num ≤ m.entryno then m.entryno - 1 else m.entryno
      firstEntry := if m.firstEntry ≠ 0 ∧ num < 12 + m.firstEntry then m.firstEntry - 1 else m.firstEntry }
  else m

/-- The number of strings up to an empty one, which is not looked for in front of the first. -/
def countStrings : ℕ → Bytes → ℕ
  | 0, _ => 1
  | fuel + 1, t =>
    match skipString t with
    | [] => 1
    | b :: t => if b = 0 then 1 else countStrings fuel (b :: t) + 1

/-- The editor for the commands of the selected entry. -/
def RunMenu.editor (m : RunMenu) (config : Bytes) : RunMenu :=
  ⟨none, countStrings config.length (getEntry config (m.firstEntry + m.entryno).toNat true), 0, 0⟩

section Step

variable (dumb nosecurity : Bool)

/-- From `restart` on, up to the next loop that waits. A dumb terminal gets the command line. -/
def MenuState.restart (s : MenuState) : MenuState :=
  let showMenu := if s.timeout < 0 then true else if dumb then false else s.showMenu
  { s with
    menu := s.menu.scroll
    showMenu := showMenu
    phase := if showMenu then if dumb then .gone else .shown else .hidden }

/-- The end of a call: the caller goes on at `restart`. -/
def MenuState.leave (s : MenuState) : MenuState :=
  match s.outer with
  | some m => MenuState.restart dumb { s with menu := m, outer := none }
  | none => { s with phase := .gone }

/-- A key ends the countdown. -/
def MenuState.quiet (s : MenuState) : MenuState :=
  if 0 ≤ s.timeout then { s with timeout := -1, fallback := -1 } else s

/-- What a key does. -/
def MenuState.press (s : MenuState) (k : MenuKey) : MenuState :=
  match k, s.menu.config with
  | .reload, _ => { s with phase := .gone }
  | .up, _ => { s with menu := s.menu.up }
  | .down, _ => { s with menu := s.menu.down }
  | .enter, some _ => { s with phase := .booting }
  | .delete, none => if nosecurity then { s with menu := s.menu.delete } else s
  | .after, none => if nosecurity then { s with menu := s.menu.after } else s
  | .before, none => if nosecurity then { s with menu := s.menu.before } else s
  | .escape, none => s.leave dumb
  | .boot, none => { s with phase := .booting }
  | .edit, some config =>
    if nosecurity then MenuState.restart dumb { s with menu := s.menu.editor config, outer := some s.menu }
    else s
  | .edit, none => if nosecurity then s.restart dumb else s
  | .command, _ => if nosecurity then s.restart dumb else s
  | _, _ => s

/-- A second passes. -/
def MenuState.second (s : MenuState) : MenuState :=
  if s.timeout < 0 then s
  else if s.timeout ≤ 0 then { s with timeout := -1, phase := .booting }
  else { s with timeout := s.timeout - 1 }

/-- The script of the entry has come to its end. -/
def MenuState.script (s : MenuState) (failed : Bool) : MenuState :=
  if failed = true ∧ 0 ≤ s.fallback then
    { s with menu := { s.menu with firstEntry := 0, entryno := s.fallback }, fallback := -1 }
  else MenuState.restart dumb { s with showMenu := true }

def MenuState.step (s : MenuState) (e : MenuEvent) : MenuState :=
  match s.phase, e with
  | .hidden, .second | .shown, .second => s.second
  | .hidden, .key .escape =>
    { s with timeout := -1, showMenu := true, phase := if dumb then .gone else .shown }
  | .shown, .key k => s.quiet.press dumb nosecurity k
  | .booting, .script failed => s.script dumb failed
  | _, _ => s

/-- `cmain` calls `run_menu` for the file that it has read. -/
def MenuState.start (p : Parse) (default : ℕ) (fallback timeout : ℤ) (showMenu : Bool) : MenuState :=
  MenuState.restart dumb
    ⟨⟨some p.config, p.numEntries, 0, default⟩, none, timeout, fallback, showMenu, .hidden⟩

def MenuState.run (s : MenuState) (es : List MenuEvent) : MenuState :=
  es.foldl (MenuState.step dumb nosecurity) s

end Step

/-! ## The place -/

/-- There is an entry at the place, or one behind it, and a box that has been scrolled is full. -/
structure RunMenu.Inside (m : RunMenu) : Prop where
  first : 0 ≤ m.firstEntry
  scrolled : m.firstEntry = 0 ∨ (m.firstEntry + 12 ≤ m.numEntries ∧ m.entryno ≤ 11)
  below : m.firstEntry + m.entryno < m.numEntries

/-- The place is not in front of the first entry of a list that has one. -/
structure RunMenu.NotBefore (m : RunMenu) : Prop where
  entryno : -1 ≤ m.entryno
  nonneg : 0 < m.numEntries → 0 ≤ m.entryno

section Place

variable {m : RunMenu}

theorem RunMenu.Inside.scroll (h : m.Inside) : m.scroll.Inside ∧ m.scroll.entryno ≤ 11 := by
  obtain ⟨hfirst, hscrolled, hbelow⟩ := h
  unfold RunMenu.scroll
  split_ifs with h11
  · have hzero : m.firstEntry = 0 := hscrolled.resolve_right fun h => absurd h.2 (not_le.mpr h11)
    refine ⟨⟨?_, .inr ⟨?_, le_rfl⟩, ?_⟩, le_rfl⟩ <;> dsimp only <;> omega
  · exact ⟨⟨hfirst, hscrolled, hbelow⟩, not_lt.mp h11⟩

theorem RunMenu.NotBefore.scroll (h : m.NotBefore) : m.scroll.NotBefore := by
  unfold RunMenu.scroll
  split_ifs
  · exact ⟨by dsimp only; omega, fun _ => by dsimp only; omega⟩
  · exact h

theorem RunMenu.Inside.up (h : m.Inside) (h11 : m.entryno ≤ 11) : m.up.Inside ∧ m.up.entryno ≤ 11 := by
  obtain ⟨hfirst, hscrolled, hbelow⟩ := h
  unfold RunMenu.up
  split_ifs
  · refine ⟨⟨hfirst, ?_, ?_⟩, ?_⟩ <;> dsimp only <;> omega
  · refine ⟨⟨?_, ?_, ?_⟩, h11⟩ <;> dsimp only <;> omega
  · exact ⟨⟨hfirst, hscrolled, hbelow⟩, h11⟩

theorem RunMenu.NotBefore.up (h : m.NotBefore) : m.up.NotBefore := by
  obtain ⟨hentry, hnonneg⟩ := h
  unfold RunMenu.up
  split_ifs
  · exact ⟨by dsimp only; omega, fun _ => by dsimp only; omega⟩
  · exact ⟨hentry, hnonneg⟩
  · exact ⟨hentry, hnonneg⟩

theorem RunMenu.Inside.down (h : m.Inside) (h11 : m.entryno ≤ 11) : m.down.Inside ∧ m.down.entryno ≤ 11 := by
  obtain ⟨hfirst, hscrolled, hbelow⟩ := h
  unfold RunMenu.down
  split_ifs
  · refine ⟨⟨hfirst, ?_, ?_⟩, ?_⟩ <;> dsimp only <;> omega
  · refine ⟨⟨?_, ?_, ?_⟩, h11⟩ <;> dsimp only <;> omega
  · exact ⟨⟨hfirst, hscrolled, hbelow⟩, h11⟩
  · exact ⟨⟨hfirst, hscrolled, hbelow⟩, h11⟩

theorem RunMenu.NotBefore.down (h : m.NotBefore) : m.down.NotBefore := by
  obtain ⟨hentry, hnonneg⟩ := h
  unfold RunMenu.down
  split_ifs
  · exact ⟨by dsimp only; omega, fun _ => by dsimp only; omega⟩
  · exact ⟨hentry, hnonneg⟩
  · exact ⟨hentry, hnonneg⟩
  · exact ⟨hentry, hnonneg⟩

theorem RunMenu.Inside.before (h : m.Inside) : m.before.Inside := by
  obtain ⟨hfirst, hscrolled, hbelow⟩ := h
  refine ⟨hfirst, ?_, ?_⟩ <;> unfold RunMenu.before <;> dsimp only <;> omega

theorem RunMenu.NotBefore.before (h : m.NotBefore) (hnum : 0 < m.numEntries) : m.before.NotBefore :=
  ⟨h.entryno, fun _ => h.nonneg hnum⟩

theorem RunMenu.Inside.after (h : m.Inside) (h11 : m.entryno ≤ 11) :
    m.after.Inside ∧ m.after.entryno ≤ 11 := by
  obtain ⟨hfirst, hscrolled, hbelow⟩ := h
  unfold RunMenu.after RunMenu.before
  split_ifs
  · refine ⟨⟨hfirst, ?_, ?_⟩, ?_⟩ <;> dsimp only <;> omega
  · refine ⟨⟨?_, ?_, ?_⟩, h11⟩ <;> dsimp only <;> omega

theorem RunMenu.NotBefore.after (h : m.NotBefore) : m.after.NotBefore := by
  obtain ⟨hentry, hnonneg⟩ := h
  unfold RunMenu.after RunMenu.before
  split_ifs
  · exact ⟨by dsimp only; omega, fun _ => by dsimp only; omega⟩
  · exact ⟨hentry, fun _ => by dsimp only; omega⟩

theorem RunMenu.Inside.delete (h : m.Inside) (h11 : m.entryno ≤ 11) :
    m.delete.Inside ∧ m.delete.entryno ≤ 11 := by
  obtain ⟨hfirst, hscrolled, hbelow⟩ := h
  unfold RunMenu.delete
  by_cases hnum : 0 < m.numEntries
  · rw [if_pos hnum]
    refine ⟨⟨?_, ?_, ?_⟩, ?_⟩ <;> dsimp only <;> split_ifs <;> omega
  · rw [if_neg hnum]
    exact ⟨⟨hfirst, hscrolled, hbelow⟩, h11⟩

theorem RunMenu.NotBefore.delete (h : m.NotBefore) : m.delete.NotBefore := by
  obtain ⟨hentry, hnonneg⟩ := h
  unfold RunMenu.delete
  by_cases hnum : 0 < m.numEntries
  · rw [if_pos hnum]
    refine ⟨?_, fun h => ?_⟩ <;> dsimp only at * <;> split_ifs <;> omega
  · rw [if_neg hnum]
    exact ⟨hentry, hnonneg⟩

theorem countStrings_pos (fuel : ℕ) (t : Bytes) : 0 < countStrings fuel t := by
  cases fuel with
  | zero => exact Nat.one_pos
  | succ fuel =>
    unfold countStrings
    split
    · exact Nat.one_pos
    · split_ifs
      · exact Nat.one_pos
      · exact Nat.succ_pos _

theorem RunMenu.editor_inside (m : RunMenu) (config : Bytes) : (m.editor config).Inside := by
  refine ⟨le_rfl, .inl rfl, ?_⟩
  show (0 : ℤ) + 0 < (countStrings _ _ : ℕ)
  exact_mod_cast countStrings_pos _ _

theorem RunMenu.editor_notBefore (m : RunMenu) (config : Bytes) : (m.editor config).NotBefore :=
  ⟨by show (-1 : ℤ) ≤ 0; decide, fun _ => le_rfl⟩

/-- The place is good; `b` says whether it must not be in front of the first entry. -/
structure RunMenu.Good (b : Prop) (m : RunMenu) : Prop where
  inside : m.Inside
  notBefore : b → m.NotBefore

end Place

/-! ## Runs -/

/-- When a script fails and there is a fallback entry, it is one of the entries. -/
def FallbackExists (s : MenuState) (e : MenuEvent) : Prop :=
  s.phase = .booting → e = .script true → 0 ≤ s.fallback → s.fallback < s.menu.numEntries

/-- Nothing is inserted in front of the entries of an empty list. -/
def InsertsInList (s : MenuState) (e : MenuEvent) : Prop :=
  s.phase = .shown → e = .key .before → 0 < s.menu.numEntries

/-- The places of the running call and of the one it was called from are good. -/
structure MenuState.Safe (b : Prop) (s : MenuState) : Prop where
  menu : s.menu.Good b
  outer : ∀ m ∈ s.outer, m.Good b
  entryno : s.phase = .hidden ∨ s.phase = .shown → s.menu.entryno ≤ 11

/-- A phase in which the place does not have to be in the box. -/
theorem not_waiting {p : MenuPhase} (h : p = .booting ∨ p = .gone) {P : Prop} :
    p = .hidden ∨ p = .shown → P := by
  rintro (rfl | rfl) <;> rcases h with h | h <;> cases h

section Runs

variable {dumb nosecurity : Bool} {b : Prop} {s : MenuState}

theorem MenuState.restart_safe (h : s.menu.Good b) (ho : ∀ m ∈ s.outer, m.Good b) :
    (s.restart dumb).Safe b :=
  ⟨⟨h.inside.scroll.1, fun hb => (h.notBefore hb).scroll⟩, ho, fun _ => h.inside.scroll.2⟩

theorem MenuState.Safe.leave (h : s.Safe b) : (s.leave dumb).Safe b := by
  unfold MenuState.leave
  cases ho : s.outer with
  | some m =>
    refine MenuState.restart_safe (h.outer m (by rw [ho]; rfl)) ?_
    intro m' hm'
    cases hm'
  | none => exact ⟨h.menu, fun m hm => (by cases hm), not_waiting (.inr rfl)⟩

theorem MenuState.Safe.quiet (h : s.Safe b) : s.quiet.Safe b := by
  unfold MenuState.quiet
  split_ifs
  · exact ⟨h.menu, h.outer, h.entryno⟩
  · exact h

theorem MenuState.quiet_menu (s : MenuState) : s.quiet.menu = s.menu ∧ s.quiet.phase = s.phase := by
  unfold MenuState.quiet
  split_ifs <;> exact ⟨rfl, rfl⟩

/-- The state with another place in the same list, or in the one that was edited. -/
theorem MenuState.Safe.move (h : s.Safe b) {m : RunMenu} (hm : m.Good b) (h11 : m.entryno ≤ 11) :
    MenuState.Safe b { s with menu := m } :=
  ⟨hm, h.outer, fun _ => h11⟩

theorem MenuState.Safe.press (h : s.Safe b) (hs : s.phase = .shown) (k : MenuKey)
    (hk : b → k = .before → 0 < s.menu.numEntries) : (s.press dumb nosecurity k).Safe b := by
  have h11 := h.entryno (.inr hs)
  obtain ⟨hin, hnot⟩ := h.menu
  unfold MenuState.press
  cases k with
  | reload => exact ⟨h.menu, h.outer, not_waiting (.inr rfl)⟩
  | up => exact h.move ⟨(hin.up h11).1, fun hb => (hnot hb).up⟩ (hin.up h11).2
  | down => exact h.move ⟨(hin.down h11).1, fun hb => (hnot hb).down⟩ (hin.down h11).2
  | enter =>
    cases s.menu.config with
    | some config => exact ⟨h.menu, h.outer, not_waiting (.inl rfl)⟩
    | none => exact h
  | delete =>
    cases s.menu.config with
    | some config => exact h
    | none =>
      dsimp only
      split_ifs
      · exact h.move ⟨(hin.delete h11).1, fun hb => (hnot hb).delete⟩ (hin.delete h11).2
      · exact h
  | after =>
    cases s.menu.config with
    | some config => exact h
    | none =>
      dsimp only
      split_ifs
      · exact h.move ⟨(hin.after h11).1, fun hb => (hnot hb).after⟩ (hin.after h11).2
      · exact h
  | before =>
    cases s.menu.config with
    | some config => exact h
    | none =>
      dsimp only
      split_ifs
      · exact h.move ⟨hin.before, fun hb => (hnot hb).before (hk hb rfl)⟩ h11
      · exact h
  | escape =>
    cases s.menu.config with
    | some config => exact h
    | none => exact h.leave
  | boot =>
    cases s.menu.config with
    | some config => exact h
    | none => exact ⟨h.menu, h.outer, not_waiting (.inl rfl)⟩
  | edit =>
    cases s.menu.config with
    | some config =>
      dsimp only
      split_ifs
      · refine MenuState.restart_safe
          ⟨s.menu.editor_inside config, fun _ => s.menu.editor_notBefore config⟩ ?_
        intro m hm
        obtain rfl := Option.some.inj hm
        exact h.menu
      · exact h
    | none =>
      dsimp only
      split_ifs
      · exact MenuState.restart_safe h.menu h.outer
      · exact h
  | command =>
    dsimp only
    split_ifs
    · exact MenuState.restart_safe h.menu h.outer
    · exact h
  | other => exact h

theorem MenuState.Safe.second (h : s.Safe b) : s.second.Safe b := by
  unfold MenuState.second
  split_ifs
  · exact h
  · exact ⟨h.menu, h.outer, not_waiting (.inl rfl)⟩
  · exact ⟨h.menu, h.outer, h.entryno⟩

theorem MenuState.Safe.script (h : s.Safe b) (hs : s.phase = .booting) {failed : Bool}
    (hf : failed = true → 0 ≤ s.fallback → s.fallback < s.menu.numEntries) :
    (s.script dumb failed).Safe b := by
  unfold MenuState.script
  split_ifs with hfall
  · obtain ⟨hfailed, hzero⟩ := hfall
    have hlt := hf hfailed hzero
    refine ⟨⟨⟨le_rfl, .inl rfl, ?_⟩, fun _ => ⟨?_, fun _ => hzero⟩⟩, h.outer, not_waiting (.inl hs)⟩
    · show 0 + s.fallback < s.menu.numEntries
      rwa [zero_add]
    · show -1 ≤ s.fallback
      omega
  · exact MenuState.restart_safe h.menu h.outer

/-- **One step** keeps the places good. -/
theorem MenuState.Safe.step {e : MenuEvent} (h : s.Safe b) (hf : FallbackExists s e)
    (hi : b → InsertsInList s e) : (s.step dumb nosecurity e).Safe b := by
  unfold MenuState.step
  cases hs : s.phase with
  | hidden =>
    cases e with
    | second => exact h.second
    | key k =>
      cases k with
      | escape =>
        refine ⟨h.menu, h.outer, fun _ => h.entryno (.inl hs)⟩
      | _ => exact h
    | script failed => exact h
  | shown =>
    cases e with
    | second => exact h.second
    | key k =>
      obtain ⟨hmenu, hphase⟩ := s.quiet_menu
      exact h.quiet.press (hphase.trans hs) k fun hb hk => by
        rw [hmenu]
        exact hi hb hs (by rw [hk])
    | script failed => exact h
  | booting =>
    cases e with
    | second => exact h
    | key k => exact h
    | script failed => exact h.script hs fun hfailed hzero => hf hs (by rw [hfailed]) hzero
  | gone =>
    cases e with
    | second => exact h
    | key k => exact h
    | script failed => exact h

/-- The selected entry exists when it is highlighted, described or booted. -/
def MenuState.Selected (s : MenuState) : Prop :=
  s.phase = .shown ∨ s.phase = .booting → 0 < s.menu.numEntries →
    s.menu.firstEntry + s.menu.entryno < s.menu.numEntries

theorem MenuState.start_safe {p : Parse} {default : ℕ} (hd : default < p.numEntries) (fallback timeout : ℤ)
    (showMenu : Bool) (b : Prop) : (MenuState.start dumb p default fallback timeout showMenu).Safe b := by
  refine MenuState.restart_safe ⟨⟨le_rfl, .inl rfl, ?_⟩, fun _ => ⟨?_, fun _ => ?_⟩⟩ fun m hm => ?_
  · show (0 : ℤ) + default < p.numEntries
    omega
  · show (-1 : ℤ) ≤ default
    omega
  · show (0 : ℤ) ≤ default
    omega
  · cases hm

end Runs

/-- **The selected entry exists** in every state of a run, when the default entry is one of the entries,
and a fallback entry too when it is used. It is not in front of the first entry when nothing is inserted
in front of the entries of an empty list. -/
theorem runMenu_selected {dumb nosecurity showMenu : Bool} {p : Parse} {default : ℕ}
    {fallback timeout : ℤ} {es : List MenuEvent} {s : MenuState}
    (hs : s = MenuState.start dumb p default fallback timeout showMenu) (hd : default < p.numEntries)
    (hf : Meets (MenuState.step dumb nosecurity) FallbackExists s es) :
    (s.run dumb nosecurity es).Selected ∧
      (Meets (MenuState.step dumb nosecurity) InsertsInList s es →
        0 < (s.run dumb nosecurity es).menu.numEntries →
          0 ≤ (s.run dumb nosecurity es).menu.firstEntry + (s.run dumb nosecurity es).menu.entryno) := by
  have hstart : ∀ b, s.Safe b := fun b => hs ▸ MenuState.start_safe hd fallback timeout showMenu b
  constructor
  · have hsafe : (s.run dumb nosecurity es).Safe False :=
      foldl_of_meets (fun s e he h => MenuState.Safe.step h he fun hb => hb.elim) (hstart False) hf
    exact fun _ _ => hsafe.menu.inside.below
  · intro hi hnum
    have hsafe : (s.run dumb nosecurity es).Safe True :=
      foldl_of_meets (fun s e he h => MenuState.Safe.step h he.1 fun _ => he.2) (hstart True) (hf.and hi)
    exact add_nonneg hsafe.menu.inside.first ((hsafe.menu.notBefore trivial).nonneg hnum)

/-- A menu with one entry. -/
def oneEntry : Parse :=
  { Parse.start with menu := ascii "a" ++ [0, 0], config := ascii "boot" ++ [0, 0, 0], numEntries := 1 }

theorem runMenu_selected_oneEntry :
    ((MenuState.start false oneEntry 0 (-1) (-1) true).run false true
      [.key .edit, .key .after, .key .delete, .key .boot, .script true]).Selected := by
  have hf : Meets (MenuState.step false true) FallbackExists
      (MenuState.start false oneEntry 0 (-1) (-1) true)
      [.key .edit, .key .after, .key .delete, .key .boot, .script true] :=
    ⟨fun _ h => (by cases h), fun _ h => (by cases h), fun _ h => (by cases h), fun _ h => (by cases h),
      fun _ _ h => absurd h (by decide), trivial⟩
  exact (runMenu_selected rfl (by decide) hf).1

/-- The second entry is the default one, but there is none. -/
theorem not_selected : ¬ (MenuState.start false oneEntry 1 (-1) (-1) true).Selected := fun h =>
  absurd (h (.inl rfl) (by decide)) (by decide)

end LinboxRescue
