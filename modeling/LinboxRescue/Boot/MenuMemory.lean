import LinboxRescue.Boot.MenuSpec

/-!
# The areas of the boot menu in the memory

1. `peek_pokeString`, `peek_pokeString_of_disjoint`: what a string that is copied changes.
2. `Cmain.Holds.line`, `Cmain.Holds.lines`: the memory of `cmain` holds the areas, as long as each fits.
3. `cmain_eq`: so it reads a file that fits as `readConfig` does.
4. `menu_aligned`: title and commands are of one stanza. So is the description, as long as the list is
   not scrolled and no description too many stands before the stanza.
-/

namespace LinboxRescue

/-! ## Strings in the memory -/

@[simp] theorem length_peek (mem : ℕ → UInt8) (i n : ℕ) : (peek mem i n).length = n := by
  unfold peek
  rw [List.length_map, List.length_range]

theorem peek_add (mem : ℕ → UInt8) (i n k : ℕ) : peek mem i (n + k) = peek mem i n ++ peek mem (i + n) k := by
  unfold peek
  rw [List.range_add, List.map_append, List.map_map]
  simp [Function.comp_def, Nat.add_assoc]

theorem peek_take (mem : ℕ → UInt8) (i : ℕ) {k n : ℕ} (h : k ≤ n) : (peek mem i n).take k = peek mem i k := by
  obtain ⟨d, rfl⟩ := Nat.exists_eq_add_of_le h
  rw [peek_add, List.take_left' (length_peek mem i k)]

theorem peek_congr {mem mem' : ℕ → UInt8} {i n : ℕ} (h : ∀ k, k < n → mem (i + k) = mem' (i + k)) :
    peek mem i n = peek mem' i n :=
  List.map_congr_left fun k hk => h k (List.mem_range.mp hk)

/-- What does not overlap the string stays. -/
theorem peek_pokeString_of_disjoint {mem : ℕ → UInt8} {i j n : ℕ} {s : Bytes}
    (h : j + n ≤ i ∨ i + s.length + 1 ≤ j) : peek (pokeString mem i s) j n = peek mem j n := by
  refine peek_congr fun k hk => if_neg fun hc => ?_
  rw [List.length_append, List.length_singleton] at hc
  omega

theorem peek_pokeString_self (mem : ℕ → UInt8) (i : ℕ) (s : Bytes) :
    peek (pokeString mem i s) i (s.length + 1) = s ++ [0] := by
  unfold peek
  refine List.ext_getElem (by simp) fun k _ hk => ?_
  rw [List.getElem_map, List.getElem_range]
  unfold pokeString byteAt
  rw [if_pos ⟨Nat.le_add_right i k, Nat.add_lt_add_left hk i⟩, Nat.add_sub_cancel_left,
    List.getD_eq_getElem _ _ hk]

/-- A string behind others. -/
theorem peek_pokeString (mem : ℕ → UInt8) (i n : ℕ) (s : Bytes) :
    peek (pokeString mem (i + n) s) i (n + s.length + 1) = peek mem i n ++ s ++ [0] := by
  rw [Nat.add_assoc n, peek_add, peek_pokeString_of_disjoint (.inl (Nat.le_refl _)),
    peek_pokeString_self, List.append_assoc]

/-! ## One line -/

/-- The areas fit where `cmain` has them. -/
structure Parse.Fits (room : ℕ) (p : Parse) : Prop where
  desc : p.desc.length ≤ menuBuf
  menu : p.menu.length ≤ menuBufLen
  config : p.config.length ≤ room

namespace Cmain

/-- The memory holds the areas. -/
structure Holds (c : Cmain) (p : Parse) : Prop where
  desc : peek c.low 0 c.descLen = p.desc
  menu : peek c.low menuBuf c.menuLen = p.menu
  config : c.config = p.config
  prevMenuLen : c.prevMenuLen = p.prevMenuLen
  prevConfigLen : c.prevConfigLen = p.prevConfigLen
  state : c.state = p.state
  gotDesc : c.gotDesc = p.gotDesc
  numEntries : c.numEntries = p.numEntries
  ran : c.ran = p.ran
  prev_le : p.prevMenuLen ≤ p.menu.length

variable {table : List Builtin} {room : ℕ} {c : Cmain} {p : Parse}

theorem holds_start (low : ℕ → UInt8) : (start low).Holds Parse.start :=
  ⟨rfl, rfl, rfl, rfl, rfl, rfl, rfl, rfl, rfl, Nat.le_refl 0⟩

theorem Holds.descLen (h : c.Holds p) : c.descLen = p.desc.length := by
  rw [← h.desc, length_peek]

theorem Holds.menuLen (h : c.Holds p) : c.menuLen = p.menu.length := by
  rw [← h.menu, length_peek]

/-- A description that fits does not touch the titles. -/
theorem Holds.addDesc (h : c.Holds p) {text : Bytes} (hfit : p.desc.length + text.length + 1 ≤ menuBuf) :
    (c.addDesc text).Holds { p with desc := p.desc ++ text ++ [0] } := by
  rw [← h.descLen] at hfit
  refine ⟨?_, ?_, h.config, h.prevMenuLen, h.prevConfigLen, h.state, h.gotDesc, h.numEntries, h.ran,
    h.prev_le⟩
  · have hpoke := peek_pokeString c.low 0 c.descLen text
    rw [Nat.zero_add, h.desc] at hpoke
    exact hpoke
  · exact (peek_pokeString_of_disjoint (.inr hfit)).trans h.menu

/-- A title does not touch descriptions that fit. -/
theorem Holds.addTitle (h : c.Holds p) (text : Bytes) (hdesc : p.desc.length ≤ menuBuf) :
    (c.addTitle text).Holds { p with menu := p.menu ++ text ++ [0] } := by
  rw [← h.descLen] at hdesc
  refine ⟨?_, ?_, h.config, h.prevMenuLen, h.prevConfigLen, h.state, h.gotDesc, h.numEntries, h.ran, ?_⟩
  · have hbelow : 0 + c.descLen ≤ menuBuf + c.menuLen := by omega
    exact (peek_pokeString_of_disjoint (.inl hbelow)).trans h.desc
  · have hpoke := peek_pokeString c.low menuBuf c.menuLen text
    rw [h.menu] at hpoke
    exact hpoke
  · have := h.prev_le
    dsimp only
    rw [List.length_append, List.length_append]
    omega

theorem Holds.close (h : c.Holds p) (hfit : p.close.desc.length ≤ menuBuf) : c.close.Holds p.close := by
  have hnext : ({ c with numEntries := c.numEntries + 1, config := c.config ++ [0] } : Cmain).Holds
      { p with numEntries := p.numEntries + 1, config := p.config ++ [0] } :=
    ⟨h.desc, h.menu, congrArg (· ++ [0]) h.config, h.prevMenuLen, h.prevConfigLen, h.state, h.gotDesc,
      congrArg (· + 1) h.numEntries, h.ran, h.prev_le⟩
  by_cases hg : p.gotDesc = true
  · have hc : c.close = { c with numEntries := c.numEntries + 1, config := c.config ++ [0] } :=
      if_pos (h.gotDesc.trans hg)
    have hp : p.close = { p with numEntries := p.numEntries + 1, config := p.config ++ [0] } := by
      unfold Parse.close
      rw [if_pos hg]
    rw [hc, hp]
    exact hnext
  · have hc : c.close = ({ c with numEntries := c.numEntries + 1, config := c.config ++ [0] } : Cmain).addDesc
        (noDescription (p.numEntries + 1)) := by
      rw [← h.numEntries]
      exact if_neg (h.gotDesc ▸ hg)
    have hp : p.close = { p with
        numEntries := p.numEntries + 1
        config := p.config ++ [0]
        desc := p.desc ++ noDescription (p.numEntries + 1) ++ [0] } := by
      unfold Parse.close
      rw [if_neg hg]
    rw [hp] at hfit ⊢
    rw [hc]
    simp only [List.length_append, List.length_singleton] at hfit
    exact hnext.addDesc hfit

theorem Holds.forget (h : c.Holds p) : c.forget.Holds p.forget := by
  refine ⟨h.desc, ?_, ?_, h.prevMenuLen, h.prevConfigLen, h.state, h.gotDesc, h.numEntries, h.ran, ?_⟩
  · unfold Parse.forget
    dsimp only
    rw [← h.menu, ← h.prevMenuLen, peek_take _ _ (by rw [h.prevMenuLen, h.menuLen]; exact h.prev_le)]
    rfl
  · unfold Cmain.forget Parse.forget
    dsimp only
    rw [h.config, h.prevConfigLen]
  · have := h.prev_le
    unfold Parse.forget
    dsimp only
    rw [List.length_take]
    omega

theorem Holds.check (h : c.Holds p) (hf : p.Fits room) : c.check room = some c := by
  obtain ⟨h1, h2, h3⟩ := hf
  rw [← h.descLen] at h1
  rw [← h.menuLen] at h2
  rw [← h.config] at h3
  exact if_pos ⟨by omega, h2, h3⟩

/-- What a title leaves of the stanza before it. -/
def settle (c : Cmain) : Cmain :=
  if 1 < c.state then
    { c.close with prevMenuLen := c.close.menuLen, prevConfigLen := c.close.config.length }
  else c.forget

theorem Holds.settle (h : c.Holds p) (hfit : p.settle.desc.length ≤ menuBuf) : c.settle.Holds p.settle := by
  unfold Parse.settle at hfit ⊢
  unfold Cmain.settle
  rw [h.state]
  by_cases hs : 1 < p.state
  · rw [if_pos hs] at hfit ⊢
    rw [if_pos hs]
    have hclose := h.close hfit
    exact ⟨hclose.desc, hclose.menu, hclose.config, hclose.menuLen, congrArg _ hclose.config,
      hclose.state, hclose.gotDesc, hclose.numEntries, hclose.ran, Nat.le_refl _⟩
  · rw [if_neg hs, if_neg hs]
    exact h.forget

/-- **One line** of the file. -/
theorem Holds.line (h : c.Holds p) {cmdline : Bytes} (hf : (p.line table cmdline).Fits room) :
    ∃ c', c.line table room cmdline = some c' ∧ c'.Holds (p.line table cmdline) := by
  unfold Parse.line at hf ⊢
  unfold Cmain.line
  cases hfind : findCommand table cmdline with
  | none => exact ⟨c, rfl, h⟩
  | some b =>
    rw [hfind] at hf
    dsimp only at hf ⊢
    by_cases hdesc : b.isDesc = true
    · rw [if_pos hdesc] at hf ⊢
      rw [if_pos hdesc]
      have hfit := hf.desc
      simp only [List.length_append, List.length_singleton] at hfit
      have hnext := h.addDesc hfit
      have hheld : ({ c.addDesc (skipTo cmdline) with gotDesc := true } : Cmain).Holds
          { p with desc := p.desc ++ skipTo cmdline ++ [0], gotDesc := true } :=
        ⟨hnext.desc, hnext.menu, hnext.config, hnext.prevMenuLen, hnext.prevConfigLen, hnext.state, rfl,
          hnext.numEntries, hnext.ran, hnext.prev_le⟩
      exact ⟨_, hheld.check hf, hheld⟩
    rw [if_neg hdesc] at hf ⊢
    rw [if_neg hdesc]
    by_cases htitle : b.isTitle = true
    · rw [if_pos htitle] at hf ⊢
      rw [if_pos htitle]
      have hnext := (h.settle hf.desc).addTitle (skipTo cmdline) hf.desc
      have hheld : ({ c.settle.addTitle (skipTo cmdline) with state := 1, gotDesc := false } : Cmain).Holds
          { p.settle with
            state := 1, gotDesc := false, menu := p.settle.menu ++ skipTo cmdline ++ [0] } :=
        ⟨hnext.desc, hnext.menu, hnext.config, hnext.prevMenuLen, hnext.prevConfigLen, rfl, rfl,
          hnext.numEntries, hnext.ran, hnext.prev_le⟩
      exact ⟨_, hheld.check hf, hheld⟩
    rw [if_neg htitle] at hf ⊢
    rw [if_neg htitle, h.state]
    by_cases hstate : p.state = 0
    · rw [if_pos hstate] at hf ⊢
      rw [if_pos hstate]
      by_cases hmenu : b.isMenu = true
      · rw [if_pos hmenu, if_pos hmenu]
        exact ⟨_, rfl, h.desc, h.menu, h.config, h.prevMenuLen, h.prevConfigLen, rfl, h.gotDesc,
          h.numEntries, congrArg (· ++ [cmdline]) h.ran, h.prev_le⟩
      · rw [if_neg hmenu, if_neg hmenu]
        exact ⟨c, rfl, h⟩
    · rw [if_neg hstate] at hf ⊢
      rw [if_neg hstate]
      have hheld : ({ c with state := p.state + 1, config := c.config ++ cmdline ++ [0] } : Cmain).Holds
          { p with state := p.state + 1, config := p.config ++ cmdline ++ [0] } :=
        ⟨h.desc, h.menu, by rw [h.config], h.prevMenuLen, h.prevConfigLen, rfl, h.gotDesc,
          h.numEntries, h.ran, h.prev_le⟩
      exact ⟨_, hheld.check hf, hheld⟩

/-- The lines of a file, when the areas fit after each of them. -/
theorem Holds.lines {ls : List Bytes} (h : c.Holds p)
    (hf : ∀ ls', ls' <+: ls → (ls'.foldl (Parse.line table) p).Fits room) :
    ∃ c', ls.foldlM (Cmain.line table room) c = some c' ∧ c'.Holds (ls.foldl (Parse.line table) p) := by
  induction ls generalizing c p with
  | nil => exact ⟨c, rfl, h⟩
  | cons l ls ih =>
    obtain ⟨c', hline, hheld⟩ := h.line (hf [l] ⟨ls, rfl⟩)
    obtain ⟨c'', hlines, hend⟩ := ih hheld fun ls' hls' =>
      hf (l :: ls') (List.cons_prefix_cons.mpr ⟨rfl, hls'⟩)
    refine ⟨c'', ?_, hend⟩
    rw [List.foldlM_cons, hline]
    exact hlines

/-- The areas are all that is read. -/
theorem Holds.parse_eq (h : c.Holds p) :
    (⟨peek c.low menuBuf c.menuLen, c.config, peek c.low 0 c.descLen, c.prevMenuLen, c.prevConfigLen,
      c.state, c.gotDesc, c.numEntries, c.ran⟩ : Parse) = p := by
  rw [h.menu, h.config, h.desc, h.prevMenuLen, h.prevConfigLen, h.state, h.gotDesc, h.numEntries, h.ran]

/-- The end of the file. -/
theorem Holds.finish (h : c.Holds p) (hf : p.finish.Fits room)
    (hroom : p.finish.config.length + p.finish.menu.length + p.finish.desc.length ≤ room) :
    c.finish room = some p.finish := by
  obtain ⟨q, hq, c', hc', hheld⟩ : ∃ q, p.finish =
      { q with menu := q.menu ++ [0], config := q.config ++ [0], desc := q.desc ++ [0] } ∧
      ∃ c', c' = (if 1 < c.state then c.close else c.forget) ∧ c'.Holds q := by
    refine ⟨if 1 < p.state then p.close else p.forget, rfl, _, rfl, ?_⟩
    rw [h.state]
    unfold Parse.finish at hf
    by_cases hs : 1 < p.state
    · rw [if_pos hs] at hf ⊢
      rw [if_pos hs]
      have hfit := hf.desc
      simp only [List.length_append, List.length_singleton] at hfit
      exact h.close (by omega)
    · rw [if_neg hs, if_neg hs]
      exact h.forget
  rw [hq] at hf hroom ⊢
  have hfit := hf.desc
  simp only [List.length_append, List.length_singleton] at hfit
  have hnext := @Holds.addDesc _ _ (hheld.addTitle [] (by omega)) [] hfit
  simp only [List.append_nil] at hnext
  have hend : ({ (c'.addTitle []).addDesc [] with config := c'.config ++ [0] } : Cmain).Holds
      { q with menu := q.menu ++ [0], config := q.config ++ [0], desc := q.desc ++ [0] } :=
    ⟨hnext.desc, hnext.menu, congrArg (· ++ [0]) hheld.config, hnext.prevMenuLen, hnext.prevConfigLen,
      hnext.state, hnext.gotDesc, hnext.numEntries, hnext.ran, hnext.prev_le⟩
  unfold Cmain.finish
  rw [← hc']
  dsimp only
  have hcheck := hend.check hf
  have hsizes := hroom
  rw [← hend.config, ← hend.menuLen, ← hend.descLen] at hsizes
  simp only [hcheck, Option.bind_eq_bind, Option.bind_some, if_pos hsizes]
  exact congrArg some hend.parse_eq

end Cmain

/-! ## Files that fit -/

section Fit

variable {table : List Builtin} {p : Parse} {o : Outline}

/-- The titles in the memory: those of the entries, and the one that is being read. -/
def Outline.titles (o : Outline) : List Bytes :=
  ((entries o.done).map Stanza.title) ++ o.cur.toList.map Stanza.title

theorem length_titles_le (o : Outline) :
    (strings ((entries o.stanzas).map Stanza.title)).length ≤ (strings o.titles).length := by
  unfold Outline.stanzas Outline.titles
  rw [entries_append, List.map_append, strings_append, strings_append, List.length_append,
    List.length_append]
  refine Nat.add_le_add_left ?_ _
  exact ((List.filter_sublist.map Stanza.title).flatMap fun t => t ++ [0]).length_le

/-- The areas of the file have the memory that they need: the descriptions end before `MENU_BUF`, the
titles where `MENU_BUF` ends, and all three fit behind the memory map. -/
structure FileFits (table : List Builtin) (room : ℕ) (file : Bytes) : Prop where
  descs : (strings ((outline table file).pre ++ descsFrom 0 (outline table file).stanzas)).length < menuBuf
  titles : ∀ ls, ls <+: configLines file →
    (strings (ls.foldl (Outline.line table) ⟨[], [], none⟩).titles).length < menuBufLen
  total : (scripts ((entries (outline table file).stanzas).map Stanza.commands)).length +
    (strings ((entries (outline table file).stanzas).map Stanza.title)).length +
    (strings ((outline table file).pre ++ descsFrom 0 (outline table file).stanzas)).length + 3 ≤ room

theorem Matches.menu (h : Matches p o) : p.menu = strings o.titles := by
  unfold Outline.titles
  cases hc : o.cur with
  | none =>
    obtain ⟨hd, hm, -⟩ := h.before hc
    rw [hd, hm]
    rfl
  | some s =>
    rw [strings_append]
    exact (h.inside s hc).1

/-- The end of a stanza takes no description and no command away. -/
theorem Matches.settle_prefix (h : Matches p o) :
    p.desc <+: p.settle.desc ∧ p.config <+: p.settle.config := by
  unfold Parse.settle
  by_cases hs : 1 < p.state
  · rw [if_pos hs]
    unfold Parse.close
    refine ⟨?_, List.prefix_append _ _⟩
    dsimp only
    split_ifs
    · exact List.prefix_rfl
    · rw [List.append_assoc]
      exact List.prefix_append _ _
  · rw [if_neg hs]
    refine ⟨List.prefix_rfl, ?_⟩
    -- without commands the commands end where they ended before the title
    have hlen : p.config.length = p.prevConfigLen := by
      cases hc : o.cur with
      | none =>
        obtain ⟨-, -, hconfig, -, hprev, -⟩ := h.before hc
        rw [hconfig, hprev]
        rfl
      | some s =>
        obtain ⟨-, hconfig, -, hprev, hstate, -⟩ := h.inside s hc
        have hnil : s.commands = [] := List.length_eq_zero_iff.mp (by omega)
        rw [hconfig, hprev, hnil]
        simp [strings]
    unfold Parse.forget
    dsimp only
    rw [← hlen, List.take_length]

theorem Matches.line_prefix (h : Matches p o) (cmdline : Bytes) :
    p.desc <+: (p.line table cmdline).desc ∧ p.config <+: (p.line table cmdline).config := by
  unfold Parse.line
  cases findCommand table cmdline with
  | none => exact ⟨List.prefix_rfl, List.prefix_rfl⟩
  | some b =>
    dsimp only
    by_cases hdesc : b.isDesc = true
    · rw [if_pos hdesc, List.append_assoc]
      exact ⟨List.prefix_append _ _, List.prefix_rfl⟩
    rw [if_neg hdesc]
    by_cases htitle : b.isTitle = true
    · rw [if_pos htitle]
      exact h.settle_prefix
    rw [if_neg htitle]
    split_ifs
    · exact ⟨List.prefix_rfl, List.prefix_rfl⟩
    · exact ⟨List.prefix_rfl, List.prefix_rfl⟩
    · rw [List.append_assoc]
      exact ⟨List.prefix_rfl, List.prefix_append _ _⟩

theorem Matches.lines_prefix (h : Matches p o) (ls : List Bytes) :
    p.desc <+: (ls.foldl (Parse.line table) p).desc ∧
    p.config <+: (ls.foldl (Parse.line table) p).config := by
  induction ls generalizing p o with
  | nil => exact ⟨List.prefix_rfl, List.prefix_rfl⟩
  | cons l ls ih =>
    obtain ⟨h1, h2⟩ := @Matches.line_prefix table _ _ h l
    obtain ⟨h3, h4⟩ := ih (@Matches.line table _ _ h l)
    exact ⟨h1.trans h3, h2.trans h4⟩

theorem Matches.finish_prefix (h : Matches p o) :
    p.desc <+: p.finish.desc ∧ p.config <+: p.finish.config := by
  have hfinish : p.finish.desc = p.settle.desc ++ [0] ∧ p.finish.config = p.settle.config ++ [0] := by
    unfold Parse.finish Parse.settle
    split_ifs <;> exact ⟨rfl, rfl⟩
  rw [hfinish.1, hfinish.2]
  exact ⟨h.settle_prefix.1.trans (List.prefix_append _ _), h.settle_prefix.2.trans (List.prefix_append _ _)⟩

end Fit

section Memory

variable {table : List Builtin} {room : ℕ} {file : Bytes}

/-- **A file that fits** is read as if each area were on its own. -/
theorem cmain_eq (h : FileFits table room file) (low : ℕ → UInt8) :
    cmain table low room file = some (readConfig table file) := by
  obtain ⟨hmenu, hconfig, -, hdesc⟩ := readConfig_spec table file
  have hsizes : (readConfig table file).desc.length ≤ menuBuf ∧
      (readConfig table file).menu.length ≤ menuBufLen ∧
      (readConfig table file).config.length + (readConfig table file).menu.length +
        (readConfig table file).desc.length ≤ room := by
    have h1 := h.descs
    have h2 := h.total
    -- at the end only the titles of the entries are left
    have h3 : (strings ((entries (outline table file).stanzas).map Stanza.title)).length < menuBufLen := by
      exact (length_titles_le (outline table file)).trans_lt (h.titles _ List.prefix_rfl)
    rw [hdesc, hmenu, hconfig]
    simp only [List.length_append, List.length_singleton]
    omega
  obtain ⟨hdescLen, hmenuLen, htotal⟩ := hsizes
  -- after each line the areas are part of those at the end, but for a title that is forgotten later
  have hfits : ∀ ls, ls <+: configLines file → (ls.foldl (Parse.line table) Parse.start).Fits room := by
    rintro ls ⟨rest, hrest⟩
    have hm := @Matches.lines table _ _ matches_start ls
    have hm' := @Matches.lines table _ _ hm rest
    obtain ⟨hd1, hc1⟩ := @Matches.lines_prefix table _ _ hm rest
    obtain ⟨hd2, hc2⟩ := hm'.finish_prefix
    have hend : (rest.foldl (Parse.line table) (ls.foldl (Parse.line table) Parse.start)).finish =
        readConfig table file := by
      rw [← List.foldl_append, hrest]
      rfl
    rw [hend] at hd2 hc2
    have hd := (hd1.trans hd2).length_le
    have hc := (hc1.trans hc2).length_le
    have htitles := h.titles ls ⟨rest, hrest⟩
    rw [← hm.menu] at htitles
    exact ⟨hd.trans hdescLen, htitles.le, by omega⟩
  obtain ⟨c, hc, hheld⟩ := (Cmain.holds_start low).lines hfits
  unfold cmain
  rw [hc]
  exact hheld.finish ⟨hdescLen, hmenuLen, by unfold readConfig at htotal; omega⟩ htotal

end Memory

/-! ## Alignment -/

/-- **The menu is aligned**: title and commands are those of one stanza, for all keys. So is the
description, when the list is not scrolled and no description too many stands before the stanza. -/
theorem menu_aligned (table : List Builtin) {room : ℕ} {file : Bytes} (hfits : FileFits table room file)
    (low : ℕ → UInt8) (default : ℕ) (ks : List Key) :
    ∃ p, cmain table low room file = some p ∧
      let m := (Place.start default).keys p.numEntries ks
      (default < p.numEntries → m.firstEntry + m.entryno < p.numEntries) ∧
      (m.firstEntry + m.entryno < p.numEntries →
        ∃ before s after, (outline table file).stanzas = before ++ s :: after ∧ s.commands ≠ [] ∧
          (entries before).length = m.firstEntry + m.entryno ∧
          p.highlighted m = s.title ∧ p.booted m = s.commands ∧
          ((∀ b ∈ before, b.commands ≠ [] → b.title ≠ []) → p.drawn m = s.title) ∧
          (m.firstEntry = 0 → (outline table file).pre = [] → (∀ b ∈ before, b.Tidy) →
            AlignedAt (outline table file) p m)) := by
  refine ⟨readConfig table file, cmain_eq hfits low, ?_⟩
  intro m
  refine ⟨fun h => keys_lt h ks, fun h => ?_⟩
  have hm : m.entryno ≤ 11 := keys_entryno (readConfig table file).numEntries default ks
  rw [(readConfig_spec table file).2.2.1] at h
  obtain ⟨before, s, after, ho, hs, hi⟩ := exists_split h
  have h1 := highlighted_eq ho hs hi
  have h2 := booted_eq ho hs hi
  refine ⟨before, s, after, ho, hs, hi, h1, h2, drawn_eq ho hs hi hm, fun hf hp ht => ?_⟩
  exact ⟨before, s, after, ho, hs, hi, h1, h2, shown_eq ho hs hi hm hf hp ht⟩

/-- Three commands of the table. -/
def smallTable : List Builtin :=
  [⟨ascii "desc", false, true, false, by decide⟩, ⟨ascii "root", false, false, false, by decide⟩,
    ⟨ascii "title", true, false, false, by decide⟩]

/-- Two entries, the second one without a description. -/
def twoEntries : Bytes := ascii "title A\ndesc a\nroot r\ntitle B\nroot s\n"

/-- The first title has no commands: the description of the second is the second one stored. -/
def noCommands : Bytes := ascii "title A\ndesc a\ntitle B\ndesc b\nroot r\n"

/-- Thirteen entries, of which the box shows twelve. -/
def manyEntries : Bytes := (List.replicate 13 (ascii "title A\nroot r\n")).flatten

theorem not_alignedAt {o : Outline} {p : Parse} {m : Place}
    (h : ∀ s ∈ o.stanzas, s.commands ≠ [] →
      p.shown m ≠ s.descs.headD (noDescription (m.firstEntry + m.entryno + 1))) :
    ¬AlignedAt o p m := by
  rintro ⟨before, s, after, ho, hs, -, -, -, hd⟩
  exact h s (by rw [ho]; simp) hs hd

theorem fileFits_of_inits {table : List Builtin} {room : ℕ} {file : Bytes}
    (hd : (strings ((outline table file).pre ++ descsFrom 0 (outline table file).stanzas)).length < menuBuf)
    (ht : ∀ ls ∈ (configLines file).inits,
      (strings (ls.foldl (Outline.line table) ⟨[], [], none⟩).titles).length < menuBufLen)
    (hr : (scripts ((entries (outline table file).stanzas).map Stanza.commands)).length +
      (strings ((entries (outline table file).stanzas).map Stanza.title)).length +
      (strings ((outline table file).pre ++ descsFrom 0 (outline table file).stanzas)).length + 3 ≤ room) :
    FileFits table room file :=
  ⟨hd, fun ls hls => ht ls ((List.mem_inits _ _).mpr hls), hr⟩

theorem menu_aligned_twoEntries : ∃ p, cmain smallTable (fun _ => 0) 1000 twoEntries = some p ∧
    AlignedAt (outline smallTable twoEntries) p ⟨0, 1⟩ := by
  have hfits : FileFits smallTable 1000 twoEntries :=
    fileFits_of_inits (by decide) (by decide +kernel) (by decide)
  obtain ⟨p, hp, h⟩ := menu_aligned smallTable hfits (fun _ => 0) 0 [.up, .down, .down]
  have hnum : p.numEntries = 2 := by
    rw [cmain_eq hfits] at hp
    obtain rfl := Option.some.inj hp
    decide
  rw [hnum] at h
  obtain ⟨before, s, after, ho, -, hi, -, -, -, hd⟩ := h.2 (by decide)
  refine ⟨p, hp, hd rfl rfl fun b hb => ?_⟩
  have hall : ∀ b ∈ (outline smallTable twoEntries).stanzas, b.Tidy := by decide
  exact hall b (ho ▸ List.mem_append_left _ hb)

theorem menu_misaligned :
    (∃ p, cmain smallTable (fun _ => 0) 1000 noCommands = some p ∧
      ¬AlignedAt (outline smallTable noCommands) p (Place.start 0)) ∧
    (∃ p, cmain smallTable (fun _ => 0) 1000 manyEntries = some p ∧
      ¬AlignedAt (outline smallTable manyEntries) p
        ((Place.start 0).keys 13 (List.replicate 12 .down))) :=
  ⟨⟨_, cmain_eq (fileFits_of_inits (by decide) (by decide +kernel) (by decide)) _,
      not_alignedAt (by decide)⟩,
    ⟨_, cmain_eq (fileFits_of_inits (by decide +kernel) (by decide +kernel) (by decide +kernel)) _,
      not_alignedAt (by decide +kernel)⟩⟩

end LinboxRescue
