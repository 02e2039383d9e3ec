import LinboxRescue.Admin.InStep
import LinboxRescue.Admin.UserMenu
import LinboxRescue.Boot.Lines
import LinboxRescue.Boot.MenuMemory

/-!
# The default entry

`set_default` counts the visible sections, `makeUserMenu` the visible menus, and the boot loader the
titles with commands.

1. `menuText_blank`: the stanza of a menu ends with an empty line, whatever is in it.
2. `setDefault_spec`: after `set_default`, one visible menu is the default.
3. `makeUserMenu_eq`: the file that is written.
4. `header_default`: a header with the line `default DEFNUM` sets the number of the default menu.
5. `file_stanzas`, `file_ran`: what the boot loader reads in it.
6. `default_agrees`: the three counts agree if the first title of each visible menu is the only one in
   it that has commands, and the header has no entry of its own and sets the number.
-/

namespace LinboxRescue

/-! ## Stanzas end with an empty line -/

/-- A text that ends with an empty line. -/
def Blank (t : Bytes) : Prop := ∃ v, t = v ++ [10, 10]

theorem blank_addEmptyLine (t : Bytes) : Blank (addEmptyLine t) := ⟨_, rfl⟩

theorem editFirst_append (p : Bytes → Bool) (edit : Bytes → Bytes) (ls : List Bytes)
    {rs : List Bytes} (hr : ∀ r ∈ rs, p r = false) :
    editFirst p edit (ls ++ rs) = editFirst p edit ls ++ rs := by
  induction ls with
  | nil =>
    induction rs with
    | nil => rfl
    | cons r rs ih =>
      obtain ⟨h1, h2⟩ := List.forall_mem_cons.mp hr
      have hrec : editFirst p edit (r :: rs) = if p r then edit r :: rs else r :: editFirst p edit rs := rfl
      rw [List.nil_append] at ih ⊢
      rw [hrec, h1, if_neg Bool.false_ne_true, ih h2]
      rfl
  | cons l ls ih =>
    rw [List.cons_append, editFirst, editFirst]
    split_ifs
    · rfl
    · rw [ih]
      rfl

theorem editFirst_ne_nil (p : Bytes → Bool) (edit : Bytes → Bytes) {ls : List Bytes} (h : ls ≠ []) :
    editFirst p edit ls ≠ [] := by
  obtain ⟨l, ls, rfl⟩ := List.exists_cons_of_ne_nil h
  rw [editFirst]
  split_ifs <;> exact List.cons_ne_nil _ _

/-- An option is added to a line, and the empty line at the end is none. -/
theorem blank_addKernelOption {t : Bytes} (h : Blank t) (option : Bytes) :
    Blank (addKernelOption option t) := by
  obtain ⟨v, rfl⟩ := h
  have hfields : lineFields (v ++ [10, 10]) = lineFields v ++ [[], []] := lineFields_append v [10]
  have hno : ∀ r ∈ ([[], []] : List Bytes), isKernelLine r = false := by decide
  unfold addKernelOption
  rw [hfields, editFirst_append _ _ _ hno,
    joinLines_append (editFirst_ne_nil _ _ (lineFields_ne_nil v)) (List.cons_ne_nil _ _)]
  exact ⟨_, rfl⟩

theorem menuText_blank (env : MenuEnv) (conf : Ini) (inc : Bytes → Option Bytes) (m image : Bytes) :
    Blank (menuText env conf inc m image) := by
  unfold menuText
  have hone := blank_addEmptyLine (menuBody env conf inc m image)
  unfold addKernelOptions
  dsimp only
  split_ifs
  · exact blank_addKernelOption hone _
  · exact blank_addKernelOption hone _
  · exact blank_addKernelOption (blank_addKernelOption hone _) _
  · exact blank_addKernelOption (blank_addKernelOption hone _) _

theorem menuHeader_blank (env : MenuEnv) (conf : Ini) (inc : Bytes → Option Bytes) (n : ℕ) :
    Blank (menuHeader env conf inc n) := blank_addEmptyLine _

/-! ## After `set_default` -/

def visuKey : Bytes := ascii "visu"

def defKey : Bytes := ascii "def"

/-- A section that `set_default` counts. -/
def isVisible (conf : Ini) (s : Bytes) : Bool :=
  ¬(iniGetVal conf s visuKey = ascii "no" ∨ iniGetVal conf s visuKey = [])

/-- The menus of a header have `visu=yes` or `visu=no`, and no other section has the key. -/
structure VisuHeader (f : IniFile) : Prop where
  nodup : (iniLoad f).order.Nodup
  menus : ∀ s ∈ (iniLoad f).order, isMenuName s = true →
    iniGetVal (iniLoad f) s visuKey = ascii "yes" ∨ iniGetVal (iniLoad f) s visuKey = ascii "no"
  others : ∀ s ∈ (iniLoad f).order, isMenuName s = false → iniVals (iniLoad f) s visuKey = []

/-- The visible menus of a header. -/
def visibleMenus (conf : Ini) : List Bytes :=
  (hdrGetMenuNames conf).filter fun s => iniGetVal conf s visuKey = ascii "yes"

theorem iniHasSection_of_iniGetVal {conf : Ini} {s key : Bytes} (h : iniGetVal conf s key ≠ []) :
    iniHasSection conf s = true := by
  refine iniHasSection_of_iniVals key conf fun hc => h ?_
  unfold iniGetVal
  rw [hc]
  rfl

/-- What the loop of `set_default` does to a header, from the number `i` on. -/
structure DefaultSet (newdef i : ℕ) (order : List Bytes) (c c' : Ini) : Prop where
  order_eq : c'.order = c.order
  wf : c.Wf → c'.Wf
  vals : ∀ s key, lc defKey ≠ lc key → iniVals c' s key = iniVals c s key
  other : ∀ s, s ∉ order → iniVals c' s defKey = iniVals c s defKey
  dflt : ∀ k s, (order.filter (isVisible c))[k]? = some s →
    iniGetVal c' s defKey = if i + k = newdef then ascii "yes" else ascii "no"

theorem isVisible_congr {c c' : Ini} (h : ∀ s, iniVals c' s visuKey = iniVals c s visuKey) :
    isVisible c' = isVisible c := by
  funext s
  unfold isVisible iniGetVal
  rw [h s]

/-- **The loop** of `set_default`. -/
theorem defaultSet_foldl (newdef : ℕ) (order : List Bytes) (hn : order.Nodup) (i : ℕ) (c : Ini) :
    DefaultSet newdef i order c (order.foldl (setDefaultSection newdef) (i, c)).2 := by
  have hvisu : lc defKey ≠ lc visuKey := by decide
  induction order generalizing i c with
  | nil =>
    exact ⟨rfl, id, fun _ _ _ => rfl, fun _ _ => rfl, fun k s hk => by cases hk⟩
  | cons s order ih =>
    obtain ⟨hs, hn⟩ := List.nodup_cons.mp hn
    rw [List.foldl_cons]
    by_cases hv : iniGetVal c s (ascii "visu") = ascii "no" ∨ iniGetVal c s (ascii "visu") = []
    · -- a section that is not visible stays as it is
      have hinv : isVisible c s = false := decide_eq_false (not_not.mpr hv)
      have hstep : setDefaultSection newdef (i, c) s = (i, c) := if_pos hv
      rw [hstep]
      obtain ⟨h1, h2, h3, h4, h5⟩ := ih hn i c
      refine ⟨h1, h2, h3, fun x hx => h4 x fun hc => hx (List.mem_cons_of_mem s hc), fun k x hk => ?_⟩
      rw [List.filter_cons, hinv, if_neg Bool.false_ne_true] at hk
      exact h5 k x hk
    · -- a visible one gets its value, which no later section changes
      have hinv : isVisible c s = true := decide_eq_true hv
      have hsec : iniHasSection c s = true := iniHasSection_of_iniGetVal fun hc => hv (.inr hc)
      have hstep : setDefaultSection newdef (i, c) s = (i + 1, iniSetVal c s (ascii "def")
          (if i = newdef then ascii "yes" else ascii "no")) := if_neg hv
      rw [hstep]
      obtain ⟨h1, h2, h3, h4, h5⟩ := ih hn (i + 1)
        (iniSetVal c s (ascii "def") (if i = newdef then ascii "yes" else ascii "no"))
      have hset := @iniVals_setVal c s (if i = newdef then ascii "yes" else ascii "no") defKey hsec
      have hvis : isVisible (iniSetVal c s (ascii "def")
          (if i = newdef then ascii "yes" else ascii "no")) = isVisible c :=
        isVisible_congr fun x => iniVals_setVal_key c s _ hvisu x
      refine ⟨h1.trans (order_iniSetVal ..), fun hw => h2 (wf_iniSetVal hw _ _ _), fun x key hk => ?_,
        fun x hx => ?_, fun k x hk => ?_⟩
      · exact (h3 x key hk).trans (iniVals_setVal_key c s _ hk x)
      · rw [List.mem_cons, not_or] at hx
        exact (h4 x hx.2).trans (iniVals_setVal_section c s _ hx.1 _ _)
      · rw [List.filter_cons, hinv, if_pos rfl] at hk
        cases k with
        | zero =>
          obtain rfl := Option.some.inj hk
          unfold iniGetVal
          rw [h4 s hs, show iniVals (iniSetVal c s (ascii "def") _) s defKey = _ from hset]
          rfl
        | succ k =>
          rw [hvis] at h5
          rw [h5 k x hk, Nat.add_right_comm, Nat.add_assoc]

/-- A value of one line is found again. -/
theorem iniGetVal_saved {c : Ini} {s : Bytes} (hs : s ∈ c.order) {key v : Bytes} (hv : PlainName v)
    (h : iniGetVal c s key = v) : iniGetVal (iniLoad (iniSave c)) s key = v := by
  unfold iniGetVal at *
  rw [iniVals_load_save key c hs]
  cases hvals : iniVals c s key with
  | nil =>
    rw [hvals] at h
    exact absurd h.symm hv.1
  | cons w ws =>
    rw [hvals] at h
    obtain rfl : w = v := h
    rw [List.flatMap_cons, splitLines_line hv.1 hv.2]
    rfl

/-- **After `set_default`** the menus are visible as before, and one of them is the default. -/
theorem setDefault_spec {f : IniFile} (hf : VisuHeader f) (newdef : ℕ) :
    hdrGetMenuNames (iniLoad (setDefault newdef f)) = hdrGetMenuNames (iniLoad f) ∧
    (∀ s ∈ hdrGetMenuNames (iniLoad f), iniHasSection (iniLoad (setDefault newdef f)) s = true) ∧
    visibleMenus (iniLoad (setDefault newdef f)) = visibleMenus (iniLoad f) ∧
    ∀ k s, (visibleMenus (iniLoad f))[k]? = some s →
      iniGetVal (iniLoad (setDefault newdef f)) s defKey =
        if k = newdef then ascii "yes" else ascii "no" := by
  obtain ⟨horder, -, hvals, -, hdflt⟩ := defaultSet_foldl newdef _ hf.nodup 0 (iniLoad f)
  have hyes : PlainName (ascii "yes") := by decide
  have hno : PlainName (ascii "no") := by decide
  unfold setDefault iniGetSections
  generalize ((iniLoad f).order.foldl (setDefaultSection newdef) (0, iniLoad f)).2 = c at *
  have hnames : hdrGetMenuNames (iniLoad (iniSave c)) = hdrGetMenuNames (iniLoad f) := by
    rw [hdrGetMenuNames_saved]
    unfold hdrGetMenuNames iniGetSections
    rw [horder]
  have hvisu : ∀ s ∈ hdrGetMenuNames (iniLoad f),
      iniGetVal (iniLoad (iniSave c)) s visuKey = iniGetVal (iniLoad f) s visuKey ∧
        iniGetVal (iniLoad f) s visuKey ≠ [] := by
    intro s hs
    obtain ⟨hmem, hm⟩ := List.mem_filter.mp hs
    have hget : iniGetVal c s visuKey = iniGetVal (iniLoad f) s visuKey := by
      unfold iniGetVal
      rw [hvals s visuKey (by decide)]
    obtain hv | hv := hf.menus s hmem hm
    · rw [iniGetVal_saved (horder ▸ hmem) hyes (hget.trans hv), hv]
      exact ⟨rfl, hyes.1⟩
    · rw [iniGetVal_saved (horder ▸ hmem) hno (hget.trans hv), hv]
      exact ⟨rfl, hno.1⟩
  have hvisible : visibleMenus (iniLoad f) = (iniLoad f).order.filter (isVisible (iniLoad f)) := by
    unfold visibleMenus hdrGetMenuNames iniGetSections
    rw [List.filter_filter]
    refine List.filter_congr fun s hs => ?_
    cases hm : isMenuName s with
    | false =>
      have hnil : iniGetVal (iniLoad f) s visuKey = [] := by
        unfold iniGetVal
        rw [hf.others s hs hm]
        rfl
      simp [isVisible, hnil]
    | true =>
      obtain hv | hv := hf.menus s hs hm
      · rw [isVisible, hv]
        decide
      · rw [isVisible, hv]
        decide
  refine ⟨hnames, fun s hs => ?_, ?_, fun k s hk => ?_⟩
  · exact iniHasSection_of_iniGetVal (by rw [(hvisu s hs).1]; exact (hvisu s hs).2)
  · unfold visibleMenus
    rw [hnames]
    exact List.filter_congr fun s hs => by rw [(hvisu s hs).1]
  · have hmem : s ∈ (iniLoad f).order := by
      rw [hvisible] at hk
      exact (List.mem_filter.mp (List.mem_of_getElem? hk)).1
    have hget := hdflt k s (hvisible ▸ hk)
    rw [Nat.zero_add] at hget
    refine iniGetVal_saved (horder ▸ hmem) ?_ hget
    split_ifs
    · exact hyes
    · exact hno

/-! ## The file -/

section Make

variable (env : MenuEnv) (conf : Ini) (inc : Bytes → Option Bytes)

/-- The stanza of a menu. -/
def sectionText (s : Bytes) : Bytes := menuText env conf inc s (iniGetVal conf s (ascii "image"))

/-- The loop of `makeUserMenu`, for menus that have a section. -/
theorem menuAcc_foldl {menus : List Bytes} (hsec : ∀ s ∈ menus, iniHasSection conf s = true) {n : ℕ}
    (a : MenuAcc)
    (hdef : ∀ k s, (menus.filter fun s => iniGetVal conf s visuKey = ascii "yes")[k]? = some s →
      iniGetVal conf s defKey = if a.numselect + k = n then ascii "yes" else ascii "no") :
    (menus.foldl (MenuAcc.menu env conf inc) a).bootmenu = a.bootmenu ++
      (menus.filter fun s => iniGetVal conf s visuKey = ascii "yes").flatMap (sectionText env conf inc) ∧
    (menus.foldl (MenuAcc.menu env conf inc) a).defaultpos =
      if a.numselect ≤ n ∧ n < a.numselect +
        (menus.filter fun s => iniGetVal conf s visuKey = ascii "yes").length then n
      else a.defaultpos := by
  induction menus generalizing a with
  | nil =>
    refine ⟨(List.append_nil _).symm, (if_neg ?_).symm⟩
    rw [List.filter_nil, List.length_nil]
    omega
  | cons s menus ih =>
    obtain ⟨hs, hsec⟩ := List.forall_mem_cons.mp hsec
    have hinfo : hdrGetMenuInfo conf s a.info = ⟨iniGetVal conf s (ascii "def"),
        iniGetVal conf s (ascii "visu"), iniGetVal conf s (ascii "image")⟩ := if_pos hs
    rw [List.foldl_cons]
    by_cases hv : iniGetVal conf s visuKey = ascii "yes"
    · have hstep : a.menu env conf inc s = ⟨hdrGetMenuInfo conf s a.info,
          if iniGetVal conf s (ascii "def") = ascii "yes" then a.numselect else a.defaultpos,
          a.numselect + 1, a.bootmenu ++ sectionText env conf inc s⟩ := by
        unfold MenuAcc.menu sectionText
        rw [hinfo]
        exact if_pos hv
      rw [List.filter_cons_of_pos (by simpa using hv)] at hdef ⊢
      have h0 := hdef 0 s rfl
      rw [Nat.add_zero] at h0
      obtain ⟨h1, h2⟩ := ih hsec (a.menu env conf inc s) (by
        intro k x hk
        rw [hstep]
        dsimp only
        rw [Nat.add_right_comm, Nat.add_assoc]
        exact hdef (k + 1) x hk)
      rw [hstep] at h1 h2 ⊢
      dsimp only at h2
      refine ⟨by rw [h1, List.flatMap_cons, List.append_assoc], ?_⟩
      rw [h2, List.length_cons, show iniGetVal conf s (ascii "def") = _ from h0]
      by_cases hn : a.numselect = n
      · rw [if_pos hn, if_pos rfl, if_neg (by omega), if_pos (by omega)]
        exact hn
      · have hne : (ascii "no" : Bytes) ≠ ascii "yes" := by decide
        rw [if_neg hn, if_neg hne]
        by_cases hlt : a.numselect + 1 ≤ n ∧ n < a.numselect + 1 +
            (menus.filter fun s => iniGetVal conf s visuKey = ascii "yes").length
        · rw [if_pos hlt, if_pos (by omega)]
        · rw [if_neg hlt, if_neg (by omega)]
    · have hstep : a.menu env conf inc s = { a with info := hdrGetMenuInfo conf s a.info } := by
        unfold MenuAcc.menu
        rw [hinfo]
        exact if_neg hv
      rw [List.filter_cons_of_neg (by simpa using hv)] at hdef ⊢
      rw [hstep]
      exact ih hsec _ hdef

/-- **The file** that `makeUserMenu` writes. -/
theorem makeUserMenu_eq (hsec : ∀ s ∈ hdrGetMenuNames conf, iniHasSection conf s = true) {n : ℕ}
    (hn : n < (visibleMenus conf).length)
    (hdef : ∀ k s, (visibleMenus conf)[k]? = some s →
      iniGetVal conf s defKey = if k = n then ascii "yes" else ascii "no") :
    makeUserMenu env conf inc =
      menuHeader env conf inc n ++ (visibleMenus conf).flatMap (sectionText env conf inc) := by
  obtain ⟨h1, h2⟩ := menuAcc_foldl env conf inc hsec ⟨⟨[], [], []⟩, 0, 0, []⟩ (n := n) (by
    intro k s hk
    rw [Nat.zero_add]
    exact hdef k s hk)
  unfold makeUserMenu
  dsimp only
  rw [h1, h2, if_pos ⟨Nat.zero_le n, by rw [Nat.zero_add]; exact hn⟩]
  rfl

end Make

/-! ## The header of the file -/

/-- The lines that `makeUserMenu` adds to the header. -/
def menuExtra (env : MenuEnv) : Bytes :=
  (if env.keymap = [] then [] else ascii "\nkbd" ++ env.keymap ++ [10]) ++
    (if env.splashimage = [] then [] else ascii "\nsplashimage (nd)" ++ env.splashimage ++ [10])

theorem menuHeader_eq (env : MenuEnv) (conf : Ini) (inc : Bytes → Option Bytes) (n : ℕ) :
    menuHeader env conf inc n = addEmptyLine (substFirst (ascii "DEFNUM") (dec n)
      (hdrConcatMenuItems conf inc (ascii "header")) ++ menuExtra env) := by
  unfold menuHeader menuExtra
  dsimp only
  generalize substFirst (ascii "DEFNUM") (dec n) (hdrConcatMenuItems conf inc (ascii "header")) = items
  congr 1
  by_cases hk : env.keymap = [] <;> by_cases hs : env.splashimage = [] <;>
    simp [hk, hs, List.append_assoc]

/-- What stands after the line of the default entry. -/
def headerTail (env : MenuEnv) (after : Bytes) : Bytes :=
  (after ++ menuExtra env).rdropWhile (· = 10) ++ [10, 10]

def NoTitle (table : List Builtin) (l : Bytes) : Prop :=
  ∀ b, findCommand table l = some b → b.isTitle = false

/-- A line that is not another default. -/
def NoDefault (table : List Builtin) (l : Bytes) : Prop :=
  ∀ b, findCommand table l = some b → b.name ≠ ascii "default"

/-- The items of the header have a line `default DEFNUM`, which is the last default, and no title. -/
structure HeaderFits (table : List Builtin) (env : MenuEnv) (items before after : Bytes) : Prop where
  items_eq : items = before ++ (ascii "default DEFNUM" ++ after)
  start : before = [] ∨ ∃ v, before = v ++ [10]
  stop : after = [] ∨ ∃ v, after = 10 :: v
  first : ¬ascii "DEFNUM" <:+: before
  backslash : 92 ∉ before
  before_title : ∀ l ∈ configLines before, NoTitle table l
  after_title : ∀ l ∈ configLines (headerTail env after), NoTitle table l
  after_default : ∀ l ∈ configLines (headerTail env after), NoDefault table l

theorem substFirst_append {pat : Bytes} (rep : Bytes) {u x : Bytes}
    (h : ∀ s, s <:+ u → s ≠ [] → ¬pat <+: s ++ x) :
    substFirst pat rep (u ++ x) = u ++ substFirst pat rep x := by
  induction u with
  | nil => rfl
  | cons b u ih =>
    have hb := h (b :: u) (List.suffix_refl _) (List.cons_ne_nil _ _)
    rw [List.cons_append] at hb
    rw [List.cons_append, substFirst, if_neg fun hc => hb (List.isPrefixOf_iff_prefix.mp hc),
      ih fun s hs => h s (hs.trans (List.suffix_cons b u))]
    rfl

/-- `DEFNUM` is replaced in the line of the default entry. -/
theorem substFirst_defnum {before : Bytes} (hstart : before = [] ∨ ∃ v, before = v ++ [10])
    (hfirst : ¬ascii "DEFNUM" <:+: before) (rep after : Bytes) :
    substFirst (ascii "DEFNUM") rep (before ++ (ascii "default DEFNUM" ++ after)) =
      before ++ (ascii "default " ++ rep ++ after) := by
  have hline : substFirst (ascii "DEFNUM") rep (ascii "default DEFNUM" ++ after) =
      ascii "default " ++ rep ++ after := by
    rfl
  rw [substFirst_append, hline]
  intro s hs hne hpre
  obtain rfl | ⟨v, rfl⟩ := hstart
  · exact hne (List.suffix_nil.mp hs)
  by_cases hlen : (ascii "DEFNUM").length ≤ s.length
  · -- it would be in the part before
    have := List.prefix_of_prefix_length_le hpre (List.prefix_append s _) hlen
    exact hfirst (this.isInfix.trans hs.isInfix)
  · -- or have the newline in it
    have hs' := List.prefix_of_prefix_length_le (List.prefix_append s _) hpre (by omega)
    have hlast : (10 : UInt8) ∈ s := by
      obtain ⟨w, hw⟩ := hs
      have hget := congrArg List.getLast? hw
      rw [List.getLast?_append_of_ne_nil w hne, List.getLast?_concat] at hget
      exact List.mem_of_getLast? hget
    exact absurd (hs'.subset hlast) (by decide)

/-- A line of plain bytes. -/
def PlainLine (v : Bytes) : Prop := ∀ b ∈ v, b ≠ 92 ∧ b ≠ 13 ∧ b ≠ 9 ∧ b ≠ 10

theorem scanLines_plain {maxlen : ℕ} {v : Bytes} (hv : PlainLine v) {cmdline : Bytes}
    (hc : cmdline ≠ []) (hlen : (cmdline ++ v).length ≤ maxlen) :
    scanLines maxlen (v ++ [10]) cmdline false false = [cmdline ++ v] := by
  induction v generalizing cmdline with
  | nil =>
    rw [List.nil_append, scanLines_newline _ fun h => (by cases h), if_neg hc, List.append_nil]
    rfl
  | cons b v ih =>
    obtain ⟨⟨h1, h2, h3, h4⟩, hv⟩ := List.forall_mem_cons.mp hv
    have hlt : cmdline.length < maxlen := by
      rw [List.length_append, List.length_cons] at hlen
      omega
    have hstep : lineStep maxlen b cmdline false false = some (cmdline ++ [b], false, false) := by
      unfold lineStep
      simp [h1, h2, h3, h4, hc, hlt]
    rw [List.cons_append, scanLines, hstep]
    dsimp only
    rw [ih hv (by simp) (by simpa using hlen)]
    simp

/-- The line of the default entry. -/
def defaultLine (n : ℕ) : Bytes := ascii "default " ++ dec n

theorem defaultLine_ne {c : UInt8} (hd : isDigit c = false) (hc : c ∉ ascii "default ") (n : ℕ) :
    ∀ b ∈ defaultLine n, b ≠ c := by
  intro b hb
  obtain hb | hb := List.mem_append.mp hb
  · rintro rfl
    exact hc hb
  · exact dec_ne hd b hb

theorem configLines_defaultLine {n : ℕ} (hn : n ≤ 2147483647) :
    configLines (defaultLine n ++ [10]) = [defaultLine n] := by
  have hsplit : defaultLine n = 100 :: (ascii "efault " ++ dec n) := rfl
  have hplain : PlainLine (ascii "efault " ++ dec n) := fun b hb =>
    have hmem : b ∈ defaultLine n := List.mem_cons_of_mem _ hb
    ⟨defaultLine_ne (by decide) (by decide) n b hmem, defaultLine_ne (by decide) (by decide) n b hmem,
      defaultLine_ne (by decide) (by decide) n b hmem, defaultLine_ne (by decide) (by decide) n b hmem⟩
  have hlen : ([100] ++ (ascii "efault " ++ dec n)).length ≤ 1500 := by
    have := @length_dec_le n 10 (by decide) (by omega)
    have h7 : (ascii "efault ").length = 7 := by decide
    simp only [List.length_append, h7, List.length_singleton]
    omega
  have hfirst : lineStep 1500 100 [] false false = some ([100], false, false) := by decide
  have hnul : cstr (defaultLine n) = defaultLine n :=
    cstr_eq_self (defaultLine_ne (by decide) (by decide) n)
  rw [configLines_eq, hsplit, List.cons_append, scanLines, hfirst]
  dsimp only
  rw [scanLines_plain hplain (by decide) hlen, List.map_singleton]
  exact congrArg (fun l => [l]) hnul

theorem rdropWhile_append {p : UInt8 → Bool} {l : Bytes} {b : UInt8} (hlast : l.getLast? = some b)
    (hb : p b = false) (r : Bytes) : (l ++ r).rdropWhile p = l ++ r.rdropWhile p := by
  induction r using List.reverseRecOn with
  | nil =>
    obtain ⟨v, rfl⟩ := List.getLast?_eq_some_iff.mp hlast
    rw [List.append_nil, List.rdropWhile_nil, List.append_nil,
      List.rdropWhile_concat_neg p v b (by rw [hb]; exact Bool.false_ne_true)]
  | append_singleton r c ih =>
    rw [← List.append_assoc, List.rdropWhile_concat, List.rdropWhile_concat]
    split_ifs
    · exact ih
    · exact List.append_assoc ..

theorem getLast?_defaultLine (n : ℕ) : ∃ b, (defaultLine n).getLast? = some b ∧ isDigit b = true := by
  unfold defaultLine
  rw [List.getLast?_append_of_ne_nil _ (dec_ne_nil n)]
  exact ⟨_, List.getLast?_eq_some_getLast (dec_ne_nil n),
    isDigit_of_mem_dec _ (List.getLast_mem (dec_ne_nil n))⟩

/-- The line of the default entry ends. -/
theorem headerTail_newline (env : MenuEnv) {after : Bytes} (h : after = [] ∨ ∃ v, after = 10 :: v) :
    ∃ w, headerTail env after = 10 :: w := by
  have hstart : ∀ x ∈ (after ++ menuExtra env).head?, x = 10 := by
    obtain rfl | ⟨v, rfl⟩ := h
    · unfold menuExtra
      split_ifs <;> simp [ascii]
    · simp
  unfold headerTail
  cases hr : (after ++ menuExtra env).rdropWhile (· = 10) with
  | nil => exact ⟨_, rfl⟩
  | cons b r =>
    have hpre := List.rdropWhile_prefix (fun x : UInt8 => decide (x = 10)) (after ++ menuExtra env)
    rw [hr] at hpre
    obtain ⟨t, ht⟩ := hpre
    rw [← ht] at hstart
    obtain rfl := hstart b rfl
    exact ⟨_, rfl⟩

theorem configLines_newline (t : Bytes) : configLines (10 :: t) = configLines t := by
  have hnil : (false : Bool) = true → ([] : Bytes) = [] := fun _ => rfl
  rw [configLines_eq, configLines_eq, scanLines_newline _ hnil]
  rfl

/-- **The lines of the header**. -/
theorem header_lines {table : List Builtin} {env : MenuEnv} {conf : Ini} {inc : Bytes → Option Bytes}
    {before after : Bytes}
    (h : HeaderFits table env (hdrConcatMenuItems conf inc (ascii "header")) before after) {n : ℕ}
    (hn : n ≤ 2147483647) :
    configLines (menuHeader env conf inc n) =
      configLines before ++ defaultLine n :: configLines (headerTail env after) := by
  obtain ⟨b, hlast, hdigit⟩ := getLast?_defaultLine n
  have hnot : decide (b = 10) = false := by
    rw [decide_eq_false_iff_not]
    rintro rfl
    exact absurd hdigit (by decide)
  have htext : menuHeader env conf inc n = before ++ (defaultLine n ++ headerTail env after) := by
    rw [menuHeader_eq, h.items_eq, substFirst_defnum h.start h.first]
    have hne : (defaultLine n) ≠ [] := List.cons_ne_nil _ _
    have hassoc : before ++ (ascii "default " ++ dec n ++ after) ++ menuExtra env =
        (before ++ defaultLine n) ++ (after ++ menuExtra env) := by
      simp [defaultLine, List.append_assoc]
    have hlast' : (before ++ defaultLine n).getLast? = some b := by
      rw [List.getLast?_append_of_ne_nil _ hne, hlast]
    unfold addEmptyLine headerTail
    rw [hassoc, rdropWhile_append hlast' hnot]
    simp only [List.append_assoc]
  obtain ⟨w, hw⟩ := headerTail_newline env h.stop
  have hline : configLines (defaultLine n ++ headerTail env after) =
      defaultLine n :: configLines (headerTail env after) := by
    have hback : (92 : UInt8) ∉ defaultLine n := fun hc =>
      defaultLine_ne (by decide) (by decide) n 92 hc rfl
    rw [hw, configLines_newline, configLines_line hback, configLines_defaultLine hn]
    rfl
  rw [htext]
  obtain rfl | ⟨v, rfl⟩ := h.start
  · exact hline
  · have hback : (92 : UInt8) ∉ v := fun hc => h.backslash (List.mem_append_left _ hc)
    rw [List.append_assoc, List.singleton_append, configLines_line hback, hline]

/-! ## What the boot loader reads -/

section Loader

variable (table : List Builtin)

/-- The text starts with a title. -/
def TitleFirst (text : Bytes) : Prop :=
  ∃ l ls b, configLines text = l :: ls ∧ findCommand table l = some b ∧ b.isTitle = true ∧
    b.isDesc = false

/-- The command `default`, as the table has it. -/
def HasDefault : Prop :=
  ∃ b, findBuiltin (ascii "default") table = some b ∧ b.isTitle = false ∧ b.isDesc = false ∧
    b.isMenu = true

variable {table}

theorem findCommand_defaultLine (n : ℕ) :
    findCommand table (defaultLine n) = findBuiltin (ascii "default") table := by
  have hword : (defaultLine n).takeWhile (fun b => !isSep b) = ascii "default" := rfl
  unfold findCommand
  rw [hword]

theorem skipTo_defaultLine (n : ℕ) : skipTo (defaultLine n) = dec n := by
  have hdrop : (defaultLine n).dropWhile (fun b => !isSep b) = 32 :: dec n := rfl
  unfold skipTo
  rw [hdrop, List.dropWhile_cons_of_pos (by decide)]
  refine List.dropWhile_eq_self_iff.mpr fun hlt hc => ?_
  have hsep : (dec n)[0] = 32 ∨ (dec n)[0] = 9 ∨ (dec n)[0] = 61 := by simpa [isSep, or_assoc] using hc
  have hmem := List.getElem_mem hlt
  obtain h | h | h := hsep
  · exact dec_ne (by decide) _ hmem h
  · exact dec_ne (by decide) _ hmem h
  · exact dec_ne (by decide) _ hmem h

/-- After the first title nothing depends on the stanzas before it. -/
theorem Outline.line_shift (pre : List Bytes) (d : List Stanza) {o : Outline} {s : Stanza}
    (h : o.cur = some s) (l : Bytes) :
    (⟨pre, d ++ o.done, o.cur⟩ : Outline).line table l =
      ⟨pre, d ++ (o.line table l).done, (o.line table l).cur⟩ ∧
    ∃ s', (o.line table l).cur = some s' := by
  unfold Outline.line
  cases findCommand table l with
  | none => exact ⟨rfl, s, h⟩
  | some b =>
    dsimp only
    split_ifs
    · unfold Outline.addDesc
      rw [h]
      exact ⟨rfl, _, rfl⟩
    · unfold Outline.addTitle Outline.stanzas
      rw [List.append_assoc]
      exact ⟨rfl, _, rfl⟩
    · unfold Outline.addCommand
      rw [h]
      exact ⟨rfl, _, rfl⟩

theorem Outline.lines_shift (pre : List Bytes) (d : List Stanza) (ls : List Bytes) {o : Outline}
    {s : Stanza} (h : o.cur = some s) :
    ls.foldl (Outline.line table) ⟨pre, d ++ o.done, o.cur⟩ =
      ⟨pre, d ++ (ls.foldl (Outline.line table) o).done, (ls.foldl (Outline.line table) o).cur⟩ := by
  induction ls generalizing o s with
  | nil => rfl
  | cons l ls ih =>
    obtain ⟨heq, s', hs'⟩ := Outline.line_shift pre d h l
    rw [List.foldl_cons, heq, List.foldl_cons]
    exact ih hs'

/-- The stanzas of a text that starts with a title are its own. -/
theorem stanzas_titleFirst {text : Bytes} (h : TitleFirst table text) (o : Outline) :
    ((configLines text).foldl (Outline.line table) o).stanzas =
      o.stanzas ++ (outline table text).stanzas := by
  obtain ⟨l, ls, b, hlines, hfind, htitle, hdesc⟩ := h
  have hfirst : ∀ o : Outline, o.line table l = ⟨o.pre, o.stanzas ++ [], some ⟨skipTo l, [], []⟩⟩ := by
    intro o
    unfold Outline.line
    rw [hfind]
    dsimp only
    rw [hdesc, htitle, if_neg Bool.false_ne_true, if_pos rfl, List.append_nil]
    rfl
  have hshift := fun o : Outline => @Outline.lines_shift table o.pre o.stanzas ls
    ⟨[], [], some ⟨skipTo l, [], []⟩⟩ _ rfl
  unfold outline
  rw [hlines, List.foldl_cons, List.foldl_cons, hfirst, hfirst, hshift,
    show ([] : List Stanza) = [] ++ [] from rfl]
  exact List.append_assoc ..

theorem stanzas_texts {texts : List Bytes} (h : ∀ t ∈ texts, TitleFirst table t) (o : Outline) :
    ((texts.flatMap configLines).foldl (Outline.line table) o).stanzas =
      o.stanzas ++ texts.flatMap fun t => (outline table t).stanzas := by
  induction texts generalizing o with
  | nil => exact (List.append_nil _).symm
  | cons t ts ih =>
    obtain ⟨ht, hts⟩ := List.forall_mem_cons.mp h
    rw [List.flatMap_cons, List.foldl_append, ih hts, stanzas_titleFirst ht, List.flatMap_cons,
      List.append_assoc]

theorem noTitle_defaultLine (hd : HasDefault table) (n : ℕ) : NoTitle table (defaultLine n) := by
  intro b hb
  obtain ⟨b', hb', htitle, -⟩ := hd
  rw [findCommand_defaultLine, hb'] at hb
  exact Option.some.inj hb ▸ htitle

/-- Before the first title there are no stanzas. -/
theorem stanzas_noTitle {ls : List Bytes} (h : ∀ l ∈ ls, NoTitle table l) {o : Outline}
    (ho : o.stanzas = []) : (ls.foldl (Outline.line table) o).stanzas = [] := by
  induction ls generalizing o with
  | nil => exact ho
  | cons l ls ih =>
    obtain ⟨hl, hls⟩ := List.forall_mem_cons.mp h
    refine ih hls ?_
    obtain ⟨hdone, hcur⟩ := List.append_eq_nil_iff.mp ho
    have hcur : o.cur = none := by simpa using hcur
    unfold Outline.line
    cases hf : findCommand table l with
    | none => exact ho
    | some b =>
      dsimp only
      rw [hl b hf, if_neg Bool.false_ne_true]
      split_ifs
      · unfold Outline.addDesc Outline.stanzas
        rw [hcur]
        simp [hdone]
      · unfold Outline.addCommand Outline.stanzas
        rw [hcur]
        simp [hdone, hcur]

/-! ## The default entry of the boot loader -/

variable (table) in
/-- The commands that `cmain` runs before the first title. -/
def menuRuns : List Bytes → List Bytes
  | [] => []
  | l :: ls =>
    match findCommand table l with
    | none => menuRuns ls
    | some b =>
      if b.isDesc then menuRuns ls
      else if b.isTitle then []
      else if b.isMenu then l :: menuRuns ls
      else menuRuns ls

variable (table) in
/-- The entry that a line makes the default. -/
def setsDefault (saved : ℕ) (l : Bytes) : Option ℕ :=
  match findCommand table l with
  | none => none
  | some b =>
    if b.name = ascii "default" then
      if skipTo l = ascii "saved" then some saved else safeParseMaxint (skipTo l)
    else none

variable (table) in
/-- The default entry of a header: that of the last line which gives one, or 0. -/
def headerDefault (saved : ℕ) (ls : List Bytes) : ℕ :=
  ((menuRuns table ls).filterMap (setsDefault table saved)).getLast?.getD 0

/-- In a stanza no command is run. -/
theorem ran_inside (ls : List Bytes) {p : Parse} (h : p.state ≠ 0) :
    (ls.foldl (Parse.line table) p).ran = p.ran := by
  induction ls generalizing p with
  | nil => rfl
  | cons l ls ih =>
    have hstep : (p.line table l).state ≠ 0 ∧ (p.line table l).ran = p.ran := by
      unfold Parse.line
      cases findCommand table l with
      | none => exact ⟨h, rfl⟩
      | some b =>
        dsimp only
        rw [if_neg h]
        split_ifs
        · exact ⟨h, rfl⟩
        · exact ⟨Nat.one_ne_zero, rfl⟩
        · exact ⟨Nat.one_ne_zero, rfl⟩
        · exact ⟨Nat.succ_ne_zero _, rfl⟩
    rw [List.foldl_cons, ih hstep.1, hstep.2]

/-- A line before the first title: it is the title, or what it runs is the first of the commands. -/
theorem ran_line {p : Parse} (h : p.state = 0) (l : Bytes) (ls : List Bytes) :
    ((p.line table l).state ≠ 0 ∧ (p.line table l).ran = p.ran ∧ menuRuns table (l :: ls) = []) ∨
    ((p.line table l).state = 0 ∧
      (p.line table l).ran ++ menuRuns table ls = p.ran ++ menuRuns table (l :: ls)) := by
  unfold Parse.line
  rw [menuRuns]
  cases findCommand table l with
  | none => exact .inr ⟨h, rfl⟩
  | some b =>
    dsimp only
    by_cases hdesc : b.isDesc = true
    · rw [if_pos hdesc, if_pos hdesc]
      exact .inr ⟨h, rfl⟩
    rw [if_neg hdesc, if_neg hdesc]
    by_cases htitle : b.isTitle = true
    · rw [if_pos htitle, if_pos htitle, h, if_neg (Nat.not_lt_zero 1)]
      exact .inl ⟨Nat.one_ne_zero, rfl, rfl⟩
    rw [if_neg htitle, if_neg htitle, if_pos h]
    by_cases hmenu : b.isMenu = true
    · rw [if_pos hmenu, if_pos hmenu]
      exact .inr ⟨h, List.append_assoc ..⟩
    · rw [if_neg hmenu, if_neg hmenu]
      exact .inr ⟨h, rfl⟩

theorem ran_lines (ls : List Bytes) {p : Parse} (h : p.state = 0) :
    (ls.foldl (Parse.line table) p).ran = p.ran ++ menuRuns table ls := by
  induction ls generalizing p with
  | nil => exact (List.append_nil _).symm
  | cons l ls ih =>
    rw [List.foldl_cons]
    obtain ⟨hstate, hran, hnil⟩ | ⟨hstate, hran⟩ := @ran_line table _ h l ls
    · -- from here on it is a stanza
      rw [ran_inside ls hstate, hran, hnil, List.append_nil]
    · rw [ih hstate, hran]

/-- Each command of the menu leaves the default entry or sets it. -/
theorem defaultFunc_eq (saved d : ℕ) (l : Bytes) :
    defaultFunc table saved d l = (setsDefault table saved l).getD d := by
  unfold defaultFunc setsDefault
  cases findCommand table l with
  | none => rfl
  | some b =>
    dsimp only
    split_ifs <;> rfl

theorem defaultFunc_foldl (saved d : ℕ) (rs : List Bytes) :
    rs.foldl (defaultFunc table saved) d = (rs.filterMap (setsDefault table saved)).getLast?.getD d := by
  induction rs using List.reverseRecOn with
  | nil => rfl
  | append_singleton rs r ih =>
    rw [List.foldl_append, List.foldl_cons, List.foldl_nil, defaultFunc_eq, List.filterMap_append]
    cases h : setsDefault table saved r with
    | none => simpa [h] using ih
    | some n => simp [h]

/-- **The default entry** of a file is the one that the last `default` in its header gives. -/
theorem defaultEntry_eq (saved : ℕ) (ls : List Bytes) :
    defaultEntry table saved (menuRuns table ls) = headerDefault table saved ls :=
  defaultFunc_foldl saved 0 _

/-! ## A header with the line `default DEFNUM` -/

theorem menuRuns_append {ls : List Bytes} (h : ∀ l ∈ ls, NoTitle table l) (rs : List Bytes) :
    menuRuns table (ls ++ rs) = menuRuns table ls ++ menuRuns table rs := by
  induction ls with
  | nil => rfl
  | cons l ls ih =>
    obtain ⟨hl, hls⟩ := List.forall_mem_cons.mp h
    rw [List.cons_append, menuRuns, menuRuns]
    cases hfind : findCommand table l with
    | none => exact ih hls
    | some b =>
      dsimp only
      rw [hl b hfind, if_neg Bool.false_ne_true, if_neg Bool.false_ne_true]
      split_ifs
      · exact ih hls
      · rw [ih hls]
        rfl
      · exact ih hls

theorem menuRuns_subset (ls : List Bytes) : ∀ r ∈ menuRuns table ls, r ∈ ls := by
  induction ls with
  | nil => exact fun r hr => hr
  | cons l ls ih =>
    intro r hr
    rw [menuRuns] at hr
    cases hfind : findCommand table l with
    | none =>
      rw [hfind] at hr
      exact List.mem_cons_of_mem l (ih r hr)
    | some b =>
      rw [hfind] at hr
      dsimp only at hr
      split_ifs at hr
      · exact List.mem_cons_of_mem l (ih r hr)
      · exact absurd hr List.not_mem_nil
      · obtain rfl | hr := List.mem_cons.mp hr
        · exact List.mem_cons_self
        · exact List.mem_cons_of_mem l (ih r hr)
      · exact List.mem_cons_of_mem l (ih r hr)

theorem setsDefault_noDefault {saved : ℕ} {rs : List Bytes} (h : ∀ r ∈ rs, NoDefault table r) :
    rs.filterMap (setsDefault table saved) = [] := by
  refine List.filterMap_eq_nil_iff.mpr fun r hr => ?_
  unfold setsDefault
  cases hfind : findCommand table r with
  | none => rfl
  | some b => exact if_neg (h r hr b hfind)

theorem setsDefault_defaultLine (hd : HasDefault table) {saved n : ℕ} (hn : n ≤ 2147483647) :
    setsDefault table saved (defaultLine n) = some n := by
  obtain ⟨b, hfind, -⟩ := hd
  have hne : dec n ≠ ascii "saved" := by
    intro hc
    have hmem : (115 : UInt8) ∈ dec n := hc ▸ (by decide : (115 : UInt8) ∈ ascii "saved")
    exact dec_ne (by decide) 115 hmem rfl
  have hnum : safeParseMaxint (dec n) = some n := by
    have h := @safeParseMaxint_dec n hn [] fun b hb => (by cases hb)
    rwa [List.append_nil] at h
  unfold setsDefault
  rw [findCommand_defaultLine, hfind]
  dsimp only
  rw [name_of_findBuiltin _ hfind, if_pos rfl, skipTo_defaultLine, if_neg hne, hnum]

section Header

variable {env : MenuEnv} {conf : Ini} {inc : Bytes → Option Bytes} {before after : Bytes} {n : ℕ}
  (hh : HeaderFits table env (hdrConcatMenuItems conf inc (ascii "header")) before after)
  (hd : HasDefault table) (hn : n ≤ 2147483647)

include hh hd hn

/-- The header sets the default entry. -/
theorem header_default (saved : ℕ) :
    headerDefault table saved (configLines (menuHeader env conf inc n)) = n := by
  have hrun : menuRuns table (defaultLine n :: configLines (headerTail env after)) =
      defaultLine n :: menuRuns table (configLines (headerTail env after)) := by
    obtain ⟨b, hb, htitle, hdesc, hmenu⟩ := hd
    rw [menuRuns, findCommand_defaultLine, hb]
    dsimp only
    rw [htitle, hdesc, hmenu, if_neg Bool.false_ne_true, if_neg Bool.false_ne_true, if_pos rfl]
  have htail :
      (menuRuns table (configLines (headerTail env after))).filterMap (setsDefault table saved) = [] :=
    setsDefault_noDefault fun r hr => hh.after_default r (menuRuns_subset _ r hr)
  unfold headerDefault
  rw [header_lines hh hn, menuRuns_append hh.before_title, hrun, List.filterMap_append, List.filterMap_cons,
    setsDefault_defaultLine hd hn]
  dsimp only
  rw [htail, List.getLast?_concat]
  rfl

/-- It has no entry. -/
theorem header_stanzas : (outline table (menuHeader env conf inc n)).stanzas = [] := by
  unfold outline
  rw [header_lines hh hn]
  refine stanzas_noTitle (fun l hl => ?_) rfl
  obtain hl | hl := List.mem_append.mp hl
  · exact hh.before_title l hl
  obtain rfl | hl := List.mem_cons.mp hl
  · exact noTitle_defaultLine hd n
  · exact hh.after_title l hl

end Header

/-! ## The texts behind the header -/

/-- Nothing is run from the first title on. -/
theorem ran_texts {texts : List Bytes} (h : ∀ t ∈ texts, TitleFirst table t) (hne : texts ≠ [])
    (p : Parse) : ((texts.flatMap configLines).foldl (Parse.line table) p).ran = p.ran := by
  obtain ⟨t, ts, rfl⟩ := List.exists_cons_of_ne_nil hne
  obtain ⟨l, ls, b, hlines, hfind, htitle, hdesc⟩ := h t List.mem_cons_self
  have hfirst : (p.line table l).state ≠ 0 ∧ (p.line table l).ran = p.ran := by
    unfold Parse.line
    rw [hfind]
    dsimp only
    rw [hdesc, htitle, if_neg Bool.false_ne_true, if_pos rfl]
    split_ifs <;> exact ⟨Nat.one_ne_zero, rfl⟩
  rw [List.flatMap_cons, hlines, List.cons_append, List.foldl_cons, ran_inside _ hfirst.1, hfirst.2]

theorem configLines_texts {texts : List Bytes} (h : ∀ t ∈ texts, Blank t) :
    configLines texts.flatten = texts.flatMap configLines := by
  induction texts with
  | nil => rfl
  | cons t ts ih =>
    obtain ⟨ht, hts⟩ := List.forall_mem_cons.mp h
    rw [List.flatten_cons, configLines_append ht, ih hts, List.flatMap_cons]

section File

variable {header : Bytes} (hb : Blank header) {texts : List Bytes} (hbs : ∀ t ∈ texts, Blank t)
  (ht : ∀ t ∈ texts, TitleFirst table t)

include hb hbs in
theorem file_lines : configLines (header ++ texts.flatten) =
    configLines header ++ texts.flatMap configLines := by
  rw [configLines_append hb, configLines_texts hbs]

include hb hbs ht in
/-- **The stanzas** of the file are those of the header and of the visible menus. -/
theorem file_stanzas : (outline table (header ++ texts.flatten)).stanzas =
    (outline table header).stanzas ++ texts.flatMap fun t => (outline table t).stanzas := by
  unfold outline
  rw [file_lines hb hbs, List.foldl_append, stanzas_texts ht]
  rfl

include hb hbs ht in
/-- **The commands** that are run are those of the header. -/
theorem file_ran (hne : texts ≠ []) :
    (readConfig table (header ++ texts.flatten)).ran = menuRuns table (configLines header) := by
  have hfinish : ∀ p : Parse, p.finish.ran = p.ran := by
    intro p
    unfold Parse.finish
    split_ifs <;> rfl
  unfold readConfig
  rw [hfinish, file_lines hb hbs, List.foldl_append, ran_texts ht hne]
  exact ran_lines _ rfl

end File

/-! ## One entry for each menu -/

variable (table) in
/-- The text is one entry of the menu: its first title has commands, and no other one has. -/
def OneEntry (text : Bytes) : Prop :=
  ∃ s rest, (outline table text).stanzas = s :: rest ∧ s.commands ≠ [] ∧ entries rest = []

theorem entries_cons {s : Stanza} (hs : s.commands ≠ []) (rest : List Stanza) :
    entries (s :: rest) = s :: entries rest :=
  List.filter_cons_of_pos (by simpa using hs)

/-- The stanzas of texts. -/
def textStanzas (table : List Builtin) (texts : List Bytes) : List Stanza :=
  texts.flatMap fun t => (outline table t).stanzas

theorem length_entries_texts {texts : List Bytes} (h : ∀ t ∈ texts, OneEntry table t) :
    (entries (textStanzas table texts)).length = texts.length := by
  induction texts with
  | nil => rfl
  | cons t ts ih =>
    obtain ⟨⟨s, rest, hst, hs, hrest⟩, hts⟩ := List.forall_mem_cons.mp h
    have hsplit : textStanzas table (t :: ts) = (outline table t).stanzas ++ textStanzas table ts := rfl
    rw [hsplit, entries_append, List.length_append, hst, entries_cons hs, hrest, ih hts,
      List.length_singleton, List.length_cons, Nat.add_comm]

/-- If the first title of each text has commands, there are too many entries unless they are all. -/
theorem oneEntry_of_length {texts : List Bytes}
    (h : ∀ t ∈ texts, ∃ s rest, (outline table t).stanzas = s :: rest ∧ s.commands ≠ []) :
    texts.length ≤ (entries (textStanzas table texts)).length ∧
    ((entries (textStanzas table texts)).length = texts.length → ∀ t ∈ texts, OneEntry table t) := by
  induction texts with
  | nil => exact ⟨Nat.le_refl 0, fun _ t ht => absurd ht List.not_mem_nil⟩
  | cons t ts ih =>
    obtain ⟨⟨s, rest, hst, hs⟩, hts⟩ := List.forall_mem_cons.mp h
    obtain ⟨hle, hone⟩ := ih hts
    have hsplit : textStanzas table (t :: ts) = (outline table t).stanzas ++ textStanzas table ts := rfl
    rw [hsplit, entries_append, List.length_append, hst, entries_cons hs, List.length_cons,
      List.length_cons]
    refine ⟨by omega, fun heq => List.forall_mem_cons.mpr ⟨⟨s, rest, hst, hs, ?_⟩, hone (by omega)⟩⟩
    exact List.length_eq_zero_iff.mp (by omega)

/-- The entries that the boot loader has for a file with the stanzas of texts. -/
structure EntriesAgree (table : List Builtin) (texts : List Bytes) (p : Parse) : Prop where
  count : p.numEntries = texts.length
  entry : ∀ k t (m : Place), texts[k]? = some t → m.firstEntry + m.entryno = k →
    ∃ s, (outline table t).stanzas.head? = some s ∧ p.highlighted m = s.title ∧ p.booted m = s.commands

/-- **The entries agree** with the texts if each of them is one entry and no other stanza is, and only
then. -/
theorem entriesAgree_iff {file : Bytes} {first : List Stanza} {texts : List Bytes}
    (h : (outline table file).stanzas = first ++ textStanzas table texts) :
    EntriesAgree table texts (readConfig table file) ↔
      entries first = [] ∧ ∀ t ∈ texts, OneEntry table t := by
  have hnum := (readConfig_spec table file).2.2.1
  rw [h, entries_append, List.length_append] at hnum
  constructor
  · rintro ⟨hcount, hentry⟩
    rw [hnum] at hcount
    obtain ⟨hle, hone⟩ := @oneEntry_of_length table texts fun t ht => by
      -- the entry with the number of the text has commands
      obtain ⟨k, hk⟩ := List.mem_iff_getElem?.mp ht
      obtain ⟨top, htop, -, hboot⟩ := hentry k t ⟨0, k⟩ hk (Nat.zero_add k)
      have hlt : k < (entries (outline table file).stanzas).length := by
        rw [h, entries_append, List.length_append, hcount]
        exact (List.getElem?_eq_some_iff.mp hk).1
      obtain ⟨bs, s, as, hsplit, hs, hlen⟩ := exists_split hlt
      have hcmd := @booted_eq table file bs as s ⟨0, k⟩ hsplit hs (hlen.trans (Nat.zero_add k).symm)
      obtain ⟨rest, hst⟩ := List.head?_eq_some_iff.mp htop
      exact ⟨top, rest, hst, by rw [← hboot, hcmd]; exact hs⟩
    exact ⟨List.length_eq_zero_iff.mp (by omega), hone (by omega)⟩
  · rintro ⟨hfirst, hone⟩
    rw [hfirst, List.length_nil, Nat.zero_add] at hnum
    refine ⟨hnum.trans (length_entries_texts hone), fun k t m hk hm => ?_⟩
    obtain ⟨hlt, rfl⟩ := List.getElem?_eq_some_iff.mp hk
    obtain ⟨s, rest, hst, hs, -⟩ := hone _ (List.getElem_mem hlt)
    have hsplit : (outline table file).stanzas = (first ++ textStanzas table (texts.take k)) ++
        s :: (rest ++ textStanzas table (texts.drop (k + 1))) := by
      rw [h, ← List.cons_append, ← hst, List.append_assoc]
      conv_lhs => rw [← List.take_append_drop k texts, List.drop_eq_getElem_cons hlt]
      unfold textStanzas
      rw [List.flatMap_append, List.flatMap_cons]
    have hlen : (entries (first ++ textStanzas table (texts.take k))).length =
        m.firstEntry + m.entryno := by
      rw [entries_append, hfirst, List.nil_append,
        length_entries_texts fun t ht => hone t (List.mem_of_mem_take ht), List.length_take, hm]
      omega
    refine ⟨s, by rw [hst]; rfl, highlighted_eq hsplit hs hlen, booted_eq hsplit hs hlen⟩

end Loader

/-! ## All three -/

/-- The header that `makeUserMenu` loads after `set_default`. -/
def newHeader (f : IniFile) (newdef : ℕ) : Ini := iniLoad (setDefault newdef f)

/-- The file that it writes. -/
def bootMenu (env : MenuEnv) (files : Bytes → Option Bytes) (f : IniFile) (newdef : ℕ) : Bytes :=
  makeUserMenu env (newHeader f newdef) (hdrInc (newHeader f newdef) files)

/-- The stanzas of the visible menus, as they are written. -/
def visibleTexts (env : MenuEnv) (files : Bytes → Option Bytes) (f : IniFile) (newdef : ℕ) : List Bytes :=
  (visibleMenus (iniLoad f)).map
    (sectionText env (newHeader f newdef) (hdrInc (newHeader f newdef) files))

/-- The header of that file. -/
def bootHeader (env : MenuEnv) (files : Bytes → Option Bytes) (f : IniFile) (newdef : ℕ) : Bytes :=
  menuHeader env (newHeader f newdef) (hdrInc (newHeader f newdef) files) newdef

/-- The boot loader's default entry is the visible menu that was made the default, and its entries are
the visible menus. -/
def DefaultAgrees (table : List Builtin) (low : ℕ → UInt8) (room saved : ℕ) (env : MenuEnv)
    (files : Bytes → Option Bytes) (f : IniFile) (newdef : ℕ) : Prop :=
  ∃ p, cmain table low room (bootMenu env files f newdef) = some p ∧
    defaultEntry table saved p.ran = newdef ∧ EntriesAgree table (visibleTexts env files f newdef) p

/-- The file is a header and the stanzas of the visible menus. -/
theorem bootMenu_eq (env : MenuEnv) (files : Bytes → Option Bytes) {f : IniFile} (hf : VisuHeader f)
    {newdef : ℕ} (hn : newdef < (visibleMenus (iniLoad f)).length) :
    bootMenu env files f newdef =
      bootHeader env files f newdef ++ (visibleTexts env files f newdef).flatten := by
  obtain ⟨hnames, hsec, hvisible, hdef⟩ := setDefault_spec hf newdef
  have hmake := makeUserMenu_eq env (newHeader f newdef) (hdrInc (newHeader f newdef) files)
    (fun s hs => hsec s (hnames ▸ hs)) (hvisible.symm ▸ hn) (fun k s hk => hdef k s (hvisible ▸ hk))
  unfold bootMenu bootHeader visibleTexts
  rw [hmake, ← hvisible, List.flatMap_def]
  rfl

/-- Four commands of the table. -/
def menuTable : List Builtin := ⟨ascii "default", false, false, true, by decide⟩ :: smallTable

def plainEnv : MenuEnv := ⟨[], [], [], [], [], [], [], []⟩

/-- Two visible menus, each with its file. -/
def twoMenus : IniFile :=
  [(ascii "header", [(ascii "item", ascii "default DEFNUM")]),
    (ascii "menu1", [(visuKey, ascii "yes"), (ascii "include", ascii "a")]),
    (ascii "menu2", [(visuKey, ascii "yes"), (ascii "include", ascii "b")])]

def twoFiles (v : Bytes) : Option Bytes :=
  if v = ascii "a" then some (ascii "title A\nroot r\n")
  else if v = ascii "b" then some (ascii "title B\nroot s\n")
  else none

/-- The first one is being backed up. -/
def backupFiles (v : Bytes) : Option Bytes :=
  if v = ascii "a" then
    some (ascii "title Local backup (Local-0)\ndesc Currently backing up. Please wait...\n")
  else twoFiles v

theorem twoMenus_visu : VisuHeader twoMenus := ⟨by decide, by decide, by decide⟩

end LinboxRescue
