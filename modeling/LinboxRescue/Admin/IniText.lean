import LinboxRescue.Admin.Ini

/-!
# The text of ini files (`iniLoad`, `iniSave` of `src/server/admin/perl/inifile.pl`)

`iniLoad` trims the lines of a file, splits the text at what looks like a header, `\n\[.+?\]`, and reads
each block by its first line: one line in brackets is a header, anything else is the lines of the section
whose header was read last. A line is split at the first `=`; what a line does not have is undefined.

1. `iniBlocks_fileText`: the blocks of a text that is printed section by section.
2. `iniLoad_fileText`: so `Ini` is what `iniLoad` makes of such a text.
3. `iniLoad_iniSave`: a structure that is saved is loaded again.
-/

namespace LinboxRescue

namespace IniText

/-! ## Reading -/

/-- `%conf`. The lines of a section are pairs of a key and a value. -/
structure Conf where
  order : List Bytes
  data : Bytes → Option (List (Option Bytes × Option Bytes))

/-- `[ \t\n]`. -/
def isBlankOrEnd (b : UInt8) : Bool := isBlank b || b == 10

/-- `s/^[ \t]+//; s/[ \t\n]+$/\n/`. -/
def trimLine (line : Bytes) : Bytes :=
  let line := line.dropWhile isBlank
  if line.rdropWhile isBlankOrEnd = line then line else line.rdropWhile isBlankOrEnd ++ [10]

/-- `$buf`, with the newline that is put in front of it. -/
def readText (text : Bytes) : Bytes := 10 :: (perlRawLines text).flatMap trimLine

/-- The length of `\n\[.+?\]` at the start of a text. -/
def headLength : Bytes → Option ℕ
  | 10 :: 91 :: _ :: t => if 93 ∈ t then some (4 + (t.takeWhile (· ≠ 93)).length) else none
  | _ => none

/-- `^\[.+]$`. -/
def isHead (line : Bytes) : Bool :=
  line.head? == some 91 && line.getLast? == some 93 && 3 ≤ line.length

inductive Block
  | head (secname : Bytes)
  | body (lines : List Bytes)
  deriving DecidableEq

/-- `s/^\n+//; s/\n+$//`. -/
def stripEnds (buf : Bytes) : Bytes := (buf.dropWhile (· == 10)).rdropWhile (· == 10)

/-- What a block is. Some are empty. -/
def blockOf (buf : Bytes) : Option Block :=
  match splitLines (stripEnds buf) with
  | [] => none
  | l :: ls =>
    if isHead l ∧ ls = [] then some (.head (l.filter fun b => b ≠ 91 ∧ b ≠ 93))
    else some (.body (l :: ls))

/-- The blocks of a file. -/
def iniBlocks (text : Bytes) : List Block :=
  (splitCapture headLength (readText text).length (readText text)).filterMap blockOf

/-- `split(m/[ \t]*=[ \t]*/, $line, 2)`. -/
def splitPair (line : Bytes) : Option Bytes × Option Bytes :=
  if line = [] then (none, none)
  else
    match line.dropWhile (· ≠ 61) with
    | [] => (some line, none)
    | _ :: v => (some ((line.takeWhile (· ≠ 61)).rdropWhile isBlank), some (v.dropWhile isBlank))

/-- One turn of the loop over the blocks. `secname` is the section of the lines that follow. -/
def loadBlock (st : Bytes × Conf) : Block → Bytes × Conf
  | .head secname => (secname, { st.2 with order := st.2.order ++ [secname] })
  | .body lines =>
    (st.1, { st.2 with data := Function.update st.2.data st.1 (some (lines.map splitPair)) })

/-- The section of the lines before the first header. -/
def noSection : Bytes := ascii "-"

def loadBlocks (blocks : List Block) : Conf :=
  (blocks.foldl loadBlock (noSection, ⟨[], fun _ => none⟩)).2

def iniLoad (text : Bytes) : Conf := loadBlocks (iniBlocks text)

/-! ## Writing -/

/-- The lines that `iniSave` writes for a pair, as `iniGet` returns it. A value of newlines only is an
empty line. -/
def pairText : Option Bytes × Option Bytes → Bytes
  | (_, none) => []
  | (k, some v) =>
    if v = [] then []
    else if splitLines v = [] then [10]
    else (splitLines v).flatMap fun l => k.getD [] ++ 61 :: l ++ [10]

def sectionText (conf : Conf) (s : Bytes) : Bytes :=
  91 :: s ++ [93, 10] ++ ((conf.data s).getD []).flatMap pairText ++ [10]

def iniSave (conf : Conf) : Bytes := (conf.order).flatMap (sectionText conf)

/-! ## Files printed section by section -/

/-- `key=val`. -/
def pairLine (p : Bytes × Bytes) : Bytes := p.1 ++ 61 :: p.2

/-- The lines of a file. -/
def fileLines (file : IniFile) : List Bytes :=
  file.flatMap fun x => (91 :: x.1 ++ [93]) :: x.2.map pairLine ++ [[]]

def fileText (file : IniFile) : Bytes := (fileLines file).flatMap (· ++ [10])

/-- No blanks around a text. -/
structure Trimmed (s : Bytes) : Prop where
  first : ∀ b ∈ s.head?, isBlank b = false
  last : ∀ b ∈ s.getLast?, isBlank b = false

/-- The name of a section that can be read. -/
structure PlainName (s : Bytes) : Prop where
  oneLine : 10 ∉ s
  noOpen : 91 ∉ s
  noClose : 93 ∉ s

/-- A line that can be read. -/
structure PlainPair (p : Bytes × Bytes) : Prop where
  key_ne : p.1 ≠ []
  key_line : 10 ∉ p.1
  key_noEq : 61 ∉ p.1
  key_head : p.1.head? ≠ some 91
  key_trimmed : Trimmed p.1
  val_line : 10 ∉ p.2
  val_trimmed : Trimmed p.2

/-- A file that can be read. -/
def PlainFile (file : IniFile) : Prop :=
  ∀ x ∈ file, (PlainName x.1 ∧ x.1 ≠ []) ∧ ∀ p ∈ x.2, PlainPair p

/-! ### Lines -/

theorem getLast?_append_cons (s : Bytes) (b : UInt8) (t : Bytes) :
    (s ++ b :: t).getLast? = (b :: t).getLast? := by
  rw [List.getLast?_append]
  cases h : (b :: t).getLast? with
  | none => exact absurd h (by simp)
  | some c => rfl

theorem PlainPair.trimmed {p : Bytes × Bytes} (h : PlainPair p) : Trimmed (pairLine p) := by
  constructor
  · intro b hb
    obtain ⟨c, t, hk⟩ := List.exists_cons_of_ne_nil h.key_ne
    refine h.key_trimmed.first b ?_
    rw [pairLine, hk] at hb
    rw [hk]
    exact hb
  · intro b hb
    rw [pairLine, getLast?_append_cons] at hb
    cases hv : p.2 with
    | nil =>
      rw [hv] at hb
      obtain rfl : 61 = b := Option.some.inj hb
      rfl
    | cons c t =>
      refine h.val_trimmed.last b ?_
      rw [hv] at hb ⊢
      exact hb

theorem trimLine_of_trimmed {l : Bytes} (h : Trimmed l) (hl : 10 ∉ l) :
    trimLine (l ++ [10]) = l ++ [10] := by
  have hfirst : (l ++ [10]).dropWhile isBlank = l ++ [10] := by
    cases l with
    | nil => rfl
    | cons b l => exact List.dropWhile_cons_of_neg (by simp [h.first b rfl])
  have hlast : (l ++ [10]).rdropWhile isBlankOrEnd = l := by
    rw [List.rdropWhile_concat_pos _ _ _ rfl, List.rdropWhile_eq_self_iff]
    intro hne hb
    have hmem := List.getLast_mem hne
    rw [isBlankOrEnd, h.last _ (List.getLast?_eq_some_getLast hne), Bool.false_or, beq_iff_eq] at hb
    rw [hb] at hmem
    exact hl hmem
  unfold trimLine
  rw [hfirst]
  show (if (l ++ [10]).rdropWhile isBlankOrEnd = _ then _ else _) = _
  rw [hlast, if_neg fun e => ?_]
  have := congrArg List.length e
  simp at this

theorem line_of_mem {file : IniFile} (h : PlainFile file) {l : Bytes} (hl : l ∈ fileLines file) :
    10 ∉ l ∧ Trimmed l := by
  obtain ⟨x, hx, hl⟩ := List.mem_flatMap.mp hl
  obtain ⟨⟨hname, hne⟩, hpairs⟩ := h x hx
  rcases List.mem_append.mp hl with hl | hl
  · rcases List.mem_cons.mp hl with rfl | hl
    · refine ⟨by simp [hname.oneLine], fun b hb => ?_, fun b hb => ?_⟩
      · obtain rfl : 91 = b := Option.some.inj hb
        rfl
      · rw [getLast?_append_cons] at hb
        obtain rfl : 93 = b := Option.some.inj hb
        rfl
    · obtain ⟨p, hp, rfl⟩ := List.mem_map.mp hl
      have h := hpairs p hp
      exact ⟨by simp [pairLine, h.key_line, h.val_line], h.trimmed⟩
  · rw [List.mem_singleton] at hl
    subst hl
    exact ⟨by simp, by simp, by simp⟩

/-- Such a text is read as it is. -/
theorem readText_fileText {file : IniFile} (h : PlainFile file) :
    readText (fileText file) = 10 :: fileText file := by
  unfold readText fileText
  rw [perlRawLines_flatMap fun l hl => (line_of_mem h hl).1, List.flatMap_map]
  congr 1
  exact List.flatMap_congr fun l hl => trimLine_of_trimmed (line_of_mem h hl).2 (line_of_mem h hl).1

/-! ### Blocks -/

/-- No header starts in the text. -/
def NoHead (f : Bytes) : Prop := ¬ [10, 91] <:+: f

theorem NoHead.of_suffix {f y : Bytes} (h : NoHead f) (hy : y <:+ f) : NoHead y := fun hi =>
  h (hi.trans hy.isInfix)

theorem NoHead.headLength {y s : Bytes} (h : NoHead y) (hne : y ≠ []) (hs : s.head? ≠ some 91) :
    headLength (y ++ s) = none := by
  obtain ⟨b, t, rfl⟩ := List.exists_cons_of_ne_nil hne
  unfold IniText.headLength
  split
  · rename_i c r heq
    exfalso
    cases t with
    | nil =>
      obtain rfl : s = 91 :: c :: r := (List.cons.inj heq).2
      exact hs rfl
    | cons d t =>
      have h1 := List.cons.inj heq
      have h2 := List.cons.inj h1.2
      exact h ⟨[], t, by rw [h1.1, h2.1]; rfl⟩
  · rfl

theorem NoHead.append {f g : Bytes} (hf : NoHead f) (hg : NoHead g) (hs : g.head? ≠ some 91) :
    NoHead (f ++ g) := by
  induction f with
  | nil => exact hg
  | cons b f ih =>
    intro hi
    rcases List.infix_cons_iff.mp hi with hp | hi
    · obtain ⟨t, ht⟩ := hp
      have h1 := List.cons.inj ht
      cases f with
      | nil =>
        obtain rfl : 91 :: t = g := h1.2
        exact hs rfl
      | cons c f =>
        have h2 := List.cons.inj h1.2
        exact hf ⟨[], f, by rw [h1.1, h2.1]; rfl⟩
    · exact ih (hf.of_suffix (List.suffix_cons _ _)) hi

theorem NoHead.of_line {l : Bytes} (hl : 10 ∉ l) : NoHead l := fun hi =>
  hl (hi.subset List.mem_cons_self)

/-- The lines of a section, after its header. -/
def bodyText (pairs : Pairs) : Bytes := 10 :: pairs.flatMap fun p => pairLine p ++ [10]

theorem PlainPair.noHead {p : Bytes × Bytes} (h : PlainPair p) {g : Bytes} (hg : NoHead g)
    (hs : g.head? ≠ some 91) : NoHead (pairLine p ++ 10 :: g) := by
  refine (NoHead.of_line (by simp [pairLine, h.key_line, h.val_line])).append ?_ (by simp)
  exact NoHead.append (f := [10]) (fun hi => absurd hi.length_le (by simp)) hg hs

theorem bodyText_noHead {pairs : Pairs} (h : ∀ p ∈ pairs, PlainPair p) : NoHead (bodyText pairs) := by
  have hlines : ∀ {pairs : Pairs}, (∀ p ∈ pairs, PlainPair p) →
      NoHead (pairs.flatMap fun p => pairLine p ++ [10]) ∧
        (pairs.flatMap fun p => pairLine p ++ [10]).head? ≠ some 91 := by
    intro pairs h
    induction pairs with
    | nil => exact ⟨fun hi => absurd hi.length_le (by simp), by simp⟩
    | cons p pairs ih =>
      obtain ⟨hp, h⟩ := List.forall_mem_cons.mp h
      rw [List.flatMap_cons, List.append_assoc, List.singleton_append]
      refine ⟨hp.noHead (ih h).1 (ih h).2, ?_⟩
      obtain ⟨c, t, hk⟩ := List.exists_cons_of_ne_nil hp.key_ne
      have hc := hp.key_head
      rw [hk] at hc
      rw [pairLine, hk]
      exact hc
  exact NoHead.append (f := [10]) (fun hi => absurd hi.length_le (by simp)) (hlines h).1 (hlines h).2

/-- The header of a section, with the newline in front of it. -/
def headText (s : Bytes) : Bytes := 10 :: 91 :: s ++ [93]

theorem fileText_cons (x : Bytes × Pairs) (file : IniFile) :
    10 :: fileText (x :: file) = headText x.1 ++ (bodyText x.2 ++ 10 :: fileText file) := by
  have hmap : (x.2.map pairLine).flatMap (· ++ [10]) = x.2.flatMap fun p => pairLine p ++ [10] :=
    List.flatMap_map _ _ _
  unfold fileText fileLines headText bodyText
  rw [List.flatMap_cons, List.flatMap_append, List.cons_append, List.flatMap_cons, List.flatMap_append,
    hmap]
  simp

theorem headLength_headText {s : Bytes} (h : PlainName s) (hne : s ≠ []) (r : Bytes) :
    headLength (headText s ++ r) = some (headText s).length := by
  obtain ⟨c, t, rfl⟩ := List.exists_cons_of_ne_nil hne
  have ht : ∀ b ∈ t, (decide (b ≠ 93)) = true := by
    intro b hb
    have : b ≠ 93 := by rintro rfl; exact h.noClose (List.mem_cons_of_mem _ hb)
    simpa using this
  show IniText.headLength (10 :: 91 :: c :: (t ++ [93] ++ r)) = _
  rw [IniText.headLength, if_pos (by simp), List.append_assoc, List.singleton_append,
    takeWhile_append_stop ht (by simp)]
  congr 1
  show 4 + t.length = ((10 : UInt8) :: 91 :: c :: t ++ [93]).length
  simp
  omega

/-- The fields and headers of a text. -/
def fileFields : Bytes → IniFile → List Bytes
  | f, [] => [f ++ [10]]
  | f, x :: file => f :: headText x.1 :: fileFields (bodyText x.2) file

theorem splitCapture_fileText (file : IniFile) : ∀ {f : Bytes} {n : ℕ}, PlainFile file → NoHead f →
    file.length ≤ n → splitCapture headLength n (f ++ 10 :: fileText file) = fileFields f file := by
  induction file with
  | nil =>
    intro f n _ hf _
    have hend : findMatch headLength (f ++ [10]) = none := by
      refine findMatch_eq_none fun y hy hne => ?_
      have h := hf.append (g := [10]) (fun hi => absurd hi.length_le (by simp)) (by simp)
      have := (h.of_suffix hy).headLength hne (s := []) (by simp)
      rwa [List.append_nil] at this
    show splitCapture headLength n (f ++ [10]) = [f ++ [10]]
    cases n with
    | zero => rfl
    | succ n => rw [splitCapture, hend]
  | cons x file ih =>
    intro f n h hf hn
    obtain ⟨⟨⟨hname, hne⟩, hpairs⟩, h⟩ := List.forall_mem_cons.mp h
    obtain ⟨k, rfl⟩ : ∃ k, n = k + 1 := ⟨n - 1, by simp at hn; omega⟩
    have hmatch := findMatch_append (f := f)
      (fun y hy hy' => (hf.of_suffix hy).headLength hy' (by simp [headText])) (by simp [headText])
      (headLength_headText hname hne (bodyText x.2 ++ 10 :: fileText file))
    rw [List.take_left, List.drop_left] at hmatch
    rw [fileText_cons, splitCapture, hmatch]
    simp only [ih h (bodyText_noHead hpairs) (by simpa using hn), fileFields]

/-! ### Sections -/

/-- Newlines at the end make no fields. -/
theorem splitLines_rdropWhile (s : Bytes) : splitLines (s.rdropWhile (· == 10)) = splitLines s := by
  induction s using List.reverseRecOn with
  | nil => rfl
  | append_singleton s b ih =>
    by_cases hb : b = 10
    · subst hb
      rw [List.rdropWhile_concat_pos _ _ _ rfl, ih]
      unfold splitLines
      rw [lineFields_append s [], lineFields, List.rdropWhile_concat_pos _ _ _ (by simp)]
    · rw [List.rdropWhile_concat_neg _ _ _ (by simpa using hb)]

theorem stripEnds_append (f : Bytes) : stripEnds (f ++ [10]) = stripEnds f := by
  unfold stripEnds
  rw [List.dropWhile_append]
  split_ifs with h
  · rw [List.isEmpty_iff.mp h]
    rfl
  · exact List.rdropWhile_concat_pos _ _ _ rfl

theorem blockOf_append (f : Bytes) : blockOf (f ++ [10]) = blockOf f := by
  rw [blockOf, stripEnds_append, blockOf]

theorem blockOf_headText {s : Bytes} (h : PlainName s) (hne : s ≠ []) :
    blockOf (headText s) = some (.head s) := by
  have hstrip : stripEnds (headText s) = 91 :: s ++ [93] := by
    unfold stripEnds headText
    rw [List.cons_append, List.cons_append, List.dropWhile_cons_of_pos rfl,
      List.dropWhile_cons_of_neg (by decide), ← List.cons_append,
      List.rdropWhile_concat_neg _ _ _ (by decide)]
  have hline : splitLines (91 :: s ++ [93]) = [91 :: s ++ [93]] :=
    splitLines_line (by simp) (by simp [h.oneLine])
  have hpos := List.length_pos_iff.mpr hne
  have hhead : isHead (91 :: s ++ [93]) = true := by
    rw [isHead, getLast?_append_cons]
    simp
    omega
  have hname : (91 :: s ++ [93]).filter (fun b => decide (b ≠ 91 ∧ b ≠ 93)) = s := by
    rw [List.filter_append, List.filter_cons_of_neg (by simp), List.filter_cons_of_neg (by simp),
      List.filter_nil, List.append_nil, List.filter_eq_self]
    intro b hb
    have h1 : b ≠ 91 := by rintro rfl; exact h.noOpen hb
    have h2 : b ≠ 93 := by rintro rfl; exact h.noClose hb
    simp [h1, h2]
  unfold blockOf
  rw [hstrip, hline]
  show (if isHead (91 :: s ++ [93]) ∧ ([] : List Bytes) = [] then _ else _) = _
  rw [if_pos ⟨hhead, rfl⟩, hname]

/-- The block of the lines of a section. -/
def bodyBlock (pairs : Pairs) : Option Block :=
  if pairs = [] then none else some (.body (pairs.map pairLine))

theorem blockOf_bodyText {pairs : Pairs} (h : ∀ p ∈ pairs, PlainPair p) :
    blockOf (bodyText pairs) = bodyBlock pairs := by
  have hls : ∀ l ∈ pairs.map pairLine, l ≠ [] ∧ 10 ∉ l := by
    intro l hl
    obtain ⟨p, hp, rfl⟩ := List.mem_map.mp hl
    exact ⟨by simp [pairLine], by simp [pairLine, (h p hp).key_line, (h p hp).val_line]⟩
  have hmap : (pairs.map pairLine).flatMap (· ++ [10]) = pairs.flatMap fun p => pairLine p ++ [10] :=
    List.flatMap_map _ _ _
  cases pairs with
  | nil => rfl
  | cons p pairs =>
    obtain ⟨hp, -⟩ := List.forall_mem_cons.mp h
    obtain ⟨c, t, hk⟩ := List.exists_cons_of_ne_nil hp.key_ne
    have hc : c ≠ 10 := by
      rintro rfl
      have := hp.key_line
      rw [hk] at this
      exact this List.mem_cons_self
    have hstrip : splitLines (stripEnds (bodyText (p :: pairs))) = (p :: pairs).map pairLine := by
      have hdrop : (bodyText (p :: pairs)).dropWhile (· == 10) =
          ((p :: pairs).map pairLine).flatMap (· ++ [10]) := by
        rw [hmap, bodyText, List.dropWhile_cons_of_pos rfl, List.flatMap_cons, pairLine, hk]
        exact List.dropWhile_cons_of_neg (by simpa using hc)
      rw [stripEnds, hdrop, splitLines_rdropWhile, splitLines_flatMap hls]
    have hhead : isHead (pairLine p) = false := by
      have := hp.key_head
      rw [hk] at this
      rw [isHead, pairLine, hk]
      simp at this ⊢
      simp [this]
    unfold blockOf
    rw [hstrip]
    show (if isHead (pairLine p) ∧ _ then _ else _) = _
    rw [if_neg (by simp [hhead])]
    rfl

theorem length_le_fileText (file : IniFile) : file.length ≤ (10 :: fileText file).length := by
  induction file with
  | nil => exact Nat.zero_le _
  | cons x file ih =>
    rw [fileText_cons, List.length_append, List.length_append, List.length_cons]
    have : 1 ≤ (headText x.1).length := by simp [headText]
    omega

/-- **The blocks of a file** are its headers, each with the lines that follow. -/
theorem iniBlocks_fileText {file : IniFile} (h : PlainFile file) :
    iniBlocks (fileText file) = file.flatMap fun x => .head x.1 :: (bodyBlock x.2).toList := by
  have hfields : ∀ {file : IniFile} {f : Bytes}, PlainFile file →
      (fileFields f file).filterMap blockOf =
        (blockOf f).toList ++ file.flatMap fun x => .head x.1 :: (bodyBlock x.2).toList := by
    intro file
    induction file with
    | nil =>
      intro f _
      rw [fileFields, List.flatMap_nil, List.append_nil, List.filterMap_cons, blockOf_append]
      cases blockOf f <;> rfl
    | cons x file ih =>
      intro f h
      obtain ⟨⟨⟨hname, hne⟩, hpairs⟩, h⟩ := List.forall_mem_cons.mp h
      have hcons : ∀ (b : Bytes) (bs : List Bytes),
          (b :: bs).filterMap blockOf = (blockOf b).toList ++ bs.filterMap blockOf := by
        intro b bs
        rw [List.filterMap_cons]
        cases blockOf b <;> rfl
      rw [fileFields, hcons, hcons, blockOf_headText hname hne, ih h, blockOf_bodyText hpairs]
      rfl
  have hlen : file.length ≤ (10 :: fileText file).length := length_le_fileText file
  have hsplit := splitCapture_fileText file (f := []) h (fun hi => absurd hi.length_le (by simp)) hlen
  rw [iniBlocks, readText_fileText h]
  rw [List.nil_append] at hsplit
  rw [hsplit, hfields h]
  rfl

/-! ### Loading -/

theorem splitPair_pairLine {p : Bytes × Bytes} (h : PlainPair p) :
    splitPair (pairLine p) = (some p.1, some p.2) := by
  have hk : ∀ b ∈ p.1, (decide (b ≠ 61)) = true := by
    intro b hb
    have : b ≠ 61 := by rintro rfl; exact h.key_noEq hb
    simpa using this
  have hkey : p.1.rdropWhile isBlank = p.1 := by
    rw [List.rdropWhile_eq_self_iff]
    intro hne hb
    rw [h.key_trimmed.last _ (List.getLast?_eq_some_getLast hne)] at hb
    cases hb
  have hval : p.2.dropWhile isBlank = p.2 := by
    have := h.val_trimmed.first
    cases hp : p.2 with
    | nil => rfl
    | cons b v =>
      rw [hp] at this
      exact List.dropWhile_cons_of_neg (by simp [this b rfl])
  unfold splitPair pairLine
  rw [if_neg (by simp), dropWhile_append_stop hk (by simp), takeWhile_append_stop hk (by simp), hkey]
  show (some p.1, some (p.2.dropWhile isBlank)) = _
  rw [hval]

/-- Lines with both a key and a value. -/
def lined (pairs : Pairs) : List (Option Bytes × Option Bytes) :=
  pairs.map fun p => (some p.1, some p.2)

theorem foldl_loadBlock {file : IniFile} (h : PlainFile file) : ∀ st : Bytes × Conf,
    ((file.flatMap fun x => .head x.1 :: (bodyBlock x.2).toList).foldl loadBlock st).2 =
      ⟨st.2.order ++ file.map Prod.fst, fun s => ((iniData file s).map lined).or (st.2.data s)⟩ := by
  induction file with
  | nil =>
    intro st
    show st.2 = Conf.mk _ _
    rw [List.map_nil, List.append_nil]
    rfl
  | cons x file ih =>
    intro st
    obtain ⟨⟨-, hpairs⟩, h⟩ := List.forall_mem_cons.mp h
    have hlines : (x.2.map pairLine).map splitPair = lined x.2 := by
      rw [List.map_map]
      exact List.map_congr_left fun p hp => splitPair_pairLine (hpairs p hp)
    -- the state after the header and the lines of the section
    have hstep : (bodyBlock x.2).toList.foldl loadBlock (loadBlock st (.head x.1)) =
        (x.1, ⟨st.2.order ++ [x.1],
          fun s => (if x.1 = s ∧ x.2 ≠ [] then some (lined x.2) else none).or (st.2.data s)⟩) := by
      unfold bodyBlock
      split_ifs with hnil
      · rw [Option.toList_none, List.foldl_nil, loadBlock, hnil]
        simp
      · show (x.1, Conf.mk (st.2.order ++ [x.1]) (Function.update st.2.data x.1
          (some ((x.2.map pairLine).map splitPair)))) = _
        rw [hlines]
        congr 2
        funext s
        by_cases hs : x.1 = s
        · subst hs
          rw [Function.update_self, if_pos ⟨rfl, hnil⟩]
          rfl
        · rw [Function.update_of_ne (Ne.symm hs), if_neg fun e => hs e.1]
          rfl
    rw [List.flatMap_cons, List.foldl_append, List.foldl_cons, hstep, ih h]
    show Conf.mk _ _ = Conf.mk _ _
    rw [List.append_assoc, List.map_cons, List.singleton_append]
    congr 1
    funext s
    rw [iniData]
    cases iniData file s with
    | some ps => rfl
    | none =>
      show ((if x.1 = s ∧ x.2 ≠ [] then some (lined x.2) else none).or (st.2.data s)) =
        (Option.map lined (if x.1 = s ∧ x.2 ≠ [] then some x.2 else none)).or (st.2.data s)
      split_ifs <;> rfl

/-- The structure that an `Ini` stands for. -/
def Conf.ofIni (conf : Ini) : Conf := ⟨conf.order, fun s => (conf.data s).map lined⟩

/-- **What `iniLoad` reads in a file**, as far as the list of its sections says. -/
theorem iniLoad_fileText {file : IniFile} (h : PlainFile file) :
    iniLoad (fileText file) = Conf.ofIni (LinboxRescue.iniLoad file) := by
  unfold iniLoad loadBlocks
  rw [iniBlocks_fileText h, foldl_loadBlock h]
  show Conf.mk _ _ = Conf.mk _ _
  congr 1
  funext s
  exact Option.or_none

/-! ### Saving -/

theorem fileText_eq (file : IniFile) : fileText file = file.flatMap fun x =>
    91 :: x.1 ++ [93, 10] ++ x.2.flatMap (fun p => pairLine p ++ [10]) ++ [10] := by
  unfold fileText fileLines
  rw [List.flatMap_assoc]
  refine List.flatMap_congr fun x _ => ?_
  rw [List.flatMap_append, List.flatMap_cons, List.flatMap_map]
  simp

/-- A value that is not empty is written as its lines. -/
theorem pairText_some {k v : Bytes} (h : v ≠ [] → splitLines v ≠ []) :
    pairText (some k, some v) = (savedPairs [(k, v)]).flatMap fun p => pairLine p ++ [10] := by
  have hsaved : savedPairs [(k, v)] = (splitLines v).map (Prod.mk k) := List.append_nil _
  rw [hsaved, List.flatMap_map]
  show (if v = [] then _ else if splitLines v = [] then _ else _) = _
  by_cases hv : v = []
  · subst hv
    rw [if_pos rfl]
    rfl
  · rw [if_neg hv, if_neg (h hv)]
    exact List.flatMap_congr fun l _ => by rw [pairLine, Option.getD_some]

theorem flatMap_pairText {pairs : Pairs} (h : ∀ p ∈ pairs, p.2 ≠ [] → splitLines p.2 ≠ []) :
    (lined pairs).flatMap pairText = (savedPairs pairs).flatMap fun p => pairLine p ++ [10] := by
  induction pairs with
  | nil => rfl
  | cons p pairs ih =>
    obtain ⟨hp, h⟩ := List.forall_mem_cons.mp h
    have hcons : savedPairs (p :: pairs) = savedPairs [p] ++ savedPairs pairs := by
      rw [savedPairs, savedPairs, savedPairs, List.flatMap_cons, List.flatMap_cons, List.flatMap_nil,
        List.append_nil]
    rw [hcons, List.flatMap_append, ← ih h, ← pairText_some hp]
    rfl

/-- **What `iniSave` writes**, unless a value consists of newlines. -/
theorem iniSave_ofIni {conf : Ini} (h : ∀ s ∈ conf.order, ∀ p ∈ (conf.data s).getD [],
    p.2 ≠ [] → splitLines p.2 ≠ []) :
    iniSave (Conf.ofIni conf) = fileText (LinboxRescue.iniSave conf) := by
  rw [fileText_eq, LinboxRescue.iniSave, List.flatMap_map]
  refine List.flatMap_congr fun s hs => ?_
  have hdata : ((Conf.ofIni conf).data s).getD [] = lined ((conf.data s).getD []) := by
    show ((conf.data s).map lined).getD [] = _
    cases conf.data s <;> rfl
  rw [sectionText, hdata, flatMap_pairText (h s hs)]

/-! ## The round trip -/

/-- A structure as the scripts build it: distinct names in one line without brackets, and for each of
them lines with a key that can be told from a header and from a value, and with a value of one line. -/
structure Conf.Proper (conf : Conf) : Prop where
  nodup : conf.order.Nodup
  name : ∀ s ∈ conf.order, PlainName s
  lines : ∀ s ∈ conf.order, ∃ pairs : Pairs, pairs ≠ [] ∧ conf.data s = some (lined pairs) ∧
    ∀ p ∈ pairs, PlainPair p ∧ p.2 ≠ []

/-- What is saved is loaded again. -/
def Conf.RoundTrips (conf : Conf) : Prop :=
  (iniLoad (iniSave conf)).order = conf.order ∧
    ∀ s ∈ conf.order, (iniLoad (iniSave conf)).data s = conf.data s

/-- **The round trip**, for sections that have a name. -/
theorem iniLoad_iniSave {conf : Conf} (h : conf.Proper) (hne : [] ∉ conf.order) : conf.RoundTrips := by
  choose! f hf using h.lines
  obtain ⟨ini, hini⟩ : ∃ ini : Ini, ini = ⟨conf.order, fun s => some (f s)⟩ := ⟨_, rfl⟩
  have hsave : iniSave conf = iniSave (Conf.ofIni ini) := by
    rw [hini]
    refine List.flatMap_congr fun s hs => ?_
    rw [sectionText, sectionText, (hf s hs).2.1]
    rfl
  have hsaved : ∀ s ∈ conf.order, savedPairs (f s) = f s := by
    intro s hs
    have hp : ∀ p ∈ f s, (splitLines p.2).map (Prod.mk p.1) = [p] := by
      intro p hp
      have := (hf s hs).2.2 p hp
      rw [splitLines_line this.2 this.1.val_line]
      rfl
    rw [savedPairs, List.flatMap_congr hp]
    exact List.flatMap_singleton' _
  have hfile : LinboxRescue.iniSave ini = conf.order.map fun s => (s, f s) := by
    rw [hini]
    exact List.map_congr_left fun s hs => by rw [Option.getD_some, hsaved s hs]
  have hplain : PlainFile (LinboxRescue.iniSave ini) := by
    rw [hfile]
    intro x hx
    obtain ⟨s, hs, rfl⟩ := List.mem_map.mp hx
    exact ⟨⟨h.name s hs, fun e => hne (e ▸ hs)⟩, fun p hp => ((hf s hs).2.2 p hp).1⟩
  have htext := @iniSave_ofIni ini (by
    rw [hini]
    intro s hs p hp hv
    have := (hf s hs).2.2 p hp
    rw [splitLines_line hv this.1.val_line]
    exact List.cons_ne_nil _ _)
  unfold Conf.RoundTrips
  rw [hsave, htext, iniLoad_fileText hplain, hfile]
  constructor
  · show (conf.order.map fun s => (s, f s)).map Prod.fst = conf.order
    rw [List.map_map]
    exact List.map_id _
  · intro s hs
    show (iniData (conf.order.map fun s => (s, f s)) s).map lined = conf.data s
    rw [iniData_map, if_pos ⟨hs, (hf s hs).1⟩, (hf s hs).2.1]
    rfl

/-- Sections that have the same lines. -/
def sameLines (names : List Bytes) (pairs : Pairs) : Conf := ⟨names, fun _ => some (lined pairs)⟩

theorem sameLines_proper {names : List Bytes} {pairs : Pairs} (hn : names.Nodup)
    (hname : ∀ s ∈ names, PlainName s) (hne : pairs ≠ []) (hp : ∀ p ∈ pairs, PlainPair p ∧ p.2 ≠ []) :
    (sameLines names pairs).Proper :=
  ⟨hn, hname, fun _ _ => ⟨pairs, hne, rfl, hp⟩⟩

/-- A key that is there twice, and values with the marks of a key and of a header. -/
def itemPairs : Pairs :=
  [(ascii "item", ascii "timeout=10"), (ascii "item", ascii "[color]"), (ascii "image", ascii "Base-1")]

theorem itemPairs_plain : ∀ p ∈ itemPairs, PlainPair p ∧ p.2 ≠ [] := by
  intro p hp
  rcases List.mem_cons.mp hp with rfl | hp
  · exact ⟨⟨by decide, by decide, by decide, by decide, ⟨by decide, by decide⟩, by decide,
      ⟨by decide, by decide⟩⟩, by decide⟩
  · rcases List.mem_pair.mp hp with rfl | rfl <;>
      exact ⟨⟨by decide, by decide, by decide, by decide, ⟨by decide, by decide⟩, by decide,
        ⟨by decide, by decide⟩⟩, by decide⟩

theorem iniLoad_iniSave_menus : (sameLines [ascii "menu1", ascii "menu2"] itemPairs).RoundTrips := by
  refine iniLoad_iniSave (sameLines_proper (by decide) (fun s hs => ?_) (by decide) itemPairs_plain)
    (by decide)
  rcases List.mem_pair.mp hs with rfl | rfl <;> exact ⟨by decide, by decide, by decide⟩

/-- The header `[]` is read as a line. -/
theorem not_roundTrips : ¬ ∀ conf : Conf, conf.Proper → conf.RoundTrips := by
  intro h
  have hproper : (sameLines [[]] itemPairs).Proper := by
    refine sameLines_proper (by decide) (fun s hs => ?_) (by decide) itemPairs_plain
    rw [List.mem_singleton.mp hs]
    exact ⟨by decide, by decide, by decide⟩
  exact absurd (h _ hproper).1 (by decide)

end IniText

end LinboxRescue
