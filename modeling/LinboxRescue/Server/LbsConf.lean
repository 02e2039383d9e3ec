import LinboxRescue.Lib.Perl
import LinboxRescue.Server.Iniparser

/-!
# The readers of `/etc/lbs.conf`

Each program of the server looks for `basedir` in `/etc/lbs.conf` with code of its own: `lrsd` with
the ini parser (`Server/Iniparser`), most Perl scripts with a loop over the lines (`perlBasedir`),
`set_default`, `update_dir` and `skelsync` with `loadConf`, and the shell scripts with `grep`, `tr`
and `awk` (`shellBasedir`). They take different lines for an entry, and differ in quotes, comments,
sections and the case of letters. `CommonLine` is what they have in common: `basedir_agree`.
-/

namespace LinboxRescue

/-! ## The code -/

/-- `/^basedir[ \t]*=/i` (check_ether, check_add_host, rename_host, update_menu, info). -/
def isBasedirLine (l : Bytes) : Bool :=
  strncaseeq 7 l (ascii "basedir") && ((l.drop 7).dropWhile isBlank).head? == some 61

/-- The second field of `split /[ \t]*=[ \t]*/`. -/
def splitSecond (l : Bytes) : Bytes :=
  let t := ((l.dropWhile (· != 61)).drop 1).dropWhile isBlank
  if t.contains 61 then (t.takeWhile (· != 61)).rdropWhile isBlank else t

/-- `(my $i, $basedir) = split /[ \t]*=[ \t]*/ if /^basedir[ \t]*=/i`, for each line. -/
def perlBasedir (t : Bytes) : Bytes :=
  (perlLines t).foldl (fun basedir l => if isBasedirLine l then splitSecond l else basedir) []

/-- `[A-z0-9_\.]`. -/
def isConfKey (b : UInt8) : Bool := (65 ≤ b.toNat && b.toNat ≤ 122) || isDigit b || b == 46

/-- `([A-z0-9_\.]+)\s*=\s*`, and a pattern for the value, at the start of a text. -/
def confEntryAt (val : Bytes → Option Bytes) (t : Bytes) : Option (Bytes × Bytes) :=
  let key := t.takeWhile isConfKey
  if key = [] then none
  else match (t.drop key.length).dropWhile isPerlSpace with
    | 61 :: r => (val (r.dropWhile isPerlSpace)).map fun v => (key, v)
    | _ => none

/-- The first match. One that starts within a key starts with the key as well. -/
def confEntry (val : Bytes → Option Bytes) : Bytes → Option (Bytes × Bytes)
  | [] => none
  | b :: t => (confEntryAt val (b :: t)).or (confEntry val t)

/-- `(.*)`. -/
def confRest (t : Bytes) : Option Bytes := some (t.takeWhile (· != 10))

/-- `"(.*)"`, and the same with the other quote. -/
def confQuoted (quote : UInt8) (t : Bytes) : Option Bytes := do
  let t ← scanText [quote] t
  let (v, _) ← strrchr (t.takeWhile (· != 10)) quote
  pure v

/-- `s/#.*$//g`. -/
def stripComment (l : Bytes) : Bytes :=
  l.takeWhile (· != 35) ++ (l.dropWhile (· != 35)).dropWhile (· != 10)

/-- The entry of a line, in `loadConf` (set_default, update_dir, skelsync). -/
def confLine (l : Bytes) : Option (Bytes × Bytes) :=
  let l := stripComment l
  ((confEntry (confQuoted 34) l).or (confEntry (confQuoted 39) l)).or (confEntry confRest l)

/-- The value that a line gives a key. -/
def confLineFor (key l : Bytes) : Option Bytes :=
  (confLine l).bind fun e => if e.1 = key then some e.2 else none

/-- `loadConf`: what is in the hash for a key. -/
def loadConf (t key : Bytes) : Option Bytes := ((perlRawLines t).filterMap (confLineFor key)).getLast?

/-- `grep -i '^ *basedir'`. -/
def grepBasedir (l : Bytes) : Bool := strncaseeq 7 (l.dropWhile (· == 32)) (ascii "basedir")

/-- `tr "=" " "`. -/
def trEquals (l : Bytes) : Bytes := l.map fun b => if b = 61 then 32 else b

/-- `$2` of `awk`. -/
def awkSecond (l : Bytes) : Bytes :=
  (((l.dropWhile isBlank).dropWhile fun b => !isBlank b).dropWhile isBlank).takeWhile fun b =>
    !isBlank b

/-- `BASEDIR=$(grep -i '^ *basedir' "$LBSCONF" | tr "=" " " | awk '{print $2;}')`
(create_config, check_add_host_bulk, wake). -/
def shellBasedir (t : Bytes) : Bytes :=
  (((perlLines t).filter grepBasedir).flatMap fun l =>
    awkSecond (trEquals l) ++ [10]).rdropWhile (· == 10)

/-! ## Common lines -/

/-- A line that all programs understand in the same way. -/
inductive CommonLine
  | blank (n : ℕ)
  | comment (text : Bytes)
  | header (sec : Bytes)
  | entry (key before after value : Bytes)

def CommonLine.text : CommonLine → Bytes
  | .blank n => List.replicate n 32
  | .comment s => 35 :: s
  | .header sec => 91 :: sec ++ [93]
  | .entry key before after value => key ++ before ++ 61 :: (after ++ value)

/-- `[A-Za-z0-9_.]`, the bytes of a common key. -/
def isCommonKey (b : UInt8) : Bool := isPerlWord b || b == 46

/-- The bytes that a common value of `basedir` has none of. -/
def isReserved (b : UInt8) : Bool := isSpace b || b == 61 || b == 34 || b == 39 || b == 35 || b == 59

/-- A key and blanks on both sides of the `=`. -/
structure CommonKey (key before after : Bytes) : Prop where
  key_ne : key ≠ []
  key : ∀ b ∈ key, isCommonKey b = true
  before : ∀ b ∈ before, isBlank b = true
  after : ∀ b ∈ after, isBlank b = true

/-- A line that is not about `basedir`. -/
def CommonLine.Other : CommonLine → Prop
  | .blank _ | .comment _ => True
  | .header sec => sec ≠ [] ∧ 93 ∉ sec ∧ 61 ∉ sec ∧ strlwc sec ≠ ascii ":basedir"
  | .entry key before after value =>
    CommonKey key before after ∧ 61 ∉ value ∧ strncaseeq 7 key (ascii "basedir") = false

/-- What fits the buffer of `fgets`, as a line. -/
def CommonLine.FitsBuffer (l : CommonLine) : Prop :=
    (∀ b ∈ l.text, b ≠ 10 ∧ b ≠ 0) ∧ l.text.length < 1023

def CommonLine.isHeader : CommonLine → Bool
  | .header _ => true
  | _ => false

/-- The text of some lines. -/
def commonText (ls : List CommonLine) : Bytes := (ls.map CommonLine.text).flatMap (· ++ [10])

/-- A file of common lines with `basedir` once, before the first section. -/
structure CommonConf (ps qs : List CommonLine) (before after v : Bytes) : Prop where
  pre : ∀ l ∈ ps, l.Other ∧ l.isHeader = false
  post : ∀ l ∈ qs, l.Other
  key : CommonKey (ascii "basedir") before after
  value_ne : v ≠ []
  value : ∀ b ∈ v, isReserved b = false
  fits : ∀ l ∈ ps ++ .entry (ascii "basedir") before after v :: qs, l.FitsBuffer

/-! ## Bytes of a key and of a value -/

/-- What holds of the 256 bytes. -/
@[elab_as_elim]
theorem forall_byte {motive : UInt8 → Prop} (b : UInt8) (h : ∀ n : Fin 256, motive (UInt8.ofNat n)) :
    motive b := by
  have hb := h ⟨b.toNat, b.toNat_lt⟩
  rwa [UInt8.ofNat_toNat] at hb

section Bytewise

variable {b : UInt8}

theorem isCommonKey_facts : isCommonKey b = true → isConfKey b = true ∧ isSpace b = false ∧
    isBlank b = false ∧ b ≠ 61 ∧ b ≠ 35 ∧ b ≠ 59 ∧ b ≠ 91 ∧ b ≠ 10 ∧ b ≠ 32 := by
  refine forall_byte b ?_
  decide +kernel

theorem isBlank_facts : isBlank b = true → isConfKey b = false ∧ isSpace b = true ∧
    isPerlSpace b = true ∧ b ≠ 61 ∧ b ≠ 35 ∧ b ≠ 10 ∧ toLower b ∉ ascii "basedir" := by
  refine forall_byte b ?_
  decide +kernel

theorem isReserved_facts : isReserved b = false → isSpace b = false ∧ isBlank b = false ∧
    isPerlSpace b = false ∧ b ≠ 61 ∧ b ≠ 34 ∧ b ≠ 39 ∧ b ≠ 35 ∧ b ≠ 59 ∧ b ≠ 10 := by
  refine forall_byte b ?_
  decide +kernel

end Bytewise

/-! ## Lines of keys -/

theorem CommonKey.head {key before after : Bytes} (h : CommonKey key before after) :
    ∃ c rest, key = c :: rest ∧ isCommonKey c = true := by
  obtain ⟨c, rest, rfl⟩ := List.exists_cons_of_ne_nil h.key_ne
  exact ⟨c, rest, rfl, h.key c List.mem_cons_self⟩

/-- A byte of a line that starts with `basedir` is a letter of it. -/
theorem toLower_mem_of_strncaseeq {s t : Bytes} {c : UInt8}
    (h : strncaseeq 7 (s ++ c :: t) (ascii "basedir"))
    (hs : s.length < 7) : toLower c ∈ ascii "basedir" := by
  have he : ((s ++ c :: t).take 7).map toLower = ascii "basedir" := eq_of_beq h
  rw [← he]
  refine List.mem_map_of_mem ?_
  rw [List.take_append]
  refine List.mem_append_right _ ?_
  obtain ⟨k, hk⟩ : ∃ k, 7 - s.length = k + 1 := ⟨7 - s.length - 1, by omega⟩
  rw [hk, List.take_succ_cons]
  exact List.mem_cons_self

theorem strncaseeq_append {s : Bytes} (h : 7 ≤ s.length) (t u : Bytes) :
    strncaseeq 7 (s ++ t) u = strncaseeq 7 s u := by
  unfold strncaseeq
  rw [List.take_append_of_le_length h]

/-- No line that is not about `basedir` starts like it. -/
theorem CommonLine.Other.not_basedir {l : CommonLine} (h : l.Other) :
    strncaseeq 7 l.text (ascii "basedir") = false := by
  cases l with
  | blank n =>
    rw [← Bool.not_eq_true]
    intro e
    cases n with
    | zero => cases e
    | succ n => exact absurd (@toLower_mem_of_strncaseeq [] _ _ e (by decide)) (by decide)
  | comment s =>
    rw [← Bool.not_eq_true]
    intro e
    exact absurd (@toLower_mem_of_strncaseeq [] s _ e (by decide)) (by decide)
  | header sec =>
    rw [← Bool.not_eq_true]
    intro e
    exact absurd (@toLower_mem_of_strncaseeq [] (sec ++ [93]) 91 e (by decide)) (by decide)
  | entry key before after value =>
    obtain ⟨hkey, -, hother⟩ := h
    show strncaseeq 7 (key ++ before ++ 61 :: (after ++ value)) _ = false
    by_cases hlen : 7 ≤ key.length
    · rw [List.append_assoc, strncaseeq_append hlen]
      exact hother
    · rw [← Bool.not_eq_true]
      intro e
      -- the byte after the key is a blank or the equals sign
      cases before with
      | nil =>
        rw [List.append_nil] at e
        exact absurd (toLower_mem_of_strncaseeq e (by omega)) (by decide)
      | cons c before =>
        rw [List.append_assoc, List.cons_append] at e
        exact (isBlank_facts (hkey.before c List.mem_cons_self)).2.2.2.2.2.2
          (toLower_mem_of_strncaseeq e (by omega))

/-! ## The Perl loop -/

theorem foldl_last {α β : Type} (p : α → Bool) (f : α → β) {ps qs : List α} {x : α}
    (hqs : ∀ y ∈ qs, p y = false) (hx : p x = true) (z : β) :
    (ps ++ x :: qs).foldl (fun acc y => if p y then f y else acc) z = f x := by
  have hskip : ∀ (ys : List α) (acc : β), (∀ y ∈ ys, p y = false) →
      ys.foldl (fun acc y => if p y then f y else acc) acc = acc := by
    intro ys acc hys
    induction ys with
    | nil => rfl
    | cons y ys ih =>
      rw [List.forall_mem_cons] at hys
      rw [List.foldl_cons, hys.1, if_neg Bool.false_ne_true, ih hys.2]
  rw [List.foldl_append, List.foldl_cons, hx, if_pos rfl, hskip qs _ hqs]

theorem splitSecond_entry {key before after v : Bytes} (h : CommonKey key before after)
    (hv : ∀ b ∈ v, isReserved b = false) :
    splitSecond (key ++ before ++ 61 :: (after ++ v)) = v := by
  have hfirst : ∀ b ∈ key ++ before, (b != 61) = true := by
    intro b hb
    rw [bne_iff_ne]
    rcases List.mem_append.mp hb with hb | hb
    · exact (isCommonKey_facts (h.key b hb)).2.2.2.1
    · exact (isBlank_facts (h.before b hb)).2.2.2.1
  have hhead : ∀ b ∈ v.head?, isBlank b = false := fun b hb =>
    (isReserved_facts (hv b (List.mem_of_mem_head? hb))).2.1
  have hno : v.contains 61 = false := by
    rw [← Bool.not_eq_true, List.contains_iff_mem]
    exact fun hmem => (isReserved_facts (hv 61 hmem)).2.2.2.1 rfl
  unfold splitSecond
  rw [dropWhile_append_stop hfirst (by simp), List.drop_one, List.tail_cons,
    dropWhile_append_stop h.after hhead]
  simp only [hno, Bool.false_eq_true, if_false]

theorem isBasedirLine_entry {before after : Bytes} (h : CommonKey (ascii "basedir") before after)
    (v : Bytes) : isBasedirLine (ascii "basedir" ++ before ++ 61 :: (after ++ v)) = true := by
  unfold isBasedirLine
  have hdrop : (ascii "basedir" ++ before ++ 61 :: (after ++ v)).drop 7
      = before ++ 61 :: (after ++ v) := by
    rw [List.append_assoc]
    exact List.drop_left' rfl
  rw [hdrop, dropWhile_append_stop h.before (by rintro _ ⟨⟩; rfl), List.append_assoc,
    strncaseeq_append (by decide)]
  rfl

/-! ## The shell -/

theorem awkSecond_entry {key before after v : Bytes} (h : CommonKey key before after)
    (hv : ∀ b ∈ v, isReserved b = false) :
    awkSecond (trEquals (key ++ before ++ 61 :: (after ++ v))) = v := by
  have hid : ∀ t : Bytes, (∀ b ∈ t, b ≠ 61) → trEquals t = t := by
    intro t ht
    unfold trEquals
    conv_rhs => rw [← List.map_id t]
    exact List.map_congr_left fun b hb => if_neg (ht b hb)
  have htr : trEquals (key ++ before ++ 61 :: (after ++ v))
      = key ++ ((before ++ 32 :: after) ++ v) := by
    have h1 := hid key fun b hb => (isCommonKey_facts (h.key b hb)).2.2.2.1
    have h2 := hid before fun b hb => (isBlank_facts (h.before b hb)).2.2.2.1
    have h3 := hid after fun b hb => (isBlank_facts (h.after b hb)).2.2.2.1
    have h4 := hid v fun b hb => (isReserved_facts (hv b hb)).2.2.2.1
    unfold trEquals at *
    rw [List.map_append, List.map_append, List.map_cons, List.map_append, h1, h2, h3, h4]
    simp
  have hblanks : ∀ b ∈ before ++ 32 :: after, isBlank b = true := by
    intro b hb
    rcases List.mem_append.mp hb with hb | hb
    · exact h.before b hb
    · rcases List.mem_cons.mp hb with rfl | hb
      · rfl
      · exact h.after b hb
  have hkey : ∀ b ∈ key, (!isBlank b) = true := fun b hb => by
    rw [(isCommonKey_facts (h.key b hb)).2.2.1]
    rfl
  have hvalue : ∀ b ∈ v, (!isBlank b) = true := fun b hb => by
    rw [(isReserved_facts (hv b hb)).2.1]
    rfl
  have hstart : ∀ b ∈ (key ++ ((before ++ 32 :: after) ++ v)).head?, isBlank b = false := by
    obtain ⟨c, rest, rfl, hc⟩ := h.head
    rintro _ ⟨⟩
    exact (isCommonKey_facts hc).2.2.1
  have hmiddle : ∀ b ∈ ((before ++ 32 :: after) ++ v).head?, (!isBlank b) = false := by
    intro b hb
    have hmem : b ∈ before ++ 32 :: after := by
      cases before with
      | nil => cases hb; exact List.mem_cons_self
      | cons c before => cases hb; exact List.mem_cons_self
    rw [hblanks b hmem]
    rfl
  have hend : ∀ b ∈ v.head?, isBlank b = false := fun b hb =>
    (isReserved_facts (hv b (List.mem_of_mem_head? hb))).2.1
  unfold awkSecond
  rw [htr, ← List.nil_append (key ++ _), dropWhile_append_stop (by simp) hstart,
    dropWhile_append_stop hkey hmiddle, dropWhile_append_stop hblanks hend,
    List.takeWhile_eq_self_iff.mpr hvalue]

theorem CommonLine.Other.not_grep {l : CommonLine} (h : l.Other) : grepBasedir l.text = false := by
  unfold grepBasedir
  have hstart : ∀ {c : UInt8} {t : Bytes}, c ≠ 32 → (c :: t).dropWhile (· == 32) = c :: t :=
    fun hc => List.dropWhile_cons_of_neg (by simpa using hc)
  cases l with
  | blank n =>
    have hnil : (List.replicate n (32 : UInt8)).dropWhile (· == 32) = [] := by
      rw [List.dropWhile_eq_nil_iff]
      intro b hb
      rw [List.eq_of_mem_replicate hb]
      rfl
    show strncaseeq 7 ((List.replicate n (32 : UInt8)).dropWhile (· == 32)) _ = false
    rw [hnil]
    rfl
  | comment s =>
    rw [show (CommonLine.comment s).text = 35 :: s from rfl, hstart (by decide)]
    exact h.not_basedir
  | header sec =>
    rw [show (CommonLine.header sec).text = 91 :: (sec ++ [93]) from rfl, hstart (by decide)]
    exact h.not_basedir
  | entry key before after value =>
    have hbasedir := h.not_basedir
    obtain ⟨c, rest, rfl, hc⟩ := h.1.head
    rw [show (CommonLine.entry (c :: rest) before after value).text
        = c :: (rest ++ before ++ 61 :: (after ++ value)) from rfl,
      hstart (isCommonKey_facts hc).2.2.2.2.2.2.2.2]
    exact hbasedir

/-! ## `loadConf` -/

theorem confEntryAt_eq {key before rest : Bytes} (hkey : key ≠ []) (hk : ∀ b ∈ key, isConfKey b = true)
    (hb : ∀ b ∈ before, isConfKey b = false ∧ isPerlSpace b = true) (val : Bytes → Option Bytes) :
    confEntryAt val (key ++ (before ++ 61 :: rest))
      = (val (rest.dropWhile isPerlSpace)).map fun v => (key, v) := by
  have hstop : ∀ b ∈ (before ++ 61 :: rest).head?, isConfKey b = false := by
    cases before with
    | nil => rintro _ ⟨⟩; rfl
    | cons c before => rintro _ ⟨⟩; exact (hb _ List.mem_cons_self).1
  have hblanks : (before ++ 61 :: rest).dropWhile isPerlSpace = 61 :: rest :=
    dropWhile_append_stop (fun b h => (hb b h).2) (by rintro _ ⟨⟩; rfl)
  unfold confEntryAt
  simp only [takeWhile_append_stop hk hstop, if_neg hkey, List.drop_left, hblanks]

/-- Without an equals sign there is no entry. -/
theorem confEntry_eq_none (val : Bytes → Option Bytes) {t : Bytes} (h : 61 ∉ t) :
    confEntry val t = none := by
  induction t with
  | nil => rfl
  | cons b t ih =>
    rw [confEntry, ih fun hmem => h (List.mem_cons_of_mem _ hmem), Option.or_none]
    unfold confEntryAt
    simp only
    split_ifs
    · rfl
    · split
      · rename_i r hr
        have hsub := (List.dropWhile_suffix (l := (b :: t).drop ((b :: t).takeWhile isConfKey).length)
          isPerlSpace).subset
        rw [hr] at hsub
        exact absurd (List.drop_subset _ _ (hsub List.mem_cons_self)) h
      · rfl

/-- With one equals sign, the entry is the one of the key in front of it. -/
theorem confEntry_eq {key before rest : Bytes} (hkey : key ≠ []) (hk : ∀ b ∈ key, isConfKey b = true)
    (hb : ∀ b ∈ before, isConfKey b = false ∧ isPerlSpace b = true) (hrest : 61 ∉ rest)
    (val : Bytes → Option Bytes) :
    confEntry val (key ++ (before ++ 61 :: rest))
      = (val (rest.dropWhile isPerlSpace)).map fun v => (key, v) := by
  have hnone : ∀ w : Bytes, (∀ b ∈ w, isConfKey b = false) → confEntry val (w ++ rest) = none := by
    intro w hw
    induction w with
    | nil => exact confEntry_eq_none val hrest
    | cons b w ih =>
      rw [List.forall_mem_cons] at hw
      have hat : confEntryAt val (b :: (w ++ rest)) = none := by
        unfold confEntryAt
        simp [hw.1]
      rw [List.cons_append, confEntry, hat, ih hw.2]
      rfl
  have hafter : confEntry val (before ++ 61 :: rest) = none := by
    have h := hnone (before ++ [61]) fun b h => by
      rcases List.mem_append.mp h with h | h
      · exact (hb b h).1
      · rw [List.mem_singleton.mp h]
        rfl
    rwa [List.append_assoc] at h
  induction key with
  | nil => exact absurd rfl hkey
  | cons c key ih =>
    have hat := @confEntryAt_eq _ before rest hkey hk hb val
    rw [List.forall_mem_cons] at hk
    rw [List.cons_append, confEntry]
    rw [List.cons_append] at hat
    rw [hat]
    cases hv : val (rest.dropWhile isPerlSpace) with
    | some v => rfl
    | none =>
      rw [Option.map_none, Option.none_or]
      cases key with
      | nil => exact hafter
      | cons c' key => rw [ih (List.cons_ne_nil _ _) hk.2, hv, Option.map_none]

theorem stripComment_append {p : Bytes} (hp : ∀ b ∈ p, b ≠ 35) (r : Bytes) :
    stripComment (p ++ r) = p ++ stripComment r := by
  have hp' : ∀ b ∈ p, (b != 35) = true := fun b hb => bne_iff_ne.mpr (hp b hb)
  unfold stripComment
  rw [List.takeWhile_append_of_pos hp', List.dropWhile_append_of_pos hp', List.append_assoc]

theorem stripComment_subset (t : Bytes) : stripComment t ⊆ t := by
  unfold stripComment
  refine List.append_subset.mpr ⟨(List.takeWhile_prefix _).subset, ?_⟩
  exact fun b hb => (List.dropWhile_suffix _).subset ((List.dropWhile_suffix _).subset hb)

/-- The entry of a line with one equals sign is the one of its key. -/
theorem confLine_eq {key before after rest : Bytes} (h : CommonKey key before after)
    (hrest : 61 ∉ rest) :
    confLine (key ++ before ++ 61 :: rest)
      = (((confQuoted 34 ((stripComment rest).dropWhile isPerlSpace)).or
          (confQuoted 39 ((stripComment rest).dropWhile isPerlSpace))).or
          (confRest ((stripComment rest).dropWhile isPerlSpace))).map fun v => (key, v) := by
  have hno : ∀ b ∈ key ++ before ++ [61], b ≠ 35 := by
    intro b hb
    rcases List.mem_append.mp hb with hb | hb
    · rcases List.mem_append.mp hb with hb | hb
      · exact (isCommonKey_facts (h.key b hb)).2.2.2.2.1
      · exact (isBlank_facts (h.before b hb)).2.2.2.2.1
    · rw [List.mem_singleton.mp hb]
      decide
  have hstrip : stripComment (key ++ before ++ 61 :: rest)
      = key ++ (before ++ 61 :: stripComment rest) := by
    have he := stripComment_append hno rest
    simpa using he
  have hentry := fun val => @confEntry_eq key before (stripComment rest) h.key_ne
    (fun b hb => (isCommonKey_facts (h.key b hb)).1)
    (fun b hb => ⟨(isBlank_facts (h.before b hb)).1, (isBlank_facts (h.before b hb)).2.2.1⟩)
    (fun hmem => hrest (stripComment_subset _ hmem)) val
  unfold confLine
  rw [hstrip]
  simp only [hentry, Option.map_or]

theorem confLine_entry {key before after v : Bytes} (h : CommonKey key before after) (hne : v ≠ [])
    (hv : ∀ b ∈ v, isReserved b = false) :
    confLine (key ++ before ++ 61 :: (after ++ v) ++ [10]) = some (key, v) := by
  have hno : ∀ b ∈ after ++ v ++ [10], b ≠ 61 ∧ b ≠ 35 := by
    intro b hb
    rcases List.mem_append.mp hb with hb | hb
    · rcases List.mem_append.mp hb with hb | hb
      · exact ⟨(isBlank_facts (h.after b hb)).2.2.2.1, (isBlank_facts (h.after b hb)).2.2.2.2.1⟩
      · have hf := isReserved_facts (hv b hb)
        exact ⟨hf.2.2.2.1, hf.2.2.2.2.2.2.1⟩
    · rw [List.mem_singleton.mp hb]
      decide
  have hstrip : stripComment (after ++ v ++ [10]) = after ++ v ++ [10] := by
    have he := stripComment_append (fun b hb => (hno b hb).2) []
    rwa [List.append_nil, show stripComment [] = [] from rfl, List.append_nil] at he
  obtain ⟨c, w, rfl⟩ := List.exists_cons_of_ne_nil hne
  have hc := isReserved_facts (hv c List.mem_cons_self)
  have hskip : (after ++ c :: w ++ [10]).dropWhile isPerlSpace = c :: w ++ [10] := by
    rw [List.append_assoc]
    exact dropWhile_append_stop (fun b hb => (isBlank_facts (h.after b hb)).2.2.1)
      (by rintro _ ⟨⟩; exact hc.2.2.1)
  have hquote : ∀ q, c ≠ q → confQuoted q (c :: w ++ [10]) = none := by
    intro q hq
    have htext : scanText [q] (c :: w ++ [10]) = none := if_neg (by simp [Ne.symm hq])
    unfold confQuoted
    rw [htext]
    rfl
  have hrest : confRest (c :: w ++ [10]) = some (c :: w) := by
    refine congrArg some (takeWhile_append_stop (fun b hb => ?_) (by rintro _ ⟨⟩; rfl))
    exact bne_iff_ne.mpr (isReserved_facts (hv b hb)).2.2.2.2.2.2.2.2
  have hline : key ++ before ++ 61 :: (after ++ c :: w) ++ [10]
      = key ++ before ++ 61 :: (after ++ c :: w ++ [10]) := by simp
  rw [hline, confLine_eq h fun hmem => (hno _ hmem).1 rfl, hstrip, hskip, hquote 34 hc.2.2.2.2.1,
    hquote 39 hc.2.2.2.2.2.1, hrest]
  rfl

/-- A line that is not about `basedir` gives it no value. -/
theorem CommonLine.Other.confLine {l : CommonLine} (h : l.Other) (hfits : l.FitsBuffer)
    {e : Bytes × Bytes}
    (he : confLine (l.text ++ [10]) = some e) : e.1 ≠ ascii "basedir" := by
  have hnone : 61 ∉ stripComment (l.text ++ [10]) → e.1 ≠ ascii "basedir" := by
    intro hno
    unfold LinboxRescue.confLine at he
    simp only [confEntry_eq_none _ hno, Option.or_none] at he
    cases he
  cases l with
  | blank n =>
    refine hnone fun hmem => ?_
    rcases List.mem_append.mp (stripComment_subset _ hmem) with hmem | hmem
    · exact absurd (List.eq_of_mem_replicate hmem) (by decide)
    · exact absurd (List.mem_singleton.mp hmem) (by decide)
  | comment s =>
    refine hnone ?_
    have hs : ∀ b ∈ s, (b != 10) = true := fun b hb =>
      bne_iff_ne.mpr (hfits.1 b (List.mem_cons_of_mem 35 hb)).1
    have hstrip : stripComment ((CommonLine.comment s).text ++ [10]) = [10] := by
      show ([] : Bytes) ++ ((35 :: s) ++ [10]).dropWhile (· != 10) = [10]
      rw [List.nil_append]
      exact dropWhile_append_stop (List.forall_mem_cons.mpr ⟨rfl, hs⟩) (by rintro _ ⟨⟩; rfl)
    rw [hstrip]
    decide
  | header sec =>
    refine hnone fun hmem => ?_
    have hsec := h.2.2.1
    have hmem' : (61 : UInt8) ∈ 91 :: sec ++ [93] ++ [10] := stripComment_subset _ hmem
    simp [hsec] at hmem'
  | entry key before after value =>
    obtain ⟨hkey, hvalue, hother⟩ := h
    have hrest : 61 ∉ after ++ value ++ [10] := by
      intro hmem
      rcases List.mem_append.mp hmem with hmem | hmem
      · rcases List.mem_append.mp hmem with hmem | hmem
        · exact (isBlank_facts (hkey.after _ hmem)).2.2.2.1 rfl
        · exact hvalue hmem
      · exact absurd (List.mem_singleton.mp hmem) (by decide)
    have hline : (CommonLine.entry key before after value).text ++ [10]
        = key ++ before ++ 61 :: (after ++ value ++ [10]) := by
      simp [CommonLine.text]
    rw [hline, confLine_eq hkey hrest] at he
    obtain ⟨v, -, rfl⟩ := Option.map_eq_some_iff.mp he
    rintro rfl
    exact absurd hother (by decide)

/-! ## `lrsd` -/

/-- What a line is to `lrsd`, apart from `basedir`. -/
structure Neutral (l : ConfLineRead) (header : Bool) : Prop where
  value : l.valueOf (ascii "basedir") = none
  header : l.isHeader = header
  no_section : l ≠ .header (ascii ":basedir")

theorem scanConfKey_eq {key before after : Bytes} (h : CommonKey key before after) (rest : Bytes) :
    scanConfKey (key ++ before ++ 61 :: rest) = some (key ++ before, skipSpace rest) := by
  have hno : ∀ b ∈ key ++ before, (!(b == 61)) = true := by
    intro b hb
    have hne : b ≠ 61 := by
      rcases List.mem_append.mp hb with hb | hb
      · exact (isCommonKey_facts (h.key b hb)).2.2.2.1
      · exact (isBlank_facts (h.before b hb)).2.2.2.1
    simpa using hne
  have hne : key ++ before ≠ [] := List.append_ne_nil_of_left_ne_nil h.key_ne _
  have huntil : scanUntil (· == 61) (key ++ before ++ 61 :: rest)
      = some (key ++ before, 61 :: rest) := by
    unfold scanUntil
    rw [takeWhile_append_stop hno (by rintro _ ⟨⟩; rfl)]
    simp only [if_neg hne, List.drop_left]
  unfold scanConfKey
  rw [huntil]
  show ((scanText [61] (skipSpace (61 :: rest))).bind fun t => some (key ++ before, skipSpace t)) = _
  rw [skipSpace_of_head (by rfl)]
  rfl

/-- All formats of an entry read the same key. -/
theorem scanEntry_key {key before after rest : Bytes} (h : CommonKey key before after)
    {e : Bytes × Bytes} (he : scanEntry (key ++ before ++ 61 :: rest) = some e) :
    e.1 = key ++ before := by
  have hquoted : ∀ quote, scanQuoted quote (key ++ before ++ 61 :: rest) = some e →
      e.1 = key ++ before := by
    intro quote hq
    unfold scanQuoted at hq
    obtain ⟨k, hk, hq⟩ := Option.bind_eq_some_iff.mp hq
    obtain ⟨t, -, hq⟩ := Option.bind_eq_some_iff.mp hq
    obtain ⟨u, -, hq⟩ := Option.bind_eq_some_iff.mp hq
    rw [scanConfKey_eq h] at hk
    obtain rfl := Option.some.inj hk
    exact congrArg Prod.fst (Option.some.inj hq).symm
  unfold scanEntry at he
  rcases Option.or_eq_some_iff.mp he with he | ⟨-, he⟩
  · rcases Option.or_eq_some_iff.mp he with he | ⟨-, he⟩
    · exact hquoted 34 he
    · exact hquoted 39 he
  · unfold scanPlain at he
    obtain ⟨k, hk, he⟩ := Option.bind_eq_some_iff.mp he
    obtain ⟨u, -, he⟩ := Option.bind_eq_some_iff.mp he
    rw [scanConfKey_eq h] at hk
    obtain rfl := Option.some.inj hk
    exact congrArg Prod.fst (Option.some.inj he).symm

theorem strcrop_append {s w : Bytes} (hs : ∀ b ∈ s.getLast?, isSpace b = false)
    (hw : ∀ b ∈ w, isSpace b = true) : strcrop (s ++ w) = s := by
  unfold strcrop
  rw [List.rdropWhile, List.reverse_append,
    dropWhile_append_stop (fun b hb => hw b (List.mem_reverse.mp hb)) (by rwa [List.head?_reverse]),
    List.reverse_reverse]

theorem CommonKey.strcrop {key before after : Bytes} (h : CommonKey key before after) :
    strcrop (key ++ before) = key :=
  strcrop_append (fun b hb => (isCommonKey_facts (h.key b (List.mem_of_getLast? hb))).2.1)
    fun b hb => (isBlank_facts (h.before b hb)).2.1

/-- A line that starts with a key is an entry, if anything. -/
theorem readLine_key {t : Bytes} (hzero : ∀ b ∈ t, b ≠ 0)
    (hhead : ∃ c u, t = c :: u ∧ isCommonKey c = true) :
    readLine t = readEntry t := by
  obtain ⟨c, u, rfl, hc⟩ := hhead
  have hf := isCommonKey_facts hc
  have hsection : scanSection (c :: u) = none := by
    have htext : scanText [91] (c :: u) = none := if_neg (by simp [Ne.symm hf.2.2.2.2.2.2.1])
    unfold scanSection
    rw [htext]
    rfl
  unfold readLine strskp
  rw [cstr_eq_self hzero, skipSpace_of_head hf.2.1]
  simp only [hsection]
  rw [if_neg (not_or.mpr ⟨hf.2.2.2.2.2.1, hf.2.2.2.2.1⟩)]

/-- The value of the line for `basedir`. -/
theorem readLine_value {key before after v : Bytes} (h : CommonKey key before after) (hne : v ≠ [])
    (hv : ∀ b ∈ v, isReserved b = false)
    (hzero : ∀ b ∈ key ++ before ++ 61 :: (after ++ v) ++ [10], b ≠ 0) :
    readLine (key ++ before ++ 61 :: (after ++ v) ++ [10]) = .entry (strlwc key) v := by
  have hhead : ∃ c u, key ++ before ++ 61 :: (after ++ v) ++ [10] = c :: u ∧ isCommonKey c = true := by
    obtain ⟨c, u, rfl, hc⟩ := h.head
    exact ⟨c, _, rfl, hc⟩
  rw [readLine_key hzero hhead]
  obtain ⟨c, w, rfl⟩ := List.exists_cons_of_ne_nil hne
  have hc := isReserved_facts (hv c List.mem_cons_self)
  have hline : key ++ before ++ 61 :: (after ++ c :: w) ++ [10]
      = key ++ before ++ 61 :: (after ++ (c :: w ++ [10])) := by simp
  have hskip : skipSpace (after ++ (c :: w ++ [10])) = c :: w ++ [10] :=
    dropWhile_append_stop (fun b hb => (isBlank_facts (h.after b hb)).2.1) (by rintro _ ⟨⟩; exact hc.1)
  have hquoted : ∀ q, c ≠ q →
      scanQuoted q (key ++ before ++ 61 :: (after ++ (c :: w ++ [10]))) = none := by
    intro q hq
    have htext : scanText [q] (c :: w ++ [10]) = none := if_neg (by simp [Ne.symm hq])
    unfold scanQuoted
    rw [scanConfKey_eq h, hskip]
    show Option.bind (scanText [q] (c :: w ++ [10])) _ = none
    rw [htext]
    rfl
  have hplain : scanPlain (key ++ before ++ 61 :: (after ++ (c :: w ++ [10])))
      = some (key ++ before, c :: w ++ [10]) := by
    have hall : ∀ b ∈ c :: w ++ [10], (!(b == 59 || b == 35)) = true := by
      intro b hb
      rcases List.mem_append.mp hb with hb | hb
      · have hf := isReserved_facts (hv b hb)
        simp [hf.2.2.2.2.2.2.1, hf.2.2.2.2.2.2.2.1]
      · rw [List.mem_singleton.mp hb]
        decide
    have huntil : scanUntil (fun b => b == 59 || b == 35) (c :: w ++ [10])
        = some (c :: w ++ [10], []) := by
      unfold scanUntil
      rw [List.takeWhile_eq_self_iff.mpr hall]
      simp
    unfold scanPlain
    rw [scanConfKey_eq h, hskip]
    show Option.bind (scanUntil (fun b => b == 59 || b == 35) (c :: w ++ [10])) _ = _
    rw [huntil]
    rfl
  have hquotes : ¬(c :: w ++ [10] = ascii "\"\"" ∨ c :: w ++ [10] = ascii "''") := by
    rintro (e | e)
    · exact hc.2.2.2.2.1 (List.cons.inj e).1
    · exact hc.2.2.2.2.2.1 (List.cons.inj e).1
  have hcrop : strcrop (c :: w ++ [10]) = c :: w :=
    strcrop_append (fun b hb => (isReserved_facts (hv b (List.mem_of_getLast? hb))).1)
      (by simp [isSpace])
  unfold readEntry scanEntry
  rw [hline, hquoted 34 hc.2.2.2.2.1, hquoted 39 hc.2.2.2.2.2.1, hplain]
  show ConfLineRead.entry _ (if _ then _ else _) = _
  rw [if_neg hquotes, h.strcrop, hcrop]

theorem CommonLine.Other.readLine {l : CommonLine} (h : l.Other) (hfits : l.FitsBuffer) :
    Neutral (readLine (l.text ++ [10])) l.isHeader := by
  have hzero : ∀ b ∈ l.text ++ [10], b ≠ 0 := by
    intro b hb
    rcases List.mem_append.mp hb with hb | hb
    · exact (hfits.1 b hb).2
    · rw [List.mem_singleton.mp hb]
      decide
  cases l with
  | blank n =>
    have hnil : skipSpace (List.replicate n 32 ++ [10]) = [] := by
      unfold skipSpace
      rw [List.dropWhile_eq_nil_iff]
      intro b hb
      rcases List.mem_append.mp hb with hb | hb
      · rw [List.eq_of_mem_replicate hb]
        rfl
      · rw [List.mem_singleton.mp hb]
        rfl
    have hread : LinboxRescue.readLine ((CommonLine.blank n).text ++ [10]) = .nothing := by
      unfold LinboxRescue.readLine strskp
      rw [cstr_eq_self hzero, show (CommonLine.blank n).text = List.replicate n 32 from rfl, hnil]
    rw [hread]
    exact ⟨rfl, rfl, by simp⟩
  | comment s =>
    have hread : LinboxRescue.readLine ((CommonLine.comment s).text ++ [10]) = .nothing := by
      unfold LinboxRescue.readLine strskp
      rw [cstr_eq_self hzero]
      rfl
    rw [hread]
    exact ⟨rfl, rfl, by simp⟩
  | header sec =>
    obtain ⟨hne, hclose, -, hname⟩ := h
    have huntil : scanUntil (· == 93) (sec ++ [93] ++ [10]) = some (sec, [93] ++ [10]) := by
      unfold scanUntil
      rw [List.append_assoc, takeWhile_append_stop (fun b hb => ?_) (by rintro _ ⟨⟩; rfl)]
      · simp only [if_neg hne, List.drop_left]
      · have : b ≠ 93 := fun e => hclose (e ▸ hb)
        simpa using this
    have hsection : scanSection (91 :: (sec ++ [93] ++ [10])) = some sec := by
      unfold scanSection
      show Option.bind (scanUntil (· == 93) (sec ++ [93] ++ [10])) _ = _
      rw [huntil]
      rfl
    have hread : LinboxRescue.readLine ((CommonLine.header sec).text ++ [10]) =
        .header (strlwc sec) := by
      have hline : (CommonLine.header sec).text ++ [10] = 91 :: (sec ++ [93] ++ [10]) := by
        simp [CommonLine.text]
      unfold LinboxRescue.readLine strskp
      rw [cstr_eq_self hzero, hline, skipSpace_of_head (by rfl)]
      simp only [hsection]
      exact if_neg (by decide)
    rw [hread]
    exact ⟨rfl, rfl, fun e => hname (ConfLineRead.header.inj e)⟩
  | entry key before after value =>
    obtain ⟨hkey, -, hother⟩ := h
    have hline : (CommonLine.entry key before after value).text ++ [10]
        = key ++ before ++ 61 :: (after ++ value ++ [10]) := by
      simp [CommonLine.text]
    have hhead : ∃ c u, (CommonLine.entry key before after value).text ++ [10] = c :: u ∧
        isCommonKey c = true := by
      obtain ⟨c, u, rfl, hc⟩ := hkey.head
      exact ⟨c, _, rfl, hc⟩
    have hlower : strlwc key ≠ ascii "basedir" := by
      intro e
      have hlen : key.length = 7 := by
        have hmin := congrArg List.length e
        rw [strlwc, List.length_map, List.length_take] at hmin
        change min 1024 key.length = 7 at hmin
        omega
      rw [strlwc, List.take_of_length_le (by omega)] at e
      unfold strncaseeq at hother
      rw [List.take_of_length_le (by omega), e] at hother
      exact absurd hother (by decide)
    rw [readLine_key hzero hhead, hline]
    unfold readEntry
    cases he : scanEntry (key ++ before ++ 61 :: (after ++ value ++ [10])) with
    | none => exact ⟨rfl, rfl, by simp⟩
    | some e =>
      have hk := scanEntry_key hkey he
      refine ⟨?_, rfl, by simp⟩
      show (if strlwc (LinboxRescue.strcrop e.1) = ascii "basedir" then _ else none) = none
      rw [hk, hkey.strcrop, if_neg hlower]

/-- `basedir` once, before the first section. -/
theorem confValue_once {ps qs : List ConfLineRead} (hps : ∀ l ∈ ps, Neutral l false)
    (hqs : ∀ l ∈ qs, ∃ header, Neutral l header) (v : Bytes) :
    confValue (ascii "basedir") (ps ++ .entry (ascii "basedir") v :: qs) = some v := by
  have hno : (ps ++ .entry (ascii "basedir") v :: qs).any (· == .header (ascii ":basedir")) =
      false := by
    rw [List.any_eq_false]
    intro l hl
    rw [beq_iff_eq]
    rcases List.mem_append.mp hl with hl | hl
    · exact (hps l hl).no_section
    · rcases List.mem_cons.mp hl with rfl | hl
      · simp
      · obtain ⟨header, h⟩ := hqs l hl
        exact h.no_section
  have hnone : ∀ ls : List ConfLineRead, (∀ l ∈ ls, l.valueOf (ascii "basedir") = none) →
      ls.filterMap (·.valueOf (ascii "basedir")) = [] := fun ls h => List.filterMap_eq_nil_iff.mpr h
  have hvalues : preambleValues (ascii "basedir") (ps ++ .entry (ascii "basedir") v :: qs) = [v] := by
    have hpre : ∀ l ∈ ps, (!l.isHeader) = true := fun l hl => by
      rw [(hps l hl).header]
      rfl
    have hpost : ∀ l ∈ qs.takeWhile fun l => !l.isHeader, l.valueOf (ascii "basedir") = none := by
      intro l hl
      obtain ⟨header, h⟩ := hqs l ((List.takeWhile_prefix _).subset hl)
      exact h.value
    have hvalue : (ConfLineRead.entry (ascii "basedir") v).valueOf (ascii "basedir") = some v := by
      simp [ConfLineRead.valueOf]
    unfold preambleValues
    rw [List.takeWhile_append_of_pos hpre, List.takeWhile_cons_of_pos (by rfl), List.filterMap_append,
      hnone ps fun l hl => (hps l hl).value, List.nil_append, List.filterMap_cons_some hvalue,
      hnone _ hpost]
  unfold confValue
  rw [show (58 :: ascii "basedir") = ascii ":basedir" from rfl, hno, if_neg Bool.false_ne_true, hvalues]
  rfl

section Conf

variable {ps qs : List CommonLine} {before after v : Bytes} (h : CommonConf ps qs before after v)
include h

theorem CommonConf.no_newline {l : CommonLine}
    (hl : l ∈ ps ++ .entry (ascii "basedir") before after v :: qs) : ∀ b ∈ l.text, b ≠ 10 :=
  fun b hb => ((h.fits l hl).1 b hb).1

theorem CommonConf.perlLines :
    perlLines (commonText (ps ++ .entry (ascii "basedir") before after v :: qs))
    = (ps ++ .entry (ascii "basedir") before after v :: qs).map CommonLine.text := by
  refine perlLines_flatMap ?_
  rw [List.forall_mem_map]
  exact fun l hl => h.no_newline hl

theorem CommonConf.perlBasedir :
    perlBasedir (commonText (ps ++ .entry (ascii "basedir") before after v :: qs)) = v := by
  have hother : ∀ l : CommonLine, l.Other → isBasedirLine l.text = false := fun l hl => by
    unfold isBasedirLine
    rw [hl.not_basedir, Bool.false_and]
  unfold LinboxRescue.perlBasedir
  rw [h.perlLines, List.map_append, List.map_cons]
  refine (foldl_last isBasedirLine splitSecond ?_ ?_ []).trans ?_
  · rw [List.forall_mem_map]
    exact fun l hl => hother l (h.post l hl)
  · exact isBasedirLine_entry h.key v
  · exact splitSecond_entry h.key h.value

theorem CommonConf.shellBasedir :
    shellBasedir (commonText (ps ++ .entry (ascii "basedir") before after v :: qs)) = v := by
  have hnone : ∀ ls : List CommonLine, (∀ l ∈ ls, l.Other) →
      (ls.map CommonLine.text).filter grepBasedir = [] := by
    intro ls hls
    rw [List.filter_eq_nil_iff, List.forall_mem_map]
    exact fun l hl => Bool.not_eq_true _ ▸ (hls l hl).not_grep
  have hgrep : grepBasedir (CommonLine.entry (ascii "basedir") before after v).text = true := by
    have hline := isBasedirLine_entry h.key v
    unfold isBasedirLine at hline
    rw [Bool.and_eq_true] at hline
    exact hline.1
  have hlast : ∀ b ∈ v.getLast?, (b == 10) = false := fun b hb =>
    beq_eq_false_iff_ne.mpr (isReserved_facts (h.value b (List.mem_of_getLast? hb))).2.2.2.2.2.2.2.2
  unfold LinboxRescue.shellBasedir
  rw [h.perlLines, List.map_append, List.map_cons, List.filter_append,
    hnone ps fun l hl => (h.pre l hl).1, List.nil_append, List.filter_cons_of_pos hgrep,
    hnone qs h.post, List.flatMap_cons, List.flatMap_nil, List.append_nil,
    show (CommonLine.entry (ascii "basedir") before after v).text
      = ascii "basedir" ++ before ++ 61 :: (after ++ v) from rfl, awkSecond_entry h.key h.value,
    List.rdropWhile, List.reverse_append]
  show (List.dropWhile _ ([10] ++ v.reverse)).reverse = v
  rw [dropWhile_append_stop (by simp) (by rwa [List.head?_reverse]), List.reverse_reverse]

theorem CommonConf.loadConf :
    loadConf (commonText (ps ++ .entry (ascii "basedir") before after v :: qs)) (ascii "basedir")
      = some v := by
  have hlines : perlRawLines (commonText (ps ++ .entry (ascii "basedir") before after v :: qs))
      = (ps ++ .entry (ascii "basedir") before after v :: qs).map (·.text ++ [10]) := by
    unfold commonText
    rw [perlRawLines_flatMap, List.map_map]
    · rfl
    · rw [List.forall_mem_map]
      exact fun l hl hmem => h.no_newline hl 10 hmem rfl
  have hmem : ∀ l, l ∈ ps ∨ l ∈ qs → l ∈ ps ++ .entry (ascii "basedir") before after v :: qs := by
    rintro l (hl | hl)
    · exact List.mem_append_left _ hl
    · exact List.mem_append_right _ (List.mem_cons_of_mem _ hl)
  have hnone : ∀ l, l.Other ∧ (l ∈ ps ∨ l ∈ qs) →
      confLineFor (ascii "basedir") (l.text ++ [10]) = none := by
    rintro l ⟨hother, hl⟩
    unfold confLineFor
    cases he : confLine (l.text ++ [10]) with
    | none => rfl
    | some e => exact if_neg (hother.confLine (h.fits l (hmem l hl)) he)
  have hvalue : confLineFor (ascii "basedir")
      ((CommonLine.entry (ascii "basedir") before after v).text ++ [10]) = some v := by
    have hline : confLine ((CommonLine.entry (ascii "basedir") before after v).text ++ [10])
        = some (ascii "basedir", v) := confLine_entry h.key h.value_ne h.value
    simp [confLineFor, hline]
  have hnil : ∀ ls : List CommonLine, (∀ l ∈ ls, l.Other ∧ (l ∈ ps ∨ l ∈ qs)) →
      (ls.map (·.text ++ [10])).filterMap (confLineFor (ascii "basedir")) = [] := by
    intro ls hls
    rw [List.filterMap_eq_nil_iff, List.forall_mem_map]
    exact fun l hl => hnone l (hls l hl)
  unfold LinboxRescue.loadConf
  rw [hlines, List.map_append, List.map_cons, List.filterMap_append, List.filterMap_cons_some hvalue,
    hnil ps fun l hl => ⟨(h.pre l hl).1, .inl hl⟩, hnil qs fun l hl => ⟨h.post l hl, .inr hl⟩]
  rfl

theorem CommonConf.lines : lines 1024 (commonText (ps ++ .entry (ascii "basedir") before after v :: qs))
    = (ps ++ .entry (ascii "basedir") before after v :: qs).map (·.text ++ [10]) := by
  have hflat : commonText (ps ++ .entry (ascii "basedir") before after v :: qs)
      = ((ps ++ .entry (ascii "basedir") before after v :: qs).map (·.text ++ [10])).flatten := by
    unfold commonText
    rw [List.flatMap_def, List.map_map]
    rfl
  rw [hflat]
  refine lines_flatten ?_
  rw [List.forall_mem_map]
  exact fun l hl => isLine_append (h.no_newline hl) (by have := (h.fits l hl).2; omega)

/-- `lrsd` finds the value before the first section. -/
theorem CommonConf.confValue : confValue (ascii "basedir")
    ((LinboxRescue.lines 1024 (commonText (ps ++ .entry (ascii "basedir") before after v :: qs))).map
      readLine) = some v := by
  have hfits := fun l hl => h.fits l hl
  rw [List.forall_mem_append, List.forall_mem_cons] at hfits
  obtain ⟨hps, hbase, hqs⟩ := hfits
  have hzero : ∀ b ∈ ascii "basedir" ++ before ++ 61 :: (after ++ v) ++ [10], b ≠ 0 := by
    intro b hb
    rcases List.mem_append.mp hb with hb | hb
    · exact (hbase.1 b hb).2
    · rw [List.mem_singleton.mp hb]
      decide
  have hline : readLine ((CommonLine.entry (ascii "basedir") before after v).text ++ [10])
      = .entry (ascii "basedir") v := readLine_value h.key h.value_ne h.value hzero
  rw [h.lines, List.map_map, List.map_append, List.map_cons, Function.comp_apply, hline]
  refine confValue_once ?_ ?_ v
  · rw [List.forall_mem_map]
    intro l hl
    have hneutral := (h.pre l hl).1.readLine (hps l hl)
    rwa [(h.pre l hl).2] at hneutral
  · rw [List.forall_mem_map]
    exact fun l hl => ⟨_, (h.post l hl).readLine (hqs l hl)⟩

/-- **All programs find the same `basedir`** in a file of common lines: `lrsd`, the Perl scripts of both kinds
and the shell scripts. -/
theorem basedir_agree :
    ∃ ini, iniparserLoad (commonText (ps ++ .entry (ascii "basedir") before after v :: qs)) = some ini ∧
      iniparserGetstr ini (ascii ":basedir") = some (some v) ∧
      perlBasedir (commonText (ps ++ .entry (ascii "basedir") before after v :: qs)) = v ∧
      loadConf (commonText (ps ++ .entry (ascii "basedir") before after v :: qs)) (ascii "basedir")
        = some v ∧
      shellBasedir (commonText (ps ++ .entry (ascii "basedir") before after v :: qs)) = v := by
  obtain ⟨ini, hini, hget⟩ :=
    iniparserLoad_spec (commonText (ps ++ .entry (ascii "basedir") before after v :: qs))
  refine ⟨ini, hini, ?_, h.perlBasedir, h.loadConf, h.shellBasedir⟩
  have hlower : strlwc (ascii ":basedir") = 58 :: ascii "basedir" := by decide
  rw [iniparserGetstr, hget _ _ (by decide), hlower,
    lastBinding_preamble (by decide) (headersNamed_readLine _), h.confValue]

end Conf

/-! ## The file of the package -/

def setting (key value : String) : CommonLine := .entry (ascii key) [] [] (ascii value)

def remark (text : String) : CommonLine := .comment (ascii text)

/-- The lines of `lbs.conf` before `basedir`. -/
def packagePre : List CommonLine :=
  [remark " LRS/LBS configuration file", .blank 0, setting "iface" "eth0",
   setting "hwmac" "00:00:00:00:00:00", setting "license" "99999", setting "key" "0000000000000000",
   .blank 0, remark " main password", setting "adminpass" "linbox", .blank 0, remark " misc options",
   setting "autoselect" "no", setting "skelsync" "no", .blank 0, remark " paths"]

/-- The lines after it. -/
def packagePost : List CommonLine :=
  [setting "addscript" "/tftpboot/revoboot/bin/create_config", .blank 0, .header (ascii "dhcp"),
   setting "nostaticip" "1", .blank 0,
   remark "the following is only useful is static mode (nostaticip=0)", remark "network=172.20.0",
   remark "minip=250", remark "maxip=254", remark "tftpserver=172.20.0.123",
   remark "filename=/tftpboot/revoboot/bin/revoboot.pxe", remark "optionhostname=1",
   remark "dhcpdrestart=0"]

instance (key before after : Bytes) : Decidable (CommonKey key before after) :=
  decidable_of_iff (key ≠ [] ∧ (∀ b ∈ key, isCommonKey b = true) ∧ (∀ b ∈ before, isBlank b = true) ∧
    ∀ b ∈ after, isBlank b = true) ⟨fun ⟨h1, h2, h3, h4⟩ => ⟨h1, h2, h3, h4⟩,
      fun h => ⟨h.key_ne, h.key, h.before, h.after⟩⟩

instance : (l : CommonLine) → Decidable l.Other
  | .blank _ | .comment _ => .isTrue trivial
  | .header sec => inferInstanceAs (Decidable (_ ∧ _ ∧ _ ∧ strlwc sec ≠ _))
  | .entry key before after _ => inferInstanceAs (Decidable (CommonKey key before after ∧ _ ∧ _))

instance (l : CommonLine) : Decidable l.FitsBuffer := inferInstanceAs (Decidable (_ ∧ _ < _))

theorem commonConf_package :
    CommonConf packagePre packagePost [32] [32] (ascii "/tftpboot/revoboot") where
  pre := by decide +kernel
  post := by decide +kernel
  key := by decide
  value_ne := by decide
  value := by decide
  fits := by decide +kernel

/-- With the file of the package, all programs find `/tftpboot/revoboot`. -/
theorem basedir_agree_package : ∃ t ini,
    t = commonText (packagePre ++ .entry (ascii "basedir") [32] [32] (ascii "/tftpboot/revoboot") ::
      packagePost) ∧
    iniparserLoad t = some ini ∧
    iniparserGetstr ini (ascii ":basedir") = some (some (ascii "/tftpboot/revoboot")) ∧
    perlBasedir t = ascii "/tftpboot/revoboot" ∧
    loadConf t (ascii "basedir") = some (ascii "/tftpboot/revoboot") ∧
    shellBasedir t = ascii "/tftpboot/revoboot" := by
  obtain ⟨ini, h⟩ := basedir_agree commonConf_package
  exact ⟨_, ini, rfl, h⟩

end LinboxRescue
