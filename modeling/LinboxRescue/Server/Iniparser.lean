import LinboxRescue.Lib.CString
import LinboxRescue.Lib.Stdio
import LinboxRescue.Server.Dictionary
import Mathlib.Data.List.DropRight

/-!
# Reading `/etc/lbs.conf` into a dictionary (server/admin/iniparser.c, strlib.c, lrsd.c)

`iniparser_load` puts an entry `section:key` into the dictionary for each line `key = value`, and an
entry without a value for each section. `lrsd` asks for the keys `:basedir`, `:key`, `:license`,
`:hwmac` and `:iface`, those of the lines before the first section.

1. A line is a section, an entry or nothing: `readLine`.
2. The dictionary of a text stands for the last bindings of its lines: `iniparserLoad_spec`.
3. What the keys without a section are bound to only depends on the lines before the first section,
   unless a section is called like such a key: `lrsdConf_eq`.
-/

namespace LinboxRescue

/-! ## The code -/

def strskp (s : Bytes) : Bytes := skipSpace s

/-- The buffer has room for 1024 bytes. -/
def strlwc (s : Bytes) : Bytes := (s.take 1024).map toLower

def strcrop (s : Bytes) : Bytes := s.rdropWhile isSpace

/-- `%[^…]`: the bytes up to one that is excluded, of which there has to be one. -/
def scanUntil (excluded : UInt8 → Bool) (t : Bytes) : Option (Bytes × Bytes) :=
  let w := t.takeWhile fun b => !excluded b
  if w = [] then none else some (w, t.drop w.length)

/-- `"[%[^]]"`. -/
def scanSection (t : Bytes) : Option Bytes := do
  let t ← scanText [91] t
  let (sec, _) ← scanUntil (· == 93) t
  pure sec

/-- `"%[^=] = "`, the start of the formats of an entry. -/
def scanConfKey (t : Bytes) : Option (Bytes × Bytes) := do
  let (key, t) ← scanUntil (· == 61) t
  let t ← scanText [61] (skipSpace t)
  pure (key, skipSpace t)

/-- `"%[^=] = \"%[^\"]\""`, and the same with the other quote. -/
def scanQuoted (quote : UInt8) (t : Bytes) : Option (Bytes × Bytes) := do
  let (key, t) ← scanConfKey t
  let t ← scanText [quote] t
  let (val, _) ← scanUntil (· == quote) t
  pure (key, val)

/-- `"%[^=] = %[^;#]"`. -/
def scanPlain (t : Bytes) : Option (Bytes × Bytes) := do
  let (key, t) ← scanConfKey t
  let (val, _) ← scanUntil (fun b => b == 59 || b == 35) t
  pure (key, val)

inductive ConfLineRead
  | nothing
  | header (sec : Bytes)
  | entry (key val : Bytes)
  deriving DecidableEq, Repr

/-- The three formats of an entry, one after the other. -/
def scanEntry (t : Bytes) : Option (Bytes × Bytes) :=
  ((scanQuoted 34 t).or (scanQuoted 39 t)).or (scanPlain t)

/-- An empty value has its quotes, which no format takes. -/
def readEntry (t : Bytes) : ConfLineRead :=
  match scanEntry t with
  | none => .nothing
  | some (key, val) =>
    .entry (strlwc (strcrop key))
      (if val = ascii "\"\"" ∨ val = ascii "''" then [] else strcrop val)

/-- What `iniparser_load` makes of the bytes that `fgets` has read. -/
def readLine (lin : Bytes) : ConfLineRead :=
  let start := strskp (cstr lin)
  match start with
  | [] => .nothing
  | b :: _ =>
    if b = 59 ∨ b = 35 then .nothing
    else match scanSection start with
      | some sec => .header (strlwc sec)
      | none => readEntry start

def iniparserAddEntry (d : Dictionary) (sec : Bytes) (key val : Option Bytes) : Option Dictionary :=
  match key with
  | some key => dictionarySet d (some (sec ++ ascii ":" ++ key)) val
  | none => dictionarySet d (some sec) val

/-- A turn of the loop, with the section `st.1`. -/
def iniparserTurn (st : Bytes × Dictionary) (lin : Bytes) : Option (Bytes × Dictionary) :=
  match readLine lin with
  | .nothing => some st
  | .header sec => (iniparserAddEntry st.2 sec none none).map fun d => (sec, d)
  | .entry key val => (iniparserAddEntry st.2 st.1 (some key) (some val)).map fun d => (st.1, d)

/-- `iniparser_load` of a file with the text `t`. -/
def iniparserLoad (t : Bytes) : Option Dictionary :=
  ((lines 1024 t).foldlM iniparserTurn ([], dictionaryNew 0)).map Prod.snd

def iniparserGetstring (d : Dictionary) (key : Bytes) (dflt : Option Bytes) : Option (Option Bytes) :=
  dictionaryGet d (strlwc key) dflt

def iniparserGetstr (d : Dictionary) (key : Bytes) : Option (Option Bytes) :=
  iniparserGetstring d key none

/-- What `lrsd` takes from its configuration. -/
structure LrsdConf where
  basedir : Bytes
  licKey : Bytes
  licNumber : Option ℤ
  licMac : Bytes
  licEth : Bytes
  deriving DecidableEq, Repr

/-- How the start of `lrsd` ends: `diep`, or a `NULL` dereferenced. -/
inductive LrsdStart
  | die (message : String)
  | fault
  | conf (c : LrsdConf)
  deriving DecidableEq, Repr

/-- A keyword that has to be there. -/
def lrsdKeyword (get : Bytes → Option (Option Bytes)) (key message : String)
    (next : Bytes → LrsdStart) : LrsdStart :=
  match get (ascii key) with
  | none => .fault
  | some none => .die message
  | some (some str) => next str

/-- The keywords in the order of `main`, each read into a buffer of its own. -/
def lrsdKeywords (get : Bytes → Option (Option Bytes)) : LrsdStart :=
  lrsdKeyword get ":basedir" "Basedir not found in lbs.conf" fun basedir =>
  lrsdKeyword get ":key" "No license key found..." fun key =>
  lrsdKeyword get ":license" "No 'license' keyword found..." fun license =>
  lrsdKeyword get ":hwmac" "No 'hwmac' keyword found..." fun hwmac =>
  lrsdKeyword get ":iface" "No 'iface' keyword found..." fun iface =>
  .conf { basedir := basedir.take 254, licKey := key.take 63
          licNumber := (scanInt license).map Prod.fst
          licMac := hwmac.take 17, licEth := iface.take 5 }

/-- The start of `main`, with the text of `/etc/lbs.conf` if it can be opened. -/
def lrsdConf (file : Option Bytes) : LrsdStart :=
  match file with
  | none => .die "cannot parse file /etc/lbs.conf"
  | some t =>
    match iniparserLoad t with
    | none => .fault
    | some ini => lrsdKeywords (iniparserGetstr ini)

/-! ## What the lines bind -/

/-- The bindings of the lines after a header `sec`. -/
def bindings (sec : Bytes) : List ConfLineRead → List (Bytes × Option Bytes)
  | [] => []
  | .nothing :: ls => bindings sec ls
  | .header sec :: ls => (sec, none) :: bindings sec ls
  | .entry key val :: ls => (sec ++ ascii ":" ++ key, some val) :: bindings sec ls

/-- The last binding of a key. -/
def lastBinding (key : Bytes) (bs : List (Bytes × Option Bytes)) : Option (Option Bytes) :=
  (bs.reverse.find? fun b => b.1 == key).map Prod.snd

/-- The calls of `dictionary_set` for some bindings. -/
def setAll (bs : List (Bytes × Option Bytes)) : List DictOp := bs.map fun b => .set (some b.1) b.2

theorem iniparserTurns_eq (ls : List Bytes) (sec : Bytes) (d : Dictionary) :
    (ls.foldlM iniparserTurn (sec, d)).map Prod.snd
      = (setAll (bindings sec (ls.map readLine))).foldlM DictOp.run d := by
  induction ls generalizing sec d with
  | nil => rfl
  | cons l ls ih =>
    rw [List.foldlM_cons, List.map_cons]
    unfold iniparserTurn
    cases readLine l with
    | nothing => exact ih sec d
    | header s =>
      show ((dictionarySet d (some s) none).map _ >>= _).map _
        = dictionarySet d (some s) none >>= fun d => _
      cases dictionarySet d (some s) none with
      | none => rfl
      | some d => exact ih s d
    | entry key val =>
      show ((dictionarySet d (some (sec ++ ascii ":" ++ key)) (some val)).map _ >>= _).map _
        = dictionarySet d (some (sec ++ ascii ":" ++ key)) (some val) >>= fun d => _
      cases dictionarySet d (some (sec ++ ascii ":" ++ key)) (some val) with
      | none => rfl
      | some d => exact ih sec d

theorem lastBinding_cons (key : Bytes) (b : Bytes × Option Bytes) (bs : List (Bytes × Option Bytes)) :
    lastBinding key (b :: bs) = (lastBinding key bs).or (if b.1 = key then some b.2 else none) := by
  unfold lastBinding
  rw [List.reverse_cons, List.find?_append]
  cases bs.reverse.find? fun b => b.1 == key with
  | some _ => rfl
  | none =>
    rw [Option.none_or, Option.map_none, Option.none_or, List.find?_singleton]
    by_cases hk : b.1 = key <;> simp [hk]

theorem foldl_setAll (bs : List (Bytes × Option Bytes)) (m : Bytes → Option (Option Bytes))
    (key : Bytes) :
    (setAll bs).foldl DictOp.update m key = (lastBinding key bs).or (m key) := by
  induction bs generalizing m with
  | nil => rfl
  | cons b bs ih =>
    show (setAll bs).foldl DictOp.update (Function.update m b.1 (some b.2)) key = _
    rw [ih, lastBinding_cons, Function.update_apply]
    cases lastBinding key bs with
    | some _ => rfl
    | none => by_cases hk : key = b.1 <;> simp [hk, eq_comm]

/-- **What is read of a text is what it binds last**, and every text can be read. A key whose hash
is 0 is not asked for. -/
theorem iniparserLoad_spec (t : Bytes) : ∃ d, iniparserLoad t = some d ∧
    ∀ key dflt, dictionaryHash (strlwc key) ≠ 0 → iniparserGetstring d key dflt
      = some ((lastBinding (strlwc key) (bindings [] ((lines 1024 t).map readLine))).getD dflt) := by
  obtain ⟨d, hd, -, -, -, hget⟩ := dictionary_run 0
    (setAll (bindings [] ((lines 1024 t).map readLine)))
  refine ⟨d, (iniparserTurns_eq _ [] _).trans hd, fun key dflt hkey => ?_⟩
  rw [iniparserGetstring, (hget _ dflt).2 fun e => hkey e.1, dictMap, foldl_setAll, Option.or_none]

/-! ## The keys without a section -/

def ConfLineRead.isHeader : ConfLineRead → Bool
  | .header _ => true
  | _ => false

/-- The value of an entry for a name. -/
def ConfLineRead.valueOf (name : Bytes) : ConfLineRead → Option Bytes
  | .entry key val => if key = name then some val else none
  | _ => none

/-- The values of a name before the first section. -/
def preambleValues (name : Bytes) (ls : List ConfLineRead) : List Bytes :=
  (ls.takeWhile fun l => !l.isHeader).filterMap (·.valueOf name)

/-- What `lrsd` gets for a name: the last value before the first section. A section with the name of
the key hides it. -/
def confValue (name : Bytes) (ls : List ConfLineRead) : Option Bytes :=
  if ls.any (· == .header (58 :: name)) then none else (preambleValues name ls).getLast?

theorem preambleValues_entry (name key val : Bytes) (ls : List ConfLineRead) :
    preambleValues name (.entry key val :: ls)
      = if key = name then val :: preambleValues name ls else preambleValues name ls := by
  unfold preambleValues
  split_ifs with hk
  · exact List.filterMap_cons_some (if_pos hk)
  · exact List.filterMap_cons_none (if_neg hk)

theorem colon_append (t : Bytes) : ascii ":" ++ t = 58 :: t := rfl

/-- A section has a name. -/
def HeadersNamed (ls : List ConfLineRead) : Prop := ∀ sec, .header sec ∈ ls → sec ≠ []

theorem HeadersNamed.tail {l : ConfLineRead} {ls : List ConfLineRead} (h : HeadersNamed (l :: ls)) :
    HeadersNamed ls :=
  fun sec hsec => h sec (List.mem_cons_of_mem l hsec)

/-- An entry of a section is no key without a section. -/
theorem section_key_ne {sec name : Bytes} (hsec : sec ≠ []) (hname : 58 ∉ name) (key : Bytes) :
    sec ++ ascii ":" ++ key ≠ 58 :: name := by
  obtain ⟨b, sec, rfl⟩ := List.exists_cons_of_ne_nil hsec
  intro e
  have htail : sec ++ ascii ":" ++ key = name := List.tail_eq_of_cons_eq e
  refine hname ?_
  rw [← htail, List.append_assoc, colon_append]
  exact List.mem_append_right _ List.mem_cons_self

section Name

variable {name : Bytes} (hname : 58 ∉ name)
include hname

/-- In a section, only a header binds a key without a section. -/
theorem lastBinding_section {ls : List ConfLineRead} (h : HeadersNamed ls) {sec : Bytes}
    (hsec : sec ≠ []) :
    lastBinding (58 :: name) (bindings sec ls)
      = if ls.any (· == .header (58 :: name)) then some none else none := by
  induction ls generalizing sec with
  | nil => rfl
  | cons l ls ih =>
    rw [List.any_cons]
    cases l with
    | nothing => exact ih h.tail hsec
    | entry key val =>
      rw [bindings, lastBinding_cons, if_neg (section_key_ne hsec hname key), Option.or_none,
        ih h.tail hsec]
      rfl
    | header s =>
      rw [bindings, lastBinding_cons, ih h.tail (h s List.mem_cons_self)]
      by_cases hs : s = 58 :: name
      · subst hs
        rw [if_pos rfl, beq_self_eq_true, Bool.true_or, if_pos rfl]
        split_ifs <;> rfl
      · simp [hs]

theorem lastBinding_preamble {ls : List ConfLineRead} (h : HeadersNamed ls) :
    (lastBinding (58 :: name) (bindings [] ls)).getD none = confValue name ls := by
  have hkey : lastBinding (58 :: name) (bindings [] ls)
      = if ls.any (· == .header (58 :: name)) then some none
        else (preambleValues name ls).getLast?.map some := by
    induction ls with
    | nil => rfl
    | cons l ls ih =>
      rw [List.any_cons]
      cases l with
      | nothing => exact ih h.tail
      | entry key val =>
        have hkey : [] ++ ascii ":" ++ key = 58 :: name ↔ key = name :=
          ⟨List.tail_eq_of_cons_eq, fun e => e ▸ rfl⟩
        rw [bindings, lastBinding_cons, ih h.tail, preambleValues_entry]
        simp only [hkey]
        show _ = if ls.any (· == .header (58 :: name)) then _ else _
        by_cases hk : key = name
        · rw [if_pos hk, if_pos hk, List.getLast?_cons]
          split_ifs
          · rfl
          · cases (preambleValues name ls).getLast? <;> rfl
        · rw [if_neg hk, if_neg hk, Option.or_none]
      | header s =>
        rw [bindings, lastBinding_cons, lastBinding_section hname h.tail (h s List.mem_cons_self)]
        by_cases hs : s = 58 :: name
        · subst hs
          rw [if_pos rfl, beq_self_eq_true, Bool.true_or, if_pos rfl]
          split_ifs <;> rfl
        · simp [hs, preambleValues, ConfLineRead.isHeader]
  rw [hkey]
  unfold confValue
  split_ifs
  · rfl
  · cases (preambleValues name ls).getLast? <;> rfl

end Name

theorem scanUntil_ne_nil {p : UInt8 → Bool} {t w r : Bytes} (h : scanUntil p t = some (w, r)) :
    w ≠ [] := by
  unfold scanUntil at h
  simp only at h
  split_ifs at h with hw
  obtain ⟨rfl, -⟩ := Prod.mk.inj (Option.some.inj h)
  exact hw

theorem strlwc_ne_nil {s : Bytes} (h : s ≠ []) : strlwc s ≠ [] := by
  obtain ⟨b, s, rfl⟩ := List.exists_cons_of_ne_nil h
  exact List.cons_ne_nil _ _

theorem scanSection_ne_nil {t sec : Bytes} (h : scanSection t = some sec) : sec ≠ [] := by
  unfold scanSection at h
  obtain ⟨t', -, h⟩ := Option.bind_eq_some_iff.mp h
  obtain ⟨⟨w, r⟩, hw, h⟩ := Option.bind_eq_some_iff.mp h
  obtain rfl := Option.some.inj h
  exact scanUntil_ne_nil hw

theorem readEntry_ne_header (t sec : Bytes) : readEntry t ≠ .header sec := by
  unfold readEntry
  cases scanEntry t <;> simp

theorem headersNamed_readLine (ls : List Bytes) : HeadersNamed (ls.map readLine) := by
  intro sec hsec
  obtain ⟨l, -, hl⟩ := List.mem_map.mp hsec
  unfold readLine at hl
  simp only at hl
  split at hl
  · cases hl
  · split_ifs at hl
    split at hl
    · rename_i s hs
      cases hl
      exact strlwc_ne_nil (scanSection_ne_nil hs)
    · exact absurd hl (readEntry_ne_header _ _)

theorem lrsdKeywords_congr {get get' : Bytes → Option (Option Bytes)}
    (h : ∀ name ∈ ["basedir", "key", "license", "hwmac", "iface"].map ascii,
      get (58 :: name) = get' (58 :: name)) : lrsdKeywords get = lrsdKeywords get' := by
  have hkeys : [":basedir", ":key", ":license", ":hwmac", ":iface"].map ascii
      = (["basedir", "key", "license", "hwmac", "iface"].map ascii).map (58 :: ·) := rfl
  have hget : ∀ key ∈ [":basedir", ":key", ":license", ":hwmac", ":iface"].map ascii,
      get key = get' key := by
    rw [hkeys, List.forall_mem_map]
    exact h
  simp only [List.map_cons, List.map_nil, List.forall_mem_cons] at hget
  obtain ⟨h1, h2, h3, h4, h5, -⟩ := hget
  unfold lrsdKeywords lrsdKeyword
  rw [h1, h2, h3, h4, h5]

/-- **What `lrsd` starts with**, or why it does not start: each keyword has the last value that the
lines before the first section give it. -/
theorem lrsdConf_eq (t : Bytes) : lrsdConf (some t)
    = lrsdKeywords fun key => some (confValue key.tail ((lines 1024 t).map readLine)) := by
  obtain ⟨d, hd, hget⟩ := iniparserLoad_spec t
  unfold lrsdConf
  simp only [hd]
  refine lrsdKeywords_congr fun name hname => ?_
  have hfacts : ∀ name ∈ ["basedir", "key", "license", "hwmac", "iface"].map ascii, 58 ∉ name ∧
      strlwc (58 :: name) = 58 :: name ∧ dictionaryHash (58 :: name) ≠ 0 := by decide
  obtain ⟨hcolon, hlower, hhash⟩ := hfacts name hname
  rw [iniparserGetstr, hget _ _ (by rwa [hlower]), hlower,
    lastBinding_preamble hcolon (headersNamed_readLine _)]
  rfl

end LinboxRescue
