import LinboxRescue.Admin.IniText
import LinboxRescue.Lib.Interleave

/-!
# The list of sections and their data

`iniLoad` keeps the names of the headers in a list and the lines under them in a hash, and the list of
sections and `iniHasSection` are about one of the two each.

1. `agrees_iniLoad`: after `iniLoad` they agree exactly when the headers of the text have different
   names and each is directly followed by lines.
2. `Conf.Agrees.step`: the operations on sections keep that.
3. `ini_sound`: so it holds in every run in which the texts that are loaded are of this kind.
-/

namespace LinboxRescue

namespace IniText

/-! ## Operations -/

def iniHasSection (conf : Conf) (s : Bytes) : Bool := (conf.data s).isSome

def iniGetSections (conf : Conf) : List Bytes := conf.order

def iniDeleteSection (conf : Conf) (s : Bytes) : Conf :=
  if iniHasSection conf s then
    ⟨conf.order.filter (· ≠ s), Function.update conf.data s none⟩
  else conf

def iniAddSection (conf : Conf) (s : Bytes) : Conf :=
  if iniHasSection conf s then conf
  else ⟨conf.order ++ [s], Function.update conf.data s (some [])⟩

/-- The first value of the key is replaced. -/
def setPair (key val : Bytes) : List (Option Bytes × Option Bytes) → List (Option Bytes × Option Bytes)
  | [] => [(some (lc key), some val)]
  | (k, v) :: pairs =>
    if lc (k.getD []) = lc key then (k, some val) :: pairs else (k, v) :: setPair key val pairs

def iniSetVal (conf : Conf) (s key val : Bytes) : Conf :=
  match conf.data s with
  | none => conf
  | some pairs => { conf with data := Function.update conf.data s (some (setPair key val pairs)) }

inductive Op
  | add (s : Bytes)
  | delete (s : Bytes)
  | set (s key val : Bytes)
  /-- `iniSave`, and then `iniLoad` of the file. -/
  | reload

def Conf.step (conf : Conf) : Op → Conf
  | .add s => iniAddSection conf s
  | .delete s => iniDeleteSection conf s
  | .set s key val => iniSetVal conf s key val
  | .reload => iniLoad (iniSave conf)

def Conf.run (conf : Conf) (ops : List Op) : Conf := ops.foldl Conf.step conf

/-! ## Headers and lines -/

/-- The names in the headers. -/
def heads : List Block → List Bytes
  | [] => []
  | .head s :: bs => s :: heads bs
  | .body _ :: bs => heads bs

/-- The sections that lines belong to, when `s` is the section of the first ones. -/
def owners (s : Bytes) : List Block → List Bytes
  | [] => []
  | .head s' :: bs => owners s' bs
  | .body _ :: bs => s :: owners s bs

def startsWithLines : List Block → Bool
  | .body _ :: _ => true
  | _ => false

/-- A header is directly followed by lines. For `[-]` they may stand in front of the first header. -/
def headFilled (bs : List Block) : List Block → Bool
  | .head s :: rest => startsWithLines rest || (s == noSection && startsWithLines bs)
  | _ => true

/-- The headers of a text have different names, and all of them have lines. -/
def WellHeaded (bs : List Block) : Prop :=
  (heads bs).Nodup ∧ ∀ t ∈ bs.tails, headFilled bs t = true

instance : DecidablePred WellHeaded := fun bs =>
  inferInstanceAs (Decidable ((heads bs).Nodup ∧ ∀ t ∈ bs.tails, headFilled bs t = true))

theorem heads_append (as bs : List Block) : heads (as ++ bs) = heads as ++ heads bs := by
  induction as with
  | nil => rfl
  | cons b as ih => cases b <;> simp [heads, ih]

/-- A section has lines if they follow its header. -/
theorem mem_owners {n : Bytes} {bs : List Block} : ∀ {s : Bytes}, n ∈ owners s bs ↔
    (n = s ∧ startsWithLines bs = true) ∨
      ∃ rest, .head n :: rest <:+ bs ∧ startsWithLines rest = true := by
  induction bs with
  | nil =>
    intro s
    simp [owners, startsWithLines]
  | cons b bs ih =>
    intro s
    cases b with
    | head m =>
      rw [owners, ih]
      constructor
      · rintro (⟨rfl, h⟩ | ⟨rest, hs, h⟩)
        · exact .inr ⟨bs, List.suffix_rfl, h⟩
        · exact .inr ⟨rest, hs.trans (List.suffix_cons _ _), h⟩
      · rintro (⟨-, h⟩ | ⟨rest, hs, h⟩)
        · cases h
        · rcases List.suffix_cons_iff.mp hs with he | hs
          · cases he
            exact .inl ⟨rfl, h⟩
          · exact .inr ⟨rest, hs, h⟩
    | body lines =>
      rw [owners, List.mem_cons, ih]
      constructor
      · rintro (rfl | ⟨rfl, -⟩ | ⟨rest, hs, h⟩)
        · exact .inl ⟨rfl, rfl⟩
        · exact .inl ⟨rfl, rfl⟩
        · exact .inr ⟨rest, hs.trans (List.suffix_cons _ _), h⟩
      · rintro (⟨rfl, -⟩ | ⟨rest, hs, h⟩)
        · exact .inl rfl
        · rcases List.suffix_cons_iff.mp hs with he | hs
          · cases he
          · exact .inr (.inr ⟨rest, hs, h⟩)

theorem mem_heads {n : Bytes} {bs : List Block} : n ∈ heads bs ↔ ∃ rest, .head n :: rest <:+ bs := by
  induction bs with
  | nil => simp [heads]
  | cons b bs ih =>
    cases b with
    | head m =>
      rw [heads, List.mem_cons, ih]
      constructor
      · rintro (rfl | ⟨rest, hs⟩)
        · exact ⟨bs, List.suffix_rfl⟩
        · exact ⟨rest, hs.trans (List.suffix_cons _ _)⟩
      · rintro ⟨rest, hs⟩
        rcases List.suffix_cons_iff.mp hs with he | hs
        · cases he
          exact .inl rfl
        · exact .inr ⟨rest, hs⟩
    | body lines =>
      rw [heads, ih]
      constructor
      · rintro ⟨rest, hs⟩
        exact ⟨rest, hs.trans (List.suffix_cons _ _)⟩
      · rintro ⟨rest, hs⟩
        rcases List.suffix_cons_iff.mp hs with he | hs
        · cases he
        · exact ⟨rest, hs⟩

/-- Of two headers with one name, one is the other. -/
theorem rest_unique {n : Bytes} {bs as cs : List Block} (h : (heads bs).Nodup)
    (ha : .head n :: as <:+ bs) (hc : .head n :: cs <:+ bs) : as = cs := by
  -- a header in the rest of the other one would be a second one
  have hlong : ∀ {as cs : List Block}, .head n :: as <:+ bs → .head n :: cs <:+ as → False := by
    intro as cs ha hc
    have hmem : n ∈ heads as := mem_heads.mpr ⟨cs, hc⟩
    obtain ⟨pre, rfl⟩ := ha
    rw [heads_append, heads] at h
    exact (List.nodup_cons.mp (List.nodup_append.mp h).2.1).1 hmem
  rcases List.suffix_or_suffix_of_suffix ha hc with hs | hs
  · rcases List.suffix_cons_iff.mp hs with he | hs
    · exact (List.cons.inj he).2
    · exact (hlong hc hs).elim
  · rcases List.suffix_cons_iff.mp hs with he | hs
    · exact (List.cons.inj he).2.symm
    · exact (hlong ha hs).elim

/-! ## The invariant -/

/-- The list has the names of the sections that have data, once each. Lines in front of the first header
are not listed. -/
structure Conf.Agrees (conf : Conf) : Prop where
  nodup : conf.order.Nodup
  data : ∀ s ∈ conf.order, iniHasSection conf s = true
  listed : ∀ s, s ≠ noSection → iniHasSection conf s = true → s ∈ conf.order

theorem foldl_loadBlock_spec (bs : List Block) : ∀ {st : Bytes × Conf},
    (bs.foldl loadBlock st).2.order = st.2.order ++ heads bs ∧
      ∀ s, iniHasSection (bs.foldl loadBlock st).2 s = true ↔
        s ∈ owners st.1 bs ∨ iniHasSection st.2 s = true := by
  induction bs with
  | nil =>
    intro st
    exact ⟨(List.append_nil _).symm, fun s => by simp [owners]⟩
  | cons b bs ih =>
    intro st
    rw [List.foldl_cons]
    cases b with
    | head n =>
      obtain ⟨h1, h2⟩ := @ih (loadBlock st (.head n))
      refine ⟨?_, h2⟩
      rw [h1, heads]
      exact List.append_assoc _ [n] _
    | body lines =>
      obtain ⟨h1, h2⟩ := @ih (loadBlock st (.body lines))
      refine ⟨h1, fun s => ?_⟩
      have hnew : iniHasSection (loadBlock st (.body lines)).2 s = true ↔
          s = st.1 ∨ iniHasSection st.2 s = true := by
        show (Function.update st.2.data st.1 _ s).isSome = true ↔ _
        by_cases hs : s = st.1
        · subst hs
          rw [Function.update_self]
          simp
        · rw [Function.update_of_ne hs]
          simp [hs, iniHasSection]
      rw [h2, hnew, owners, List.mem_cons]
      constructor
      · rintro (h | rfl | h)
        · exact .inl (.inr h)
        · exact .inl (.inl rfl)
        · exact .inr h
      · rintro ((rfl | h) | h)
        · exact .inr (.inl rfl)
        · exact .inl h
        · exact .inr (.inr h)

/-- **After `iniLoad`** the list and the data agree if the headers do. -/
theorem agrees_iniLoad {text : Bytes} : (iniLoad text).Agrees ↔ WellHeaded (iniBlocks text) := by
  obtain ⟨bs, hbs⟩ : ∃ bs, bs = iniBlocks text := ⟨_, rfl⟩
  obtain ⟨horder, hdata⟩ := @foldl_loadBlock_spec bs (noSection, ⟨[], fun _ => none⟩)
  have horder' : (iniLoad text).order = heads bs := by
    rw [iniLoad, loadBlocks, ← hbs, horder]
    rfl
  have hdata' : ∀ s, iniHasSection (iniLoad text) s = true ↔ s ∈ owners noSection bs := by
    intro s
    rw [iniLoad, loadBlocks, ← hbs, hdata]
    simp [iniHasSection]
  rw [← hbs]
  constructor
  · intro h
    have hnodup := h.nodup
    rw [horder'] at hnodup
    refine ⟨hnodup, fun t ht => ?_⟩
    unfold headFilled
    split
    · rename_i s rest
      have hs : .head s :: rest <:+ bs := (List.mem_tails _ _).mp ht
      have hown := (hdata' s).mp (h.data s (by rw [horder']; exact mem_heads.mpr ⟨rest, hs⟩))
      rcases mem_owners.mp hown with ⟨rfl, hb⟩ | ⟨rest', hs', hr⟩
      · rw [hb]
        simp
      · rw [rest_unique hnodup hs hs', hr]
        rfl
    · rfl
  · rintro ⟨hnodup, hfilled⟩
    refine ⟨by rw [horder']; exact hnodup, fun s hs => ?_, fun s hs hd => ?_⟩
    · rw [horder'] at hs
      obtain ⟨rest, hrest⟩ := mem_heads.mp hs
      have h := hfilled _ ((List.mem_tails _ _).mpr hrest)
      rw [headFilled, Bool.or_eq_true, Bool.and_eq_true, beq_iff_eq] at h
      rw [hdata', mem_owners]
      rcases h with h | h
      · exact .inr ⟨rest, hrest, h⟩
      · exact .inl h
    · rcases mem_owners.mp ((hdata' s).mp hd) with ⟨he, -⟩ | ⟨rest, hrest, -⟩
      · exact absurd he hs
      · rw [horder']
        exact mem_heads.mpr ⟨rest, hrest⟩

section Steps

variable {conf : Conf}

theorem iniAddSection_of_not {s : Bytes} (h : iniHasSection conf s = false) :
    iniAddSection conf s = ⟨conf.order ++ [s], Function.update conf.data s (some [])⟩ := by
  rw [iniAddSection, if_neg (by simp [h])]

theorem iniHasSection_update (s t : Bytes) (pairs : Option (List (Option Bytes × Option Bytes)))
    (order : List Bytes) : iniHasSection ⟨order, Function.update conf.data s pairs⟩ t =
      if t = s then pairs.isSome else iniHasSection conf t := by
  show (Function.update conf.data s pairs t).isSome = _
  split_ifs with h
  · subst h
    rw [Function.update_self]
  · rw [Function.update_of_ne h, iniHasSection]

theorem Conf.Agrees.add (h : conf.Agrees) (s : Bytes) : (iniAddSection conf s).Agrees := by
  by_cases hs : iniHasSection conf s = true
  · rw [iniAddSection, if_pos hs]
    exact h
  rw [Bool.not_eq_true] at hs
  have hnew : s ∉ conf.order := fun hmem => by
    rw [h.data s hmem] at hs
    cases hs
  rw [iniAddSection_of_not hs]
  refine ⟨?_, fun t ht => ?_, fun t ht hd => ?_⟩
  · exact List.nodup_append.mpr ⟨h.nodup, List.nodup_singleton _, fun a ha b hb => by
      rw [List.mem_singleton.mp hb]
      rintro rfl
      exact hnew ha⟩
  · rw [iniHasSection_update]
    split_ifs with hts
    · rfl
    · rcases List.mem_append.mp ht with ht | ht
      · exact h.data t ht
      · exact absurd (List.mem_singleton.mp ht) hts
  · rw [iniHasSection_update] at hd
    split_ifs at hd with hts
    · exact List.mem_append_right _ (List.mem_singleton.mpr hts)
    · exact List.mem_append_left _ (h.listed t ht hd)

theorem Conf.Agrees.delete (h : conf.Agrees) (s : Bytes) : (iniDeleteSection conf s).Agrees := by
  unfold iniDeleteSection
  split_ifs
  · refine ⟨h.nodup.filter _, fun t ht => ?_, fun t ht hd => ?_⟩
    · obtain ⟨ht, hne⟩ := List.mem_filter.mp ht
      rw [iniHasSection_update, if_neg (by simpa using hne)]
      exact h.data t ht
    · rw [iniHasSection_update] at hd
      split_ifs at hd with hts
      · cases hd
      · exact List.mem_filter.mpr ⟨h.listed t ht hd, by simpa using hts⟩
  · exact h

theorem Conf.Agrees.set (h : conf.Agrees) (s key val : Bytes) : (iniSetVal conf s key val).Agrees := by
  unfold iniSetVal
  split
  · exact h
  · rename_i pairs hp
    have hsame : ∀ t, iniHasSection { conf with
        data := Function.update conf.data s (some (setPair key val pairs)) } t = iniHasSection conf t := by
      intro t
      rw [iniHasSection_update]
      split_ifs with hts
      · rw [hts, iniHasSection, hp]
        rfl
      · rfl
    exact ⟨h.nodup, fun t ht => (hsame t).trans (h.data t ht),
      fun t ht hd => h.listed t ht ((hsame t).symm.trans hd)⟩

/-- A text that is loaded again has headers with different names and with lines. -/
def ReloadsWell (conf : Conf) (op : Op) : Prop := op = .reload → WellHeaded (iniBlocks (iniSave conf))

theorem Conf.Agrees.step (h : conf.Agrees) {op : Op} (hop : ReloadsWell conf op) :
    (conf.step op).Agrees := by
  cases op with
  | add s => exact h.add s
  | delete s => exact h.delete s
  | set s key val => exact h.set s key val
  | reload => exact agrees_iniLoad.mpr (hop rfl)

end Steps

/-! ## The list of sections -/

/-- The list has no duplicates and names the sections that there are. A section of the list that is
deleted is no longer in the saved file, and one that is added is in the list once. -/
structure Conf.Sound (conf : Conf) : Prop where
  nodup : (iniGetSections conf).Nodup
  sections : ∀ s, s ≠ noSection → (s ∈ iniGetSections conf ↔ iniHasSection conf s = true)
  delete : ∀ s ∈ iniGetSections conf, s ∉ iniGetSections (iniDeleteSection conf s) ∧
    iniSave (iniDeleteSection conf s) =
      ((iniGetSections conf).filter (· ≠ s)).flatMap (sectionText conf)
  add : ∀ s, s ≠ noSection ∨ iniHasSection conf s = false →
    (iniGetSections (iniAddSection conf s)).count s = 1

theorem Conf.Agrees.sound {conf : Conf} (h : conf.Agrees) : conf.Sound := by
  refine ⟨h.nodup, fun s hs => ⟨h.data s, h.listed s hs⟩, fun s hs => ?_, fun s hs => ?_⟩
  · have hdel : iniDeleteSection conf s =
        ⟨conf.order.filter (· ≠ s), Function.update conf.data s none⟩ := by
      rw [iniDeleteSection, if_pos (h.data s hs)]
    rw [hdel]
    refine ⟨fun hmem => ?_, List.flatMap_congr fun t ht => ?_⟩
    · exact absurd (List.mem_filter.mp hmem).2 (by simp)
    · have hne : t ≠ s := by simpa using (List.mem_filter.mp ht).2
      show 91 :: t ++ [93, 10] ++ ((Function.update conf.data s none t).getD []).flatMap pairText ++ _ = _
      rw [Function.update_of_ne hne, sectionText]
  · have hagrees := h.add s
    refine List.count_eq_one_of_mem hagrees.nodup ?_
    by_cases hd : iniHasSection conf s = true
    · rw [iniAddSection, if_pos hd]
      exact h.listed s (hs.resolve_right (by simp [hd])) hd
    · rw [Bool.not_eq_true] at hd
      rw [iniAddSection_of_not hd]
      exact List.mem_append_right _ (List.mem_singleton.mpr rfl)

/-- **The list of sections and the data agree** in every run in which the headers of the texts that are
loaded have different names and lines. -/
theorem ini_sound {text : Bytes} {ops : List Op} (htext : WellHeaded (iniBlocks text))
    (hops : Meets Conf.step ReloadsWell (iniLoad text) ops) : ((iniLoad text).run ops).Sound := by
  have hagrees : ((iniLoad text).run ops).Agrees :=
    foldl_of_meets (I := Conf.Agrees) (fun _ _ hop h => h.step hop) (agrees_iniLoad.mpr htext) hops
  exact hagrees.sound

theorem ini_sound_one : ((iniLoad (ascii "[a]\nx=1\n")).run [.add (ascii "b"),
    .set (ascii "b") (ascii "k") (ascii "v"), .reload, .delete (ascii "a")]).Sound := by
  refine ini_sound (by decide +kernel) ⟨fun h => ?_, fun h => ?_, fun _ => ?_, fun h => ?_, trivial⟩
  · cases h
  · cases h
  · decide +kernel
  · cases h

/-- A header without lines. -/
theorem not_sound : ¬ (iniLoad (ascii "[a]\n")).Sound := fun h =>
  absurd ((h.sections (ascii "a") (by decide)).mp (by decide +kernel)) (by decide +kernel)

end IniText

end LinboxRescue
