import LinboxRescue.Lib.Paths
import LinboxRescue.Lsc.Path
import Mathlib.Data.List.DropRight

/-!
# Paths that are made clean (`src/webmin/lsc/include/clean_path.inc.php`)

1. `clean_path` goes over the components with an array, and cuts runs of dots out of the text.
2. `leftover` goes over them from the end and counts the `..` that wait for a component
   (`foldl_dirStep`).
3. `cleanPath_twice_iff`: a clean path stays as it is if there are only names between its slashes.
4. `settled_iff`: what this says about the path it was made of.
-/

namespace LinboxRescue

/-! ## `clean_path` -/

/-- What is false for `!`. -/
def phpEmpty (s : Bytes) : Bool := s == [] || s == [48]

/-- The bytes that `trim` removes. -/
def isPhpBlank (b : UInt8) : Bool :=
  b == 32 || b == 9 || b == 10 || b == 13 || b == 0 || b == 11

def phpTrim (s : Bytes) : Bytes := (s.dropWhile isPhpBlank).rdropWhile isPhpBlank

/-- The body of the loop over the components. -/
def dirStep (result : List Bytes) (dir : Bytes) : List Bytes :=
  if dir = dirUp then
    match result.getLast? with
    | none => result ++ [dirUp]
    | some last =>
      if last = dirUp then result ++ [dirUp]
      -- `array_pop` has taken the entry, also when there is nothing in it
      else if phpEmpty last then result.dropLast ++ [dirUp]
      else result.dropLast
  else if phpEmpty dir = false ∧ dir ≠ dirHere then result ++ [phpTrim dir]
  else result

/-- `[\.]`: between brackets a backslash is one of the bytes. -/
def isDot (b : UInt8) : Bool := b == 46 || b == 92

/-- How many dots were read. -/
inductive Dots
  | none
  | one (b : UInt8)
  | more
  deriving DecidableEq, Repr

/-- The text without the matches of `[\.][\.]+/?`. -/
def cutDots : Dots → Bytes → Bytes
  | .none, [] => []
  | .none, c :: s => if isDot c then cutDots (.one c) s else c :: cutDots .none s
  | .one b, [] => [b]
  | .one b, c :: s => if isDot c then cutDots .more s else b :: c :: cutDots .none s
  | .more, [] => []
  | .more, c :: s =>
    if isDot c then cutDots .more s else if c = 47 then cutDots .none s else c :: cutDots .none s

/-- `ereg_replace("[\.][\.]+/?", "", …)`. A NUL ends the text. -/
def eregCut (s : Bytes) : Bytes := cutDots .none (cstr s)

def cleanPath (path : Bytes) : Bytes :=
  let pathA := path.splitOn 47
  let result := if phpEmpty (pathA.headD []) then [[]] else []
  let result := pathA.foldl dirStep result
  let result := if phpEmpty (pathA.getLastD []) then result ++ [[]] else result
  eregCut (implode result)

/-- The example of the source, where a slash is expected at the start. -/
example : cleanPath (ascii "..//./../dir4//./dir5/dir6/..//dir7/") = ascii "dir4/dir5/dir7/" := by
  decide

/-! ## Cutting -/

/-- No two dots stand side by side. -/
def NoDots (s : Bytes) : Prop := s.IsChain fun a b => ¬(isDot a = true ∧ isDot b = true)

theorem NoDots.part {s t : Bytes} (ht : NoDots t) (hs : s <:+: t) : NoDots s :=
  List.IsChain.infix ht hs

theorem NoDots.cons {c : UInt8} {s : Bytes} (hc : isDot c = false) (h : NoDots s) : NoDots (c :: s) :=
  List.isChain_cons.mpr ⟨fun _ _ hcb => by simp [hc] at hcb, h⟩

/-- Nothing is left to cut. -/
theorem noDots_cutDots (s : Bytes) : ∀ d, NoDots (cutDots d s) := by
  induction s with
  | nil =>
    intro d
    cases d with
    | none => exact List.isChain_nil
    | one b => exact List.isChain_singleton b
    | more => exact List.isChain_nil
  | cons c s ih =>
    intro d
    cases d with
    | none =>
      rw [cutDots]
      split_ifs with hc
      · exact ih _
      · exact (ih _).cons (Bool.eq_false_iff.mpr hc)
    | one b =>
      rw [cutDots]
      split_ifs with hc
      · exact ih _
      · have hc := Bool.eq_false_iff.mpr hc
        refine List.isChain_cons.mpr ⟨fun x hx hbx => ?_, (ih _).cons hc⟩
        obtain rfl := Option.some.inj hx
        rw [hc] at hbx
        exact Bool.false_ne_true hbx.2
    | more =>
      rw [cutDots]
      split_ifs with hc
      · exact ih _
      · exact ih _
      · exact (ih _).cons (Bool.eq_false_iff.mpr hc)

/-- A dot that was read and may stay. -/
def Dots.held : Dots → Bytes
  | .one b => [b]
  | _ => []

/-- Bytes are only left out. -/
theorem cutDots_sublist (s : Bytes) : ∀ d, (cutDots d s).Sublist (d.held ++ s) := by
  induction s with
  | nil =>
    intro d
    cases d with
    | none => exact List.Sublist.refl _
    | one b => exact List.Sublist.refl _
    | more => exact List.Sublist.refl _
  | cons c s ih =>
    intro d
    cases d with
    | none =>
      rw [cutDots]
      split_ifs with hc
      · exact ih (.one c)
      · exact (ih .none).cons_cons c
    | one b =>
      rw [cutDots]
      split_ifs with hc
      · exact ((ih .more).cons c).cons b
      · exact ((ih .none).cons_cons c).cons_cons b
    | more =>
      rw [cutDots]
      split_ifs with hc hs
      · exact (ih .more).cons c
      · exact (ih .none).cons c
      · exact (ih .none).cons_cons c

theorem cutDots_of_noDots {s : Bytes} : NoDots s → cutDots .none s = s := by
  -- a dot that was read is put out with what follows it
  suffices h : (NoDots s → cutDots .none s = s) ∧
      ∀ b, isDot b = true → NoDots (b :: s) → cutDots (.one b) s = b :: s from h.1
  induction s with
  | nil => exact ⟨fun _ => rfl, fun _ _ _ => rfl⟩
  | cons c s ih =>
    refine ⟨fun h => ?_, fun b hb h => ?_⟩
    · rw [cutDots]
      split_ifs with hc
      · exact ih.2 c hc h
      · rw [ih.1 h.tail]
    · obtain ⟨hbc, h⟩ := List.isChain_cons_cons.mp h
      rw [cutDots, if_neg fun hc => hbc ⟨hb, hc⟩, ih.1 h.tail]

/-- The dots that were read at the end of a text. -/
def Dots.next (d : Dots) (c : UInt8) : Dots :=
  if isDot c then
    match d with
    | .none => .one c
    | _ => .more
  else .none

/-- Two dots or more stand at the end. -/
def EndsInDots (c : Bytes) : Prop := c.foldl Dots.next .none = .more

instance (c : Bytes) : Decidable (EndsInDots c) := inferInstanceAs (Decidable (_ = _))

/-- A slash is cut with the dots in front of it. -/
theorem cutDots_slash {r : Bytes} (hr : 47 ∉ r) (s : Bytes) : ∀ d, cutDots d (r ++ 47 :: s) =
    cutDots d r ++ if r.foldl Dots.next d = .more then cutDots .none s else 47 :: cutDots .none s := by
  induction r with
  | nil =>
    intro d
    cases d with
    | none => rfl
    | one b => rfl
    | more => rfl
  | cons c r ih =>
    rw [List.mem_cons, not_or] at hr
    intro d
    rw [List.cons_append, List.foldl_cons]
    by_cases hc : isDot c = true
    · cases d with
      | none =>
        rw [cutDots, cutDots, if_pos hc, if_pos hc, show Dots.next .none c = .one c from if_pos hc]
        exact ih hr.2 _
      | one b =>
        rw [cutDots, cutDots, if_pos hc, if_pos hc, show Dots.next (.one b) c = .more from if_pos hc]
        exact ih hr.2 _
      | more =>
        rw [cutDots, cutDots, if_pos hc, if_pos hc, show Dots.next .more c = .more from if_pos hc]
        exact ih hr.2 _
    · rw [show d.next c = .none from if_neg hc]
      cases d with
      | none =>
        rw [cutDots, cutDots, if_neg hc, if_neg hc]
        exact congrArg (c :: ·) (ih hr.2 .none)
      | one b =>
        rw [cutDots, cutDots, if_neg hc, if_neg hc]
        exact congrArg (b :: c :: ·) (ih hr.2 .none)
      | more =>
        rw [cutDots, cutDots, if_neg hc, if_neg hc, if_neg (Ne.symm hr.1), if_neg (Ne.symm hr.1)]
        exact congrArg (c :: ·) (ih hr.2 .none)

/-! ## What is left of the components -/

/-- **What is left**, from the end of the path: the `..` that still wait for a component, and what is
left behind them. A component of blanks around `0` or around nothing is taken back, but does not count;
one of blanks around `..` is not taken back. -/
def leftover : List Bytes → ℕ × List Bytes
  | [] => (0, [])
  | c :: cs =>
    let r := leftover cs
    if c = dirUp then (r.1 + 1, r.2)
    else if phpEmpty c ∨ c = dirHere then r
    else if r.1 = 0 then (0, phpTrim c :: r.2)
    else if phpEmpty (phpTrim c) then (0, List.replicate r.1 dirUp ++ r.2)
    else if phpTrim c = dirUp then (0, dirUp :: (List.replicate r.1 dirUp ++ r.2))
    else (r.1 - 1, r.2)

/-- `..`, so many times. -/
def ups (n : ℕ) (result : List Bytes) : List Bytes := (dirStep · dirUp)^[n] result

theorem ups_succ (n : ℕ) (result : List Bytes) :
    ups (n + 1) result = ups n (dirStep result dirUp) :=
  rfl

theorem ups_of_getLast? {result : List Bytes} (h : result.getLast? = some dirUp) (n : ℕ) :
    ups n result = result ++ List.replicate n dirUp := by
  induction n generalizing result with
  | zero => exact (List.append_nil _).symm
  | succ n ih =>
    have hstep : dirStep result dirUp = result ++ [dirUp] := by
      rw [dirStep, if_pos rfl, h]
      exact if_pos rfl
    rw [ups_succ, hstep, ih List.getLast?_concat, List.replicate_succ, List.append_assoc]
    rfl

/-- `..` behind a component that was taken over. -/
theorem ups_succ_concat (n : ℕ) (result : List Bytes) (x : Bytes) :
    ups (n + 1) (result ++ [x]) =
      if phpEmpty x then result ++ List.replicate (n + 1) dirUp
      else if x = dirUp then result ++ dirUp :: List.replicate (n + 1) dirUp
      else ups n result := by
  have hstep : dirStep (result ++ [x]) dirUp =
      if x = dirUp then result ++ [x] ++ [dirUp]
      else if phpEmpty x then result ++ [dirUp] else result := by
    rw [dirStep, if_pos rfl, List.getLast?_concat]
    dsimp only
    rw [List.dropLast_concat]
  rw [ups_succ, hstep]
  by_cases hup : x = dirUp
  · subst hup
    rw [if_pos rfl, if_neg (by decide), if_pos rfl, ups_of_getLast? List.getLast?_concat,
      List.replicate_succ]
    simp
  · rw [if_neg hup, if_neg hup]
    split_ifs with hx
    · rw [ups_of_getLast? List.getLast?_concat, List.replicate_succ, List.append_assoc]
      rfl
    · rfl

/-- **The loop** takes back as many entries as `..` wait, and adds what is left. -/
theorem foldl_dirStep (cs : List Bytes) : ∀ result, cs.foldl dirStep result =
    ups (leftover cs).1 result ++ (leftover cs).2 := by
  induction cs with
  | nil => exact fun result => (List.append_nil _).symm
  | cons c cs ih =>
    intro result
    rw [List.foldl_cons, ih, leftover]
    by_cases hup : c = dirUp
    · rw [hup, if_pos rfl]
      rfl
    rw [if_neg hup]
    by_cases hdrop : phpEmpty c ∨ c = dirHere
    · have hstep : dirStep result c = result := by
        rw [dirStep, if_neg hup, if_neg]
        rintro ⟨h1, h2⟩
        rcases hdrop with h | h
        · rw [h1] at h
          cases h
        · exact h2 h
      rw [if_pos hdrop, hstep]
    rw [if_neg hdrop]
    rw [not_or] at hdrop
    have hstep : dirStep result c = result ++ [phpTrim c] := by
      rw [dirStep, if_neg hup, if_pos ⟨Bool.eq_false_iff.mpr hdrop.1, hdrop.2⟩]
    rw [hstep]
    cases hn : (leftover cs).1 with
    | zero =>
      rw [if_pos rfl]
      show result ++ [phpTrim c] ++ _ = result ++ (phpTrim c :: _)
      rw [List.append_assoc]
      rfl
    | succ n =>
      rw [if_neg n.succ_ne_zero, ups_succ_concat]
      split_ifs
      · exact List.append_assoc _ _ _
      · rw [List.append_assoc]
        rfl
      · rfl

/-- The empty component in front of the first slash, or behind the last one. -/
def atSlash (slash : Bool) : List Bytes := if slash then [[]] else []

theorem mem_atSlash {slash : Bool} {c : Bytes} (h : c ∈ atSlash slash) : c = [] := by
  unfold atSlash at h
  split_ifs at h
  · exact List.mem_singleton.mp h
  · cases h

/-- What is left of a path. `..` that go on waiting stand in for the slash at its start. -/
def remains (p : Bytes) : List Bytes :=
  let r := leftover (components p)
  (if r.1 = 0 then atSlash (phpEmpty ((components p).headD [])) else List.replicate r.1 dirUp) ++
    r.2 ++ atSlash (phpEmpty ((components p).getLastD []))

theorem cleanPath_eq (p : Bytes) : cleanPath p = eregCut (joinComponents (remains p)) := by
  have hlead : ∀ b, ups (leftover (components p)).1 (atSlash b) =
      if (leftover (components p)).1 = 0 then atSlash b
      else List.replicate (leftover (components p)).1 dirUp := by
    intro b
    cases (leftover (components p)).1 with
    | zero => rfl
    | succ n =>
      rw [if_neg n.succ_ne_zero]
      cases b with
      | true => exact ups_succ_concat n [] []
      | false => exact @ups_of_getLast? [dirUp] rfl n
  have htrail : ∀ result : List Bytes,
      (if phpEmpty ((components p).getLastD []) then result ++ [[]] else result) =
        result ++ atSlash (phpEmpty ((components p).getLastD [])) := by
    intro result
    unfold atSlash
    split_ifs
    · rfl
    · exact (List.append_nil _).symm
  rw [remains, ← hlead, ← foldl_dirStep]
  exact congrArg (fun result => eregCut (joinComponents result)) (htrail _)

/-- What is left, but for `..`, was trimmed. -/
theorem leftover_subset {x : Bytes} (cs : List Bytes) (h : x ∈ (leftover cs).2) :
    x = dirUp ∨ ∃ c ∈ cs, x = phpTrim c ∧ phpEmpty c = false ∧ c ≠ dirHere := by
  induction cs with
  | nil => cases h
  | cons c cs ih =>
    have hcs : x ∈ (leftover cs).2 → x = dirUp ∨ ∃ d ∈ c :: cs, x = phpTrim d ∧ phpEmpty d = false ∧
        d ≠ dirHere := fun h =>
      (ih h).imp_right fun ⟨d, hd, hx⟩ => ⟨d, List.mem_cons_of_mem c hd, hx⟩
    have hups : ∀ n, x ∈ List.replicate n dirUp ++ (leftover cs).2 → x = dirUp ∨
        ∃ d ∈ c :: cs, x = phpTrim d ∧ phpEmpty d = false ∧ d ≠ dirHere := fun n h =>
      (List.mem_append.mp h).elim (fun h => .inl (List.eq_of_mem_replicate h)) hcs
    rw [leftover] at h
    split_ifs at h with hup hdrop hn hempty htrim
    · exact hcs h
    · exact hcs h
    · rw [not_or] at hdrop
      rcases List.mem_cons.mp h with rfl | h
      · exact .inr ⟨c, List.mem_cons_self, rfl, Bool.eq_false_iff.mpr hdrop.1, hdrop.2⟩
      · exact hcs h
    · exact hups _ h
    · rcases List.mem_cons.mp h with rfl | h
      · exact .inl rfl
      · exact hups _ h
    · exact hcs h

theorem infix_phpTrim (s : Bytes) : phpTrim s <:+: s :=
  (List.rdropWhile_prefix isPhpBlank _).isInfix.trans (List.dropWhile_suffix isPhpBlank).isInfix

theorem not_mem_remains {p c : Bytes} (h : c ∈ remains p) : 47 ∉ c := by
  unfold remains at h
  rw [List.mem_append, List.mem_append] at h
  rcases h with (h | h) | h
  · split_ifs at h
    · rw [mem_atSlash h]
      exact List.not_mem_nil
    · rw [List.eq_of_mem_replicate h]
      decide
  · obtain rfl | ⟨d, hd, rfl, -⟩ := leftover_subset _ h
    · decide
    · exact fun hm => not_mem_of_mem_components hd ((infix_phpTrim d).mem hm)
  · rw [mem_atSlash h]
    exact List.not_mem_nil

/-! ## Clean paths -/

/-- A name between slashes that is not dropped or changed. -/
def IsName (c : Bytes) : Prop := phpEmpty c = false ∧ c ≠ dirHere ∧ phpTrim c = c

/-- Names, perhaps with a slash in front of them or behind them; without names, a slash. -/
def Tidy (cs : List Bytes) : Prop :=
  ∃ (lead trail : Bool) (names : List Bytes), (∀ c ∈ names, IsName c) ∧ (names = [] → lead ∧ trail) ∧
    cs = atSlash lead ++ names ++ atSlash trail

theorem Tidy.ne_nothing {cs : List Bytes} (h : Tidy cs) : cs ≠ [] ∧ cs ≠ [[]] := by
  obtain ⟨lead, trail, names, hnames, hnil, rfl⟩ := h
  cases names with
  | nil =>
    obtain ⟨rfl, rfl⟩ := hnil rfl
    exact ⟨List.cons_ne_nil _ _, fun h => List.cons_ne_nil _ _ (List.cons.inj h).2⟩
  | cons c names =>
    have hc : c ∈ atSlash lead ++ c :: names ++ atSlash trail := by simp
    refine ⟨List.ne_nil_of_mem hc, fun h => ?_⟩
    rw [h] at hc
    have hempty := (hnames c List.mem_cons_self).1
    rw [List.mem_singleton.mp hc] at hempty
    cases hempty

theorem noDots_joinComponents {cs : List Bytes} (h : ∀ c ∈ cs, NoDots c) :
    NoDots (joinComponents cs) := by
  induction cs with
  | nil => exact List.isChain_nil
  | cons c cs ih =>
    obtain ⟨hc, h⟩ := List.forall_mem_cons.mp h
    by_cases hcs : cs = []
    · rw [hcs, joinComponents_singleton]
      exact hc
    · rw [joinComponents_cons c hcs]
      refine List.isChain_append.mpr ⟨hc, (ih h).cons rfl, fun a _ _ hb hab => ?_⟩
      obtain rfl := Option.some.inj hb
      exact Bool.false_ne_true hab.2

theorem not_mem_joinComponents {x : UInt8} (hx : x ≠ 47) {cs : List Bytes} (h : ∀ c ∈ cs, x ∉ c) :
    x ∉ joinComponents cs := by
  induction cs with
  | nil => exact List.not_mem_nil
  | cons c cs ih =>
    obtain ⟨hc, h⟩ := List.forall_mem_cons.mp h
    by_cases hcs : cs = []
    · rw [hcs, joinComponents_singleton]
      exact hc
    · rw [joinComponents_cons c hcs, List.mem_append, List.mem_cons]
      rintro (hm | hm | hm)
      · exact hc hm
      · exact hx hm
      · exact ih h hm

theorem eregCut_of_noDots {s : Bytes} (h : NoDots s) (h0 : 0 ∉ s) : eregCut s = s := by
  rw [eregCut, cstr_eq_self fun b hb e => h0 (e ▸ hb), cutDots_of_noDots h]

/-- Of a clean path there are neither dots side by side nor NULs. -/
theorem noDots_cleanPath (p : Bytes) : NoDots (cleanPath p) := noDots_cutDots _ _

theorem not_mem_cleanPath (p : Bytes) : 0 ∉ cleanPath p := by
  intro h
  have hmem := (cutDots_sublist (cstr (joinComponents (remains p))) .none).mem (cleanPath_eq p ▸ h)
  exact cstr_ne_zero 0 hmem rfl

/-- A component that is taken over. -/
def isKept (c : Bytes) : Bool := !phpEmpty c && c != dirHere

/-- Without `..`, the components are dropped or trimmed. -/
theorem leftover_of_not_mem {cs : List Bytes} (h : dirUp ∉ cs) :
    leftover cs = (0, (cs.filter isKept).map phpTrim) := by
  induction cs with
  | nil => rfl
  | cons c cs ih =>
    rw [List.mem_cons, not_or] at h
    rw [leftover, ih h.2, if_neg (Ne.symm h.1)]
    by_cases hc : phpEmpty c ∨ c = dirHere
    · rw [if_pos hc, List.filter_cons_of_neg]
      rcases hc with hc | rfl
      · simp [isKept, hc]
      · decide
    · rw [if_neg hc, if_pos rfl, List.filter_cons_of_pos]
      · rfl
      · simpa [isKept] using hc

theorem isName_of_kept {cs : List Bytes} (h : (cs.filter isKept).map phpTrim = cs) :
    ∀ c ∈ cs, IsName c := by
  have hall : ∀ c ∈ cs, isKept c = true := by
    refine List.length_filter_eq_length_iff.mp ?_
    rw [← List.length_map (f := phpTrim), h]
  rw [List.filter_eq_self.mpr hall] at h
  intro c hc
  have hkept := hall c hc
  simp only [isKept, Bool.and_eq_true, Bool.not_eq_true', bne_iff_ne] at hkept
  exact ⟨hkept.1, hkept.2, List.map_inj_left.mp (h.trans (List.map_id cs).symm) c hc⟩

theorem kept_of_isName {cs : List Bytes} (h : ∀ c ∈ cs, IsName c) :
    (cs.filter isKept).map phpTrim = cs := by
  rw [List.filter_eq_self.mpr fun c hc => by simp [isKept, (h c hc).1, (h c hc).2.1]]
  exact (List.map_congr_left fun c hc => (h c hc).2.2).trans (List.map_id cs)

theorem filter_atSlash (slash : Bool) : (atSlash slash).filter isKept = [] := by
  cases slash with
  | true => rfl
  | false => rfl

/-- The components behind the first slash. -/
theorem names_of_kept {cs : List Bytes} {trail : Bool}
    (h : (cs.filter isKept).map phpTrim ++ atSlash trail = cs) :
    ∃ names, (∀ c ∈ names, IsName c) ∧ cs = names ++ atSlash trail := by
  refine ⟨(cs.filter isKept).map phpTrim, isName_of_kept ?_, h.symm⟩
  have h := congrArg (fun cs => (List.filter isKept cs).map phpTrim) h
  rwa [List.filter_append, filter_atSlash, List.append_nil] at h

/-- A list of components that gives itself again. -/
theorem tidy_iff {cs : List Bytes} (hne : cs ≠ []) :
    atSlash (phpEmpty (cs.headD [])) ++ (cs.filter isKept).map phpTrim ++
      atSlash (phpEmpty (cs.getLastD [])) = cs ↔ Tidy cs := by
  constructor
  · intro h
    obtain ⟨c, ds, rfl⟩ := List.exists_cons_of_ne_nil hne
    rw [List.headD_cons] at h
    by_cases hc : phpEmpty c = true
    · rw [hc, List.filter_cons_of_neg (by simp [isKept, hc])] at h
      obtain ⟨rfl, h⟩ := List.cons.inj h
      obtain ⟨names, hnames, hds⟩ := names_of_kept h
      refine ⟨true, _, names, hnames, fun hnil => ⟨rfl, ?_⟩, congrArg ([] :: ·) hds⟩
      by_contra htrail
      rw [hnil, Bool.eq_false_iff.mpr htrail] at hds
      rw [hds] at htrail
      exact htrail rfl
    · rw [Bool.eq_false_iff.mpr hc] at h
      obtain ⟨names, hnames, hds⟩ := names_of_kept h
      refine ⟨false, _, names, hnames, fun hnil => absurd ?_ hc, hds⟩
      rw [hnil, List.nil_append] at hds
      have hmem : c ∈ atSlash (phpEmpty ((c :: ds).getLastD [])) := hds ▸ List.mem_cons_self
      rw [mem_atSlash hmem]
      rfl
  · rintro ⟨lead, trail, names, hnames, hnil, rfl⟩
    rw [List.filter_append, List.filter_append, filter_atSlash, filter_atSlash, List.nil_append,
      List.append_nil, kept_of_isName hnames]
    have hhead : phpEmpty ((atSlash lead ++ names ++ atSlash trail).headD []) = lead := by
      cases lead with
      | true => rfl
      | false =>
        obtain ⟨c, cs, rfl⟩ := List.exists_cons_of_ne_nil fun h => Bool.false_ne_true (hnil h).1
        exact (hnames c List.mem_cons_self).1
    have hlast : phpEmpty ((atSlash lead ++ names ++ atSlash trail).getLastD []) = trail := by
      cases trail with
      | true =>
        rw [atSlash, atSlash, if_pos rfl, List.getLastD_concat]
        rfl
      | false =>
        obtain ⟨cs, c, rfl⟩ := (List.eq_nil_or_concat' names).resolve_left
          fun h => Bool.false_ne_true (hnil h).2
        rw [show atSlash false = [] from rfl, List.append_nil, ← List.append_assoc,
          List.getLastD_concat]
        exact (hnames c (by simp)).1
    rw [hhead, hlast]

theorem not_noDots_dirUp : ¬NoDots dirUp := fun h => (List.isChain_cons_cons.mp h).1 ⟨rfl, rfl⟩

section Fixed

variable {t : Bytes} (ht : NoDots t) (h0 : 0 ∉ t)

include ht in
theorem noDots_component {c : Bytes} (hc : c ∈ components t) : NoDots c :=
  ht.part (joinComponents_components t ▸ infix_joinComponents hc)

include ht in
/-- What is left of a path without dots side by side. -/
theorem remains_of_noDots : remains t =
    atSlash (phpEmpty ((components t).headD [])) ++ ((components t).filter isKept).map phpTrim ++
      atSlash (phpEmpty ((components t).getLastD [])) := by
  have hup : dirUp ∉ components t := fun h => not_noDots_dirUp (noDots_component ht h)
  rw [remains, leftover_of_not_mem hup]
  rfl

include ht h0 in
/-- Nothing is cut out of it. -/
theorem cleanPath_of_noDots : cleanPath t = joinComponents (remains t) := by
  have hpart : ∀ c ∈ remains t, c <:+: t := by
    intro c hc
    rw [remains_of_noDots ht, List.mem_append, List.mem_append] at hc
    rcases hc with (hc | hc) | hc
    · exact mem_atSlash hc ▸ List.nil_infix
    · obtain ⟨d, hd, rfl⟩ := List.mem_map.mp hc
      refine (infix_phpTrim d).trans ?_
      exact joinComponents_components t ▸ infix_joinComponents (List.mem_of_mem_filter hd)
    · exact mem_atSlash hc ▸ List.nil_infix
  rw [cleanPath_eq]
  refine eregCut_of_noDots (noDots_joinComponents fun c hc => ht.part (hpart c hc)) ?_
  exact not_mem_joinComponents (by decide) fun c hc hm => h0 ((hpart c hc).mem hm)

include ht h0 in
theorem cleanPath_eq_self_iff : cleanPath t = t ↔ Tidy (components t) := by
  rw [cleanPath_of_noDots ht h0, ← tidy_iff (components_ne_nil t), ← remains_of_noDots ht]
  refine ⟨fun h => ?_, fun h => by rw [h, joinComponents_components]⟩
  have hne : remains t ≠ [] := by
    intro hnil
    rw [hnil] at h
    -- of the empty path two empty components are left
    rw [show t = [] from h.symm] at hnil
    exact List.cons_ne_nil _ _ hnil
  conv_rhs => rw [← h]
  rw [components_joinComponents (fun c hc => not_mem_remains hc) hne]

end Fixed

/-- **Twice**: what was cleaned stays as it is if there are only names between its slashes. -/
theorem cleanPath_twice_iff (p : Bytes) :
    cleanPath (cleanPath p) = cleanPath p ↔ Tidy (components (cleanPath p)) :=
  cleanPath_eq_self_iff (noDots_cleanPath p) (not_mem_cleanPath p)

/-- **Nothing goes up** from a clean path. -/
theorem no_dirUp_in_cleanPath (p : Bytes) : ¬dirUp <:+: cleanPath p :=
  fun h => not_noDots_dirUp ((noDots_cleanPath p).part h)

/-! ## Any string -/

/-- The components up to the first NUL. -/
def untilNul : List Bytes → List Bytes
  | [] => []
  | c :: cs => if 0 ∈ c then [cstr c] else c :: untilNul cs

/-- The components without their runs of dots; one that ends in such a run loses its slash. -/
def cutComponents : List Bytes → List Bytes
  | [] => []
  | c :: cs =>
    if cs = [] then [cutDots .none c]
    else if EndsInDots c then (cutComponents cs).modifyHead (cutDots .none c ++ ·)
    else cutDots .none c :: cutComponents cs

theorem untilNul_ne_nil {cs : List Bytes} (h : cs ≠ []) : untilNul cs ≠ [] := by
  obtain ⟨c, cs, rfl⟩ := List.exists_cons_of_ne_nil h
  rw [untilNul]
  split_ifs
  · exact List.cons_ne_nil _ _
  · exact List.cons_ne_nil _ _

theorem cstr_joinComponents {cs : List Bytes} (h : ∀ c ∈ cs, 47 ∉ c) :
    cstr (joinComponents cs) = joinComponents (untilNul cs) := by
  induction cs with
  | nil => rfl
  | cons c cs ih =>
    obtain ⟨hc, h⟩ := List.forall_mem_cons.mp h
    rw [untilNul]
    by_cases hcs : cs = []
    · rw [hcs, joinComponents_singleton]
      split_ifs with h0
      · rw [joinComponents_singleton]
      · rw [untilNul, joinComponents_singleton, cstr_eq_self fun b hb e => h0 (e ▸ hb)]
    · rw [joinComponents_cons c hcs]
      split_ifs with h0
      · rw [cstr_append_of_zero h0, joinComponents_singleton]
      · have hall : ∀ b ∈ c, decide (b ≠ 0) = true := fun b hb => decide_eq_true fun e => h0 (e ▸ hb)
        rw [joinComponents_cons c (untilNul_ne_nil hcs), ← ih h, cstr,
          List.takeWhile_append_of_pos hall, List.takeWhile_cons_of_pos (by decide)]
        rfl

theorem cutComponents_ne_nil {cs : List Bytes} (h : cs ≠ []) : cutComponents cs ≠ [] := by
  induction cs with
  | nil => exact absurd rfl h
  | cons c cs ih =>
    rw [cutComponents]
    split_ifs with hcs hdots
    · exact List.cons_ne_nil _ _
    · obtain ⟨d, ds, hd⟩ := List.exists_cons_of_ne_nil (ih hcs)
      rw [hd]
      exact List.cons_ne_nil _ _
    · exact List.cons_ne_nil _ _

theorem cutDots_joinComponents {cs : List Bytes} (h : ∀ c ∈ cs, 47 ∉ c) :
    cutDots .none (joinComponents cs) = joinComponents (cutComponents cs) := by
  induction cs with
  | nil => rfl
  | cons c cs ih =>
    obtain ⟨hc, h⟩ := List.forall_mem_cons.mp h
    rw [cutComponents]
    by_cases hcs : cs = []
    · rw [if_pos hcs, hcs, joinComponents_singleton, joinComponents_singleton]
    rw [if_neg hcs, joinComponents_cons c hcs, cutDots_slash hc, ih h]
    obtain ⟨d, ds, hd⟩ := List.exists_cons_of_ne_nil (cutComponents_ne_nil hcs)
    by_cases hdots : EndsInDots c
    · rw [if_pos hdots, if_pos (show List.foldl Dots.next .none c = .more from hdots), hd,
        List.modifyHead_cons]
      by_cases hds : ds = []
      · rw [hds, joinComponents_singleton, joinComponents_singleton]
      · rw [joinComponents_cons _ hds, joinComponents_cons _ hds, List.append_assoc]
    · rw [if_neg hdots, if_neg (show ¬List.foldl Dots.next .none c = .more from hdots),
        joinComponents_cons _ (cutComponents_ne_nil hcs)]

/-- **The text between the slashes**, when a path was cleaned. -/
def shown (p : Bytes) : List Bytes := cutComponents (untilNul (remains p))

theorem not_mem_untilNul {x : UInt8} {cs : List Bytes} (h : ∀ c ∈ cs, x ∉ c) :
    ∀ c ∈ untilNul cs, x ∉ c := by
  induction cs with
  | nil => exact h
  | cons d cs ih =>
    obtain ⟨hd, h⟩ := List.forall_mem_cons.mp h
    rw [untilNul]
    split_ifs
    · refine fun c hc hm => hd ?_
      rw [List.mem_singleton.mp hc] at hm
      exact (List.takeWhile_sublist _).mem hm
    · exact List.forall_mem_cons.mpr ⟨hd, ih h⟩

theorem not_mem_cutComponents {cs : List Bytes} (h : ∀ c ∈ cs, 47 ∉ c) :
    ∀ c ∈ cutComponents cs, 47 ∉ c := by
  have hcut : ∀ c, 47 ∉ c → 47 ∉ cutDots .none c := fun c hc hm => hc ((cutDots_sublist c .none).mem hm)
  induction cs with
  | nil => exact h
  | cons d cs ih =>
    obtain ⟨hd, h⟩ := List.forall_mem_cons.mp h
    rw [cutComponents]
    split_ifs with hcs hdots
    · exact List.forall_mem_singleton.mpr (hcut d hd)
    · obtain ⟨e, es, he⟩ := List.exists_cons_of_ne_nil (cutComponents_ne_nil hcs)
      rw [he] at ih ⊢
      obtain ⟨h1, h2⟩ := List.forall_mem_cons.mp (ih h)
      refine List.forall_mem_cons.mpr ⟨fun hm => ?_, h2⟩
      exact (List.mem_append.mp hm).elim (hcut d hd) h1
    · exact List.forall_mem_cons.mpr ⟨hcut d hd, ih h⟩

theorem cleanPath_eq_shown (p : Bytes) : cleanPath p = joinComponents (shown p) := by
  have h47 : ∀ c ∈ remains p, 47 ∉ c := fun c hc => not_mem_remains hc
  rw [cleanPath_eq, eregCut, cstr_joinComponents h47, cutDots_joinComponents (not_mem_untilNul h47)]
  rfl

/-! ## The components of the path that is cleaned -/

/-- The components in groups. One that ends in a run of dots loses its slash, and the next one is in its
group. -/
def slashless : List Bytes → List (List Bytes)
  | [] => []
  | c :: cs =>
    if cs ≠ [] ∧ EndsInDots c then (slashless cs).modifyHead (c :: ·) else [c] :: slashless cs

/-- What the components of a group are without their runs of dots, if that is anything. -/
def rests (group : List Bytes) : List Bytes := (group.map (cutDots .none)).filter (!·.isEmpty)

/-- Something stands in a group that is not dropped and has no blanks around it. -/
structure MakesName (group : List Bytes) : Prop where
  nonempty : rests group ≠ []
  zero : rests group ≠ [[48]]
  here : rests group ≠ [dirHere]
  front : ∀ b, (rests group).head?.bind List.head? = some b → isPhpBlank b = false
  back : ∀ b, (rests group).getLast?.bind List.getLast? = some b → isPhpBlank b = false

/-- The groups of the components that `..` leaves, up to the first NUL. -/
def slashGroups (p : Bytes) : List (List Bytes) := slashless (untilNul (remains p))

/-- **Every group makes a name**, but the first and the last one may be empty for a slash. -/
structure SettledPath (p : Bytes) : Prop where
  nonempty : slashGroups p ≠ []
  alone : ∀ group, slashGroups p = [group] → rests group ≠ []
  names : ∀ group ∈ slashGroups p, rests group = [] ∨ MakesName group
  inner : ∀ group ∈ (slashGroups p).tail.dropLast, rests group ≠ []

theorem slashless_ne_nil {cs : List Bytes} (h : cs ≠ []) : slashless cs ≠ [] := by
  induction cs with
  | nil => exact absurd rfl h
  | cons c cs ih =>
    rw [slashless]
    split_ifs with hc
    · obtain ⟨group, rs, hrun⟩ := List.exists_cons_of_ne_nil (ih hc.1)
      rw [hrun]
      exact List.cons_ne_nil _ _
    · exact List.cons_ne_nil _ _

theorem cutComponents_eq (cs : List Bytes) :
    cutComponents cs = (slashless cs).map fun group => group.flatMap (cutDots .none) := by
  induction cs with
  | nil => rfl
  | cons c cs ih =>
    rw [cutComponents, slashless, ih]
    by_cases hcs : cs = []
    · rw [if_pos hcs, if_neg fun h => h.1 hcs, hcs]
      exact congrArg (· :: []) (List.append_nil _).symm
    by_cases hdots : EndsInDots c
    · obtain ⟨group, rs, hrun⟩ := List.exists_cons_of_ne_nil (slashless_ne_nil hcs)
      rw [if_neg hcs, if_pos hdots, if_pos ⟨hcs, hdots⟩, hrun]
      rfl
    · rw [if_neg hcs, if_neg hdots, if_neg fun h => hdots h.2, List.map_cons]
      exact congrArg (· :: _) (List.append_nil _).symm

theorem flatMap_cutDots (group : List Bytes) :
    group.flatMap (cutDots .none) = (rests group).flatten := by
  rw [rests, List.flatten_filter_not_isEmpty, List.flatMap_def]

theorem nil_not_mem_rests (group : List Bytes) : [] ∉ rests group := by
  intro h
  cases (List.mem_filter.mp h).2

theorem flatMap_cutDots_eq_nil_iff (group : List Bytes) :
    group.flatMap (cutDots .none) = [] ↔ rests group = [] := by
  rw [flatMap_cutDots, List.flatten_eq_nil_iff]
  constructor
  · intro h
    exact List.eq_nil_iff_forall_not_mem.mpr fun t ht => nil_not_mem_rests group (h t ht ▸ ht)
  · rintro h t ht
    rw [h] at ht
    cases ht

section Flatten

variable {α : Type} {ts : List (List α)} (hts : [] ∉ ts)

include hts in
theorem flatten_eq_singleton {b : α} : ts.flatten = [b] ↔ ts = [[b]] := by
  refine ⟨fun h => ?_, fun h => h ▸ rfl⟩
  cases ts with
  | nil => cases h
  | cons t ts =>
    rw [List.mem_cons, not_or] at hts
    obtain ⟨c, t, rfl⟩ := List.exists_cons_of_ne_nil (Ne.symm hts.1)
    rw [List.flatten_cons, List.cons_append, List.cons.injEq, List.append_eq_nil_iff] at h
    obtain ⟨rfl, rfl, h⟩ := h
    cases ts with
    | nil => rfl
    | cons t ts =>
      rw [List.flatten_cons, List.append_eq_nil_iff] at h
      exact absurd (h.1 ▸ List.mem_cons_self) hts.2

include hts in
theorem head?_flatten_of_ne_nil : ts.flatten.head? = ts.head?.bind List.head? := by
  cases ts with
  | nil => rfl
  | cons t ts =>
    rw [List.mem_cons, not_or] at hts
    obtain ⟨c, t, rfl⟩ := List.exists_cons_of_ne_nil (Ne.symm hts.1)
    rfl

include hts in
theorem getLast?_flatten_of_ne_nil : ts.flatten.getLast? = ts.getLast?.bind List.getLast? := by
  obtain rfl | ⟨us, t, rfl⟩ := List.eq_nil_or_concat' ts
  · rfl
  have ht : t ≠ [] := fun h => hts (h ▸ List.mem_append_right _ List.mem_cons_self)
  rw [List.flatten_append, List.getLast?_concat, List.flatten_singleton,
    List.getLast?_append_of_ne_nil _ ht]
  rfl

end Flatten

theorem phpTrim_eq_self_iff (c : Bytes) : phpTrim c = c ↔
    (∀ b, c.head? = some b → isPhpBlank b = false) ∧
      ∀ b, c.getLast? = some b → isPhpBlank b = false := by
  have hhead : c.dropWhile isPhpBlank = c ↔ ∀ b, c.head? = some b → isPhpBlank b = false := by
    cases c with
    | nil => simp
    | cons b c => simp
  have hlast : c.rdropWhile isPhpBlank = c ↔ ∀ b, c.getLast? = some b → isPhpBlank b = false := by
    obtain rfl | ⟨cs, b, rfl⟩ := List.eq_nil_or_concat' c
    · simp
    · simp
  rw [← hhead, ← hlast]
  constructor
  · intro h
    have hdrop : c.dropWhile isPhpBlank = c := by
      refine (List.dropWhile_suffix isPhpBlank).eq_of_length_le ?_
      calc c.length = (phpTrim c).length := by rw [h]
        _ ≤ (c.dropWhile isPhpBlank).length := (List.rdropWhile_prefix isPhpBlank _).length_le
    refine ⟨hdrop, ?_⟩
    rw [phpTrim, hdrop] at h
    exact h
  · rintro ⟨h1, h2⟩
    rw [phpTrim, h1, h2]

/-- A group that makes a name gives one. -/
theorem isName_flatMap_iff (group : List Bytes) :
    IsName (group.flatMap (cutDots .none)) ↔ MakesName group := by
  have hne := nil_not_mem_rests group
  have hnil := flatMap_cutDots_eq_nil_iff group
  rw [flatMap_cutDots] at hnil ⊢
  have hempty : phpEmpty (rests group).flatten = false ↔ rests group ≠ [] ∧ rests group ≠ [[48]] := by
    rw [phpEmpty, Bool.or_eq_false_iff, beq_eq_false_iff_ne, beq_eq_false_iff_ne, Ne, Ne, hnil,
      flatten_eq_singleton hne]
  have hhere : (rests group).flatten ≠ dirHere ↔ rests group ≠ [dirHere] :=
    (flatten_eq_singleton hne).not
  rw [IsName, hempty, hhere, phpTrim_eq_self_iff, head?_flatten_of_ne_nil hne,
    getLast?_flatten_of_ne_nil hne]
  exact ⟨fun ⟨⟨h1, h2⟩, h3, h4, h5⟩ => ⟨h1, h2, h3, h4, h5⟩,
    fun h => ⟨⟨h.nonempty, h.zero⟩, h.here, h.front, h.back⟩⟩

/-- A component that is empty stands for a slash. -/
theorem slash_or_name {c : Bytes} (h : c = [] ∨ IsName c) : ∃ (slash : Bool) (names : List Bytes),
    (∀ x ∈ names, IsName x) ∧ (names = [] → slash) ∧ [c] = atSlash slash ++ names ∧
      [c] = names ++ atSlash slash := by
  rcases h with rfl | h
  · exact ⟨true, [], List.forall_mem_nil _, fun _ => rfl, rfl, rfl⟩
  · exact ⟨false, [c], List.forall_mem_singleton.mpr h, fun hc => absurd hc (List.cons_ne_nil _ _),
      rfl, rfl⟩

theorem mem_of_mem_inner {lead trail : Bool} {names : List Bytes} {c : Bytes}
    (h : c ∈ (atSlash lead ++ names ++ atSlash trail).tail.dropLast) : c ∈ names := by
  have hback : (atSlash lead ++ names ++ atSlash trail).dropLast.Sublist (atSlash lead ++ names) := by
    cases trail with
    | true =>
      rw [atSlash.eq_1 true, if_pos rfl, List.dropLast_concat]
    | false =>
      rw [atSlash.eq_1 false, if_neg Bool.false_ne_true, List.append_nil]
      exact List.dropLast_sublist _
  have hfront : (atSlash lead ++ names).tail.Sublist names := by
    cases lead with
    | true => exact List.Sublist.refl _
    | false => exact List.tail_sublist _
  rw [← List.tail_dropLast] at h
  exact (hback.tail.trans hfront).mem h

/-- Names in a row, of which only the first and the last one may be empty. -/
theorem tidy_iff_inner (cs : List Bytes) : Tidy cs ↔ cs ≠ [] ∧ cs ≠ [[]] ∧
    (∀ c ∈ cs, c = [] ∨ IsName c) ∧ ∀ c ∈ cs.tail.dropLast, c ≠ [] := by
  constructor
  · intro h
    refine ⟨h.ne_nothing.1, h.ne_nothing.2, ?_⟩
    obtain ⟨lead, trail, names, hnames, -, rfl⟩ := h
    constructor
    · intro c hc
      rw [List.mem_append, List.mem_append] at hc
      rcases hc with (hc | hc) | hc
      · exact .inl (mem_atSlash hc)
      · exact .inr (hnames c hc)
      · exact .inl (mem_atSlash hc)
    · rintro c hc rfl
      cases (hnames [] (mem_of_mem_inner hc)).1
  · rintro ⟨h0, h1, hall, hinner⟩
    obtain ⟨c, ds, rfl⟩ := List.exists_cons_of_ne_nil h0
    obtain ⟨hc, hall⟩ := List.forall_mem_cons.mp hall
    obtain rfl | ⟨mid, d, rfl⟩ := List.eq_nil_or_concat' ds
    · have hname := hc.resolve_left fun h => h1 (h ▸ rfl)
      exact ⟨false, false, [c], List.forall_mem_singleton.mpr hname,
        fun h => absurd h (List.cons_ne_nil _ _), rfl⟩
    · rw [List.tail_cons, List.dropLast_concat] at hinner
      obtain ⟨hmid, hd⟩ := List.forall_mem_append.mp hall
      obtain ⟨lead, front, hfront, hlead, hcons, -⟩ := slash_or_name hc
      obtain ⟨trail, back, hback, htrail, -, hconcat⟩ := slash_or_name (hd d List.mem_cons_self)
      refine ⟨lead, trail, front ++ (mid ++ back), ?_, ?_, ?_⟩
      · refine List.forall_mem_append.mpr ⟨hfront, List.forall_mem_append.mpr ⟨fun x hx => ?_, hback⟩⟩
        exact (hmid x hx).resolve_left (hinner x hx)
      · intro h
        obtain ⟨hf, h⟩ := List.append_eq_nil_iff.mp h
        exact ⟨hlead hf, htrail (List.append_eq_nil_iff.mp h).2⟩
      · calc c :: (mid ++ [d]) = [c] ++ (mid ++ [d]) := rfl
          _ = atSlash lead ++ front ++ (mid ++ (back ++ atSlash trail)) := by rw [hcons, hconcat]
          _ = atSlash lead ++ (front ++ (mid ++ back)) ++ atSlash trail := by
            simp only [List.append_assoc]

theorem tidy_shown_iff (p : Bytes) : Tidy (shown p) ↔ SettledPath p := by
  have hshown : shown p = (slashGroups p).map fun group => group.flatMap (cutDots .none) :=
    cutComponents_eq _
  rw [hshown, tidy_iff_inner, List.map_tail.symm, List.map_dropLast.symm, Ne, List.map_eq_nil_iff,
    List.forall_mem_map, List.forall_mem_map]
  have halone : (slashGroups p).map (fun group => group.flatMap (cutDots .none)) ≠ [[]] ↔
      ∀ group, slashGroups p = [group] → rests group ≠ [] := by
    constructor
    · rintro h group hrun hnil
      refine h ?_
      rw [hrun, List.map_singleton, (flatMap_cutDots_eq_nil_iff group).mpr hnil]
    · intro h hmap
      obtain ⟨group, hrun, hnil⟩ := List.map_eq_singleton_iff.mp hmap
      exact h group hrun ((flatMap_cutDots_eq_nil_iff group).mp hnil)
  simp only [halone, flatMap_cutDots_eq_nil_iff, isName_flatMap_iff, Ne]
  exact ⟨fun ⟨h0, h1, h2, h3⟩ => ⟨h0, h1, h2, h3⟩, fun h => ⟨h.nonempty, h.alone, h.names, h.inner⟩⟩

/-- **Twice**, by the components of the path. -/
theorem settled_iff (p : Bytes) : cleanPath (cleanPath p) = cleanPath p ↔ SettledPath p := by
  rw [cleanPath_twice_iff, ← tidy_shown_iff]
  by_cases hne : shown p = []
  · -- nothing is left, and the path is empty
    rw [cleanPath_eq_shown, hne]
    exact iff_of_false (fun h => h.ne_nothing.2 rfl) fun h => h.ne_nothing.1 rfl
  · have h47 : ∀ c ∈ remains p, 47 ∉ c := fun c hc => not_mem_remains hc
    have hshown : ∀ c ∈ shown p, 47 ∉ c := not_mem_cutComponents (not_mem_untilNul h47)
    rw [cleanPath_eq_shown, components_joinComponents hshown hne]

end LinboxRescue
