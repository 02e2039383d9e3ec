import LinboxRescue.Lsc.CleanPath

/-!
# Clean paths and canonical ones

The components of a well-formed path are not changed, but PHP takes `0` for nothing, and the array has
no place for the root.

1. `leftover_wellFormed`: what is left is what `resolve` leaves without the components `0`.
2. `cleanPath_of_plain`: the path that is made of it.
3. `KeptWhole.canonical`, `keptWhole_of_canonical`: when it is the canonical one and stays it.
4. `cleans_iff`: what is asked of any string.
-/

namespace LinboxRescue

/-- The components have no blanks around them, and no dots side by side if they are not `..`. -/
def WellFormed (p : Bytes) : Prop :=
  ∀ c ∈ components p, phpTrim c = c ∧ (c = dirUp ∨ ¬dirUp <:+: c)

def zeroDir : Bytes := [48]

/-- The components without those that are `0`. -/
def nonzero (p : Bytes) : List Bytes := (components p).filter fun c => c != zeroDir

/-- The number of `..` that climb above the start. -/
def waiting (cs : List Bytes) : ℕ := (leftover cs).1

/-- **What it takes** for the canonical form: no `0` among the components that count, no `..` above the
root, something left, and nothing in it that is cut out. -/
structure KeptWhole (p : Bytes) : Prop where
  nonempty : p ≠ []
  zeros : resolve (nonzero p) = resolve (components p)
  root : IsAbsolute p → waiting (nonzero p) = 0
  noRoot : (components p).head? = some zeroDir → waiting (nonzero p) ≠ 0
  left : resolve (components p) = [] → IsAbsolute p ∧ EndsInSlash p
  plain : ∀ c ∈ resolve (components p), NoDots c ∧ 0 ∉ c

/-! ## What is left -/

/-- A component `0` is dropped. -/
theorem leftover_nonzero (p : Bytes) : leftover (nonzero p) = leftover (components p) := by
  unfold nonzero
  induction components p with
  | nil => rfl
  | cons c cs ih =>
    by_cases hc : c = zeroDir
    · rw [List.filter_cons_of_neg (by simp [hc]), ih, hc]
      rfl
    · rw [List.filter_cons_of_pos (by simpa using hc), leftover, leftover, ih]

/-- The stack, from which what waits is taken away. -/
theorem foldl_resolveStep {cs : List Bytes} (h : ∀ c ∈ cs, phpTrim c = c ∧ c ≠ zeroDir) :
    ∀ stack, cs.foldl resolveStep stack = List.dropLast^[(leftover cs).1] stack ++ (leftover cs).2 := by
  induction cs with
  | nil => exact fun stack => (List.append_nil _).symm
  | cons c cs ih =>
    obtain ⟨⟨htrim, hzero⟩, h⟩ := List.forall_mem_cons.mp h
    intro stack
    rw [List.foldl_cons, ih h, leftover]
    by_cases hup : c = dirUp
    · rw [hup]
      rfl
    rw [if_neg hup]
    have hempty : phpEmpty c = true ↔ c = [] := by
      unfold phpEmpty
      rw [Bool.or_eq_true, beq_iff_eq, beq_iff_eq]
      exact or_iff_left hzero
    by_cases hdrop : c = [] ∨ c = dirHere
    · rw [if_pos (hdrop.imp_left hempty.mpr), resolveStep, if_pos hdrop]
    have hfull : ¬phpEmpty c = true := fun h => hdrop (.inl (hempty.mp h))
    rw [if_neg (show ¬(phpEmpty c = true ∨ c = dirHere) from fun h => hdrop (h.imp_left hempty.mp)),
      resolveStep, if_neg hdrop, if_neg hup, htrim, if_neg hfull, if_neg hup]
    cases (leftover cs).1 with
    | zero => exact List.append_assoc _ _ _
    | succ n =>
      rw [if_neg n.succ_ne_zero, Function.iterate_succ_apply, List.dropLast_concat]
      rfl

section WellFormed

variable {p : Bytes} (hp : WellFormed p)

include hp in
theorem leftover_wellFormed : (leftover (components p)).2 = resolve (nonzero p) := by
  have h : ∀ c ∈ nonzero p, phpTrim c = c ∧ c ≠ zeroDir := by
    intro c hc
    obtain ⟨hc, hzero⟩ := List.mem_filter.mp hc
    exact ⟨(hp c hc).1, by simpa using hzero⟩
  rw [← leftover_nonzero, resolve, foldl_resolveStep h, Function.iterate_fixed rfl]
  rfl

include hp in
theorem isName_resolve {c : Bytes} (hc : c ∈ resolve (nonzero p)) : IsName c := by
  obtain ⟨hmem, hne, hhere, -⟩ := mem_resolve hc
  obtain ⟨hmem, hzero⟩ := List.mem_filter.mp hmem
  refine ⟨?_, hhere, (hp c hmem).1⟩
  have hzero : c ≠ [48] := by simpa [zeroDir] using hzero
  simp [phpEmpty, hne, hzero]

end WellFormed

/-! ## The path -/

/-- `..` at the start are cut out. -/
theorem cutDots_ups (n : ℕ) (cs : List Bytes) :
    cutDots .none (joinComponents (List.replicate n dirUp ++ cs)) =
      cutDots .none (joinComponents cs) := by
  induction n with
  | zero => rfl
  | succ n ih =>
    rw [List.replicate_succ, List.cons_append, ← ih]
    by_cases h : List.replicate n dirUp ++ cs = []
    · rw [h]
      rfl
    · rw [joinComponents_cons dirUp h]
      rfl

/-- The slash at the start: with `..` above it, there is none. -/
def startsAtRoot (p : Bytes) : Bool :=
  (leftover (components p)).1 == 0 && phpEmpty ((components p).headD [])

def endsAtSlash (p : Bytes) : Bool := phpEmpty ((components p).getLastD [])

/-- **The path** of components in which nothing is cut. -/
theorem cleanPath_of_plain {p : Bytes} (h : ∀ c ∈ (leftover (components p)).2, NoDots c ∧ 0 ∉ c) :
    cleanPath p = joinComponents
      (atSlash (startsAtRoot p) ++ (leftover (components p)).2 ++ atSlash (endsAtSlash p)) := by
  obtain ⟨ks, hks⟩ : ∃ ks, ks = atSlash (startsAtRoot p) ++ (leftover (components p)).2 ++
    atSlash (endsAtSlash p) := ⟨_, rfl⟩
  have hall : ∀ c ∈ ks, NoDots c ∧ 0 ∉ c := by
    intro c hc
    rw [hks, List.mem_append, List.mem_append] at hc
    rcases hc with (hc | hc) | hc
    · exact mem_atSlash hc ▸ ⟨List.isChain_nil, List.not_mem_nil⟩
    · exact h c hc
    · exact mem_atSlash hc ▸ ⟨List.isChain_nil, List.not_mem_nil⟩
  have hremains : remains p = List.replicate (leftover (components p)).1 dirUp ++ ks := by
    rw [hks, remains, startsAtRoot]
    cases (leftover (components p)).1 with
    | zero => rfl
    | succ n => exact List.append_assoc _ _ _
  rw [cleanPath_eq, hremains, ← hks, eregCut, cstr_eq_self, cutDots_ups,
    cutDots_of_noDots (noDots_joinComponents fun c hc => (hall c hc).1)]
  rintro b hb rfl
  refine not_mem_joinComponents (by decide) (fun c hc => ?_) hb
  rcases List.mem_append.mp hc with hc | hc
  · rw [List.eq_of_mem_replicate hc]
    decide
  · exact (hall c hc).2

/-! ## The canonical form -/

theorem joinComponents_atSlash {cs : List Bytes} (h : cs ≠ []) (lead trail : Bool) :
    joinComponents (atSlash lead ++ cs ++ atSlash trail) =
      (if lead then [47] else []) ++ joinComponents cs ++ if trail then [47] else [] := by
  have hlead : ∀ ds : List Bytes, ds ≠ [] → joinComponents (atSlash lead ++ ds) =
      (if lead then [47] else []) ++ joinComponents ds := by
    intro ds hds
    cases lead with
    | true => exact joinComponents_cons [] hds
    | false => rfl
  have htrail : joinComponents (cs ++ atSlash trail) =
      joinComponents cs ++ if trail then [47] else [] := by
    cases trail with
    | true => exact joinComponents_concat h []
    | false =>
      rw [show atSlash false = [] from rfl, List.append_nil]
      exact (List.append_nil _).symm
  rw [List.append_assoc, hlead _ (List.append_ne_nil_of_left_ne_nil h _), htrail, List.append_assoc]

theorem canonical_eq {p : Bytes} (h : resolve (components p) ≠ []) :
    canonical p = joinComponents (atSlash (decide (IsAbsolute p)) ++ resolve (components p) ++
      atSlash (decide (EndsInSlash p))) := by
  rw [joinComponents_atSlash h, canonical]
  simp only [decide_eq_true_eq, h, ne_eq, not_false_eq_true, and_true]

theorem not_mem_around {a b : Bool} {cs : List Bytes} (hcs : ∀ c ∈ cs, 47 ∉ c) :
    ∀ c ∈ atSlash a ++ cs ++ atSlash b, 47 ∉ c := by
  intro c hc
  rw [List.mem_append, List.mem_append] at hc
  rcases hc with (hc | hc) | hc
  · exact mem_atSlash hc ▸ List.not_mem_nil
  · exact hcs c hc
  · exact mem_atSlash hc ▸ List.not_mem_nil

theorem not_mem_canonical {a b : Bool} {p : Bytes} :
    ∀ c ∈ atSlash a ++ resolve (components p) ++ atSlash b, 47 ∉ c :=
  not_mem_around fun _ hc => not_mem_of_mem_components (mem_resolve hc).1

theorem canonical_of_nothing {p : Bytes} (h : resolve (components p) = []) :
    canonical p = if IsAbsolute p then [47] else [] := by
  rw [canonical, h]
  simp [joinComponents]

/-- The names between the slashes are what they are. -/
theorem atSlash_inj {a b a' b' : Bool} {xs ys : List Bytes} (hx : ∀ x ∈ xs, x ≠ [])
    (hy : ∀ y ∈ ys, y ≠ []) (hne : ys ≠ [])
    (h : atSlash a ++ xs ++ atSlash b = atSlash a' ++ ys ++ atSlash b') :
    a = a' ∧ xs = ys ∧ b = b' := by
  have hfilter : ∀ (a b : Bool) (xs : List Bytes), (∀ x ∈ xs, x ≠ []) →
      (atSlash a ++ xs ++ atSlash b).filter (fun x => x != []) = xs := by
    intro a b xs hx
    have hslash : ∀ a, (atSlash a).filter (fun x => x != []) = [] := by decide
    rw [List.filter_append, List.filter_append, hslash, hslash, List.append_nil, List.nil_append]
    exact List.filter_eq_self.mpr fun x hm => by simpa using hx x hm
  have hxy : xs = ys := by rw [← hfilter a b xs hx, h, hfilter a' b' ys hy]
  subst hxy
  obtain ⟨x, xs, rfl⟩ := List.exists_cons_of_ne_nil hne
  have hx0 : x ≠ [] := hx x List.mem_cons_self
  have ha : a = a' := by
    have hhead := congrArg List.head? h
    cases a <;> cases a' <;> simp_all [atSlash]
  subst ha
  refine ⟨rfl, rfl, ?_⟩
  have hb := List.append_cancel_left h
  cases b <;> cases b' <;> simp_all [atSlash]

section WellFormed

variable {p : Bytes} (hp : WellFormed p)

theorem getLastD_components {c : Bytes} (h : (components p).getLast? = some c) :
    (components p).getLastD [] = c := by
  rw [List.getLastD_eq_getLast?, h]
  rfl

theorem phpEmpty_iff {c : Bytes} : phpEmpty c = true ↔ c = [] ∨ c = zeroDir := by
  unfold phpEmpty
  rw [Bool.or_eq_true, beq_iff_eq, beq_iff_eq]
  rfl

/-- A `0` at the end of a path is left. -/
theorem getLast?_ne_zeroDir (h : resolve (nonzero p) = resolve (components p)) :
    (components p).getLast? ≠ some zeroDir := by
  intro hlast
  obtain ⟨cs, hcs⟩ := List.getLast?_eq_some_iff.mp hlast
  have hmem : zeroDir ∈ resolve (components p) := by
    rw [hcs, resolve_concat]
    exact List.mem_append_right _ (List.mem_singleton_self _)
  rw [← h] at hmem
  have hzero := (List.mem_filter.mp (mem_resolve hmem).1).2
  simp at hzero

theorem endsAtSlash_iff (hne : p ≠ []) (h : resolve (nonzero p) = resolve (components p)) :
    endsAtSlash p = true ↔ EndsInSlash p := by
  obtain ⟨cs, c, hc⟩ := (List.eq_nil_or_concat' (components p)).resolve_left (components_ne_nil p)
  have hlast : (components p).getLast? = some c := by rw [hc, List.getLast?_concat]
  rw [endsAtSlash, endsInSlash_iff hne, getLastD_components hlast, phpEmpty_iff, hlast, Option.some_inj]
  refine or_iff_left fun hzero => getLast?_ne_zeroDir h ?_
  rw [hlast, hzero]

theorem startsAtRoot_iff : startsAtRoot p = true ↔ waiting (nonzero p) = 0 ∧
    ((components p).head? = some [] ∨ (components p).head? = some zeroDir) := by
  obtain ⟨c, cs, hc⟩ := List.exists_cons_of_ne_nil (components_ne_nil p)
  rw [startsAtRoot, Bool.and_eq_true, beq_iff_eq, waiting, leftover_nonzero, hc, List.headD_cons,
    phpEmpty_iff, List.head?_cons, Option.some_inj, Option.some_inj]

/-- The root is kept. -/
theorem KeptWhole.startsAtRoot (h : KeptWhole p) :
    LinboxRescue.startsAtRoot p = decide (IsAbsolute p) := by
  rw [Bool.eq_iff_iff, startsAtRoot_iff, decide_eq_true_iff, isAbsolute_iff h.nonempty]
  refine ⟨fun ⟨hw, hhead⟩ => ?_, fun habs => ⟨?_, .inl habs⟩⟩
  · exact hhead.resolve_right fun hzero => h.noRoot hzero hw
  · exact h.root ((isAbsolute_iff h.nonempty).mpr habs)

include hp in
theorem KeptWhole.canonical (h : KeptWhole p) :
    cleanPath p = LinboxRescue.canonical p ∧ cleanPath (cleanPath p) = cleanPath p := by
  have hends : endsAtSlash p = decide (EndsInSlash p) := by
    rw [Bool.eq_iff_iff, endsAtSlash_iff h.nonempty h.zeros, decide_eq_true_iff]
  have hleft : (leftover (components p)).2 = resolve (components p) :=
    (leftover_wellFormed hp).trans h.zeros
  have hclean := cleanPath_of_plain (p := p) (by rw [hleft]; exact h.plain)
  rw [hleft, h.startsAtRoot, hends] at hclean
  refine ⟨?_, ?_⟩
  · by_cases hnil : resolve (components p) = []
    · obtain ⟨habs, hslash⟩ := h.left hnil
      rw [hclean, canonical_of_nothing hnil, hnil, if_pos habs, decide_eq_true habs,
        decide_eq_true hslash]
      rfl
    · rw [hclean, canonical_eq hnil]
  · have hnames : ∀ c ∈ resolve (components p), IsName c := fun c hc =>
      isName_resolve hp (h.zeros ▸ hc)
    have htidy : Tidy (atSlash (decide (IsAbsolute p)) ++ resolve (components p) ++
        atSlash (decide (EndsInSlash p))) :=
      ⟨_, _, _, hnames, fun hnil => (h.left hnil).imp decide_eq_true decide_eq_true, rfl⟩
    rw [cleanPath_twice_iff, hclean, components_joinComponents not_mem_canonical htidy.ne_nothing.1]
    exact htidy

include hp in
/-- A path that is the canonical one and stays it. -/
theorem keptWhole_of_canonical (hcanon : cleanPath p = canonical p)
    (htwice : cleanPath (cleanPath p) = cleanPath p) : KeptWhole p := by
  have hparts : ∀ c ∈ resolve (components p), NoDots c ∧ 0 ∉ c := by
    intro c hc
    have hne : resolve (components p) ≠ [] := List.ne_nil_of_mem hc
    have hpart : c <:+: cleanPath p := by
      rw [hcanon, canonical_eq hne]
      exact infix_joinComponents (List.mem_append_left _ (List.mem_append_right _ hc))
    exact ⟨(noDots_cleanPath p).part hpart, fun hm => not_mem_cleanPath p (hpart.mem hm)⟩
  have hsub : (resolve (nonzero p)).Sublist (resolve (components p)) := resolve_filter_sublist rfl _
  have hclean := cleanPath_of_plain (p := p) fun c hc =>
    hparts c (hsub.mem (leftover_wellFormed hp ▸ hc))
  rw [leftover_wellFormed hp] at hclean
  obtain ⟨M, hM⟩ : ∃ M, M = atSlash (startsAtRoot p) ++ resolve (nonzero p) ++
    atSlash (endsAtSlash p) := ⟨_, rfl⟩
  rw [← hM] at hclean
  have hslash : ∀ c ∈ M, 47 ∉ c := by
    rw [hM]
    exact not_mem_around fun c hc =>
      not_mem_of_mem_components (List.mem_of_mem_filter (mem_resolve hc).1)
  -- what is put together is tidy, so there is more than an empty component
  have htidy : Tidy M := by
    have htidy := (cleanPath_twice_iff p).mp htwice
    rw [hclean] at htidy
    by_cases hnil : M = []
    · rw [hnil] at htidy
      exact absurd rfl htidy.ne_nothing.2
    · rwa [components_joinComponents hslash hnil] at htidy
  have hp0 : p ≠ [] := by
    rintro rfl
    exact absurd hcanon (by decide)
  by_cases hnil : resolve (components p) = []
  · have hzeros : resolve (nonzero p) = [] := List.sublist_nil.mp (hnil ▸ hsub)
    rw [hzeros, List.append_nil] at hM
    obtain ⟨hstart, hend⟩ : startsAtRoot p = true ∧ endsAtSlash p = true := by
      have htwo := htidy.ne_nothing
      rw [hM] at htwo
      cases h1 : startsAtRoot p <;> cases h2 : endsAtSlash p <;> simp_all [atSlash]
    have habs : IsAbsolute p := by
      by_contra habs
      rw [canonical_of_nothing hnil, if_neg habs, hclean, hM, hstart, hend] at hcanon
      exact absurd hcanon (by decide)
    refine ⟨hp0, hzeros.trans hnil.symm, fun _ => (startsAtRoot_iff.mp hstart).1, fun hzero => ?_,
      fun _ => ⟨habs, (endsAtSlash_iff hp0 (hzeros.trans hnil.symm)).mp hend⟩, hparts⟩
    rw [(isAbsolute_iff hp0).mp habs] at hzero
    cases hzero
  · rw [canonical_eq hnil, hclean] at hcanon
    have hsame := congrArg components hcanon
    rw [components_joinComponents hslash htidy.ne_nothing.1,
      components_joinComponents not_mem_canonical (by simp [hnil]), hM] at hsame
    obtain ⟨hstart, hzeros, -⟩ := atSlash_inj (fun x hx => (mem_resolve hx).2.1)
      (fun x hx => (mem_resolve hx).2.1) hnil hsame
    rw [Bool.eq_iff_iff, startsAtRoot_iff, decide_eq_true_iff] at hstart
    refine ⟨hp0, hzeros, fun habs => (hstart.mpr habs).1, fun hzero hw => ?_, fun h => absurd h hnil,
      hparts⟩
    have habs := (isAbsolute_iff hp0).mp (hstart.mp ⟨hw, .inr hzero⟩)
    rw [habs] at hzero
    cases hzero

end WellFormed

/-! ## Any string -/

/-- What a clean path is to be. -/
def Cleans (p : Bytes) : Prop :=
  (WellFormed p → cleanPath p = canonical p) ∧ ¬dirUp <:+: cleanPath p ∧
    cleanPath (cleanPath p) = cleanPath p

/-- **When it is**: a well-formed path is kept whole; in another string, every group of the components
that `..` leaves makes a name. -/
theorem cleans_iff (p : Bytes) :
    Cleans p ↔ (WellFormed p → KeptWhole p) ∧ (¬WellFormed p → SettledPath p) := by
  unfold Cleans
  by_cases hp : WellFormed p
  · constructor
    · rintro ⟨hcanon, -, htwice⟩
      exact ⟨fun _ => keptWhole_of_canonical hp (hcanon hp) htwice, fun h => absurd hp h⟩
    · rintro ⟨hkept, -⟩
      obtain ⟨hcanon, htwice⟩ := (hkept hp).canonical hp
      exact ⟨fun _ => hcanon, no_dirUp_in_cleanPath p, htwice⟩
  · rw [settled_iff]
    exact ⟨fun h => ⟨fun h' => absurd h' hp, fun _ => h.2.2⟩,
      fun h => ⟨fun h' => absurd h' hp, no_dirUp_in_cleanPath p, h.2 hp⟩⟩

instance (p : Bytes) : Decidable (WellFormed p) :=
  inferInstanceAs (Decidable (∀ c ∈ components p, phpTrim c = c ∧ (c = dirUp ∨ ¬dirUp <:+: c)))

/-- A directory `0` is lost, and so is the root behind a `..`; of `.` nothing is left, but twice. -/
theorem zeroDir_lost : ¬Cleans (ascii "/srv/0") ∧
    (WellFormed (ascii "/srv/0") ∧ canonical (ascii "/srv/0") = ascii "/srv/0" ∧
      cleanPath (ascii "/srv/0") = ascii "/srv/") ∧
    (WellFormed (ascii "/../srv") ∧ canonical (ascii "/../srv") = ascii "/srv" ∧
      cleanPath (ascii "/../srv") = ascii "srv") ∧
    cleanPath (ascii ".") = [] ∧ cleanPath (cleanPath (ascii ".")) = ascii "/" := by
  refine ⟨fun h => ?_, by decide, by decide, by decide⟩
  have hcanon := h.1 (by decide)
  revert hcanon
  decide

end LinboxRescue
