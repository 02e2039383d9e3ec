import LinboxRescue.Lib.Perl

/-!
# Paths, without a file system

A path is components with slashes between them. `resolve` goes over them with a stack, `canonical` is
the path it leads to.
-/

namespace LinboxRescue

/-- `.` and `..`. -/
def dirHere : Bytes := [46]

def dirUp : Bytes := [46, 46]

/-! ## Components -/

def components (p : Bytes) : List Bytes := p.splitOn 47

def joinComponents (cs : List Bytes) : Bytes := List.intercalate [47] cs

theorem joinComponents_components (p : Bytes) : joinComponents (components p) = p :=
  List.intercalate_splitOn 47

theorem components_joinComponents {cs : List Bytes} (h : ∀ c ∈ cs, 47 ∉ c) (hne : cs ≠ []) :
    components (joinComponents cs) = cs :=
  List.splitOn_intercalate 47 h hne

theorem components_ne_nil (p : Bytes) : components p ≠ [] := List.splitOn_ne_nil 47 p

theorem joinComponents_singleton (c : Bytes) : joinComponents [c] = c := List.intercalate_singleton

theorem joinComponents_cons (c : Bytes) {cs : List Bytes} (h : cs ≠ []) :
    joinComponents (c :: cs) = c ++ 47 :: joinComponents cs := by
  unfold joinComponents
  rw [List.intercalate_cons_of_ne_nil h, List.append_assoc, List.singleton_append]

theorem joinComponents_concat {cs : List Bytes} (h : cs ≠ []) (c : Bytes) :
    joinComponents (cs ++ [c]) = joinComponents cs ++ 47 :: c := by
  induction cs with
  | nil => exact absurd rfl h
  | cons d cs ih =>
    by_cases hcs : cs = []
    · rw [hcs, List.singleton_append, joinComponents_cons d (List.cons_ne_nil c []),
        joinComponents_singleton, joinComponents_singleton]
    · rw [List.cons_append, joinComponents_cons d (by simp), ih hcs, joinComponents_cons d hcs,
        List.append_assoc, List.cons_append]

theorem not_mem_of_mem_components {p c : Bytes} (h : c ∈ components p) : 47 ∉ c := (of_mem_splitOn h).1

/-- A component is a part of the path. -/
theorem infix_joinComponents {c : Bytes} {cs : List Bytes} (h : c ∈ cs) : c <:+: joinComponents cs := by
  induction cs with
  | nil => cases h
  | cons d cs ih =>
    by_cases hcs : cs = []
    · subst hcs
      rw [List.mem_singleton.mp h, joinComponents_singleton]
    · rw [joinComponents_cons d hcs]
      rcases List.mem_cons.mp h with rfl | h
      · exact (List.prefix_append _ _).isInfix
      · exact (ih h).trans ((List.suffix_cons 47 _).trans (List.suffix_append d _)).isInfix

/-! ## The ends -/

/-- The path starts with a slash; it ends with one. -/
def IsAbsolute (p : Bytes) : Prop := p.head? = some 47

def EndsInSlash (p : Bytes) : Prop := p.getLast? = some 47

instance (p : Bytes) : Decidable (IsAbsolute p) := inferInstanceAs (Decidable (_ = _))

instance (p : Bytes) : Decidable (EndsInSlash p) := inferInstanceAs (Decidable (_ = _))

theorem isAbsolute_iff {p : Bytes} (hp : p ≠ []) :
    IsAbsolute p ↔ (components p).head? = some [] := by
  obtain ⟨c, cs, hc⟩ := List.exists_cons_of_ne_nil (components_ne_nil p)
  have hslash : 47 ∉ c := not_mem_of_mem_components (hc ▸ List.mem_cons_self)
  have hjoin := joinComponents_components p
  rw [hc] at hjoin ⊢
  unfold IsAbsolute
  by_cases hcs : cs = []
  · subst hcs
    rw [joinComponents_singleton] at hjoin
    subst hjoin
    refine ⟨fun h => absurd (List.mem_of_mem_head? h) hslash, fun h => absurd (Option.some.inj h) hp⟩
  · rw [joinComponents_cons c hcs] at hjoin
    rw [← hjoin]
    cases c with
    | nil => exact ⟨fun _ => rfl, fun _ => rfl⟩
    | cons b c =>
      refine ⟨fun h => absurd (Option.some.inj h) fun e => hslash (e ▸ List.mem_cons_self), fun h => ?_⟩
      cases h

theorem endsInSlash_iff {p : Bytes} (hp : p ≠ []) :
    EndsInSlash p ↔ (components p).getLast? = some [] := by
  obtain ⟨cs, c, hc⟩ := (List.eq_nil_or_concat' (components p)).resolve_left (components_ne_nil p)
  have hslash : 47 ∉ c := not_mem_of_mem_components (p := p) (by rw [hc]; simp)
  have hjoin := joinComponents_components p
  rw [hc] at hjoin ⊢
  rw [List.getLast?_concat]
  unfold EndsInSlash
  by_cases hcs : cs = []
  · subst hcs
    rw [List.nil_append, joinComponents_singleton] at hjoin
    subst hjoin
    refine ⟨fun h => absurd (List.mem_of_getLast? h) hslash, fun h => absurd (Option.some.inj h) hp⟩
  · rw [joinComponents_concat hcs] at hjoin
    rw [← hjoin]
    by_cases hcn : c = []
    · subst hcn
      simp
    · rw [List.getLast?_append_of_ne_nil _ (List.cons_ne_nil _ _), List.getLast?_cons_of_ne_nil hcn]
      refine ⟨fun h => absurd (List.mem_of_getLast? h) hslash, fun h => absurd (Option.some.inj h) hcn⟩

/-! ## Resolution -/

/-- One component: `.` and the empty one say nothing, `..` takes the last one back. -/
def resolveStep (stack : List Bytes) (c : Bytes) : List Bytes :=
  if c = [] ∨ c = dirHere then stack
  else if c = dirUp then stack.dropLast
  else stack ++ [c]

def resolve (cs : List Bytes) : List Bytes := cs.foldl resolveStep []

theorem mem_resolveStep {stack : List Bytes} {c x : Bytes} (h : x ∈ resolveStep stack c) :
    x ∈ stack ∨ x = c ∧ c ≠ [] ∧ c ≠ dirHere ∧ c ≠ dirUp := by
  unfold resolveStep at h
  split_ifs at h with hdrop hup
  · exact .inl h
  · exact .inl (List.mem_of_mem_dropLast h)
  · rw [not_or] at hdrop
    exact (List.mem_append.mp h).imp id fun h => ⟨List.mem_singleton.mp h, hdrop.1, hdrop.2, hup⟩

/-- What is left was there, and is a name. -/
theorem mem_resolve {cs : List Bytes} {x : Bytes} (h : x ∈ resolve cs) :
    x ∈ cs ∧ x ≠ [] ∧ x ≠ dirHere ∧ x ≠ dirUp := by
  suffices hall : ∀ stack, x ∈ cs.foldl resolveStep stack →
      x ∈ stack ∨ x ∈ cs ∧ x ≠ [] ∧ x ≠ dirHere ∧ x ≠ dirUp from
    (hall [] h).resolve_left List.not_mem_nil
  clear h
  induction cs with
  | nil => exact fun stack h => .inl h
  | cons c cs ih =>
    intro stack h
    rcases ih _ h with h | ⟨h, hx⟩
    · rcases mem_resolveStep h with h | ⟨rfl, hx⟩
      · exact .inl h
      · exact .inr ⟨List.mem_cons_self, hx⟩
    · exact .inr ⟨List.mem_cons_of_mem c h, hx⟩

theorem sublist_dropLast {xs ys : List Bytes} (h : xs.Sublist ys) :
    xs.dropLast.Sublist ys.dropLast := by
  have htail := h.reverse.tail
  rw [List.tail_reverse, List.tail_reverse] at htail
  exact List.reverse_sublist.mp htail

/-- Without some of the names, less is left. -/
theorem resolve_filter_sublist {keep : Bytes → Bool} (hup : keep dirUp = true) (cs : List Bytes) :
    (resolve (cs.filter keep)).Sublist (resolve cs) := by
  suffices hall : ∀ less stack : List Bytes, less.Sublist stack →
      ((cs.filter keep).foldl resolveStep less).Sublist (cs.foldl resolveStep stack) from
    hall [] [] (List.Sublist.refl _)
  induction cs with
  | nil => exact fun less stack h => h
  | cons c cs ih =>
    intro less stack h
    have hkept : (resolveStep less c).Sublist (resolveStep stack c) := by
      unfold resolveStep
      split_ifs
      · exact h
      · exact sublist_dropLast h
      · exact h.append_right [c]
    by_cases hc : keep c = true
    · rw [List.filter_cons_of_pos hc]
      exact ih _ _ hkept
    · rw [List.filter_cons_of_neg hc]
      refine ih _ _ ?_
      unfold resolveStep
      split_ifs with hdrop hcup
      · exact h
      · exact absurd (hcup ▸ hup) hc
      · exact h.trans (List.sublist_append_left stack [c])

theorem resolve_concat (cs : List Bytes) (c : Bytes) :
    resolve (cs ++ [c]) = resolveStep (resolve cs) c := by
  unfold resolve
  rw [List.foldl_append]
  rfl

/-- The canonical form of a path. -/
def canonical (p : Bytes) : Bytes :=
  let cs := resolve (components p)
  (if IsAbsolute p then [47] else []) ++ joinComponents cs ++
    (if EndsInSlash p ∧ cs ≠ [] then [47] else [])

example : canonical (ascii "/a/./../../b//c/") = ascii "/b/c/" := by decide

end LinboxRescue
