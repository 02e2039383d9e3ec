import LinboxRescue.Lsc.Path

/-!
# Names of hosts and of targets

A name is made of parts: a profile, groups and a host. `LSC_Path` takes it apart again
(`ofBytes_pathBytes`), the table of hosts has it as a key, and the key is searched for the text of a
target.

`LscTarget.Has` says which hosts a target is about, in terms of the parts; `matched_iff` says which
hosts the regular expression of a target finds.
-/

namespace LinboxRescue

/-! ## Parts -/

/-- A profile, a group or a host. -/
abbrev NamePart := {w : Bytes // w ≠ [] ∧ 58 ∉ w ∧ 47 ∉ w}

/-- `profile:group/…/host`, `profile:host`, `group/…/host` or `host`. -/
structure HostName where
  profile : Option NamePart
  groups : List NamePart
  host : NamePart
  deriving DecidableEq

/-- A path as it is documented: without a profile, the colon may be there or not. -/
structure LscTarget where
  profile : Option NamePart
  colon : Bool
  groups : List NamePart
  host : Option NamePart
  deriving DecidableEq

def partBytes (part : Option NamePart) : Bytes := part.elim [] Subtype.val

def groupBytes (groups : List NamePart) : List Bytes := groups.map Subtype.val

/-- `group/…/last`. -/
def slashed (groups : List NamePart) (last : Bytes) : Bytes :=
  groups.flatMap (fun g => g.1 ++ [47]) ++ last

def pathBytes (profile : Option NamePart) (colon : Bool) (groups : List NamePart) (last : Bytes) :
    Bytes :=
  match profile with
  | some p => p.1 ++ 58 :: slashed groups last
  | none => if colon then 58 :: slashed groups last else slashed groups last

def HostName.bytes (n : HostName) : Bytes := pathBytes n.profile false n.groups n.host.1

def LscTarget.bytes (g : LscTarget) : Bytes :=
  pathBytes g.profile g.colon g.groups (partBytes g.host)

/-- No profile, or `all`. -/
def LscTarget.AnyProfile (g : LscTarget) : Prop :=
  partBytes g.profile = profileAll ∨ partBytes g.profile = []

instance (g : LscTarget) : Decidable g.AnyProfile := inferInstanceAs (Decidable (_ ∨ _))

/-- Whether a host with this profile can be in the target. -/
def LscTarget.FitsProfile (g : LscTarget) (profile : Option NamePart) : Prop :=
  if g.AnyProfile then True
  else if partBytes g.profile = profileNone then profile = none
  else profile = g.profile

instance (g : LscTarget) (profile : Option NamePart) : Decidable (g.FitsProfile profile) := by
  unfold LscTarget.FitsProfile
  infer_instance

/-- **The hosts of a target**: they have its profile, its groups as the first ones, and its host if
it names one. -/
def LscTarget.Has (g : LscTarget) (n : HostName) : Prop :=
  g.FitsProfile n.profile ∧ g.groups <+: n.groups ∧ ∀ h ∈ g.host, n.host = h

instance (g : LscTarget) (n : HostName) : Decidable (g.Has n) :=
  inferInstanceAs (Decidable (_ ∧ _ ∧ _))

/-! ## Taking a name apart -/

section Parts

theorem head?_part (p : NamePart) {c : UInt8} (hc : c ∉ p.1) (w : Bytes) :
    (p.1 ++ w).head? ≠ some c := by
  obtain ⟨b, v, hv⟩ := List.exists_cons_of_ne_nil p.2.1
  have hb : b ≠ c := fun hb => hc (by rw [hv, hb]; exact List.mem_cons_self)
  rw [hv]
  exact fun he => hb (Option.some.inj he)

variable {groups : List NamePart} {last : Bytes}

theorem slashed_cons (g : NamePart) :
    slashed (g :: groups) last = g.1 ++ 47 :: slashed groups last := by
  unfold slashed
  rw [List.flatMap_cons, List.append_assoc, List.append_assoc, List.singleton_append]

theorem slashed_append (more : List NamePart) :
    slashed (groups ++ more) last = slashed groups [] ++ slashed more last := by
  unfold slashed
  rw [List.flatMap_append, List.append_nil, List.append_assoc]

theorem head?_slashed {c : UInt8} (hc : ∀ p : NamePart, c ∉ p.1) (groups : List NamePart) (p : NamePart) :
    (slashed groups p.1).head? ≠ some c := by
  cases groups with
  | nil => exact (List.append_nil p.1 ▸ head?_part p (hc p) [] : p.1.head? ≠ some c)
  | cons g groups =>
    rw [slashed_cons]
    exact head?_part g (hc g) _

/-- The path of the groups of a regular expression. -/
theorem implode_groupBytes (h : groups ≠ []) :
    implode (groupBytes groups) ++ 47 :: last = slashed groups last := by
  unfold implode groupBytes
  induction groups with
  | nil => exact absurd rfl h
  | cons g groups ih =>
    cases groups with
    | nil => rw [slashed_cons]; simp [slashed]
    | cons g' groups =>
      have ih := ih (List.cons_ne_nil g' groups)
      rw [slashed_cons, ← ih, List.map_cons, List.intercalate_cons_of_ne_nil (by simp)]
      simp

theorem not_mem_slashed (groups : List NamePart) (h : 58 ∉ last) : 58 ∉ slashed groups last := by
  induction groups with
  | nil => exact h
  | cons g groups ih =>
    rw [slashed_cons, List.mem_append, List.mem_cons]
    rintro (hg | h47 | hs)
    · exact g.2.2.1 hg
    · exact absurd h47 (by decide)
    · exact ih hs

theorem splitOn_slashed (h : 47 ∉ last) :
    (slashed groups last).splitOn 47 = groupBytes groups ++ [last] := by
  induction groups with
  | nil => exact List.splitOn_eq_singleton h
  | cons g groups ih =>
    rw [slashed_cons, List.splitOn_append_cons_self_of_not_mem g.2.2.2, ih]
    rfl

theorem mem_slashed (h : 47 ∉ last) : 47 ∈ slashed groups last ↔ groups ≠ [] := by
  cases groups with
  | nil => exact ⟨fun hm => absurd hm h, fun hn => absurd rfl hn⟩
  | cons g groups =>
    rw [slashed_cons]
    exact ⟨fun _ => List.cons_ne_nil g groups, fun _ => List.mem_append_right _ List.mem_cons_self⟩

/-- Groups are leading ones if their path is. -/
theorem slashed_prefix_iff {leading : List NamePart} (h : 47 ∉ last) :
    slashed leading [] <+: slashed groups last ↔ leading <+: groups := by
  refine ⟨fun hp => ?_, fun ⟨more, hm⟩ => ?_⟩
  · induction leading generalizing groups with
    | nil => exact List.nil_prefix
    | cons g leading ih =>
      obtain ⟨u, hu⟩ := hp
      have hs := congrArg (List.splitOn 47) hu
      rw [slashed_cons, List.append_assoc, List.cons_append,
        List.splitOn_append_cons_self_of_not_mem g.2.2.2, splitOn_slashed h] at hs
      cases groups with
      | nil => exact absurd (List.cons.inj hs).2 (List.splitOn_ne_nil _ _)
      | cons g' groups =>
        have hg : g = g' := Subtype.ext (List.cons.inj hs).1
        subst hg
        rw [slashed_cons, slashed_cons, List.append_assoc, List.cons_append] at hu
        have hu := (List.cons.inj (List.append_cancel_left hu)).2
        exact List.cons_prefix_cons.mpr ⟨rfl, ih ⟨u, hu⟩⟩
  · rw [← hm, slashed_append]
    exact List.prefix_append _ _

variable {profile : Option NamePart} {colon : Bool}

theorem splitProfile_pathBytes (h : 58 ∉ last) :
    splitProfile (pathBytes profile colon groups last) = (partBytes profile, slashed groups last) := by
  have hs := not_mem_slashed groups h
  unfold splitProfile pathBytes
  cases profile with
  | some p =>
    dsimp only
    rw [if_neg (by simp), if_neg (head?_part p p.2.2.1 _), List.splitOn_append_cons_self_of_not_mem p.2.2.1,
      List.splitOn_eq_singleton hs]
    rfl
  | none =>
    cases colon with
    | true => simp [partBytes]
    | false => simp [partBytes, hs]

/-- **`LSC_Path`** finds the parts. -/
theorem ofBytes_pathBytes (h58 : 58 ∉ last) (h47 : 47 ∉ last) :
    LscPath.ofBytes (pathBytes profile colon groups last) = ⟨partBytes profile, groupBytes groups, last⟩ := by
  have hne : ∀ g ∈ groupBytes groups, g ≠ [] := by
    intro g hg
    obtain ⟨g', -, rfl⟩ := List.mem_map.mp hg
    exact g'.2.1
  unfold LscPath.ofBytes
  rw [splitProfile_pathBytes h58]
  dsimp only
  rw [splitOn_slashed h47, List.dropLast_concat, List.getLastD_concat,
    List.filter_eq_self.mpr fun g hg => decide_eq_true (hne g hg)]
  split_ifs with hc
  · rfl
  · rw [List.contains_iff_mem, mem_slashed h47, not_not] at hc
    rw [hc]
    rfl

end Parts

/-! ## Keys -/

section Keys

theorem partBytes_spec (part : Option NamePart) : 58 ∉ partBytes part ∧ 47 ∉ partBytes part := by
  cases part with
  | none => exact ⟨List.not_mem_nil, List.not_mem_nil⟩
  | some p => exact p.2.2

theorem LscTarget.ofBytes_bytes (g : LscTarget) :
    LscPath.ofBytes g.bytes = ⟨partBytes g.profile, groupBytes g.groups, partBytes g.host⟩ :=
  ofBytes_pathBytes (partBytes_spec g.host).1 (partBytes_spec g.host).2

variable (n : HostName)

theorem HostName.ofBytes_bytes :
    LscPath.ofBytes n.bytes = ⟨partBytes n.profile, groupBytes n.groups, n.host.1⟩ :=
  ofBytes_pathBytes n.host.2.2.1 n.host.2.2.2

theorem HostName.colonKey_bytes :
    colonKey n.bytes = partBytes n.profile ++ 58 :: slashed n.groups n.host.1 := by
  have hs := not_mem_slashed n.groups n.host.2.2.1
  unfold colonKey HostName.bytes pathBytes
  cases n.profile with
  | some p => exact if_pos (by simp)
  | none => exact if_neg (by simpa using hs)

theorem HostName.shortName_colonKey : shortName (colonKey n.bytes) = n.host.1 := by
  rw [n.colonKey_bytes]
  unfold shortName afterLast
  rw [List.splitOn_append_cons_self_of_not_mem (partBytes_spec n.profile).1,
    List.splitOn_eq_singleton (not_mem_slashed n.groups n.host.2.2.1)]
  change ((slashed n.groups n.host.1).splitOn 47).getLastD [] = _
  rw [splitOn_slashed n.host.2.2.2, List.getLastD_concat]

/-- A key does not start with a colon. -/
theorem HostName.head?_bytes : n.bytes.head? ≠ some 58 := by
  unfold HostName.bytes pathBytes
  cases n.profile with
  | some p => exact head?_part p p.2.2.1 _
  | none => exact head?_slashed (fun p => p.2.2.1) n.groups n.host

end Keys

/-! ## The regular expression of a target -/

section Match

/-- The regular expression finds the host although it is not in the target: the groups are inside
the name somewhere, or the name goes on after them without a slash. -/
def LscTarget.Stray (g : LscTarget) (n : HostName) : Prop :=
  ¬g.Has n ∧
    if g.AnyProfile then g.groups ≠ [] ∧ slashed g.groups [] <:+: colonKey n.bytes
    else partBytes g.profile ≠ profileNone ∧
      partBytes g.profile ++ 58 :: implode (groupBytes g.groups) <+: colonKey n.bytes

/-- The target is about hosts without a profile, in any group. -/
def LscTarget.Unmatched (g : LscTarget) : Prop := partBytes g.profile = profileNone ∧ g.groups = []

/-- The target holds nothing that stands for something else in a regular expression. -/
def LscTarget.Plain (g : LscTarget) : Prop :=
  ∀ b ∈ partBytes g.profile ++ implode (groupBytes g.groups), b ∉ Ere.special

instance (g : LscTarget) (n : HostName) : Decidable (g.Stray n) := by
  unfold LscTarget.Stray
  infer_instance

variable {g : LscTarget} {n : HostName}

theorem LscTarget.Stray.not_unmatched (h : g.Stray n) : ¬g.Unmatched := by
  rintro ⟨hnone, hgroups⟩
  obtain ⟨-, h⟩ := h
  split_ifs at h
  · exact h.1 hgroups
  · exact h.1 hnone

/-- Without a host. -/
theorem LscTarget.has_iff (hhost : g.host = none) :
    g.Has n ↔ g.FitsProfile n.profile ∧ g.groups <+: n.groups := by
  unfold LscTarget.Has
  rw [hhost]
  exact and_congr_right fun _ => and_iff_left (by rintro h ⟨⟩)

theorem LscTarget.Plain.groups (h : g.Plain) {last : Bytes} (hlast : ∀ b ∈ last, b ∉ Ere.special) :
    ∀ b ∈ implode (groupBytes g.groups) ++ last, b ∉ Ere.special := by
  intro b hb
  obtain hb | hb := List.mem_append.mp hb
  · exact h b (List.mem_append_right _ hb)
  · exact hlast b hb

/-- A path of groups stands before the colon of no key. -/
theorem not_prefix_slash {w rest : Bytes} {profile : Option NamePart} (h58 : 58 ∉ w) :
    ¬w ++ [47] <+: partBytes profile ++ 58 :: rest := by
  rintro ⟨v, hv⟩
  have hp := partBytes_spec profile
  rw [List.append_assoc, List.singleton_append] at hv
  obtain ⟨u, hu, hu'⟩ | ⟨u, hu, hu'⟩ := List.append_eq_append_iff.mp hv
  · cases u with
    | nil => cases hu'
    | cons b u =>
      refine hp.2 ?_
      rw [hu, (List.cons.inj hu').1]
      exact List.mem_append_right _ List.mem_cons_self
  · cases u with
    | nil => cases hu'
    | cons b u =>
      refine h58 ?_
      rw [hu, (List.cons.inj hu').1]
      exact List.mem_append_right _ List.mem_cons_self

/-- The path of a target, as `LSC_Path` has it. -/
def LscTarget.path (g : LscTarget) : LscPath :=
  ⟨partBytes g.profile, groupBytes g.groups, partBytes g.host⟩

/-- **Any profile**: the groups may be anywhere in a key. -/
theorem matched_any (hhost : g.host = none) (hplain : g.Plain) (hany : g.AnyProfile) :
    ereg g.path.matchPattern (colonKey n.bytes) = true ↔ g.Has n ∨ g.Stray n := by
  have hhas : g.Has n ↔ g.groups <+: n.groups := by
    rw [LscTarget.has_iff hhost]
    unfold LscTarget.FitsProfile
    rw [if_pos hany, true_and]
  unfold LscPath.matchPattern LscTarget.Stray
  rw [if_pos hany, if_pos (show g.path.profile = profileAll ∨ g.path.profile = [] from hany), hhas]
  by_cases hg : g.groups = []
  · rw [hg, if_pos (show g.path.groups = [] from congrArg groupBytes hg)]
    refine ⟨fun _ => .inl List.nil_prefix, fun _ => Ere.ereg_any.mpr ?_⟩
    rw [n.colonKey_bytes]
    exact List.append_ne_nil_of_right_ne_nil _ (List.cons_ne_nil _ _)
  · have hpattern : ascii ".*:?" ++ implode (groupBytes g.groups) ++ ascii "/.*" =
        46 :: 42 :: 58 :: 63 :: (implode (groupBytes g.groups) ++ [47] ++ [46, 42]) := by
      rw [List.append_assoc _ [47]]
      rfl
    rw [if_neg (show g.path.groups ≠ [] from fun h => hg (List.map_eq_nil_iff.mp h))]
    change ereg (ascii ".*:?" ++ implode (groupBytes g.groups) ++ ascii "/.*") _ = true ↔ _
    rw [hpattern, Ere.ereg_infix (by decide) (hplain.groups (by decide)), implode_groupBytes hg]
    refine ⟨fun h => ?_, ?_⟩
    · by_cases hp : g.groups <+: n.groups
      · exact .inl hp
      · exact .inr ⟨hp, hg, h⟩
    · rintro (⟨more, hm⟩ | ⟨-, -, h⟩)
      · rw [n.colonKey_bytes, ← hm, slashed_append]
        exact ⟨partBytes n.profile ++ [58], slashed more n.host.1, by simp⟩
      · exact h

/-- **No profile**: only the hosts of the target are found, if it has groups. -/
theorem matched_none (hhost : g.host = none) (hplain : g.Plain) (hnone : partBytes g.profile = profileNone) :
    ereg g.path.matchPattern (colonKey n.bytes) = true ↔ g.Has n ∧ g.groups ≠ [] := by
  have hany : ¬g.AnyProfile := by
    unfold LscTarget.AnyProfile
    rw [hnone]
    decide
  have hhas : g.Has n ↔ n.profile = none ∧ g.groups <+: n.groups := by
    rw [LscTarget.has_iff hhost]
    unfold LscTarget.FitsProfile
    rw [if_neg hany, if_pos hnone]
  have h58 : 58 ∉ implode (groupBytes g.groups) := by
    intro hm
    by_cases hg : g.groups = []
    · rw [hg] at hm
      exact absurd hm List.not_mem_nil
    · have hs : 58 ∉ slashed g.groups [] := not_mem_slashed g.groups List.not_mem_nil
      rw [← implode_groupBytes hg] at hs
      exact hs (List.mem_append_left _ hm)
  have hpattern : ascii "^:?" ++ implode (groupBytes g.groups) ++ ascii "/.*" =
      94 :: 58 :: 63 :: (implode (groupBytes g.groups) ++ [47] ++ [46, 42]) := by
    rw [List.append_assoc _ [47]]
    rfl
  unfold LscPath.matchPattern
  rw [if_neg (show ¬(g.path.profile = profileAll ∨ g.path.profile = []) from hany),
    if_pos (show g.path.profile = profileNone from hnone)]
  change ereg (ascii "^:?" ++ implode (groupBytes g.groups) ++ ascii "/.*") _ = true ↔ _
  rw [hpattern, Ere.ereg_optPrefix (by decide) (hplain.groups (by decide)), n.colonKey_bytes, hhas,
    or_iff_right (not_prefix_slash h58)]
  cases hprof : n.profile with
  | some p =>
    refine ⟨fun ⟨v, hv⟩ => ?_, fun h => absurd h.1.1 (Option.some_ne_none p)⟩
    exact absurd (congrArg List.head? hv).symm (head?_part p p.2.2.1 _)
  | none =>
    change 58 :: _ <+: 58 :: _ ↔ _
    rw [List.cons_prefix_cons, and_iff_right rfl, and_iff_right rfl]
    by_cases hg : g.groups = []
    · rw [hg]
      refine ⟨fun ⟨v, hv⟩ => ?_, fun h => absurd rfl h.2⟩
      exact absurd (congrArg List.head? hv).symm (head?_slashed (fun p => p.2.2.2) n.groups n.host)
    · rw [implode_groupBytes hg, slashed_prefix_iff n.host.2.2.2, and_iff_left hg]

/-- **One profile**: the name goes on in any way. -/
theorem matched_profile (hhost : g.host = none) (hplain : g.Plain) (hany : ¬g.AnyProfile)
    (hnone : partBytes g.profile ≠ profileNone) :
    ereg g.path.matchPattern (colonKey n.bytes) = true ↔ g.Has n ∨ g.Stray n := by
  have hhas : g.Has n ↔ n.profile = g.profile ∧ g.groups <+: n.groups := by
    rw [LscTarget.has_iff hhost]
    unfold LscTarget.FitsProfile
    rw [if_neg hany, if_neg hnone]
  have hw : ∀ b ∈ partBytes g.profile ++ 58 :: implode (groupBytes g.groups), b ∉ Ere.special := by
    intro b hb
    obtain hb | hb := List.mem_append.mp hb
    · exact hplain b (List.mem_append_left _ hb)
    · obtain rfl | hb := List.mem_cons.mp hb
      · decide
      · exact hplain b (List.mem_append_right _ hb)
  have hpattern : ascii "^" ++ partBytes g.profile ++ ascii ":" ++
      implode (groupBytes g.groups) ++ ascii ".*" =
      94 :: (partBytes g.profile ++ 58 :: implode (groupBytes g.groups) ++ [46, 42]) := by
    rw [List.append_assoc _ (ascii ":"), List.append_assoc (ascii "^"), List.append_assoc (ascii "^")]
    rfl
  unfold LscPath.matchPattern LscTarget.Stray
  rw [if_neg (show ¬(g.path.profile = profileAll ∨ g.path.profile = []) from hany),
    if_neg (show g.path.profile ≠ profileNone from hnone), if_neg hany, hhas]
  change ereg (ascii "^" ++ partBytes g.profile ++ ascii ":" ++ implode (groupBytes g.groups) ++
    ascii ".*") _ = true ↔ _
  rw [hpattern, Ere.ereg_prefix hw]
  refine ⟨fun h => ?_, ?_⟩
  · by_cases hp : n.profile = g.profile ∧ g.groups <+: n.groups
    · exact .inl hp
    · exact .inr ⟨hp, hnone, h⟩
  · rintro (⟨hp, more, hm⟩ | ⟨-, -, h⟩)
    · rw [n.colonKey_bytes, hp, ← hm, slashed_append, List.prefix_append_right_inj, List.cons_prefix_cons]
      refine ⟨rfl, ?_⟩
      by_cases hg : g.groups = []
      · rw [hg]
        exact List.nil_prefix
      · rw [← implode_groupBytes hg, List.append_assoc]
        exact List.prefix_append _ _
    · exact h

/-- **What a target finds**: its hosts and stray ones; nothing at all if it is about the hosts
without a profile in any group. -/
theorem matched_iff (hhost : g.host = none) (hplain : g.Plain) :
    ereg g.path.matchPattern (colonKey n.bytes) = true ↔ g.Has n ∧ ¬g.Unmatched ∨ g.Stray n := by
  unfold LscTarget.Unmatched
  by_cases hany : g.AnyProfile
  · have hnone : partBytes g.profile ≠ profileNone := by
      rintro h
      unfold LscTarget.AnyProfile at hany
      rw [h] at hany
      exact absurd hany (by decide)
    rw [matched_any hhost hplain hany, and_iff_left fun h => hnone h.1]
  · by_cases hnone : partBytes g.profile = profileNone
    · have hstray : ¬g.Stray n := by
        rintro ⟨-, h⟩
        rw [if_neg hany] at h
        exact h.1 hnone
      rw [matched_none hhost hplain hnone, or_iff_left hstray, and_iff_right hnone]
    · rw [matched_profile hhost hplain hany hnone, and_iff_left fun h => hnone h.1]

end Match

end LinboxRescue
