import LinboxRescue.Admin.Atomic

/-!
# Regular and scheduled menus

1. `iniVals_newMenu`, `iniVals_delete`, `iniVals_saved`: the image of a menu, through the changes of a
   header.
2. `SameIni`: both headers of a host have the same menus, with the same images.
3. `Kept`: this holds for each host, and each image that a menu names is there.
4. `Kept.step`, `run_in_step`: calls keep it, and remove no image that a menu names, if `setHeader` is
   not called for a host that has a scheduled menu.
-/

namespace LinboxRescue

/-! ## Images of menus -/

def imageKey : Bytes := ascii "image"

/-- The sections with lines are in the list. -/
def Ini.Wf (conf : Ini) : Prop := ∀ s, s ∉ conf.order → conf.data s = none

theorem wf_iniLoad (f : IniFile) : (iniLoad f).Wf := fun _ hs => iniData_eq_none hs

theorem wf_iniSetVal {conf : Ini} (h : conf.Wf) (s key val : Bytes) : (iniSetVal conf s key val).Wf := by
  unfold iniSetVal
  cases hd : conf.data s with
  | none => exact h
  | some pairs =>
    intro s' hs'
    have hne : s' ≠ s := by
      rintro rfl
      cases hd.symm.trans (h _ hs')
    exact (Function.update_of_ne hne _ _).trans (h s' hs')

section SetVal

variable (conf : Ini) (s val : Bytes)

theorem iniVals_setVal_key {key key' : Bytes} (h : lc key ≠ lc key') (s' : Bytes) :
    iniVals (iniSetVal conf s key val) s' key' = iniVals conf s' key' := by
  unfold iniSetVal
  cases hd : conf.data s with
  | none => rfl
  | some pairs =>
    unfold iniVals
    dsimp only
    by_cases hs : s' = s
    · rw [hs, Function.update_self, hd]
      exact pairVals_setPair_ne _ h val pairs
    · rw [Function.update_of_ne hs]

theorem iniVals_setVal_section {s' : Bytes} (h : s' ≠ s) (key key' : Bytes) :
    iniVals (iniSetVal conf s key val) s' key' = iniVals conf s' key' := by
  unfold iniSetVal
  cases conf.data s with
  | none => rfl
  | some pairs =>
    unfold iniVals
    dsimp only
    rw [Function.update_of_ne h]

theorem iniVals_setVal {key : Bytes} (h : iniHasSection conf s = true) :
    iniVals (iniSetVal conf s key val) s key = val :: (iniVals conf s key).tail := by
  unfold iniHasSection at h
  obtain ⟨pairs, hd⟩ := Option.isSome_iff_exists.mp h
  unfold iniSetVal iniVals
  rw [hd]
  dsimp only
  rw [Function.update_self]
  exact pairVals_setPair key val pairs

theorem iniHasSection_setVal (s' key : Bytes) :
    iniHasSection (iniSetVal conf s key val) s' = iniHasSection conf s' := by
  unfold iniSetVal
  cases hd : conf.data s with
  | none => rfl
  | some pairs =>
    unfold iniHasSection
    dsimp only
    by_cases hs : s' = s
    · rw [hs, Function.update_self, hd]
      rfl
    · rw [Function.update_of_ne hs]

end SetVal

theorem wf_hdrSetMenu {conf : Ini} (h : conf.Wf) (menu visu image incl : Bytes) :
    (hdrSetMenu conf menu visu image incl).Wf := by
  unfold hdrSetMenu
  dsimp only
  have h3 := wf_iniSetVal (wf_iniSetVal (wf_iniSetVal h menu (ascii "def") (ascii "no")) menu
    (ascii "visu") visu) menu (ascii "image") image
  split_ifs
  · exact h3
  · exact wf_iniSetVal h3 menu (ascii "include") incl

/-- The image of the menu is set, and no other. -/
theorem iniVals_hdrSetMenu (conf : Ini) (menu visu image incl s : Bytes) :
    iniVals (hdrSetMenu conf menu visu image incl) s imageKey =
      if s = menu ∧ iniHasSection conf menu = true then image :: (iniVals conf s imageKey).tail
      else iniVals conf s imageKey := by
  have hdef : lc (ascii "def") ≠ lc imageKey := by decide
  have hvisu : lc (ascii "visu") ≠ lc imageKey := by decide
  have hincl : lc (ascii "include") ≠ lc imageKey := by decide
  have hlast : iniVals (hdrSetMenu conf menu visu image incl) s imageKey =
      iniVals (iniSetVal (iniSetVal (iniSetVal conf menu (ascii "def") (ascii "no")) menu
        (ascii "visu") visu) menu imageKey image) s imageKey := by
    unfold hdrSetMenu
    dsimp only
    split_ifs
    · rfl
    · exact iniVals_setVal_key _ _ _ hincl s
  rw [hlast]
  by_cases hs : s = menu
  · subst hs
    by_cases hsec : iniHasSection conf s = true
    · rw [if_pos ⟨rfl, hsec⟩, iniVals_setVal, iniVals_setVal_key _ _ _ hvisu,
        iniVals_setVal_key _ _ _ hdef]
      rw [iniHasSection_setVal, iniHasSection_setVal, hsec]
    · rw [if_neg fun hc => hsec hc.2]
      have hd : conf.data s = none := by simpa [iniHasSection] using hsec
      simp [iniSetVal, hd]
  · rw [if_neg fun hc => hs hc.1, iniVals_setVal_section _ _ _ hs, iniVals_setVal_section _ _ _ hs,
      iniVals_setVal_section _ _ _ hs]

/-- A menu that is new has the image, and no other menu has changed. -/
theorem iniVals_newMenu {conf conf' : Ini} {menu : Bytes} (ha : iniAddSection conf menu = some conf')
    (visu image incl s : Bytes) :
    iniVals (hdrSetMenu conf' menu visu image incl) s imageKey =
      if s = menu then [image] else iniVals conf s imageKey := by
  unfold iniAddSection at ha
  split_ifs at ha
  obtain rfl := Option.some.inj ha
  rw [iniVals_hdrSetMenu]
  have hsec : iniHasSection ⟨conf.order ++ [menu], Function.update conf.data menu (some [])⟩ menu =
      true := by
    unfold iniHasSection
    dsimp only
    rw [Function.update_self]
    rfl
  by_cases hs : s = menu
  · rw [if_pos ⟨hs, hsec⟩, if_pos hs]
    have hnil : iniVals ⟨conf.order ++ [menu], Function.update conf.data menu (some [])⟩ s imageKey =
        [] := by
      unfold iniVals
      dsimp only
      rw [hs, Function.update_self]
      rfl
    rw [hnil, List.tail_nil]
  · rw [if_neg fun hc => hs hc.1, if_neg hs]
    unfold iniVals
    dsimp only
    rw [Function.update_of_ne hs]

theorem iniVals_delete {conf : Ini} {menu : Bytes} (h : iniHasSection conf menu = true)
    (s key : Bytes) :
    iniVals (iniDeleteSection conf menu) s key = if s = menu then [] else iniVals conf s key := by
  unfold iniDeleteSection
  rw [if_pos h]
  unfold iniVals
  dsimp only
  by_cases hs : s = menu
  · rw [hs, Function.update_self, if_pos rfl]
  · rw [Function.update_of_ne hs, if_neg hs]

theorem wf_delete {conf : Ini} (h : conf.Wf) (menu : Bytes) : (iniDeleteSection conf menu).Wf := by
  unfold iniDeleteSection
  split_ifs
  · intro s hs
    dsimp only at hs ⊢
    by_cases he : s = menu
    · rw [he, Function.update_self]
    · rw [Function.update_of_ne he]
      exact h s fun hc => hs (List.mem_filter.mpr ⟨hc, by simpa using he⟩)
  · exact h

theorem wf_add {conf conf' : Ini} {menu : Bytes} (h : conf.Wf)
    (ha : iniAddSection conf menu = some conf') : conf'.Wf := by
  unfold iniAddSection at ha
  split_ifs at ha
  obtain rfl := Option.some.inj ha
  intro s hs
  rw [List.mem_append, not_or, List.mem_singleton] at hs
  exact (Function.update_of_ne hs.2 _ _).trans (h s hs.1)

/-- A value of one line that is not empty. -/
def PlainName (v : Bytes) : Prop := v ≠ [] ∧ 10 ∉ v

instance (v : Bytes) : Decidable (PlainName v) := inferInstanceAs (Decidable (_ ∧ _))

/-- Values of one line are in the file as they are. -/
theorem iniVals_saved {conf : Ini} (h : conf.Wf) {s : Bytes}
    (hv : ∀ v ∈ iniVals conf s imageKey, PlainName v) :
    iniVals (iniLoad (iniSave conf)) s imageKey = iniVals conf s imageKey := by
  by_cases hs : s ∈ conf.order
  · rw [iniVals_load_save _ _ hs]
    generalize iniVals conf s imageKey = vs at hv
    induction vs with
    | nil => rfl
    | cons v vs ih =>
      obtain ⟨⟨hne, hline⟩, hvs⟩ := List.forall_mem_cons.mp hv
      rw [List.flatMap_cons, splitLines_line hne hline, ih hvs]
      rfl
  · have hnil : iniVals conf s imageKey = [] := by
      unfold iniVals
      rw [h s hs]
    rw [hnil]
    refine iniVals_eq_nil _ fun hc => hs ?_
    rwa [order_load_save] at hc

/-! ## Two headers -/

/-- The same menus with the same images. -/
structure SameIni (c d : Ini) : Prop where
  names : hdrGetMenuNames c = hdrGetMenuNames d
  vals : ∀ m, isMenuName m = true → iniVals c m imageKey = iniVals d m imageKey

theorem SameIni.mem {c d : Ini} (h : SameIni c d) {m : Bytes} (hm : isMenuName m = true) :
    m ∈ c.order ↔ m ∈ d.order := by
  have := congrArg (m ∈ ·) h.names
  unfold hdrGetMenuNames iniGetSections at this
  simpa [List.mem_filter, hm] using this

/-- Each menu has at most one image. -/
def OneImage (c : Ini) : Prop :=
  ∀ m, isMenuName m = true → ∀ v ∈ iniVals c m imageKey, PlainName v ∧ iniVals c m imageKey = [v]

/-- The pairs of section names and images. -/
def menuPairs (f : IniFile) : List (Bytes × Bytes) :=
  (hdrGetMenuNames (iniLoad f)).map fun m => (m, iniGetVal (iniLoad f) m imageKey)

theorem menuPairs_eq {f w : IniFile} (h : SameIni (iniLoad f) (iniLoad w)) :
    menuPairs f = menuPairs w := by
  unfold menuPairs
  rw [← h.names]
  refine List.map_congr_left fun m hm => ?_
  unfold iniGetVal
  rw [h.vals m (List.mem_filter.mp hm).2]

theorem hdrGetMenuNames_saved (c : Ini) :
    hdrGetMenuNames (iniLoad (iniSave c)) = hdrGetMenuNames c := by
  unfold hdrGetMenuNames iniGetSections
  rw [order_load_save]

/-- Headers that agree are saved so that they agree. -/
theorem SameIni.saved {c d : Ini} (h : SameIni c d) (hc : c.Wf) (hd : d.Wf) (hone : OneImage c) :
    SameIni (iniLoad (iniSave c)) (iniLoad (iniSave d)) := by
  refine ⟨?_, fun m hm => ?_⟩
  · rw [hdrGetMenuNames_saved, hdrGetMenuNames_saved, h.names]
  · have hv : ∀ v ∈ iniVals c m imageKey, PlainName v := fun v hv => (hone m hm v hv).1
    rw [iniVals_saved hc hv, iniVals_saved hd (h.vals m hm ▸ hv), h.vals m hm]

theorem OneImage.saved {c : Ini} (h : OneImage c) (hc : c.Wf) : OneImage (iniLoad (iniSave c)) := by
  intro m hm v hv
  have hvals := iniVals_saved hc fun v hv => (h m hm v hv).1
  rw [hvals] at hv ⊢
  exact h m hm v hv

theorem hdrGetMenuNames_delete {c : Ini} {menu : Bytes} (h : iniHasSection c menu = true) :
    hdrGetMenuNames (iniDeleteSection c menu) = (hdrGetMenuNames c).filter (· ≠ menu) := by
  unfold hdrGetMenuNames iniGetSections iniDeleteSection
  rw [if_pos h, List.filter_comm]

theorem hdrGetMenuNames_newMenu {c c' : Ini} {menu visu image incl : Bytes}
    (hmenu : isMenuName menu = true) (ha : iniAddSection c menu = some c') :
    hdrGetMenuNames (hdrSetMenu c' menu visu image incl) = hdrGetMenuNames c ++ [menu] := by
  unfold iniAddSection at ha
  split_ifs at ha
  obtain rfl := Option.some.inj ha
  unfold hdrGetMenuNames iniGetSections
  rw [order_hdrSetMenu, List.filter_append, List.filter_cons_of_pos hmenu]
  rfl

section Change

variable {c d : Ini} {menu : Bytes} (h : SameIni c d) (hmenu : isMenuName menu = true)

include h hmenu

/-- A menu with an image is deleted from both. -/
theorem SameIni.delete (hv : iniVals c menu imageKey ≠ []) :
    SameIni (iniDeleteSection c menu) (iniDeleteSection d menu) := by
  have hc := iniHasSection_of_iniVals _ _ hv
  have hd := iniHasSection_of_iniVals _ _ (h.vals menu hmenu ▸ hv)
  refine ⟨?_, fun m hm => ?_⟩
  · rw [hdrGetMenuNames_delete hc, hdrGetMenuNames_delete hd, h.names]
  · rw [iniVals_delete hc, iniVals_delete hd, h.vals m hm]

/-- A new menu is added to both. -/
theorem SameIni.add {c' d' : Ini} (hc : iniAddSection c menu = some c')
    (hd : iniAddSection d menu = some d') (visu visu' image incl incl' : Bytes) :
    SameIni (hdrSetMenu c' menu visu image incl) (hdrSetMenu d' menu visu' image incl') := by
  refine ⟨?_, fun m hm => ?_⟩
  · rw [hdrGetMenuNames_newMenu hmenu hc, hdrGetMenuNames_newMenu hmenu hd, h.names]
  · rw [iniVals_newMenu hc, iniVals_newMenu hd, h.vals m hm]

end Change

theorem OneImage.delete {c : Ini} (h : OneImage c) {menu : Bytes}
    (hsec : iniHasSection c menu = true) : OneImage (iniDeleteSection c menu) := by
  intro m hm v hv
  rw [iniVals_delete hsec] at hv ⊢
  split_ifs at hv ⊢
  · exact absurd hv List.not_mem_nil
  · exact h m hm v hv

theorem OneImage.add {c c' : Ini} (h : OneImage c) {menu : Bytes}
    (ha : iniAddSection c menu = some c') (visu incl : Bytes) {image : Bytes} (hi : PlainName image) :
    OneImage (hdrSetMenu c' menu visu image incl) := by
  intro m hm v hv
  rw [iniVals_newMenu ha] at hv ⊢
  split_ifs at hv ⊢
  · rw [List.mem_singleton.mp hv]
    exact ⟨hi, rfl⟩
  · exact h m hm v hv

/-! ## Named images -/

/-- A menu names the image. -/
def Named (c : Ini) (v : Bytes) : Prop := ∃ m, isMenuName m = true ∧ v ∈ iniVals c m imageKey

theorem SameIni.named {c d : Ini} (h : SameIni c d) (v : Bytes) : Named c v ↔ Named d v := by
  refine exists_congr fun m => and_congr_right fun hm => ?_
  rw [h.vals m hm]

theorem named_saved {c : Ini} (hc : c.Wf) (hone : OneImage c) (v : Bytes) :
    Named (iniLoad (iniSave c)) v ↔ Named c v := by
  refine exists_congr fun m => and_congr_right fun hm => ?_
  rw [iniVals_saved hc fun v hv => (hone m hm v hv).1]

/-- `hdrFindMenu` looks for a menu that names the image. -/
theorem hdrFindMenu_none {c : Ini} (hc : c.Wf) (hone : OneImage c) {image : Bytes}
    (h : hdrFindMenu c (ascii "image") image = none) : ¬Named c image := by
  rintro ⟨m, hm, hv⟩
  have hvals := (hone m hm image hv).2
  have hmem : m ∈ hdrGetMenuNames c := by
    refine List.mem_filter.mpr ⟨?_, hm⟩
    by_contra hs
    unfold iniVals at hv
    rw [hc m hs] at hv
    exact absurd hv List.not_mem_nil
  have := List.find?_eq_none.mp h m hmem
  refine this ?_
  unfold iniHasKey iniGetVal
  rw [show iniVals c m (ascii "image") = [image] from hvals]
  simp

theorem hdrFindMenu_some {c : Ini} {image menu : Bytes} (hi : image ≠ [])
    (h : hdrFindMenu c (ascii "image") image = some menu) :
    isMenuName menu = true ∧ image ∈ iniVals c menu imageKey := by
  refine ⟨(List.mem_filter.mp (List.mem_of_find?_eq_some h)).2, ?_⟩
  have hval : iniGetVal c menu (ascii "image") = image := by
    have := List.find?_some h
    simp only [Bool.and_eq_true, beq_iff_eq] at this
    exact this.2
  unfold iniGetVal at hval
  change (iniVals c menu imageKey).headD [] = image at hval
  cases hv : iniVals c menu imageKey with
  | nil =>
    rw [hv] at hval
    exact absurd hval.symm hi
  | cons v vs =>
    rw [hv] at hval
    exact hval ▸ List.mem_cons_self

/-! ## The invariant -/

/-- A host has a header, its scheduled menu agrees with it, and the images it names are there. -/
def HostKept (l : Lbs) (h : HostDir) : Prop :=
  ∃ f, h.header = some f ∧ OneImage (iniLoad f) ∧
    (∀ w, h.wol = some w → SameIni (iniLoad f) (iniLoad w)) ∧
    ∀ v, Named (iniLoad f) v → l.isDir h v = true

/-- All hosts are registered and kept. -/
structure Kept (l : Lbs) : Prop where
  known : ∃ text, l.ether = some text ∧
    ∀ m h, l.hosts m = some h → ∃ mac ∈ registered text, toMacFileName mac = m
  hosts : ∀ m h, l.hosts m = some h → HostKept l h

/-- The images that a menu of a host names stay as they are. -/
def Protected (l l' : Lbs) : Prop :=
  ∀ m h f v, l.hosts m = some h → (h.header = some f ∨ h.wol = some f) → Named (iniLoad f) v →
    ∃ h', l'.hosts m = some h' ∧ h'.images v = h.images v ∧ l'.imgbase v = l.imgbase v

section Step

variable {l l' : Lbs} {mac : Bytes} {h h' : HostDir}

/-- The scheduled menu names nothing else. -/
theorem HostKept.named (hk : HostKept l h) {f : IniFile} (hf : h.header = some f ∨ h.wol = some f)
    {v : Bytes} (hv : Named (iniLoad f) v) :
    ∃ f, h.header = some f ∧ Named (iniLoad f) v := by
  obtain ⟨g, hg, -, hsame, -⟩ := hk
  obtain hf | hf := hf
  · exact ⟨f, hf, hv⟩
  · exact ⟨g, hg, ((hsame f hf).named v).mpr hv⟩

theorem protected_refl (l : Lbs) : Protected l l := fun _ h _ _ hh _ _ => ⟨h, hh, rfl, rfl⟩

/-- One host changes. -/
theorem Kept.setHost (hk : Kept l) (hh : l.host mac = some h) (hk' : HostKept l h') :
    Kept (l.setHost mac (some h')) := by
  obtain ⟨⟨text, he, hreg⟩, hhosts⟩ := hk
  have hother : ∀ m x, (l.setHost mac (some h')).hosts m = some x →
      (m = toMacFileName mac ∧ x = h') ∨ l.hosts m = some x := by
    intro m x hx
    by_cases hm : m = toMacFileName mac
    · rw [hm, show (l.setHost mac (some h')).hosts (toMacFileName mac) = some h' from
        host_setHost l mac _] at hx
      exact .inl ⟨hm, (Option.some.inj hx).symm⟩
    · exact .inr ((Function.update_of_ne hm _ _).symm.trans hx)
  refine ⟨⟨text, he, fun m x hx => ?_⟩, fun m x hx => ?_⟩
  · obtain ⟨rfl, -⟩ | hx := hother m x hx
    · exact hreg _ h hh
    · exact hreg m x hx
  · obtain ⟨-, rfl⟩ | hx := hother m x hx
    · exact hk'
    · exact hhosts m x hx

theorem Kept.protected_setHost (hk : Kept l) (hh : l.host mac = some h)
    (himg : ∀ f v, h.header = some f → Named (iniLoad f) v → h'.images v = h.images v) :
    Protected l (l.setHost mac (some h')) := by
  intro m x f v hx hf hv
  by_cases hm : m = toMacFileName mac
  · subst hm
    obtain rfl := Option.some.inj (hx.symm.trans hh)
    obtain ⟨g, hg, hv⟩ := (hk.hosts _ x hx).named hf hv
    exact ⟨h', host_setHost l mac _, himg g v hg hv, rfl⟩
  · exact ⟨x, (Function.update_of_ne hm _ _).trans hx, rfl, rfl⟩

/-- A change of both headers. -/
theorem hostKept_sync (os : Os) {c : Ini} {change : Ini → Ini} (hc : c.Wf) (hone : OneImage c)
    (hsame : ∀ w, h.wol = some w → (change (iniLoad w)).Wf ∧ SameIni c (change (iniLoad w)))
    (hdir : ∀ v, Named c v → l.isDir h v = true) :
    HostKept l ({ h with header := some (iniSave c) }.sync os change) := by
  have hnamed : ∀ v, Named (iniLoad (iniSave c)) v → l.isDir h v = true := fun v hv =>
    hdir v ((named_saved hc hone v).mp hv)
  unfold HostDir.sync
  dsimp only
  cases hw : h.wol with
  | some w =>
    obtain ⟨hwf, hs⟩ := hsame w hw
    refine ⟨iniSave c, rfl, hone.saved hc, fun w' hw' => ?_, hnamed⟩
    obtain rfl := Option.some.inj hw'
    exact hs.saved hc hwf hone
  | none =>
    dsimp only
    split_ifs
    · refine ⟨iniSave c, rfl, hone.saved hc, fun w' hw' => ?_, hnamed⟩
      obtain rfl := Option.some.inj hw'
      exact ⟨rfl, fun _ _ => rfl⟩
    · refine ⟨iniSave c, rfl, hone.saved hc, fun w' hw' => ?_, hnamed⟩
      cases hw'

theorem images_sync (os : Os) (h : HostDir) (change : Ini → Ini) :
    (h.sync os change).images = h.images := by
  unfold HostDir.sync
  split
  · rfl
  · split_ifs <;> rfl

/-! ## Moves -/

theorem Kept.host (hk : Kept l) {f : IniFile} (hl : l.header mac = some (h, f)) :
    l.host mac = some h ∧ h.header = some f ∧ OneImage (iniLoad f) ∧
      (∀ w, h.wol = some w → SameIni (iniLoad f) (iniLoad w)) ∧
      ∀ v, Named (iniLoad f) v → l.isDir h v = true := by
  obtain ⟨hh, hf⟩ := host_of_header hl
  obtain ⟨g, hg, hrest⟩ := hk.hosts _ h hh
  obtain rfl := Option.some.inj (hf.symm.trans hg)
  exact ⟨hh, hf, hrest⟩

theorem Kept.moveHdr2Local (hk : Kept l) (os : Os) {image : Bytes} (hi : PlainName image) (test : Bool) :
    Kept (moveHdr2Local os l mac image test).2 ∧ Protected l (moveHdr2Local os l mac image test).2 := by
  have hsame : Kept l ∧ Protected l l := ⟨hk, protected_refl l⟩
  unfold LinboxRescue.moveHdr2Local
  cases hl : l.header mac with
  | none => exact hsame
  | some x =>
    obtain ⟨h, f⟩ := x
    obtain ⟨hh, hf, hone, hwol, hdir⟩ := hk.host hl
    dsimp only
    cases hm : hdrFindMenu (iniLoad f) (ascii "image") image with
    | none => exact hsame
    | some menu =>
      obtain ⟨hmenu, hv⟩ := hdrFindMenu_some hi.1 hm
      have hne : iniVals (iniLoad f) menu imageKey ≠ [] := List.ne_nil_of_mem hv
      have hsec := iniHasSection_of_iniVals _ _ hne
      dsimp only
      split_ifs
      · exact hsame
      refine ⟨hk.setHost hh ?_, hk.protected_setHost hh fun g v _ _ => by rw [images_sync]⟩
      refine hostKept_sync os (wf_delete (wf_iniLoad f) menu) (hone.delete hsec) ?_ ?_
      · intro w hw
        exact ⟨wf_delete (wf_iniLoad w) menu, (hwol w hw).delete hmenu hne⟩
      · rintro v ⟨m, hm, hv⟩
        rw [iniVals_delete hsec] at hv
        split_ifs at hv
        · exact absurd hv List.not_mem_nil
        · exact hdir v ⟨m, hm, hv⟩

theorem images_addMenu (os : Os) (h : HostDir) (c : Ini) (menu visu image incl : Bytes) :
    (h.addMenu os c menu visu image incl).images = h.images := by
  unfold HostDir.addMenu
  rw [images_sync]

section Unique

variable {unique : Ini → Bytes}
  (hu : ∀ conf, isMenuName (unique conf) = true ∧ unique conf ∉ conf.order)

include hu

/-- The name is new, so that the menu can be added. -/
theorem exists_add (f : IniFile) : ∃ c, iniAddSection (iniLoad f) (unique (iniLoad f)) = some c := by
  refine Option.ne_none_iff_exists'.mp fun hc => ?_
  rw [iniAddSection_eq_none, iniHasSection_eq_false (hu (iniLoad f)).2] at hc
  cases hc

/-- A new menu in both headers. -/
theorem hostKept_addMenu (os : Os) {f : IniFile} {c : Ini} (hone : OneImage (iniLoad f))
    (hwol : ∀ w, h.wol = some w → SameIni (iniLoad f) (iniLoad w))
    (hc : iniAddSection (iniLoad f) (unique (iniLoad f)) = some c) {image : Bytes}
    (hi : PlainName image) (visu incl : Bytes)
    (hdir : ∀ v, Named (iniLoad f) v ∨ v = image → l.isDir h v = true) :
    HostKept l (h.addMenu os c (unique (iniLoad f)) visu image incl) := by
  obtain ⟨hmenu, hnew⟩ := hu (iniLoad f)
  unfold HostDir.addMenu
  refine hostKept_sync os (wf_hdrSetMenu (wf_add (wf_iniLoad f) hc) _ _ _ _)
    (hone.add hc _ _ hi) ?_ ?_
  · intro w hw
    obtain ⟨d, hd⟩ : ∃ d, iniAddSection (iniLoad w) (unique (iniLoad f)) = some d := by
      refine Option.ne_none_iff_exists'.mp fun hn => ?_
      rw [iniAddSection_eq_none, iniHasSection_eq_false] at hn
      · cases hn
      · exact fun hmem => hnew (((hwol w hw).mem hmenu).mpr hmem)
    rw [hd, Option.getD_some]
    exact ⟨wf_hdrSetMenu (wf_add (wf_iniLoad w) hd) _ _ _ _, (hwol w hw).add hmenu hc hd _ _ _ _ _⟩
  · rintro v ⟨m, hm, hv⟩
    rw [iniVals_newMenu hc] at hv
    split_ifs at hv
    · exact hdir v (.inr (List.mem_singleton.mp hv))
    · exact hdir v (.inl ⟨m, hm, hv⟩)

theorem Kept.moveLocal2Hdr (hk : Kept l) (os : Os) {image : Bytes} (hi : PlainName image)
    (test : Bool) :
    Kept (moveLocal2Hdr unique os l mac image test).2 ∧
      Protected l (moveLocal2Hdr unique os l mac image test).2 := by
  have hsame : Kept l ∧ Protected l l := ⟨hk, protected_refl l⟩
  unfold LinboxRescue.moveLocal2Hdr
  cases hl : l.header mac with
  | none => exact hsame
  | some x =>
    obtain ⟨h, f⟩ := x
    obtain ⟨hh, hf, hone, hwol, hdir⟩ := hk.host hl
    dsimp only
    cases hdrFindMenu (iniLoad f) (ascii "image") image with
    | some m => exact hsame
    | none =>
      dsimp only
      obtain ⟨c, hc⟩ := exists_add hu f
      split_ifs with hd
      · exact hsame
      · exact hsame
      rw [hc]
      refine ⟨hk.setHost hh ?_, hk.protected_setHost hh fun g v _ _ => ?_⟩
      · refine hostKept_addMenu hu os hone hwol hc hi _ _ fun v hv => ?_
        obtain hv | rfl := hv
        · exact hdir v hv
        · exact Bool.of_not_eq_false hd
      · rw [images_addMenu]

theorem Kept.moveBase2Hdr (hk : Kept l) (os : Os) {image : Bytes} (hi : PlainName image) (test : Bool) :
    Kept (moveBase2Hdr unique os l mac image test).2 ∧
      Protected l (moveBase2Hdr unique os l mac image test).2 := by
  have hsame : Kept l ∧ Protected l l := ⟨hk, protected_refl l⟩
  unfold LinboxRescue.moveBase2Hdr
  by_cases hb : l.imgbase image = none
  · rw [if_pos hb]
    exact hsame
  rw [if_neg hb]
  by_cases hd : ((l.host mac).any fun h => l.isDir h image) = true
  · rw [if_pos hd]
    exact hsame
  rw [if_neg hd]
  cases hl : l.header mac with
  | none => exact hsame
  | some x =>
    obtain ⟨h, f⟩ := x
    obtain ⟨hh, hf, hone, hwol, hdir⟩ := hk.host hl
    rw [hh, Option.any_some, Bool.not_eq_true] at hd
    -- a named image is another one, which the link does not touch
    have hother : ∀ v, Named (iniLoad f) v → (h.setImage image (some .link)).images v = h.images v := by
      intro v hv
      have hne : v ≠ image := by
        rintro rfl
        cases hd.symm.trans (hdir v hv)
      exact Function.update_of_ne hne _ _
    dsimp only
    cases hdrFindMenu (iniLoad f) (ascii "image") image with
    | some m => exact hsame
    | none =>
      dsimp only
      obtain ⟨c, hc⟩ := exists_add hu f
      split_ifs
      · exact hsame
      · exact hsame
      have hwol' : ∀ w, (h.setImage image (some .link)).wol = some w →
          SameIni (iniLoad f) (iniLoad w) := hwol
      rw [hc]
      refine ⟨hk.setHost hh ?_, hk.protected_setHost hh fun g v hg hv => ?_⟩
      · refine hostKept_addMenu hu os hone hwol' hc hi _ _ fun v hv => ?_
        unfold Lbs.isDir
        obtain hv | rfl := hv
        · rw [hother v hv]
          exact hdir v hv
        · rw [images_setImage]
          exact Option.isSome_iff_ne_none.mpr hb
      · cases hf.symm.trans hg
        rw [images_addMenu]
        exact hother v hv

/-- `setHeader` keeps a host that has no scheduled menu. -/
theorem Kept.setHeader (hk : Kept l) (os : Os) {image : Bytes} (hi : PlainName image)
    (hproper : ∀ h, l.host mac = some h → h.wol = none ∧ l.isDir h image = true) :
    Kept (setHeader unique os l mac image).2 ∧ Protected l (setHeader unique os l mac image).2 := by
  unfold LinboxRescue.setHeader
  cases hl : l.header mac with
  | none => exact ⟨hk, protected_refl l⟩
  | some x =>
    obtain ⟨h, f⟩ := x
    obtain ⟨hh, hf, hone, hwol, hdir⟩ := hk.host hl
    obtain ⟨hnone, himg⟩ := hproper h hh
    obtain ⟨c, hc⟩ := exists_add hu f
    dsimp only
    rw [hc]
    have hwf := wf_hdrSetMenu (wf_add (wf_iniLoad f) hc) (unique (iniLoad f)) (ascii "yes") image
      (image ++ ascii "/conf.txt")
    have hone' := hone.add hc (ascii "yes") (image ++ ascii "/conf.txt") hi
    refine ⟨hk.setHost hh ⟨_, rfl, hone'.saved hwf, fun w hw => ?_, fun v hv => ?_⟩,
      hk.protected_setHost hh fun g v _ _ => rfl⟩
    · cases hnone.symm.trans hw
    · obtain ⟨m, hm, hv⟩ := (named_saved hwf hone' v).mp hv
      rw [iniVals_newMenu hc] at hv
      split_ifs at hv
      · rw [List.mem_singleton.mp hv]
        exact himg
      · exact hdir v ⟨m, hm, hv⟩

end Unique

/-! ## Deletions -/

/-- Some hosts, none of which names the image, have lost it. -/
structure Shrunk (image : Bytes) (l l' : Lbs) : Prop where
  ether : l'.ether = l.ether
  imgbase : l'.imgbase = l.imgbase
  absent : ∀ m, l.hosts m = none → l'.hosts m = none
  hosts : ∀ m h, l.hosts m = some h → l'.hosts m = some h ∨
    ∃ d f, h.header = some f ∧ ¬Named (iniLoad f) image ∧ l'.hosts m = some (h.setImage image d)

theorem shrunk_refl (image : Bytes) (l : Lbs) : Shrunk image l l :=
  ⟨rfl, rfl, fun _ hm => hm, fun _ _ hm => .inl hm⟩

theorem Shrunk.trans {image : Bytes} {l'' : Lbs} (h : Shrunk image l l') (h' : Shrunk image l' l'') :
    Shrunk image l l'' := by
  refine ⟨h'.ether.trans h.ether, h'.imgbase.trans h.imgbase, fun m hm => h'.absent m (h.absent m hm),
    fun m x hx => ?_⟩
  obtain hm | ⟨d, f, hf, hn, hm⟩ := h.hosts m x hx
  · exact h'.hosts m x hm
  · obtain hm' | ⟨e, -, -, -, hm'⟩ := h'.hosts m _ hm
    · exact .inr ⟨d, f, hf, hn, hm'⟩
    · refine .inr ⟨e, f, hf, hn, hm'.trans ?_⟩
      unfold HostDir.setImage
      rw [Function.update_idem]

/-- An image that is not the one that goes. -/
theorem Shrunk.images {image : Bytes} (hs : Shrunk image l l') {m : Bytes} (hm : l.hosts m = some h)
    {f : IniFile} (hf : h.header = some f) {v : Bytes} (hv : Named (iniLoad f) v) :
    ∃ h', l'.hosts m = some h' ∧ h'.images v = h.images v := by
  obtain hm' | ⟨d, g, hg, hn, hm'⟩ := hs.hosts m h hm
  · exact ⟨h, hm', rfl⟩
  · cases hf.symm.trans hg
    have hne : v ≠ image := fun he => hn (he ▸ hv)
    exact ⟨_, hm', Function.update_of_ne hne _ _⟩

theorem isDir_congr {v : Bytes} (hi : h'.images v = h.images v) (hb : l'.imgbase v = l.imgbase v) :
    l'.isDir h' v = l.isDir h v := by
  unfold Lbs.isDir
  rw [hi, hb]

/-- What a deletion keeps: the base image goes only if no host names it. -/
theorem Kept.shrunk (hk : Kept l) {image : Bytes} (hs : Shrunk image l l')
    {base : Bytes → Option (List Bytes)}
    {skel : HostDir} (hb : ∀ m h f v, l.hosts m = some h → h.header = some f → Named (iniLoad f) v →
      base v = l.imgbase v) :
    Kept { l' with imgbase := base, skel := skel } ∧
      Protected l { l' with imgbase := base, skel := skel } := by
  constructor
  · obtain ⟨⟨text, he, hreg⟩, hhosts⟩ := hk
    have hback : ∀ m x, l'.hosts m = some x → ∃ h, l.hosts m = some h ∧ x.header = h.header ∧
        x.wol = h.wol := by
      intro m x hx
      cases hm : l.hosts m with
      | none => cases (hs.absent m hm).symm.trans hx
      | some h =>
        obtain hm' | ⟨d, -, -, -, hm'⟩ := hs.hosts m h hm
        · obtain rfl := Option.some.inj (hx.symm.trans hm')
          exact ⟨x, rfl, rfl, rfl⟩
        · obtain rfl := Option.some.inj (hx.symm.trans hm')
          exact ⟨h, rfl, rfl, rfl⟩
    refine ⟨⟨text, hs.ether.trans he, fun m x hx => ?_⟩, fun m x hx => ?_⟩
    · obtain ⟨h, hm, -⟩ := hback m x hx
      exact hreg m h hm
    · obtain ⟨h, hm, hheader, hwol⟩ := hback m x hx
      obtain ⟨f, hf, hone, hsame, hdir⟩ := hhosts m h hm
      refine ⟨f, hheader.trans hf, hone, fun w hw => hsame w (hwol.symm.trans hw), fun v hv => ?_⟩
      obtain ⟨y, hy, himg⟩ := hs.images hm hf hv
      obtain rfl := Option.some.inj (hx.symm.trans hy)
      rw [← hdir v hv]
      exact isDir_congr himg (hb m h f v hm hf hv)
  · intro m x f v hx hf hv
    obtain ⟨g, hg, hv⟩ := (hk.hosts m x hx).named hf hv
    obtain ⟨y, hy, himg⟩ := hs.images hx hg hv
    exact ⟨y, hy, himg, hb m x g v hx hg hv⟩

theorem Kept.shrunk_imgDeleteLocal (hk : Kept l) (os : Os) (image mac : Bytes) :
    Shrunk image l (imgDeleteLocal os l mac image).2 := by
  unfold imgDeleteLocal
  cases hl : l.header mac with
  | none => exact shrunk_refl image l
  | some x =>
    obtain ⟨h, f⟩ := x
    obtain ⟨hh, hf, hone, -, -⟩ := hk.host hl
    dsimp only
    cases hm : hdrFindMenu (iniLoad f) (ascii "image") image with
    | some m => exact shrunk_refl image l
    | none =>
      have hn := hdrFindMenu_none (wf_iniLoad f) hone hm
      have hset : ∀ d, Shrunk image l (l.setHost mac (some (h.setImage image d))) := by
        intro d
        refine ⟨rfl, rfl, fun m hm => ?_, fun m x hx => ?_⟩
        · have hne : m ≠ toMacFileName mac := by
            rintro rfl
            cases hm.symm.trans hh
          exact (Function.update_of_ne hne _ _).trans hm
        · by_cases hm : m = toMacFileName mac
          · subst hm
            obtain rfl := Option.some.inj (hx.symm.trans hh)
            exact .inr ⟨d, f, hf, hn, host_setHost l mac _⟩
          · exact .inl ((Function.update_of_ne hm _ _).trans hx)
      dsimp only
      split
      · exact shrunk_refl image l
      · split
        · split
          · exact hset _
          · exact hset _
        · split
          · exact hset _
          · exact shrunk_refl image l

theorem Kept.of_shrunk (hk : Kept l) {image : Bytes} (hs : Shrunk image l l') :
    Kept l' ∧ Protected l l' :=
  @Kept.shrunk l l' hk image hs l'.imgbase l'.skel fun _ _ _ v _ _ _ => congrFun hs.imgbase v

/-- The loop of `imgDeleteBase`. -/
theorem Kept.shrunk_imgDeleteHosts (hk : Kept l) (os : Os) (image : Bytes) (macs : List Bytes) :
    Shrunk image l (imgDeleteHosts os image macs l).2 := by
  induction macs generalizing l with
  | nil => exact shrunk_refl image l
  | cons mac macs ih =>
    rw [imgDeleteHosts]
    split
    · have hs := hk.shrunk_imgDeleteLocal os image mac
      rcases hx : imgDeleteLocal os l mac image with ⟨r, l'⟩
      rw [hx] at hs
      cases r with
      | false => exact hs
      | true => exact hs.trans (ih (hk.of_shrunk hs).1)
    · exact ih hk

/-- A host that names the image, and has it, refuses. -/
theorem Kept.refuses (hk : Kept l) (os : Os) {image : Bytes} {m : Bytes} {f : IniFile}
    (hm : l.hosts (toMacFileName m) = some h) (hf : h.header = some f)
    (hv : Named (iniLoad f) image) : Refuses os l image m := by
  obtain ⟨g, hg, hone, -, hdir⟩ := hk.hosts _ h hm
  cases hf.symm.trans hg
  refine ⟨h, hm, hdir image hv, fun f' hf' hfind => ?_⟩
  cases hf.symm.trans hf'
  exact absurd hv (hdrFindMenu_none (wf_iniLoad f) hone hfind)

theorem Kept.imgDeleteBase (hk : Kept l) (os : Os) (image : Bytes) :
    Kept (imgDeleteBase os l image).2 ∧ Protected l (imgDeleteBase os l image).2 := by
  unfold LinboxRescue.imgDeleteBase
  split
  · exact ⟨hk, protected_refl l⟩
  cases he : l.ether with
  | none => exact ⟨hk, protected_refl l⟩
  | some text =>
    dsimp only
    have hs := hk.shrunk_imgDeleteHosts os image (registered text)
    have hfst := @imgDeleteHosts_fst os image (registered text) l
    rcases hx : imgDeleteHosts os image (registered text) l with ⟨r, l'⟩
    rw [hx] at hs hfst
    cases r with
    | false => exact hk.of_shrunk hs
    | true =>
      -- no host names the image, since none has refused
      have hbase : ∀ (x : Option (List Bytes)) m h f v, l.hosts m = some h → h.header = some f →
          Named (iniLoad f) v → Function.update l'.imgbase image x v = l.imgbase v := by
        intro x m h f v hm hf hv
        have hne : v ≠ image := by
          rintro rfl
          obtain ⟨text', he', hreg⟩ := hk.known
          cases he.symm.trans he'
          obtain ⟨mac, hmac, rfl⟩ := hreg m h hm
          exact hfst.mp rfl mac hmac (hk.refuses os hm hf hv)
        rw [Function.update_of_ne hne, hs.imgbase]
      unfold rmBase
      cases os.rmBaseFailed with
      | some left => exact @Kept.shrunk l l' hk image hs _ l'.skel (hbase _)
      | none =>
        dsimp only
        unfold skelDeleteBaseLink
        split
        · exact hk.shrunk hs (hbase _)
        · exact @Kept.shrunk l l' hk image hs _ l'.skel (hbase _)

end Step

/-! ## Runs -/

/-- A call of the menus. `setHeader` is called for an image that is there, and for a host without a
scheduled menu. -/
def Proper (l : Lbs) : LbsCall → Prop
  | .moveHdr2Local _ image _ | .moveLocal2Hdr _ image _ | .moveBase2Hdr _ image _ => PlainName image
  | .setHeader mac image =>
    PlainName image ∧ ∀ h, l.host mac = some h → h.wol = none ∧ l.isDir h image = true
  | .imgDeleteLocal .. | .imgDeleteBase .. => True
  | .createEntry .. | .deleteEntry .. | .skelAddBaseLink .. => False

section Runs

variable (unique : Ini → Bytes)

def Lbs.run (l : Lbs) (steps : List (Os × LbsCall)) : Lbs :=
  steps.foldl (fun l s => (l.call unique s.1 s.2).2) l

def ProperRun : Lbs → List (Os × LbsCall) → Prop
  | _, [] => True
  | l, s :: steps => Proper l s.2 ∧ ProperRun (l.call unique s.1 s.2).2 steps

end Runs

/-- Both headers carry the same pairs of section names and images. -/
def MenusInStep (l : Lbs) : Prop :=
  ∀ m h f w, l.hosts m = some h → h.header = some f → h.wol = some w → menuPairs f = menuPairs w

/-- Where a run starts: the hosts are registered, the scheduled menu is a copy of the regular one if
there is one, each menu has at most one image, and the images are there. -/
structure StartsInStep (l : Lbs) : Prop where
  known : ∃ text, l.ether = some text ∧
    ∀ m h, l.hosts m = some h → ∃ mac ∈ registered text, toMacFileName mac = m
  hosts : ∀ m h, l.hosts m = some h → ∃ f, h.header = some f ∧ (h.wol = none ∨ h.wol = some f) ∧
    OneImage (iniLoad f) ∧ ∀ v, Named (iniLoad f) v → l.isDir h v = true

theorem StartsInStep.kept {l : Lbs} (h : StartsInStep l) : Kept l := by
  refine ⟨h.known, fun m x hx => ?_⟩
  obtain ⟨f, hf, hwol, hone, hdir⟩ := h.hosts m x hx
  refine ⟨f, hf, hone, fun w hw => ?_, hdir⟩
  obtain hn | hn := hwol
  · cases hn.symm.trans hw
  · obtain rfl := Option.some.inj (hn.symm.trans hw)
    exact ⟨rfl, fun _ _ => rfl⟩

theorem Kept.inStep {l : Lbs} (hk : Kept l) : MenusInStep l := by
  intro m h f w hh hf hw
  obtain ⟨g, hg, -, hsame, -⟩ := hk.hosts m h hh
  cases hf.symm.trans hg
  exact menuPairs_eq (hsame w hw)

section Unique

variable {unique : Ini → Bytes}
  (hu : ∀ conf, isMenuName (unique conf) = true ∧ unique conf ∉ conf.order)

include hu

/-- **One call.** -/
theorem Kept.step {l : Lbs} (hk : Kept l) (os : Os) {c : LbsCall} (hp : Proper l c) :
    Kept (l.call unique os c).2 ∧ Protected l (l.call unique os c).2 := by
  cases c with
  | createEntry mac ip name => exact hp.elim
  | deleteEntry mac => exact hp.elim
  | moveHdr2Local mac image test => exact hk.moveHdr2Local os hp test
  | moveLocal2Hdr mac image test => exact hk.moveLocal2Hdr hu os hp test
  | moveBase2Hdr mac image test => exact hk.moveBase2Hdr hu os hp test
  | setHeader mac image => exact hk.setHeader hu os hp.1 hp.2
  | imgDeleteLocal mac image => exact hk.of_shrunk (hk.shrunk_imgDeleteLocal os image mac)
  | imgDeleteBase image => exact hk.imgDeleteBase os image
  | skelAddBaseLink image => exact hp.elim

theorem Kept.run {l : Lbs} (hk : Kept l) {before after : List (Os × LbsCall)}
    (hp : ProperRun unique l (before ++ after)) :
    Kept (l.run unique before) ∧ ProperRun unique (l.run unique before) after := by
  induction before generalizing l with
  | nil => exact ⟨hk, hp⟩
  | cons s before ih => exact ih (hk.step hu s.1 hp.1).1 hp.2

/-- **Regular and scheduled menus stay in step** in every state of a run, and no call removes an image
that a menu of either header names. -/
theorem run_in_step {l : Lbs} (h0 : StartsInStep l) {steps : List (Os × LbsCall)}
    (hp : ProperRun unique l steps) :
    ∀ before after, steps = before ++ after → MenusInStep (l.run unique before) ∧
      ∀ s rest, after = s :: rest →
        Protected (l.run unique before) (l.run unique (before ++ [s])) := by
  rintro before after rfl
  obtain ⟨hk, hrest⟩ := h0.kept.run hu hp
  refine ⟨hk.inStep, ?_⟩
  rintro s rest rfl
  have hrun : l.run unique (before ++ [s]) = ((l.run unique before).call unique s.1 s.2).2 := by
    unfold Lbs.run
    rw [List.foldl_append]
    rfl
  rw [hrun]
  exact (hk.step hu s.1 hrest.1).2

end Unique

/-! ## A host with a scheduled menu -/

/-- A name that is longer than all names of the header. -/
def longName (conf : Ini) : Bytes :=
  ascii "menu" ++ List.replicate (conf.order.map List.length).sum 49

theorem longName_new (conf : Ini) : isMenuName (longName conf) = true ∧ longName conf ∉ conf.order := by
  refine ⟨?_, fun hmem => ?_⟩
  · unfold isMenuName longName
    rw [List.take_left' (by decide)]
    decide
  · have hle := List.le_sum_of_mem (List.mem_map_of_mem hmem : (longName conf).length ∈ _)
    have hlen : (ascii "menu").length = 4 := by decide
    unfold longName at hle
    rw [List.length_append, List.length_replicate, hlen] at hle
    omega

/-- The header of a host that boots from its disk. -/
def diskHeader : IniFile := [(ascii "menu1", [(imageKey, ascii "Local-Disk")])]

/-- A host with both menus, and with a backup that is in neither. -/
def scheduledHost : HostDir where
  header := some diskHeader
  wol := some diskHeader
  images := fun image =>
    if image = ascii "Local-Disk" ∨ image = ascii "Local-0" then some (.dir []) else none

def scheduledLbs : Lbs where
  ether := some (ascii "0A 10.0.0.1 lab\n")
  hosts := fun mac => if mac = ascii "0A" then some scheduledHost else none
  imgbase := fun _ => none
  skel := scheduledHost
  cfg := fun _ => false
  log := fun _ => false

theorem iniVals_diskHeader (m : Bytes) : iniVals (iniLoad diskHeader) m imageKey =
    if m = ascii "menu1" then [ascii "Local-Disk"] else [] := by
  by_cases hm : m = ascii "menu1"
  · rw [if_pos hm, hm]
    decide
  · rw [if_neg hm]
    exact iniVals_eq_nil _ fun hc => hm (List.mem_singleton.mp hc)

theorem scheduledLbs_starts : StartsInStep scheduledLbs := by
  have hhost : ∀ m h, scheduledLbs.hosts m = some h → m = ascii "0A" ∧ h = scheduledHost := by
    intro m h hh
    change (if m = ascii "0A" then some scheduledHost else none) = some h at hh
    split_ifs at hh with hm
    exact ⟨hm, (Option.some.inj hh).symm⟩
  have hvals : ∀ m v, v ∈ iniVals (iniLoad diskHeader) m imageKey →
      v = ascii "Local-Disk" ∧ iniVals (iniLoad diskHeader) m imageKey = [v] := by
    intro m v hv
    rw [iniVals_diskHeader] at hv ⊢
    split_ifs at hv ⊢
    · rw [List.mem_singleton.mp hv]
      exact ⟨rfl, rfl⟩
    · exact absurd hv List.not_mem_nil
  refine ⟨⟨_, rfl, fun m h hh => ?_⟩, fun m h hh => ?_⟩
  · obtain ⟨rfl, -⟩ := hhost m h hh
    exact ⟨ascii "0A", by decide, by decide⟩
  · obtain ⟨-, rfl⟩ := hhost m h hh
    refine ⟨diskHeader, rfl, .inr rfl, fun m _ v hv => ?_, ?_⟩
    · obtain ⟨rfl, hone⟩ := hvals m v hv
      exact ⟨by decide, hone⟩
    · rintro v ⟨m, -, hv⟩
      obtain ⟨rfl, -⟩ := hvals m v hv
      decide

/-- The backup is put into both menus, and cannot be removed then. -/
theorem run_in_step_scheduled :
    MenusInStep (scheduledLbs.run longName [(calmOs, .moveLocal2Hdr (ascii "0A") (ascii "Local-0") false),
      (calmOs, .imgDeleteLocal (ascii "0A") (ascii "Local-0"))]) := by
  refine (run_in_step longName_new scheduledLbs_starts ?_ _ [] (List.append_nil _).symm).1
  exact ⟨show PlainName (ascii "Local-0") from by decide, trivial, trivial⟩

/-- `setHeader` puts it into the regular menu only. -/
theorem setHeader_out_of_step : StartsInStep scheduledLbs ∧
    ¬MenusInStep (scheduledLbs.run longName [(calmOs, .setHeader (ascii "0A") (ascii "Local-0"))]) := by
  refine ⟨scheduledLbs_starts, fun hc => ?_⟩
  have hlen := congrArg List.length (hc (ascii "0A") _ _ diskHeader rfl rfl rfl)
  exact absurd hlen (by decide)

end LinboxRescue
