import LinboxRescue.Admin.InStep

/-!
# The menus of `imgskel/header.lst`

The menus for an image, through what `skelsync` (`src/server/admin/perl`) does with the header.

1. `deleteMenus_spec`: the first menu of each obsolete image is deleted.
2. `addMenus_one`: when each new image has one menu.
3. `sweepMenus_spec`: menus of other images are deleted.
4. `sweepMenus_again`: and nothing is left to delete.
-/

namespace LinboxRescue

/-! ## Menus for an image -/

/-- The image that a menu names. -/
def imageOf (c : Ini) (m : Bytes) : Option Bytes := (iniVals c m imageKey).head?

def menusFor (c : Ini) (i : Bytes) : List Bytes :=
  (hdrGetMenuNames c).filter fun m => imageOf c m = some i

/-- All values of a header are lines. -/
def ValueLines (c : Ini) : Prop := ∀ s pairs, c.data s = some pairs → ∀ p ∈ pairs, 10 ∉ p.2

/-- The images that menus name are lines that are not empty. -/
structure HeaderOk (c : Ini) : Prop where
  wf : c.Wf
  vals : ∀ m, isMenuName m = true → ∀ v ∈ iniVals c m imageKey, PlainName v
  line : ValueLines c

theorem hdrFindMenu_eq (c : Ini) (i : Bytes) :
    hdrFindMenu c (ascii "image") i = (menusFor c i).head? := by
  have hiff : ∀ m, (iniHasKey c m (ascii "image") && iniGetVal c m (ascii "image") == i) =
      decide (imageOf c m = some i) := by
    intro m
    unfold iniHasKey iniGetVal imageOf imageKey
    cases iniVals c m (ascii "image") with
    | nil => rfl
    | cons v vs => simp [Bool.beq_eq_decide_eq]
  unfold hdrFindMenu menusFor
  rw [List.head?_filter]
  simp only [hiff]

theorem mem_menusFor {c : Ini} {m i : Bytes} :
    m ∈ menusFor c i ↔ m ∈ hdrGetMenuNames c ∧ imageOf c m = some i := by
  unfold menusFor
  rw [List.mem_filter, decide_eq_true_iff]

theorem isMenuName_of_mem {c : Ini} {m : Bytes} (h : m ∈ hdrGetMenuNames c) : isMenuName m = true :=
  (List.mem_filter.mp h).2

theorem iniHasSection_of_imageOf {c : Ini} {m v : Bytes} (h : imageOf c m = some v) :
    iniHasSection c m = true := by
  refine iniHasSection_of_iniVals imageKey c fun hnil => ?_
  unfold imageOf at h
  rw [hnil] at h
  cases h

theorem iniGetVal_of_imageOf {c : Ini} {m v : Bytes} (h : imageOf c m = some v) :
    iniGetVal c m (ascii "image") = v := by
  unfold imageOf imageKey at h
  unfold iniGetVal
  rw [List.headD_eq_head?_getD, h]
  rfl

theorem menusFor_congr {c d : Ini} (hn : hdrGetMenuNames c = hdrGetMenuNames d)
    (h : ∀ m ∈ hdrGetMenuNames d, imageOf c m = imageOf d m) (i : Bytes) :
    menusFor c i = menusFor d i := by
  unfold menusFor
  rw [hn]
  exact List.filter_congr fun m hm => by rw [h m hm]

/-! ## Saving and loading -/

section Saved

variable {c : Ini} (h : HeaderOk c)
include h

theorem HeaderOk.imageOf_saved {m : Bytes} (hm : isMenuName m = true) :
    imageOf (iniLoad (iniSave c)) m = imageOf c m := by
  unfold imageOf
  rw [iniVals_saved h.wf (h.vals m hm)]

theorem HeaderOk.menusFor_saved (i : Bytes) : menusFor (iniLoad (iniSave c)) i = menusFor c i :=
  menusFor_congr (hdrGetMenuNames_saved c) (fun _ hm => h.imageOf_saved (isMenuName_of_mem hm)) i

end Saved

theorem data_load_save (c : Ini) (s : Bytes) : (iniLoad (iniSave c)).data s =
    if s ∈ c.order ∧ savedPairs ((c.data s).getD []) ≠ [] then
      some (savedPairs ((c.data s).getD []))
    else none :=
  iniData_map (fun s => savedPairs ((c.data s).getD [])) s

/-- What is loaded from a saved file has values of one line. -/
theorem line_load_save (c : Ini) : ValueLines (iniLoad (iniSave c)) := by
  intro s pairs h
  rw [data_load_save] at h
  split_ifs at h
  obtain rfl := Option.some.inj h
  intro p hp
  obtain ⟨q, -, hq⟩ := List.mem_flatMap.mp hp
  obtain ⟨v, hv, rfl⟩ := List.mem_map.mp hq
  exact not_mem_of_mem_splitLines hv

theorem HeaderOk.saved {c : Ini} (h : HeaderOk c) : HeaderOk (iniLoad (iniSave c)) where
  wf := wf_iniLoad _
  vals m hm := by
    rw [iniVals_saved h.wf (h.vals m hm)]
    exact h.vals m hm
  line := line_load_save c

/-- Pairs without a value are not written. -/
theorem savedPairs_line {pairs : Pairs} (h : ∀ p ∈ pairs, 10 ∉ p.2) :
    savedPairs pairs = pairs.filter fun p => p.2 ≠ [] := by
  induction pairs with
  | nil => rfl
  | cons p pairs ih =>
    obtain ⟨hp, h⟩ := List.forall_mem_cons.mp h
    have hrec : savedPairs (p :: pairs) = (splitLines p.2).map (Prod.mk p.1) ++ savedPairs pairs := rfl
    rw [hrec, ih h, List.filter_cons]
    by_cases hne : p.2 = []
    · rw [hne]
      rfl
    · rw [splitLines_line hne hp, if_pos (by simpa using hne)]
      rfl

/-- What was saved before is saved as it is. -/
theorem iniSave_load_save {c : Ini} (h : HeaderOk c) : iniSave (iniLoad (iniSave c)) = iniSave c := by
  have hdata : ∀ s ∈ c.order,
      ((iniLoad (iniSave c)).data s).getD [] = savedPairs ((c.data s).getD []) := by
    intro s hs
    rw [data_load_save]
    by_cases hne : savedPairs ((c.data s).getD []) = []
    · rw [if_neg fun e => e.2 hne, hne]
      rfl
    · rw [if_pos ⟨hs, hne⟩]
      rfl
  have hidem : ∀ s, savedPairs (savedPairs ((c.data s).getD [])) = savedPairs ((c.data s).getD []) := by
    intro s
    have hline : ∀ p ∈ (c.data s).getD [], 10 ∉ p.2 := by
      cases hd : c.data s with
      | none => exact fun p hp => absurd hp List.not_mem_nil
      | some pairs => exact h.line s pairs hd
    rw [savedPairs_line hline, savedPairs_line fun p hp => hline p (List.mem_of_mem_filter hp),
      List.filter_filter]
    simp
  calc iniSave (iniLoad (iniSave c))
      = c.order.map fun s => (s, savedPairs (((iniLoad (iniSave c)).data s).getD [])) :=
        congrArg (List.map _) (order_load_save c)
    _ = iniSave c := List.map_congr_left fun s hs => by rw [hdata s hs, hidem]

/-! ## Obsolete images -/

/-- The header after `skelDeleteBaseLink`. -/
def deleteMenu (f : IniFile) (image : Bytes) : IniFile :=
  iniSave <|
    match hdrFindMenu (iniLoad f) (ascii "image") image with
    | some m => iniDeleteSection (iniLoad f) m
    | none => iniLoad f

theorem imageOf_delete {c : Ini} {m : Bytes} (h : iniHasSection c m = true) (s : Bytes) :
    imageOf (iniDeleteSection c m) s = if s = m then none else imageOf c s := by
  unfold imageOf
  rw [iniVals_delete h]
  split_ifs <;> rfl

theorem menusFor_delete (c : Ini) (m i : Bytes) :
    menusFor (iniDeleteSection c m) i = (menusFor c i).filter (· ≠ m) := by
  by_cases h : iniHasSection c m = true
  · unfold menusFor
    rw [hdrGetMenuNames_delete h, List.filter_comm, List.filter_filter, List.filter_filter]
    refine List.filter_congr fun s _ => ?_
    rw [imageOf_delete h]
    by_cases hs : s = m
    · simp [hs]
    · simp [hs]
  · have hself : iniDeleteSection c m = c := if_neg h
    rw [hself, List.filter_eq_self.mpr fun s hs => ?_]
    refine decide_eq_true fun he => h ?_
    exact iniHasSection_of_imageOf (he ▸ (mem_menusFor.mp hs).2)

/-- A menu for another image stays. -/
theorem menusFor_delete_ne {c : Ini} {m i : Bytes} (h : imageOf c m ≠ some i) :
    menusFor (iniDeleteSection c m) i = menusFor c i := by
  rw [menusFor_delete]
  exact List.filter_eq_self.mpr fun s hs => decide_eq_true fun he => h (he ▸ (mem_menusFor.mp hs).2)

theorem HeaderOk.delete {c : Ini} (h : HeaderOk c) (m : Bytes) : HeaderOk (iniDeleteSection c m) := by
  by_cases hsec : iniHasSection c m = true
  · refine ⟨wf_delete h.wf m, fun s hs v hv => ?_, fun s pairs hd => ?_⟩
    · rw [iniVals_delete hsec] at hv
      split_ifs at hv
      · cases hv
      · exact h.vals s hs v hv
    · unfold iniDeleteSection at hd
      rw [if_pos hsec] at hd
      by_cases hs : s = m
      · rw [hs] at hd
        cases (Function.update_self m none c.data).symm.trans hd
      · exact h.line s pairs ((Function.update_of_ne hs none c.data).symm.trans hd)
  · rw [show iniDeleteSection c m = c from if_neg hsec]
    exact h

section DeleteMenu

variable {f : IniFile} (h : HeaderOk (iniLoad f)) (o : Bytes)
include h

theorem HeaderOk.deleteMenu : HeaderOk (iniLoad (deleteMenu f o)) := by
  unfold LinboxRescue.deleteMenu
  cases hdrFindMenu (iniLoad f) (ascii "image") o with
  | none => exact h.saved
  | some m => exact (h.delete m).saved

theorem HeaderOk.menusFor_deleteMenu {i : Bytes} (hi : i ≠ o) :
    menusFor (iniLoad (LinboxRescue.deleteMenu f o)) i = menusFor (iniLoad f) i := by
  unfold LinboxRescue.deleteMenu
  cases hfind : hdrFindMenu (iniLoad f) (ascii "image") o with
  | none => exact h.menusFor_saved i
  | some m =>
    rw [hdrFindMenu_eq] at hfind
    have hm := (mem_menusFor.mp (List.mem_of_mem_head? hfind)).2
    have hne : imageOf (iniLoad f) m ≠ some i := fun e => hi (Option.some.inj (e.symm.trans hm))
    rw [(h.delete m).menusFor_saved, menusFor_delete_ne hne]

omit h in
theorem mem_order_deleteMenu (s : Bytes) : s ∈ (iniLoad (deleteMenu f o)).order ↔
    s ∈ (iniLoad f).order ∧ hdrFindMenu (iniLoad f) (ascii "image") o ≠ some s := by
  unfold deleteMenu
  rw [order_load_save]
  cases hfind : hdrFindMenu (iniLoad f) (ascii "image") o with
  | none => exact (and_iff_left (by simp)).symm
  | some m =>
    rw [hdrFindMenu_eq] at hfind
    have hsec := iniHasSection_of_imageOf (mem_menusFor.mp (List.mem_of_mem_head? hfind)).2
    dsimp only
    unfold iniDeleteSection
    rw [if_pos hsec]
    dsimp only
    rw [List.mem_filter, decide_eq_true_iff]
    exact and_congr_right fun _ => by simp [eq_comm]

end DeleteMenu

/-- **The obsolete images** lose a menu each, and no other image does. -/
theorem deleteMenus_spec {os : List Bytes} (hn : os.Nodup) {f : IniFile} (h : HeaderOk (iniLoad f)) :
    HeaderOk (iniLoad (os.foldl deleteMenu f)) ∧
    (∀ i ∉ os, menusFor (iniLoad (os.foldl deleteMenu f)) i = menusFor (iniLoad f) i) ∧
    ∀ s, s ∈ (iniLoad (os.foldl deleteMenu f)).order ↔
      s ∈ (iniLoad f).order ∧ ∀ o ∈ os, hdrFindMenu (iniLoad f) (ascii "image") o ≠ some s := by
  induction os generalizing f with
  | nil => exact ⟨h, fun _ _ => rfl, fun s =>
      (and_iff_left fun o ho => absurd ho List.not_mem_nil).symm⟩
  | cons o os ih =>
    obtain ⟨ho, hn⟩ := List.nodup_cons.mp hn
    obtain ⟨hok, hmenus, horder⟩ := ih hn (h.deleteMenu o)
    refine ⟨hok, fun i hi => ?_, fun s => ?_⟩
    · rw [List.mem_cons, not_or] at hi
      exact (hmenus i hi.2).trans (h.menusFor_deleteMenu o hi.1)
    · have hfind : ∀ o' ∈ os, hdrFindMenu (iniLoad (deleteMenu f o)) (ascii "image") o' =
          hdrFindMenu (iniLoad f) (ascii "image") o' := by
        intro o' ho'
        rw [hdrFindMenu_eq, hdrFindMenu_eq, h.menusFor_deleteMenu o fun e => ho (e ▸ ho')]
      rw [List.foldl_cons, horder, mem_order_deleteMenu, and_assoc, List.forall_mem_cons]
      refine and_congr_right fun _ => and_congr_right fun _ => ?_
      exact forall₂_congr fun o' ho' => by rw [hfind o' ho']

/-! ## New images -/

/-- The header after `skelAddBaseLink`, when the link was made. -/
def addMenu (f : IniFile) (image : Bytes) : IniFile :=
  match hdrFindMenu (iniLoad f) (ascii "image") image with
  | some _ => iniSave (iniLoad f)
  | none =>
    match iniAddSection (iniLoad f) (hdrUniqueName (iniLoad f)) with
    | none => f
    | some conf => iniSave (hdrSetMenu conf (hdrUniqueName (iniLoad f)) (ascii "no") image
        (image ++ ascii "/conf.txt"))

/-- The only name of a new menu. -/
def newName : Bytes := ascii "menu1"

section NewMenu

variable {c c' : Ini} (ha : iniAddSection c newName = some c') (visu image incl : Bytes)
include ha

theorem imageOf_newMenu (s : Bytes) : imageOf (hdrSetMenu c' newName visu image incl) s =
    if s = newName then some image else imageOf c s := by
  unfold imageOf
  rw [iniVals_newMenu ha]
  split_ifs <;> rfl

theorem imageOf_newName : imageOf c newName = none := by
  unfold iniAddSection at ha
  split_ifs at ha with hsec
  cases h : imageOf c newName with
  | none => rfl
  | some v => exact absurd (iniHasSection_of_imageOf h) hsec

/-- The menus for an image after that. -/
theorem menusFor_newMenu (j : Bytes) : menusFor (hdrSetMenu c' newName visu image incl) j =
    ((hdrGetMenuNames c).filter fun m => (if m = newName then some image else imageOf c m) = some j) ++
      if image = j then [newName] else [] := by
  unfold menusFor
  rw [hdrGetMenuNames_newMenu rfl ha, List.filter_append]
  simp only [imageOf_newMenu ha]
  rw [List.append_cancel_left_eq, List.filter_cons, if_pos rfl, List.filter_nil]
  simp only [Option.some_inj, decide_eq_true_eq]

end NewMenu

theorem mem_setPair {key val : Bytes} {pairs : Pairs} {p : Bytes × Bytes}
    (h : p ∈ setPair key val pairs) : p.2 = val ∨ p ∈ pairs := by
  induction pairs with
  | nil =>
    rw [List.mem_singleton.mp h]
    exact .inl rfl
  | cons q pairs ih =>
    unfold setPair at h
    split_ifs at h
    · rcases List.mem_cons.mp h with rfl | h
      · exact .inl rfl
      · exact .inr (List.mem_cons_of_mem q h)
    · rcases List.mem_cons.mp h with rfl | h
      · exact .inr List.mem_cons_self
      · exact (ih h).imp_right (List.mem_cons_of_mem q)

theorem ValueLines.setVal {c : Ini} (h : ValueLines c) (s key : Bytes) {val : Bytes} (hv : 10 ∉ val) :
    ValueLines (iniSetVal c s key val) := by
  unfold iniSetVal
  cases hd : c.data s with
  | none => exact h
  | some pairs =>
    intro s' pairs' hd' p hp
    dsimp only at hd'
    by_cases hs : s' = s
    · rw [hs, Function.update_self] at hd'
      obtain rfl := Option.some.inj hd'
      rcases mem_setPair hp with rfl | hp
      · exact hv
      · exact h s pairs hd p hp
    · rw [Function.update_of_ne hs] at hd'
      exact h s' pairs' hd' p hp

theorem HeaderOk.newMenu {c c' : Ini} (h : HeaderOk c) (ha : iniAddSection c newName = some c')
    {image : Bytes} (hi : PlainName image) :
    HeaderOk (hdrSetMenu c' newName (ascii "no") image (image ++ ascii "/conf.txt")) := by
  refine ⟨wf_hdrSetMenu (wf_add h.wf ha) _ _ _ _, fun m hm v hv => ?_, ?_⟩
  · rw [iniVals_newMenu ha] at hv
    split_ifs at hv
    · rw [List.mem_singleton.mp hv]
      exact hi
    · exact h.vals m hm v hv
  · have hadd : ValueLines c' := by
      unfold iniAddSection at ha
      split_ifs at ha
      obtain rfl := Option.some.inj ha
      intro s pairs hd
      dsimp only at hd
      by_cases hs : s = newName
      · rw [hs, Function.update_self] at hd
        obtain rfl := Option.some.inj hd
        exact fun p hp => absurd hp List.not_mem_nil
      · rw [Function.update_of_ne hs] at hd
        exact h.line s pairs hd
    have hincl : 10 ∉ image ++ ascii "/conf.txt" := fun h10 => by
      rcases List.mem_append.mp h10 with h10 | h10
      · exact hi.2 h10
      · exact absurd h10 (by decide)
    have h3 := ((hadd.setVal newName (ascii "def") (by decide : 10 ∉ ascii "no")).setVal
      newName (ascii "visu") (by decide : 10 ∉ ascii "no")).setVal newName (ascii "image") hi.2
    unfold hdrSetMenu
    dsimp only
    split_ifs
    · exact h3
    · exact h3.setVal newName (ascii "include") hincl

section AddMenu

variable {f : IniFile} (h : HeaderOk (iniLoad f)) {i : Bytes} (hi : PlainName i)
include h hi

/-- What a new image does to the header. -/
theorem HeaderOk.addMenu_cases :
    (menusFor (iniLoad f) i ≠ [] ∧ addMenu f i = iniSave (iniLoad f)) ∨
    (menusFor (iniLoad f) i = [] ∧ newName ∈ (iniLoad f).order ∧ addMenu f i = f) ∨
    ∃ c, HeaderOk c ∧ menusFor (iniLoad f) i = [] ∧ addMenu f i = iniSave c ∧
      c.order = (iniLoad f).order ++ [newName] ∧ (∀ j ≠ i, menusFor c j = menusFor (iniLoad f) j) ∧
      ((newName ∉ (iniLoad f).order → menusFor c i = [newName]) ∧
        (newName ∈ (iniLoad f).order → 1 < (menusFor c i).length)) := by
  unfold addMenu
  rw [hdrFindMenu_eq]
  cases hmenus : menusFor (iniLoad f) i with
  | cons m ms => exact .inl ⟨List.cons_ne_nil _ _, rfl⟩
  | nil =>
    right
    dsimp only [List.head?_nil]
    cases ha : iniAddSection (iniLoad f) (hdrUniqueName (iniLoad f)) with
    | none =>
      refine .inl ⟨rfl, ?_, rfl⟩
      have hsec := iniAddSection_eq_none.mp ha
      by_contra hno
      unfold iniHasSection at hsec
      rw [show hdrUniqueName (iniLoad f) = newName from rfl, h.wf newName hno] at hsec
      cases hsec
    | some c' =>
      right
      have ha : iniAddSection (iniLoad f) newName = some c' := ha
      have hnew := menusFor_newMenu ha (ascii "no") i (i ++ ascii "/conf.txt")
      refine ⟨_, h.newMenu ha hi, rfl, rfl, ?_, fun j hj => ?_, fun hno => ?_, fun hyes => ?_⟩
      · rw [order_hdrSetMenu]
        unfold iniAddSection at ha
        split_ifs at ha
        obtain rfl := Option.some.inj ha
        rfl
      · rw [hnew, if_neg (Ne.symm hj), List.append_nil]
        refine List.filter_congr fun m _ => ?_
        split_ifs with hm
        · rw [hm, imageOf_newName ha]
          simp [Ne.symm hj]
        · rfl
      · rw [hnew, if_pos rfl]
        refine (congrArg (· ++ [newName]) (List.filter_eq_nil_iff.mpr fun m hm => ?_)).trans
          (List.nil_append _)
        have hne : m ≠ newName := fun e => hno (e ▸ (List.mem_filter.mp hm).1)
        rw [if_neg hne, decide_eq_true_iff]
        exact fun himg => List.not_mem_nil (hmenus ▸ mem_menusFor.mpr ⟨hm, himg⟩)
      · rw [hnew, if_pos rfl, List.length_append, List.length_singleton]
        refine Nat.lt_add_of_pos_left
          (List.length_pos_of_mem (a := newName) (List.mem_filter.mpr ⟨?_, ?_⟩))
        · exact List.mem_filter.mpr ⟨hyes, by decide⟩
        · simp

theorem HeaderOk.addMenu : HeaderOk (iniLoad (addMenu f i)) := by
  obtain ⟨-, hf⟩ | ⟨-, -, hf⟩ | ⟨c, hc, -, hf, -⟩ := h.addMenu_cases hi
  · rw [hf]
    exact h.saved
  · rw [hf]
    exact h
  · rw [hf]
    exact hc.saved

theorem HeaderOk.menusFor_addMenu {j : Bytes} (hj : j ≠ i) :
    menusFor (iniLoad (LinboxRescue.addMenu f i)) j = menusFor (iniLoad f) j := by
  obtain ⟨-, hf⟩ | ⟨-, -, hf⟩ | ⟨c, hc, -, hf, -, hmenus, -⟩ := h.addMenu_cases hi
  · rw [hf, h.menusFor_saved]
  · rw [hf]
  · rw [hf, hc.menusFor_saved, hmenus j hj]

end AddMenu

/-- New images leave the menus for the others. -/
theorem addMenus_frame {is : List Bytes} (his : ∀ i ∈ is, PlainName i) {f : IniFile}
    (h : HeaderOk (iniLoad f)) : HeaderOk (iniLoad (is.foldl addMenu f)) ∧
      ∀ j ∉ is, menusFor (iniLoad (is.foldl addMenu f)) j = menusFor (iniLoad f) j := by
  induction is generalizing f with
  | nil => exact ⟨h, fun _ _ => rfl⟩
  | cons i is ih =>
    obtain ⟨hi, his⟩ := List.forall_mem_cons.mp his
    obtain ⟨hok, hmenus⟩ := ih his (h.addMenu hi)
    refine ⟨hok, fun j hj => ?_⟩
    rw [List.mem_cons, not_or] at hj
    exact (hmenus j hj.2).trans (h.menusFor_addMenu hi hj.1)

/-- The menus of a header leave room for the new images: there is one at most for each, and only one
image has none, which gets the name that is free. -/
def RoomFor (is : List Bytes) (f : IniFile) : Prop :=
  (∀ i ∈ is, (menusFor (iniLoad f) i).length ≤ 1) ∧
  (∀ i ∈ is, ∀ j ∈ is, menusFor (iniLoad f) i = [] → menusFor (iniLoad f) j = [] → i = j) ∧
  ∀ i ∈ is, menusFor (iniLoad f) i = [] → newName ∉ (iniLoad f).order

theorem roomFor_cons {i : Bytes} {is : List Bytes} (hi : i ∉ is) (f : IniFile) : RoomFor (i :: is) f ↔
    ((menusFor (iniLoad f) i).length ≤ 1 ∧ RoomFor is f) ∧ (menusFor (iniLoad f) i = [] →
      newName ∉ (iniLoad f).order ∧ ∀ j ∈ is, menusFor (iniLoad f) j ≠ []) := by
  constructor
  · rintro ⟨hle, huniq, hfree⟩
    obtain ⟨hle1, hle⟩ := List.forall_mem_cons.mp hle
    refine ⟨⟨hle1, hle, fun a ha b hb => ?_, fun a ha => hfree a (List.mem_cons_of_mem i ha)⟩,
      fun hnil => ⟨hfree i List.mem_cons_self hnil, fun j hj hj' => ?_⟩⟩
    · exact huniq a (List.mem_cons_of_mem i ha) b (List.mem_cons_of_mem i hb)
    · exact hi (huniq i List.mem_cons_self j (List.mem_cons_of_mem i hj) hnil hj' ▸ hj)
  · rintro ⟨⟨hle1, hle, huniq, hfree⟩, hnil⟩
    refine ⟨List.forall_mem_cons.mpr ⟨hle1, hle⟩, ?_,
      List.forall_mem_cons.mpr ⟨fun h => (hnil h).1, hfree⟩⟩
    intro a ha b hb ha' hb'
    rcases List.mem_cons.mp ha with rfl | has <;> rcases List.mem_cons.mp hb with rfl | hbs
    · rfl
    · exact absurd hb' ((hnil ha').2 b hbs)
    · exact absurd ha' ((hnil hb').2 a has)
    · exact huniq a has b hbs ha' hb'

/-- Headers with the same menus for the images leave the same room. -/
theorem roomFor_congr {is : List Bytes} {f g : IniFile}
    (hm : ∀ i ∈ is, menusFor (iniLoad g) i = menusFor (iniLoad f) i)
    (ho : newName ∈ (iniLoad g).order ↔ newName ∈ (iniLoad f).order) : RoomFor is g ↔ RoomFor is f := by
  unfold RoomFor
  refine and_congr (forall₂_congr fun i hi => by rw [hm i hi]) (and_congr ?_ ?_)
  · exact forall₂_congr fun i hi => forall₂_congr fun j hj => by rw [hm i hi, hm j hj]
  · exact forall₂_congr fun i hi => by rw [hm i hi, ho]

/-- **The new images** have one menu each exactly if there is room for them. -/
theorem addMenus_one {is : List Bytes} (hn : is.Nodup) (his : ∀ i ∈ is, PlainName i) {f : IniFile}
    (h : HeaderOk (iniLoad f)) :
    (∀ i ∈ is, (menusFor (iniLoad (is.foldl addMenu f)) i).length = 1) ↔ RoomFor is f := by
  induction is generalizing f with
  | nil => simp [RoomFor]
  | cons i is ih =>
    obtain ⟨hi, his⟩ := List.forall_mem_cons.mp his
    obtain ⟨hni, hn⟩ := List.nodup_cons.mp hn
    have hlast : menusFor (iniLoad ((i :: is).foldl addMenu f)) i =
        menusFor (iniLoad (addMenu f i)) i :=
      (addMenus_frame his (h.addMenu hi)).2 i hni
    have hrest : ∀ j ∈ is, menusFor (iniLoad (addMenu f i)) j = menusFor (iniLoad f) j := fun j hj =>
      h.menusFor_addMenu hi fun e => hni (e ▸ hj)
    rw [List.forall_mem_cons, hlast, List.foldl_cons, ih hn his (h.addMenu hi), roomFor_cons hni]
    obtain ⟨hne, hf⟩ | ⟨hnil, hname, hf⟩ | ⟨c, hc, hnil, hf, horder, -, hfree, htaken⟩ :=
      h.addMenu_cases hi
    · have hsame : menusFor (iniLoad (addMenu f i)) i = menusFor (iniLoad f) i := by
        rw [hf, h.menusFor_saved]
      have hpos := List.length_pos_iff.mpr hne
      rw [hsame, roomFor_congr hrest (by rw [hf, order_load_save])]
      exact ⟨fun ⟨h1, h2⟩ => ⟨⟨h1.le, h2⟩, fun e => absurd e hne⟩, fun ⟨⟨h1, h2⟩, _⟩ => ⟨by omega, h2⟩⟩
    · rw [hf, hnil]
      exact iff_of_false (fun h1 => absurd h1.1 (by simp)) fun h2 => (h2.2 rfl).1 hname
    · have hmem : newName ∈ (iniLoad (addMenu f i)).order := by
        rw [hf, order_load_save, horder]
        exact List.mem_append_right _ List.mem_cons_self
      have hnew : menusFor (iniLoad (addMenu f i)) i = menusFor c i := by rw [hf, hc.menusFor_saved]
      rw [hnew, hnil]
      by_cases hname : newName ∈ (iniLoad f).order
      · have := htaken hname
        exact iff_of_false (fun h1 => absurd h1.1 (by omega)) fun h2 => (h2.2 rfl).1 hname
      · rw [hfree hname]
        constructor
        · rintro ⟨-, hle, huniq, hno⟩
          have hsome : ∀ j ∈ is, menusFor (iniLoad f) j ≠ [] := fun j hj e =>
            hno j hj ((hrest j hj).trans e) hmem
          refine ⟨⟨Nat.zero_le _, fun j hj => hrest j hj ▸ hle j hj, ?_, ?_⟩, fun _ => ⟨hname, hsome⟩⟩
          · exact fun a ha _ _ ha' => absurd ha' (hsome a ha)
          · exact fun a ha ha' => absurd ha' (hsome a ha)
        · rintro ⟨⟨-, hle, -, -⟩, hsome⟩
          have hsome : ∀ j ∈ is, menusFor (iniLoad (addMenu f i)) j ≠ [] := fun j hj =>
            hrest j hj ▸ (hsome rfl).2 j hj
          refine ⟨rfl, fun j hj => (hrest j hj).symm ▸ hle j hj, ?_, ?_⟩
          · exact fun a ha _ _ ha' => absurd ha' (hsome a ha)
          · exact fun a ha ha' => absurd ha' (hsome a ha)

/-! ## Other images -/

/-- One round of the loop at the end of `doSkelSync`. A menu without an image is deleted too. -/
def sweepMenu (base : List Bytes) (conf : Ini) (m : Bytes) : Ini :=
  if base.contains (iniGetVal conf m (ascii "image")) then conf else iniDeleteSection conf m

def sweepMenus (base : List Bytes) (conf : Ini) : Ini :=
  (hdrGetMenuNames conf).foldl (sweepMenu base) conf

/-- There is nothing to delete: the image is there, or the section has no keys. -/
def Swept (base : List Bytes) (c : Ini) (m : Bytes) : Prop :=
  iniGetVal c m (ascii "image") ∈ base ∨ iniHasSection c m = false

/-- A section that is deleted, or not. -/
theorem Swept.delete {base : List Bytes} {c : Ini} {m : Bytes} (h : Swept base c m) (m' : Bytes) :
    Swept base (iniDeleteSection c m') m := by
  by_cases hsec : iniHasSection c m' = true
  · by_cases hm : m = m'
    · right
      unfold iniDeleteSection
      rw [if_pos hsec]
      unfold iniHasSection
      dsimp only
      rw [hm, Function.update_self]
      rfl
    · refine h.imp (fun hv => ?_) fun hs => ?_
      · unfold iniGetVal at *
        rwa [iniVals_delete hsec, if_neg hm]
      · unfold iniDeleteSection
        rw [if_pos hsec]
        unfold iniHasSection at *
        dsimp only
        rwa [Function.update_of_ne hm]
  · rwa [show iniDeleteSection c m' = c from if_neg hsec]

theorem swept_delete_self (base : List Bytes) (c : Ini) (m : Bytes) :
    Swept base (iniDeleteSection c m) m := by
  right
  unfold iniDeleteSection
  split_ifs with hsec
  · unfold iniHasSection
    dsimp only
    rw [Function.update_self]
    rfl
  · exact Bool.eq_false_iff.mpr hsec

section SweepMenu

variable {base : List Bytes} {c : Ini} (m : Bytes)

theorem HeaderOk.sweepMenu (h : HeaderOk c) : HeaderOk (sweepMenu base c m) := by
  unfold LinboxRescue.sweepMenu
  split_ifs
  · exact h
  · exact h.delete m

theorem menusFor_sweepMenu {i : Bytes} (hi : i ∈ base) :
    menusFor (sweepMenu base c m) i = menusFor c i := by
  unfold sweepMenu
  split_ifs with hv
  · rfl
  · exact menusFor_delete_ne fun e => hv (List.contains_iff_mem.mpr (iniGetVal_of_imageOf e ▸ hi))

theorem Swept.sweepMenu {s : Bytes} (h : Swept base c s) : Swept base (sweepMenu base c m) s := by
  unfold LinboxRescue.sweepMenu
  split_ifs
  · exact h
  · exact h.delete m

theorem swept_sweepMenu : Swept base (sweepMenu base c m) m := by
  unfold sweepMenu
  split_ifs with hv
  · exact .inl (List.contains_iff_mem.mp hv)
  · exact swept_delete_self base c m

theorem order_sweepMenu {s : Bytes} (hs : s ∈ (sweepMenu base c m).order) : s ∈ c.order := by
  unfold sweepMenu iniDeleteSection at hs
  split_ifs at hs
  · exact hs
  · exact List.mem_of_mem_filter hs
  · exact hs

end SweepMenu

/-- **The sweep** keeps the menus for the base images, and leaves none for others. -/
theorem sweepMenus_spec (base : List Bytes) {c : Ini} (h : HeaderOk c) :
    HeaderOk (sweepMenus base c) ∧ (∀ i ∈ base, menusFor (sweepMenus base c) i = menusFor c i) ∧
      ∀ m ∈ hdrGetMenuNames (sweepMenus base c), Swept base (sweepMenus base c) m := by
  have hfold : ∀ ms : List Bytes, ∀ d : Ini, HeaderOk d →
      HeaderOk (ms.foldl (sweepMenu base) d) ∧
      (∀ i ∈ base, menusFor (ms.foldl (sweepMenu base) d) i = menusFor d i) ∧
      (∀ m, m ∈ ms ∨ Swept base d m → Swept base (ms.foldl (sweepMenu base) d) m) ∧
      ∀ s ∈ (ms.foldl (sweepMenu base) d).order, s ∈ d.order := by
    intro ms
    induction ms with
    | nil => exact fun d hd =>
        ⟨hd, fun _ _ => rfl, fun m hm => hm.resolve_left List.not_mem_nil, fun _ hs => hs⟩
    | cons m ms ih =>
      intro d hd
      obtain ⟨hok, hmenus, hswept, horder⟩ := ih (sweepMenu base d m) (hd.sweepMenu m)
      refine ⟨hok, fun i hi => (hmenus i hi).trans (menusFor_sweepMenu m hi), fun s hs => hswept s ?_,
        fun s hs => order_sweepMenu m (horder s hs)⟩
      rcases hs with hs | hs
      · rcases List.mem_cons.mp hs with rfl | hs
        · exact .inr (swept_sweepMenu s)
        · exact .inl hs
      · exact .inr (hs.sweepMenu m)
  obtain ⟨hok, hmenus, hswept, horder⟩ := hfold (hdrGetMenuNames c) c h
  refine ⟨hok, hmenus, fun m hm => hswept m (.inl ?_)⟩
  obtain ⟨hm, hname⟩ := List.mem_filter.mp hm
  exact List.mem_filter.mpr ⟨horder m hm, hname⟩

theorem sweepMenus_eq_self {base : List Bytes} {c : Ini} (h : ∀ m ∈ hdrGetMenuNames c, Swept base c m) :
    sweepMenus base c = c := by
  have hstep : ∀ m ∈ hdrGetMenuNames c, sweepMenu base c m = c := by
    intro m hm
    unfold sweepMenu
    split_ifs with hv
    · rfl
    · exact if_neg (Bool.eq_false_iff.mp
        ((h m hm).resolve_left fun hc => hv (List.contains_iff_mem.mpr hc)))
  have hfold : ∀ ms : List Bytes, (∀ m ∈ ms, sweepMenu base c m = c) →
      ms.foldl (sweepMenu base) c = c := by
    intro ms hms
    induction ms with
    | nil => rfl
    | cons m ms ih =>
      obtain ⟨hm, hms⟩ := List.forall_mem_cons.mp hms
      rw [List.foldl_cons, hm, ih hms]
  exact hfold _ hstep

theorem sweepMenus_congr {base base' : List Bytes} (h : ∀ i, i ∈ base' ↔ i ∈ base) (c : Ini) :
    sweepMenus base' c = sweepMenus base c := by
  have hstep : sweepMenu base' = sweepMenu base := by
    funext c m
    exact if_congr (List.contains_iff_mem.trans ((h _).trans List.contains_iff_mem.symm)) rfl rfl
  unfold sweepMenus
  rw [hstep]

/-- What was swept and saved is swept when it is loaded again. -/
theorem Swept.saved {base : List Bytes} {c : Ini} (h : HeaderOk c) {m : Bytes}
    (hm : isMenuName m = true) (hs : Swept base c m) : Swept base (iniLoad (iniSave c)) m := by
  rcases hs with hv | hsec
  · left
    have hvals : iniVals (iniLoad (iniSave c)) m (ascii "image") = iniVals c m (ascii "image") :=
      iniVals_saved h.wf (h.vals m hm)
    unfold iniGetVal at *
    rwa [hvals]
  · right
    have hnone : c.data m = none := by simpa [iniHasSection] using hsec
    unfold iniHasSection
    rw [data_load_save, hnone, if_neg fun e => e.2 rfl]
    rfl

/-- **A second sweep** changes nothing. -/
theorem sweepMenus_again (base : List Bytes) {c : Ini} (h : HeaderOk c) :
    iniSave (sweepMenus base (iniLoad (iniSave (sweepMenus base c)))) =
      iniSave (sweepMenus base c) := by
  obtain ⟨hok, -, hswept⟩ := sweepMenus_spec base h
  rw [sweepMenus_eq_self, iniSave_load_save hok]
  intro m hm
  rw [hdrGetMenuNames_saved] at hm
  exact (hswept m hm).saved hok (isMenuName_of_mem hm)

end LinboxRescue
