import LinboxRescue.Admin.SkelMenus

/-!
# Synchronising `imgskel` with `imgbase` (`src/server/admin/perl/skelsync`)

The links of `imgskel` are read, those of images that are gone are deleted, new images are linked,
and each step changes the menus of `header.lst`.

1. `doSkelSync_eq`: the directory afterwards, with the three steps for the menus.
2. `doSkelSync_iff`: when the links and the menus are those of the base images.
-/

namespace LinboxRescue

/-! ## The program -/

/-- The directory, with the targets of the links of `imgskel`. -/
structure SkelTree where
  lbs : Lbs
  target : Bytes → Bytes

/-- The entries of `imgbase` and `imgskel`, in the order of `readdir`. -/
structure Readdir where
  base : List Bytes
  skel : List Bytes

/-- `m(/imgbase/$i/?$)`. The end may be in front of a newline. -/
def matchesBase (i target : Bytes) : Bool :=
  [ascii "", ascii "/", ascii "\n", ascii "/\n"].any fun e =>
    (ascii "/imgbase/" ++ (i ++ e)).isSuffixOf target

def skelReadBaseLinks (t : SkelTree) (skel : List Bytes) : List Bytes :=
  skel.filter fun i => t.lbs.skel.images i = some .link ∧ matchesBase i (t.target i)

def listExclude (liste exclure : List Bytes) : List Bytes := liste.filter fun i => !exclure.contains i

def SkelTree.deleteBaseLink (os : Os) (t : SkelTree) (image : Bytes) : SkelTree :=
  { t with lbs := LinboxRescue.skelDeleteBaseLink os t.lbs image }

/-- The link is made before the header is looked at. -/
def SkelTree.addBaseLink (os : Os) (t : SkelTree) (image : Bytes) : SkelTree where
  lbs := (LinboxRescue.skelAddBaseLink hdrUniqueName os t.lbs image).2
  target :=
    if t.lbs.imgbase image ≠ none ∧ t.lbs.skel.images image = none ∧ os.symlink then
      Function.update t.target image (ascii "../../imgbase/" ++ image)
    else t.target

/-- The menus of other images are deleted. Without a header an empty one is written. -/
def SkelTree.sweep (t : SkelTree) (base : List Bytes) : SkelTree :=
  let header :=
    match t.lbs.skel.header with
    | some f => iniSave (sweepMenus base (iniLoad f))
    | none => []
  { t with lbs := { t.lbs with skel := { t.lbs.skel with header := some header } } }

def doSkelSync (os : Os) (rd : Readdir) (t : SkelTree) : SkelTree :=
  let lsBase := rd.base
  -- the warning for an empty `imgbase` sets the error flag, which ends the program
  if lsBase = [] then t
  else
    let lsSkel := skelReadBaseLinks t rd.skel
    let t := (listExclude lsSkel lsBase).foldl (SkelTree.deleteBaseLink os) t
    let t := (listExclude lsBase lsSkel).foldl (SkelTree.addBaseLink os) t
    t.sweep lsBase

/-! ## What it should do -/

/-- Letters, digits, `-` and `_`. -/
def IsImageName (i : Bytes) : Prop := i ≠ [] ∧ ∀ b ∈ i, isPerlWord b = true ∨ b = 45

/-- The entries are those of the directories. -/
structure Readdir.Lists (rd : Readdir) (t : SkelTree) : Prop where
  base_nodup : rd.base.Nodup
  skel_nodup : rd.skel.Nodup
  mem_base : ∀ i, i ∈ rd.base ↔ t.lbs.imgbase i ≠ none
  mem_skel : ∀ i, i ∈ rd.skel ↔ t.lbs.skel.images i ≠ none

/-- The end of a link to an image. -/
def EndsIn (target y : Bytes) : Prop :=
  ascii "/imgbase/" ++ y <:+ target ∨ ascii "/imgbase/" ++ (y ++ [47]) <:+ target

/-- The link goes to a base image. It is for the directory of a host, so its end says which one it
is. -/
def SkelTree.LinksTo (t : SkelTree) (x y : Bytes) : Prop :=
  t.lbs.skel.images x = some .link ∧ EndsIn (t.target x) y

/-- The directory is as the program expects it. -/
structure SkelOk (t : SkelTree) (f : IniFile) : Prop where
  header : t.lbs.skel.header = some f
  line : ∀ s ∈ f, ∀ p ∈ s.2, 10 ∉ p.2
  image : ∀ s ∈ f, isMenuName s.1 = true → ∀ p ∈ s.2, lc p.1 = lc imageKey → IsImageName p.2
  base : ∀ i, t.lbs.imgbase i ≠ none → IsImageName i
  links : ∀ i, t.lbs.skel.images i = some .link → IsImageName i
  target : ∀ i, 10 ∉ t.target i

/-- The header of `imgskel`. -/
def SkelTree.conf (t : SkelTree) : Ini := iniLoad (t.lbs.skel.header.getD [])

/-- What the run should do. -/
structure Converges (os : Os) (rd : Readdir) (t : SkelTree) : Prop where
  links : ∀ x y, IsImageName y →
    ((doSkelSync os rd t).LinksTo x y ↔ x = y ∧ t.lbs.imgbase y ≠ none)
  added : ∀ i, t.lbs.skel.images i = none → (doSkelSync os rd t).lbs.skel.images i ≠ none →
    (menusFor (doSkelSync os rd t).conf i).length = 1
  menus : ∀ m ∈ hdrGetMenuNames (doSkelSync os rd t).conf, ∀ i,
    imageOf (doSkelSync os rd t).conf m = some i → t.lbs.imgbase i ≠ none
  again : ∀ rd' : Readdir, rd'.Lists (doSkelSync os rd t) →
    doSkelSync os rd' (doSkelSync os rd t) = doSkelSync os rd t

/-! ## The three steps -/

/-- The links and the header of `imgskel` are replaced. -/
def SkelTree.put (t : SkelTree) (images : Bytes → Option ImageDir) (target : Bytes → Bytes)
    (f : IniFile) : SkelTree :=
  ⟨{ t.lbs with skel := { t.lbs.skel with header := some f, images := images } }, target⟩

section Steps

variable {os : Os} (t : SkelTree) {images : Bytes → Option ImageDir} {target : Bytes → Bytes}
    {f : IniFile}

theorem SkelTree.deleteBaseLink_put (hos : os.incSaved = true) {o : Bytes}
    (ho : images o = some .link) :
    (t.put images target f).deleteBaseLink os o =
      t.put (Function.update images o none) target (deleteMenu f o) := by
  unfold SkelTree.deleteBaseLink skelDeleteBaseLink SkelTree.put HostDir.setImage deleteMenu
  dsimp only
  rw [ho, hos]
  dsimp only
  cases hdrFindMenu (iniLoad f) (ascii "image") o <;> rfl

theorem SkelTree.addBaseLink_put (hos : os.symlink = true) {i : Bytes} (hi : t.lbs.imgbase i ≠ none) :
    (t.put images target f).addBaseLink os i =
      if images i = none then t.put (Function.update images i (some .link))
        (Function.update target i (ascii "../../imgbase/" ++ i)) (addMenu f i)
      else t.put images target f := by
  unfold SkelTree.addBaseLink skelAddBaseLink SkelTree.put
  dsimp only
  by_cases himg : images i = none
  · have hsome : ¬(images i).isSome = true := by simp [himg]
    rw [if_neg hi, if_neg hsome, hos, if_pos rfl, if_pos ⟨hi, himg, rfl⟩, if_pos himg]
    unfold skelAddMenu addMenu HostDir.setImage
    dsimp only
    cases hdrFindMenu (iniLoad f) (ascii "image") i with
    | some m => rfl
    | none => cases iniAddSection (iniLoad f) (hdrUniqueName (iniLoad f)) <;> rfl
  · rw [if_neg hi, if_pos (Option.isSome_iff_ne_none.mpr himg), if_neg fun h => himg h.2.1, if_neg himg]

/-- The links of the obsolete images. -/
theorem SkelTree.deleteBaseLinks_put (hos : os.incSaved = true) {gone : List Bytes} (hn : gone.Nodup)
    (hl : ∀ o ∈ gone, images o = some .link) :
    gone.foldl (SkelTree.deleteBaseLink os) (t.put images target f) =
      t.put (fun x => if x ∈ gone then none else images x) target (gone.foldl deleteMenu f) := by
  induction gone generalizing images f with
  | nil => simp
  | cons o gone ih =>
    obtain ⟨ho, hn⟩ := List.nodup_cons.mp hn
    obtain ⟨hlo, hl⟩ := List.forall_mem_cons.mp hl
    rw [List.foldl_cons, List.foldl_cons, t.deleteBaseLink_put hos hlo, ih hn]
    · congr 1
      funext x
      by_cases hx : x = o
      · simp [hx]
      · simp [hx]
    · intro o' ho'
      have hne : o' ≠ o := fun e => ho (e ▸ ho')
      rw [Function.update_of_ne hne]
      exact hl o' ho'

/-- The links of the new images, where nothing has their name. -/
theorem SkelTree.addBaseLinks_put (hos : os.symlink = true) {is : List Bytes} (hn : is.Nodup)
    (hb : ∀ i ∈ is, t.lbs.imgbase i ≠ none) :
    is.foldl (SkelTree.addBaseLink os) (t.put images target f) =
      t.put (fun x => if x ∈ is ∧ images x = none then some .link else images x)
        (fun x => if x ∈ is ∧ images x = none then ascii "../../imgbase/" ++ x else target x)
        ((is.filter fun i => images i = none).foldl addMenu f) := by
  induction is generalizing images target f with
  | nil => simp
  | cons i is ih =>
    obtain ⟨hi, hn⟩ := List.nodup_cons.mp hn
    obtain ⟨hbi, hb⟩ := List.forall_mem_cons.mp hb
    rw [List.foldl_cons, t.addBaseLink_put hos hbi]
    by_cases himg : images i = none
    · have hcond : ∀ x, (x ∈ is ∧ Function.update images i (some ImageDir.link) x = none) ↔
          x ∈ is ∧ images x = none := by
        intro x
        refine and_congr_right fun hx => ?_
        rw [Function.update_of_ne fun e : x = i => hi (e ▸ hx)]
      rw [if_pos himg, ih hn hb]
      simp only [hcond]
      congr 1
      · funext x
        by_cases hx : x = i
        · simp [hx, hi, himg]
        · simp [hx]
      · funext x
        by_cases hx : x = i
        · simp [hx, hi, himg]
        · simp [hx]
      · rw [List.filter_cons_of_pos (by simpa using himg), List.foldl_cons]
        refine congrArg (List.foldl addMenu (addMenu f i)) (List.filter_congr fun x hx => ?_)
        rw [Function.update_of_ne fun e : x = i => hi (e ▸ hx)]
    · have hcond : ∀ x, (x ∈ i :: is ∧ images x = none) ↔ x ∈ is ∧ images x = none := by
        intro x
        rw [List.mem_cons, or_and_right]
        exact or_iff_right fun h => himg (h.1 ▸ h.2)
      rw [if_neg himg, ih hn hb]
      simp only [hcond]
      rw [List.filter_cons_of_neg (by simpa using himg)]

end Steps

/-- `@ls_obsolete`. -/
def gone (rd : Readdir) (t : SkelTree) : List Bytes := listExclude (skelReadBaseLinks t rd.skel) rd.base

/-- `@ls_toadd`. -/
def missing (rd : Readdir) (t : SkelTree) : List Bytes :=
  listExclude rd.base (skelReadBaseLinks t rd.skel)

/-- The images that get a link. -/
def fresh (rd : Readdir) (t : SkelTree) : List Bytes :=
  (missing rd t).filter fun i => t.lbs.skel.images i = none

/-- The menus before the last step. -/
def syncedMenus (rd : Readdir) (t : SkelTree) (f : IniFile) : IniFile :=
  (fresh rd t).foldl addMenu ((gone rd t).foldl deleteMenu f)

theorem mem_listExclude {i : Bytes} {as bs : List Bytes} : i ∈ listExclude as bs ↔ i ∈ as ∧ i ∉ bs := by
  unfold listExclude
  rw [List.mem_filter, Bool.not_eq_true', Bool.eq_false_iff, Ne, List.contains_iff_mem]

section Run

variable {os : Os} (hsym : os.symlink = true) (hinc : os.incSaved = true) {rd : Readdir} {t : SkelTree}
  (hrd : rd.Lists t) {f : IniFile} (hf : t.lbs.skel.header = some f) (ht : ∀ i, 10 ∉ t.target i)

include hrd ht

theorem mem_skelReadBaseLinks {i : Bytes} : i ∈ skelReadBaseLinks t rd.skel ↔ t.LinksTo i i := by
  have hend : ∀ e : Bytes, ¬(ascii "/imgbase/" ++ (i ++ (e ++ [10])) <:+ t.target i) := fun e h => by
    refine ht i (h.subset ?_)
    simp
  have hmatch : matchesBase i (t.target i) = true ↔
      EndsIn (t.target i) i := by
    have h1 := hend []
    have h2 := hend [47]
    unfold matchesBase
    rw [List.any_eq_true]
    constructor
    · rintro ⟨e, he, hsuf⟩
      have he : e ∈ [[], [47], [] ++ [10], [47] ++ [10]] := he
      have hsuf := List.isSuffixOf_iff_suffix.mp hsuf
      simp only [List.mem_cons, List.not_mem_nil, or_false] at he
      rcases he with rfl | rfl | rfl | rfl
      · exact .inl (by rwa [List.append_nil] at hsuf)
      · exact .inr hsuf
      · exact absurd hsuf h1
      · exact absurd hsuf h2
    · rintro (h | h)
      · exact ⟨[], List.mem_cons_self, List.isSuffixOf_iff_suffix.mpr (by rwa [List.append_nil])⟩
      · exact ⟨[47], List.mem_cons_of_mem _ List.mem_cons_self, List.isSuffixOf_iff_suffix.mpr h⟩
  unfold skelReadBaseLinks SkelTree.LinksTo
  rw [List.mem_filter, decide_eq_true_iff, hrd.mem_skel, hmatch]
  exact and_iff_right_of_imp fun h => by rw [h.1]; exact Option.some_ne_none _

theorem mem_gone {i : Bytes} : i ∈ gone rd t ↔ t.LinksTo i i ∧ t.lbs.imgbase i = none := by
  unfold gone
  rw [mem_listExclude, mem_skelReadBaseLinks hrd ht, hrd.mem_base, not_not]

theorem mem_missing {i : Bytes} : i ∈ missing rd t ↔ t.lbs.imgbase i ≠ none ∧ ¬t.LinksTo i i := by
  unfold missing
  rw [mem_listExclude, mem_skelReadBaseLinks hrd ht, hrd.mem_base]

theorem mem_fresh {i : Bytes} :
    i ∈ fresh rd t ↔ t.lbs.imgbase i ≠ none ∧ t.lbs.skel.images i = none := by
  unfold fresh
  rw [List.mem_filter, decide_eq_true_iff, mem_missing hrd ht, and_assoc]
  refine and_congr_right fun _ => and_iff_right_of_imp fun h hl => ?_
  cases h.symm.trans hl.1

include hsym hinc hf

/-- **The directory after the run**, if there is a base image. -/
theorem doSkelSync_eq (hne : rd.base ≠ []) : doSkelSync os rd t =
    t.put (fun x => if x ∈ fresh rd t then some .link
        else if x ∈ gone rd t then none else t.lbs.skel.images x)
      (fun x => if x ∈ fresh rd t then ascii "../../imgbase/" ++ x else t.target x)
      (iniSave (sweepMenus rd.base (iniLoad (syncedMenus rd t f)))) := by
  have hput : t = t.put t.lbs.skel.images t.target f := by
    unfold SkelTree.put
    rw [← hf]
  have hgone : ∀ o ∈ gone rd t, t.lbs.skel.images o = some .link := fun o ho =>
    ((mem_gone hrd ht).mp ho).1.1
  have hngone : (gone rd t).Nodup := (hrd.skel_nodup.filter _).filter _
  have hbase : ∀ i ∈ missing rd t, t.lbs.imgbase i ≠ none := fun i hi => ((mem_missing hrd ht).mp hi).1
  have hkept : ∀ i ∈ missing rd t, i ∉ gone rd t := fun i hi hg =>
    hbase i hi ((mem_gone hrd ht).mp hg).2
  have hrun : doSkelSync os rd t = ((missing rd t).foldl (SkelTree.addBaseLink os)
      ((gone rd t).foldl (SkelTree.deleteBaseLink os) t)).sweep rd.base := if_neg hne
  have hdel := @SkelTree.deleteBaseLinks_put os t _ t.target f hinc _ hngone hgone
  rw [← hput] at hdel
  have hnmissing : (missing rd t).Nodup := hrd.base_nodup.filter _
  rw [hrun, hdel, t.addBaseLinks_put hsym hnmissing hbase]
  have hfresh : ∀ x, (x ∈ missing rd t ∧ (if x ∈ gone rd t then none else t.lbs.skel.images x) = none) ↔
      x ∈ fresh rd t := by
    intro x
    unfold fresh
    rw [List.mem_filter, decide_eq_true_iff]
    exact and_congr_right fun hx => by rw [if_neg (hkept x hx)]
  have hfilter : ((missing rd t).filter fun i =>
      (if i ∈ gone rd t then none else t.lbs.skel.images i) = none) = fresh rd t :=
    List.filter_congr fun x hx => by rw [if_neg (hkept x hx)]
  rw [hfilter]
  simp only [hfresh]
  rfl

end Run

/-! ## Ends of links -/

theorem eq_of_suffix {a b t : Bytes} (ha : 47 ∉ a) (hb : 47 ∉ b) (h : 47 :: a <:+ t)
    (h' : 47 :: b <:+ t) : a = b := by
  have hsub : ∀ {a b : Bytes}, 47 ∉ b → 47 :: a <:+ 47 :: b → a = b := by
    intro a b hb h
    rcases List.suffix_cons_iff.mp h with h | h
    · exact (List.cons_eq_cons.mp h).2
    · exact absurd (h.subset List.mem_cons_self) hb
  rcases List.suffix_or_suffix_of_suffix h h' with h | h
  · exact hsub hb h
  · exact (hsub ha h).symm

theorem IsImageName.not_mem {i : Bytes} (h : IsImageName i) {b : UInt8} (hw : isPerlWord b = false)
    (hb : b ≠ 45) : b ∉ i := fun hm =>
  (h.2 b hm).elim (fun e => Bool.false_ne_true (hw.symm.trans e)) hb

theorem IsImageName.plain {i : Bytes} (h : IsImageName i) : PlainName i :=
  ⟨h.1, h.not_mem (by decide) (by decide)⟩

theorem suffix_slash {y t : Bytes} (h : ascii "/imgbase/" ++ y <:+ t) : 47 :: y <:+ t :=
  (show 47 :: y <:+ ascii "/imgbase/" ++ y from ⟨ascii "/imgbase", rfl⟩).trans h

/-- A link has one end. -/
theorem EndsIn.unique {t y z : Bytes} (hy : IsImageName y) (hz : IsImageName z) (h : EndsIn t y)
    (h' : EndsIn t z) : y = z := by
  have hslash : ∀ {y : Bytes}, IsImageName y → 47 ∉ y := fun h => h.not_mem (by decide) (by decide)
  have hmixed : ∀ {y z : Bytes}, IsImageName y → 47 :: y <:+ t → 47 :: (z ++ [47]) <:+ t → False := by
    intro y z hy h h'
    have hend : [47] <:+ t := (show [47] <:+ 47 :: (z ++ [47]) from ⟨47 :: z, rfl⟩).trans h'
    rcases List.suffix_or_suffix_of_suffix h hend with h | h
    · have hlen := h.length_le
      exact hy.1 (List.length_eq_zero_iff.mp (by simpa using hlen))
    · rcases List.suffix_cons_iff.mp h with h | h
      · exact hy.1 (List.cons_eq_cons.mp h).2.symm
      · exact hslash hy (h.subset List.mem_cons_self)
  rcases h with h | h <;> rcases h' with h' | h' <;> replace h := suffix_slash h <;>
    replace h' := suffix_slash h'
  · exact eq_of_suffix (hslash hy) (hslash hz) h h'
  · exact (hmixed hy h h').elim
  · exact (hmixed hz h' h).elim
  · obtain ⟨u, rfl⟩ := h
    obtain ⟨v, hv⟩ := h'
    rw [← List.cons_append, ← List.cons_append, ← List.append_assoc, ← List.append_assoc,
      List.append_left_inj] at hv
    exact eq_of_suffix (hslash hy) (hslash hz) ⟨u, rfl⟩ ⟨v, hv⟩

theorem endsIn_new (i : Bytes) : EndsIn (ascii "../../imgbase/" ++ i) i :=
  .inl ⟨ascii "../..", rfl⟩

/-! ## Convergence -/

/-- The images that have no entry in `imgskel` yet. -/
def SkelTree.New (t : SkelTree) (i : Bytes) : Prop :=
  t.lbs.imgbase i ≠ none ∧ t.lbs.skel.images i = none

/-- When the run does what it should. -/
structure Syncable (t : SkelTree) (f : IniFile) : Prop where
  named : ∀ x y, IsImageName y → t.LinksTo x y → x = y
  empty : (∀ i, t.lbs.imgbase i = none) →
    (∀ x, ¬t.LinksTo x x) ∧ ∀ m ∈ hdrGetMenuNames (iniLoad f), imageOf (iniLoad f) m = none
  free : ∀ i, t.lbs.imgbase i ≠ none → ¬t.LinksTo i i → t.lbs.skel.images i = none
  one : ∀ i, t.New i → (menusFor (iniLoad f) i).length ≤ 1
  single : ∀ i j, t.New i → t.New j → menusFor (iniLoad f) i = [] → menusFor (iniLoad f) j = [] → i = j
  name : ∀ i, t.New i → menusFor (iniLoad f) i = [] → newName ∈ (iniLoad f).order →
    ∃ o, t.LinksTo o o ∧ t.lbs.imgbase o = none ∧
      hdrFindMenu (iniLoad f) (ascii "image") o = some newName

theorem mem_of_iniData {f : IniFile} {s : Bytes} {pairs : Pairs} (h : iniData f s = some pairs) :
    (s, pairs) ∈ f := by
  induction f with
  | nil => cases h
  | cons e f ih =>
    unfold iniData at h
    cases hf : iniData f s with
    | some ps =>
      rw [hf] at h
      obtain rfl := Option.some.inj h
      exact List.mem_cons_of_mem e (ih hf)
    | none =>
      rw [hf, Option.none_or] at h
      split_ifs at h with he
      obtain rfl := Option.some.inj h
      exact he.1 ▸ List.mem_cons_self

theorem SkelOk.headerOk {t : SkelTree} {f : IniFile} (ok : SkelOk t f) : HeaderOk (iniLoad f) where
  wf := wf_iniLoad f
  vals m hm v hv := by
    unfold iniVals at hv
    cases hd : (iniLoad f).data m with
    | none =>
      rw [hd] at hv
      cases hv
    | some pairs =>
      rw [hd] at hv
      obtain ⟨p, hp, rfl⟩ := List.mem_map.mp hv
      obtain ⟨hp, hk⟩ := List.mem_filter.mp hp
      exact (ok.image _ (mem_of_iniData hd) hm p hp (of_decide_eq_true hk)).plain
  line s pairs hd := ok.line _ (mem_of_iniData hd)

section Converge

variable {os : Os} (hsym : os.symlink = true) (hinc : os.incSaved = true) {rd : Readdir} {t : SkelTree}
  (hrd : rd.Lists t) {f : IniFile} (ok : SkelOk t f)

include hrd ok in
theorem fresh_plain : ∀ i ∈ fresh rd t, PlainName i := fun i hi =>
  (ok.base i ((mem_fresh hrd ok.target).mp hi).1).plain

include hrd in
theorem gone_nodup : (gone rd t).Nodup := (hrd.skel_nodup.filter _).filter _

include hrd in
theorem fresh_nodup : (fresh rd t).Nodup := (hrd.base_nodup.filter _).filter _

include hrd ok in
/-- There is room in the header for the new images. -/
theorem roomFor_iff : RoomFor (fresh rd t) ((gone rd t).foldl deleteMenu f) ↔
    (∀ i, t.New i → (menusFor (iniLoad f) i).length ≤ 1) ∧
    (∀ i j, t.New i → t.New j → menusFor (iniLoad f) i = [] → menusFor (iniLoad f) j = [] → i = j) ∧
    ∀ i, t.New i → menusFor (iniLoad f) i = [] → newName ∈ (iniLoad f).order →
      ∃ o, t.LinksTo o o ∧ t.lbs.imgbase o = none ∧
        hdrFindMenu (iniLoad f) (ascii "image") o = some newName := by
  obtain ⟨-, hmenus, horder⟩ := deleteMenus_spec (gone_nodup hrd) ok.headerOk
  have hnew : ∀ i, i ∈ fresh rd t ↔ t.New i := fun i => mem_fresh hrd ok.target
  have hsame : ∀ i ∈ fresh rd t, menusFor (iniLoad ((gone rd t).foldl deleteMenu f)) i =
      menusFor (iniLoad f) i := by
    intro i hi
    refine hmenus i fun hg => ?_
    exact ((mem_fresh hrd ok.target).mp hi).1 ((mem_gone hrd ok.target).mp hg).2
  have hname : newName ∉ (iniLoad ((gone rd t).foldl deleteMenu f)).order ↔
      (newName ∈ (iniLoad f).order → ∃ o, t.LinksTo o o ∧ t.lbs.imgbase o = none ∧
        hdrFindMenu (iniLoad f) (ascii "image") o = some newName) := by
    rw [horder, not_and]
    refine imp_congr_right fun _ => ?_
    push Not
    refine exists_congr fun o => ?_
    rw [mem_gone hrd ok.target, and_assoc]
  unfold RoomFor
  simp only [← hnew]
  refine and_congr (forall₂_congr fun i hi => by rw [hsame i hi]) (and_congr ?_ ?_)
  · constructor
    · exact fun h i j hi hj ei ej => h i hi j hj ((hsame i hi).trans ei) ((hsame j hj).trans ej)
    · exact fun h i hi j hj ei ej =>
        h i j hi hj ((hsame i hi).symm.trans ei) ((hsame j hj).symm.trans ej)
  · exact forall₂_congr fun i hi => by rw [hsame i hi, hname]

include hrd ok in
theorem syncedMenus_ok : HeaderOk (iniLoad (syncedMenus rd t f)) :=
  (addMenus_frame (fresh_plain hrd ok) (deleteMenus_spec (gone_nodup hrd) ok.headerOk).1).1

section Base

variable (hne : rd.base ≠ [])
include hsym hinc hrd ok hne

theorem images_run (x : Bytes) : (doSkelSync os rd t).lbs.skel.images x =
    if x ∈ fresh rd t then some .link else if x ∈ gone rd t then none else t.lbs.skel.images x := by
  rw [doSkelSync_eq hsym hinc hrd ok.header ok.target hne]
  rfl

theorem target_run (x : Bytes) : (doSkelSync os rd t).target x =
    if x ∈ fresh rd t then ascii "../../imgbase/" ++ x else t.target x := by
  rw [doSkelSync_eq hsym hinc hrd ok.header ok.target hne]
  rfl

theorem header_run : (doSkelSync os rd t).lbs.skel.header =
    some (iniSave (sweepMenus rd.base (iniLoad (syncedMenus rd t f)))) := by
  rw [doSkelSync_eq hsym hinc hrd ok.header ok.target hne]
  rfl

theorem imgbase_run : (doSkelSync os rd t).lbs.imgbase = t.lbs.imgbase := by
  rw [doSkelSync_eq hsym hinc hrd ok.header ok.target hne]
  rfl

theorem conf_run : (doSkelSync os rd t).conf =
    iniLoad (iniSave (sweepMenus rd.base (iniLoad (syncedMenus rd t f)))) := by
  unfold SkelTree.conf
  rw [header_run hsym hinc hrd ok hne, Option.getD_some]

theorem linksTo_run {x y : Bytes} (hy : IsImageName y) : (doSkelSync os rd t).LinksTo x y ↔
    (x ∈ fresh rd t ∧ x = y) ∨ (x ∉ fresh rd t ∧ x ∉ gone rd t ∧ t.LinksTo x y) := by
  unfold SkelTree.LinksTo
  rw [images_run hsym hinc hrd ok hne, target_run hsym hinc hrd ok hne]
  by_cases hx : x ∈ fresh rd t
  · have hname := ok.base x ((mem_fresh hrd ok.target).mp hx).1
    rw [if_pos hx, if_pos hx]
    constructor
    · exact fun h => .inl ⟨hx, (endsIn_new x).unique hname hy h.2⟩
    · rintro (⟨-, rfl⟩ | h)
      · exact ⟨rfl, endsIn_new x⟩
      · exact absurd hx h.1
  · rw [if_neg hx, if_neg hx]
    by_cases hg : x ∈ gone rd t
    · simp [hx, hg]
    · simp [hx, hg]

/-- The links are those to the base images. -/
theorem links_iff :
    (∀ x y, IsImageName y → ((doSkelSync os rd t).LinksTo x y ↔ x = y ∧ t.lbs.imgbase y ≠ none)) ↔
      (∀ x y, IsImageName y → t.LinksTo x y → x = y) ∧
        ∀ i, t.lbs.imgbase i ≠ none → ¬t.LinksTo i i → t.lbs.skel.images i = none := by
  have hfresh : ∀ {x}, x ∈ fresh rd t ↔ t.New x := mem_fresh hrd ok.target
  have hgone : ∀ {x}, x ∈ gone rd t ↔ t.LinksTo x x ∧ t.lbs.imgbase x = none := mem_gone hrd ok.target
  constructor
  · intro h
    refine ⟨fun x y hy hl => ?_, fun i hi hno => ?_⟩
    · by_contra hxy
      refine hxy ((h x y hy).mp ((linksTo_run hsym hinc hrd ok hne hy).mpr (.inr ⟨?_, ?_, hl⟩))).1
      · exact fun hx => by cases (hfresh.mp hx).2.symm.trans hl.1
      · exact fun hg => hxy (EndsIn.unique (ok.links x hl.1) hy (hgone.mp hg).1.2 hl.2)
    · by_contra hsome
      rcases (linksTo_run hsym hinc hrd ok hne (ok.base i hi)).mp
        ((h i i (ok.base i hi)).mpr ⟨rfl, hi⟩) with h1 | h2
      · exact hsome (hfresh.mp h1.1).2
      · exact hno h2.2.2
  · rintro ⟨hnamed, hfree⟩ x y hy
    rw [linksTo_run hsym hinc hrd ok hne hy]
    constructor
    · rintro (⟨hx, rfl⟩ | ⟨-, hg, hl⟩)
      · exact ⟨rfl, (hfresh.mp hx).1⟩
      · obtain rfl := hnamed x y hy hl
        exact ⟨rfl, fun hnone => hg (hgone.mpr ⟨hl, hnone⟩)⟩
    · rintro ⟨rfl, hx⟩
      by_cases hl : t.LinksTo x x
      · refine .inr ⟨fun hf => ?_, fun hg => hx (hgone.mp hg).2, hl⟩
        cases (hfresh.mp hf).2.symm.trans hl.1
      · exact .inl ⟨hfresh.mpr ⟨hx, hfree x hx hl⟩, rfl⟩

/-- Each image that gets a link has one menu. -/
theorem added_iff : (∀ i, t.lbs.skel.images i = none → (doSkelSync os rd t).lbs.skel.images i ≠ none →
    (menusFor (doSkelSync os rd t).conf i).length = 1) ↔
      RoomFor (fresh rd t) ((gone rd t).foldl deleteMenu f) := by
  have hsynced := syncedMenus_ok hrd ok
  obtain ⟨hok, hmenus, -⟩ := sweepMenus_spec rd.base hsynced
  rw [← addMenus_one (fresh_nodup hrd) (fresh_plain hrd ok)
    (deleteMenus_spec (gone_nodup hrd) ok.headerOk).1]
  have hsame : ∀ i ∈ fresh rd t, menusFor (doSkelSync os rd t).conf i =
      menusFor (iniLoad (syncedMenus rd t f)) i := by
    intro i hi
    rw [conf_run hsym hinc hrd ok hne, hok.menusFor_saved]
    exact hmenus i ((hrd.mem_base i).mpr ((mem_fresh hrd ok.target).mp hi).1)
  constructor
  · intro h i hi
    have hlen := h i ((mem_fresh hrd ok.target).mp hi).2 (by
      rw [images_run hsym hinc hrd ok hne, if_pos hi]
      exact Option.some_ne_none _)
    rwa [hsame i hi] at hlen
  · intro h i hnone hsome
    have hi : i ∈ fresh rd t := by
      by_contra hi
      rw [images_run hsym hinc hrd ok hne, if_neg hi] at hsome
      split_ifs at hsome
      · exact hsome rfl
      · exact hsome hnone
    rw [hsame i hi]
    exact h i hi

/-- No menu names an image that is not in `imgbase`. -/
theorem menus_run {m i : Bytes} (hm : m ∈ hdrGetMenuNames (doSkelSync os rd t).conf)
    (hi : imageOf (doSkelSync os rd t).conf m = some i) : t.lbs.imgbase i ≠ none := by
  rw [conf_run hsym hinc hrd ok hne] at hm hi
  obtain ⟨hok, -, hswept⟩ := sweepMenus_spec rd.base (syncedMenus_ok hrd ok)
  rw [hdrGetMenuNames_saved] at hm
  rw [hok.imageOf_saved (isMenuName_of_mem hm)] at hi
  rcases hswept m hm with hv | hsec
  · rw [iniGetVal_of_imageOf hi] at hv
    exact (hrd.mem_base i).mp hv
  · exact absurd (iniHasSection_of_imageOf hi) (Bool.eq_false_iff.mp hsec)

/-- **Another run** changes nothing. -/
theorem doSkelSync_again {rd' : Readdir} (hrd' : rd'.Lists (doSkelSync os rd t)) :
    doSkelSync os rd' (doSkelSync os rd t) = doSkelSync os rd t := by
  have hfresh : ∀ {x}, x ∈ fresh rd t ↔ t.New x := mem_fresh hrd ok.target
  have hgone : ∀ {x}, x ∈ gone rd t ↔ t.LinksTo x x ∧ t.lbs.imgbase x = none := mem_gone hrd ok.target
  have himgbase := imgbase_run hsym hinc hrd ok hne
  have himages := images_run hsym hinc hrd ok hne
  have hheader := header_run hsym hinc hrd ok hne
  have hbase : ∀ i, i ∈ rd'.base ↔ i ∈ rd.base := fun i => by rw [hrd'.mem_base, hrd.mem_base, himgbase]
  have hne' : rd'.base ≠ [] := by
    obtain ⟨i, hi⟩ := List.exists_mem_of_ne_nil _ hne
    exact List.ne_nil_of_mem ((hbase i).mpr hi)
  have htarget : ∀ i, 10 ∉ (doSkelSync os rd t).target i := by
    intro i
    rw [target_run hsym hinc hrd ok hne]
    split_ifs with hi
    · intro h
      rcases List.mem_append.mp h with h | h
      · exact absurd h (by decide)
      · exact (fresh_plain hrd ok i hi).2 h
    · exact ok.target i
  have hnofresh : fresh rd' (doSkelSync os rd t) = [] := by
    refine List.eq_nil_iff_forall_not_mem.mpr fun i hi => ?_
    obtain ⟨hi, hnone⟩ := (mem_fresh hrd' htarget).mp hi
    rw [himgbase] at hi
    rw [himages] at hnone
    split_ifs at hnone with h1 h2
    · exact hi (hgone.mp h2).2
    · exact h1 (hfresh.mpr ⟨hi, hnone⟩)
  have hnogone : gone rd' (doSkelSync os rd t) = [] := by
    refine List.eq_nil_iff_forall_not_mem.mpr fun i hi => ?_
    obtain ⟨hl, hnone⟩ := (mem_gone hrd' htarget).mp hi
    rw [himgbase] at hnone
    have hlink := hl.1
    rw [himages] at hlink
    split_ifs at hlink with h1 h2
    · exact (hfresh.mp h1).1 hnone
    · rcases (linksTo_run hsym hinc hrd ok hne (ok.links i hlink)).mp hl with h3 | ⟨-, -, hl⟩
      · exact h1 h3.1
      · exact h2 (hgone.mpr ⟨hl, hnone⟩)
  have hagain := sweepMenus_again rd.base (syncedMenus_ok hrd ok)
  have hnomenus : ∀ g, syncedMenus rd' (doSkelSync os rd t) g = g := by
    intro g
    unfold syncedMenus
    rw [hnofresh, hnogone]
    rfl
  rw [doSkelSync_eq hsym hinc hrd' hheader htarget hne', hnofresh, hnogone, hnomenus,
    sweepMenus_congr hbase, hagain]
  simp only [List.not_mem_nil, if_false]
  unfold SkelTree.put
  rw [← hheader]

end Base

end Converge

/-- **`doSkelSync` does what it should** exactly if links have the names of their images, `imgbase`
has images or `imgskel` needs none, and there is room for the new links and menus. -/
theorem doSkelSync_iff {os : Os} (hsym : os.symlink = true) (hinc : os.incSaved = true) {rd : Readdir}
    {t : SkelTree} (hrd : rd.Lists t) {f : IniFile} (ok : SkelOk t f) :
    Converges os rd t ↔ Syncable t f := by
  by_cases hne : rd.base = []
  · have hnone : ∀ i, t.lbs.imgbase i = none := fun i => by
      by_contra h
      exact List.not_mem_nil (hne ▸ (hrd.mem_base i).mpr h)
    have hrun : doSkelSync os rd t = t := if_pos hne
    have hconf : t.conf = iniLoad f := by
      unfold SkelTree.conf
      rw [ok.header, Option.getD_some]
    constructor
    · intro h
      have hnolink : ∀ x y, IsImageName y → ¬t.LinksTo x y := fun x y hy hl =>
        ((h.links x y hy).mp (hrun.symm ▸ hl)).2 (hnone y)
      refine ⟨fun x y hy hl => absurd hl (hnolink x y hy), fun _ => ⟨fun x hl => ?_, fun m hm => ?_⟩,
        fun i hi => absurd (hnone i) hi, fun i hi => absurd (hnone i) hi.1,
        fun i j hi => absurd (hnone i) hi.1, fun i hi => absurd (hnone i) hi.1⟩
      · exact hnolink x x (ok.links x hl.1) hl
      · cases himg : imageOf (iniLoad f) m with
        | none => rfl
        | some i =>
          refine absurd (hnone i) (h.menus m ?_ i ?_)
          · rwa [hrun, hconf]
          · rwa [hrun, hconf]
    · intro h
      obtain ⟨hnolink, hnomenu⟩ := h.empty hnone
      refine ⟨fun x y hy => ?_, fun i hi hi' => ?_, fun m hm i hi => ?_, fun rd' hrd' => ?_⟩
      · rw [hrun]
        refine iff_of_false (fun hl => ?_) fun h => h.2 (hnone y)
        obtain rfl := h.named x y hy hl
        exact hnolink x hl
      · rw [hrun] at hi'
        exact absurd hi hi'
      · rw [hrun, hconf] at hm hi
        cases (hnomenu m hm).symm.trans hi
      · rw [hrun] at hrd' ⊢
        refine if_pos (List.eq_nil_iff_forall_not_mem.mpr fun i hi => ?_)
        exact (hrd'.mem_base i).mp hi (hnone i)
  · obtain ⟨i, hi⟩ := List.exists_mem_of_ne_nil _ hne
    have hbase : ¬∀ i, t.lbs.imgbase i = none := fun h => (hrd.mem_base i).mp hi (h i)
    constructor
    · intro h
      obtain ⟨hnamed, hfree⟩ := (links_iff hsym hinc hrd ok hne).mp h.links
      obtain ⟨hone, hsingle, hname⟩ :=
        (roomFor_iff hrd ok).mp ((added_iff hsym hinc hrd ok hne).mp h.added)
      exact ⟨hnamed, fun h => absurd h hbase, hfree, hone, hsingle, hname⟩
    · intro h
      exact ⟨(links_iff hsym hinc hrd ok hne).mpr ⟨h.named, h.free⟩,
        (added_iff hsym hinc hrd ok hne).mpr ((roomFor_iff hrd ok).mpr ⟨h.one, h.single, h.name⟩),
        fun m hm i hi => menus_run hsym hinc hrd ok hne hm hi,
        fun rd' hrd' => doSkelSync_again hsym hinc hrd ok hne hrd'⟩

/-- A tree with some base images and some links, each to the image that it is named after. -/
def treeOf (base links : List Bytes) (f : IniFile) : SkelTree where
  lbs :=
    { ether := none
      hosts := fun _ => none
      imgbase := fun i => if base.contains i then some [] else none
      skel := ⟨some f, none, fun i => if links.contains i then some .link else none⟩
      cfg := fun _ => false
      log := fun _ => false }
  target := fun i => if links.contains i then ascii "../../imgbase/" ++ i else []

section TreeOf

variable {base links : List Bytes} {f : IniFile}

theorem imgbase_treeOf {i : Bytes} : (treeOf base links f).lbs.imgbase i ≠ none ↔ i ∈ base := by
  unfold treeOf
  simp

theorem images_treeOf {i : Bytes} :
    (treeOf base links f).lbs.skel.images i = some .link ↔ i ∈ links := by
  unfold treeOf
  simp

theorem treeOf_lists (hb : base.Nodup) (hl : links.Nodup) :
    Readdir.Lists ⟨base, links⟩ (treeOf base links f) where
  base_nodup := hb
  skel_nodup := hl
  mem_base _ := imgbase_treeOf.symm
  mem_skel i := by
    unfold treeOf
    simp

theorem treeOf_ok (hb : ∀ i ∈ base, IsImageName i) (hl : ∀ i ∈ links, IsImageName i ∧ 10 ∉ i)
    (hline : ∀ s ∈ f, ∀ p ∈ s.2, 10 ∉ p.2) (himage : ∀ s ∈ f, isMenuName s.1 = true → ∀ p ∈ s.2,
      lc p.1 = lc imageKey → IsImageName p.2) : SkelOk (treeOf base links f) f where
  header := rfl
  line := hline
  image := himage
  base i hi := hb i (imgbase_treeOf.mp hi)
  links i hi := (hl i (images_treeOf.mp hi)).1
  target i := by
    unfold treeOf
    dsimp only
    split_ifs with hi
    · have hplain := (hl i (List.contains_iff_mem.mp hi)).2
      rw [List.mem_append]
      exact fun h => h.elim (by decide) hplain
    · exact List.not_mem_nil

/-- A link goes to the image that it is named after. -/
theorem linksTo_treeOf {x y : Bytes} (hx : IsImageName x) (hy : IsImageName y)
    (h : (treeOf base links f).LinksTo x y) : x = y := by
  obtain ⟨hlink, hend⟩ := h
  have htarget : (treeOf base links f).target x = ascii "../../imgbase/" ++ x :=
    if_pos (List.contains_iff_mem.mpr (images_treeOf.mp hlink))
  rw [htarget] at hend
  exact (endsIn_new x).unique hx hy hend

end TreeOf

instance (i : Bytes) : Decidable (IsImageName i) := inferInstanceAs (Decidable (_ ∧ _))

/-- An image that is linked and has its menu, and one that is gone from `imgbase`. -/
def usedHeader : IniFile :=
  [(ascii "menu2", [(imageKey, ascii "Base-1")]), (ascii "menu3", [(imageKey, ascii "Old-1")])]

/-- A second image is linked and gets its menu, and the one that is gone loses both. -/
theorem doSkelSync_used :
    Converges calmOs ⟨[ascii "Base-1", ascii "Base-2"], [ascii "Base-1", ascii "Old-1"]⟩
      (treeOf [ascii "Base-1", ascii "Base-2"] [ascii "Base-1", ascii "Old-1"] usedHeader) := by
  refine (doSkelSync_iff rfl rfl (treeOf_lists (by decide) (by decide))
    (treeOf_ok (by decide) (by decide) (by decide) (by decide))).mpr ?_
  have hlinks : ∀ x ∈ [ascii "Base-1", ascii "Old-1"], IsImageName x := by decide
  have hnew : ∀ i, (treeOf [ascii "Base-1", ascii "Base-2"] [ascii "Base-1", ascii "Old-1"]
      usedHeader).New i → i = ascii "Base-2" := by
    intro i hi
    rcases List.mem_pair.mp (imgbase_treeOf.mp hi.1) with rfl | rfl
    · exact absurd hi.2 (by decide)
    · rfl
  refine ⟨fun x y hy hl => linksTo_treeOf (hlinks x (images_treeOf.mp hl.1)) hy hl, fun h => ?_,
    fun i hi hno => ?_, fun i hi => ?_, fun i j hi hj _ _ => (hnew i hi).trans (hnew j hj).symm,
    fun i _ _ hn => absurd hn (by decide)⟩
  · exact absurd (h (ascii "Base-1")) (by decide)
  · rcases List.mem_pair.mp (imgbase_treeOf.mp hi) with rfl | rfl
    · exact absurd ⟨by decide, endsIn_new (ascii "Base-1")⟩ hno
    · decide
  · rw [hnew i hi]
    decide

/-- Of two new images the second one gets no menu. -/
theorem doSkelSync_two : Readdir.Lists ⟨[ascii "Base-1", ascii "Base-2"], []⟩
      (treeOf [ascii "Base-1", ascii "Base-2"] [] []) ∧
    SkelOk (treeOf [ascii "Base-1", ascii "Base-2"] [] []) [] ∧
    ¬Converges calmOs ⟨[ascii "Base-1", ascii "Base-2"], []⟩
      (treeOf [ascii "Base-1", ascii "Base-2"] [] []) := by
  refine ⟨treeOf_lists (by decide) (by decide), treeOf_ok (by decide) (by decide) (by decide) (by decide),
    fun h => ?_⟩
  exact absurd (h.added (ascii "Base-2") rfl (by decide +kernel)) (by decide +kernel)

end LinboxRescue
