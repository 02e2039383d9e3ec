import LinboxRescue.Admin.Lbs

/-!
# What a failed operation leaves

`call_atomic_iff`: which calls that return 0 leave the table of hosts, all directories and links, and
all headers as they were. The checks come first in most operations. What is lost is

1. the table, when `createEntry` has written it and `cp` fails,
2. the link of `moveBase2Hdr` or `skelAddBaseLink`, when the menu cannot be added after it,
3. the images of the hosts that `imgDeleteBase` has passed, when a later host refuses, and
4. what a failed `rm` has removed.
-/

namespace LinboxRescue

/-- Nothing that belongs to hosts or images has changed. -/
def Unchanged (l l' : Lbs) : Prop :=
  l'.ether = l.ether ∧ l'.hosts = l.hosts ∧ l'.imgbase = l.imgbase ∧ l'.skel = l.skel

theorem Unchanged.refl (l : Lbs) : Unchanged l l := ⟨rfl, rfl, rfl, rfl⟩

/-- A host that has the image. -/
def HasImage (l : Lbs) (image mac : Bytes) : Prop :=
  ∃ h, l.host mac = some h ∧ l.isDir h image = true

/-- A host that does not give its image away: it has no header, a menu uses the image, or the image
cannot be removed. -/
def Refuses (os : Os) (l : Lbs) (image mac : Bytes) : Prop :=
  ∃ h, l.host mac = some h ∧ l.isDir h image = true ∧
    ∀ f, h.header = some f → hdrFindMenu (iniLoad f) (ascii "image") image = none →
      match h.images image with
      | some (.dir _) => os.rmImageFailed (toMacFileName mac) ≠ none
      | _ => os.unlink (toMacFileName mac) = false

/-- A failed `rm` of the image of a host leaves all its files. -/
def KeepsImage (os : Os) (l : Lbs) (image mac : Bytes) : Prop :=
  ∀ h f files left, l.host mac = some h → h.header = some f →
    hdrFindMenu (iniLoad f) (ascii "image") image = none → h.images image = some (.dir files) →
    os.rmImageFailed (toMacFileName mac) = some left → left = files

/-- `imgDeleteBase` for the hosts `macs`. The first host that has the image may refuse. If it does not,
no later host may, nor may the base image stay. -/
structure AtomicBase (os : Os) (l : Lbs) (image : Bytes) (files : List Bytes) (macs : List Bytes) :
    Prop where
  refused : ∀ before mac after, macs = before ++ mac :: after → Refuses os l image mac →
    (∀ m ∈ before, ¬HasImage l image m) → KeepsImage os l image mac
  given : ∀ before mac after, macs = before ++ mac :: after → HasImage l image mac →
    (∀ m ∈ before ++ [mac], ¬Refuses os l image m) →
    (∀ m ∈ after, ¬Refuses os l image m) ∧ os.rmBaseFailed = none
  unused : ∀ left, (∀ m ∈ macs, ¬HasImage l image m) → os.rmBaseFailed = some left → left = files

/-- **When a call that fails changes nothing.** -/
def AtomicCall (unique : Ini → Bytes) (os : Os) (l : Lbs) : LbsCall → Prop
  | .createEntry mac ip name =>
    ∀ text hosts left, l.host mac = none → l.ether = some text →
      etherAdd (einfoHosts (etherLoad text)) mac ip name = some hosts → os.etherOpens = true →
      os.cpFailed = some left → etherSave hosts = text ∧ left = none
  | .deleteEntry mac =>
    ∀ text h left, l.ether = some text → l.host mac = some h → os.rmHostFailed = some left → left = h
  | .moveBase2Hdr mac image test =>
    ∀ h f, l.imgbase image ≠ none → l.host mac = some h → l.isDir h image = false →
      h.header = some f → hdrFindMenu (iniLoad f) (ascii "image") image = none → test = false →
      os.symlink = true → iniHasSection (iniLoad f) (unique (iniLoad f)) = false
  | .imgDeleteLocal mac image => KeepsImage os l image mac
  | .imgDeleteBase image =>
    ∀ text files, l.imgbase image = some files → l.ether = some text →
      AtomicBase os l image files (registered text)
  | .skelAddBaseLink image =>
    l.imgbase image ≠ none → l.skel.images image = none →
      if os.symlink then
        ∃ f, l.skel.header = some f ∧ (hdrFindMenu (iniLoad f) (ascii "image") image = none →
          iniHasSection (iniLoad f) (unique (iniLoad f)) = false) ∧ os.incSaved = true
      else
        ∀ f, l.skel.header = some f → os.incSaved = false →
          if hdrFindMenu (iniLoad f) (ascii "image") image = none then
            iniHasSection (iniLoad f) (unique (iniLoad f)) = true
          else iniSave (iniLoad f) = f
  | .setHeader mac _ =>
    ∀ h f, l.host mac = some h → h.header = some f →
      iniHasSection (iniLoad f) (unique (iniLoad f)) = false → os.incSaved = true
  | .moveHdr2Local .. | .moveLocal2Hdr .. => True

section Frame

variable {os : Os} {l : Lbs} {image mac : Bytes} {h : HostDir}

theorem host_setHost (l : Lbs) (mac : Bytes) (x : Option HostDir) : (l.setHost mac x).host mac = x := by
  unfold Lbs.host Lbs.setHost
  exact Function.update_self ..

theorem host_setHost_ne {mac m : Bytes} (hm : toMacFileName m ≠ toMacFileName mac) (l : Lbs)
    (x : Option HostDir) : (l.setHost mac x).host m = l.host m :=
  Function.update_of_ne hm ..

/-- Only the directory of one host is written. -/
theorem unchanged_setHost (l : Lbs) (mac : Bytes) (x : Option HostDir) :
    Unchanged l (l.setHost mac x) ↔ x = l.host mac := by
  constructor
  · rintro ⟨-, hh, -, -⟩
    have := congrFun hh (toMacFileName mac)
    rwa [show (l.setHost mac x).hosts (toMacFileName mac) = x from host_setHost l mac x] at this
  · rintro rfl
    exact ⟨rfl, Function.update_eq_self _ _, rfl, rfl⟩

theorem images_setImage (h : HostDir) (image : Bytes) (d : Option ImageDir) :
    (h.setImage image d).images image = d := by
  unfold HostDir.setImage
  exact Function.update_self ..

theorem setImage_eq_self (h : HostDir) (image : Bytes) (d : Option ImageDir) :
    h.setImage image d = h ↔ d = h.images image := by
  constructor
  · intro he
    rw [← images_setImage h image d, he]
  · rintro rfl
    unfold HostDir.setImage
    rw [Function.update_eq_self]

theorem header_of_host (hh : l.host mac = some h) : l.header mac = h.header.map fun f => (h, f) := by
  unfold Lbs.header
  rw [hh]
  rfl

/-! ## Images of hosts -/

theorem imgDeleteLocal_of_not_hasImage (hn : ¬HasImage l image mac) :
    imgDeleteLocal os l mac image = (false, l) := by
  unfold imgDeleteLocal
  cases hh : l.host mac with
  | none =>
    have : l.header mac = none := by
      unfold Lbs.header
      rw [hh]
      rfl
    rw [this]
  | some h =>
    have hd : l.isDir h image = false := by
      rw [Bool.eq_false_iff]
      exact fun hd => hn ⟨h, hh, hd⟩
    rw [header_of_host hh]
    cases h.header with
    | none => rfl
    | some f =>
      dsimp only [Option.map_some]
      cases hdrFindMenu (iniLoad f) (ascii "image") image with
      | some m => rfl
      | none => exact if_pos hd

/-- A host that does not refuse gives its image away. -/
theorem imgDeleteLocal_of_not_refuses (hh : l.host mac = some h) (hd : l.isDir h image = true)
    (hr : ¬Refuses os l image mac) :
    imgDeleteLocal os l mac image = (true, l.setHost mac (some (h.setImage image none))) := by
  have hr' : ∃ f, h.header = some f ∧ hdrFindMenu (iniLoad f) (ascii "image") image = none ∧
      ¬(match h.images image with
        | some (.dir _) => os.rmImageFailed (toMacFileName mac) ≠ none
        | _ => os.unlink (toMacFileName mac) = false) := by
    by_contra hc
    push Not at hc
    exact hr ⟨h, hh, hd, hc⟩
  obtain ⟨f, hf, hfind, hsys⟩ := hr'
  unfold imgDeleteLocal
  rw [header_of_host hh, hf]
  dsimp only [Option.map_some]
  rw [hfind]
  dsimp only
  rw [if_neg (by rw [hd]; exact Bool.noConfusion)]
  cases hi : h.images image with
  | none =>
    rw [hi] at hsys
    exact if_pos (by simpa using hsys)
  | some d =>
    rw [hi] at hsys
    cases d with
    | link => exact if_pos (by simpa using hsys)
    | dir files =>
      dsimp only at hsys ⊢
      rw [not_not.mp hsys]

/-- A host that refuses keeps its image, as far as `rm` has left it. -/
theorem imgDeleteLocal_of_refuses (hr : Refuses os l image mac) :
    (imgDeleteLocal os l mac image).1 = false ∧
      (Unchanged l (imgDeleteLocal os l mac image).2 ↔ KeepsImage os l image mac) := by
  obtain ⟨h, hh, hd, hsys⟩ := hr
  have hvac : (∀ f files left, h.header = some f →
      hdrFindMenu (iniLoad f) (ascii "image") image = none → h.images image = some (.dir files) →
      os.rmImageFailed (toMacFileName mac) = some left → left = files) → KeepsImage os l image mac := by
    intro hk h' f files left hh' hf
    obtain rfl : h = h' := Option.some.inj (hh.symm.trans hh')
    exact hk f files left hf
  unfold imgDeleteLocal
  rw [header_of_host hh]
  cases hf : h.header with
  | none =>
    refine ⟨rfl, fun _ => hvac fun f files left hf' => ?_, fun _ => Unchanged.refl l⟩
    cases hf.symm.trans hf'
  | some f =>
    have hsys := hsys f hf
    dsimp only [Option.map_some]
    cases hfind : hdrFindMenu (iniLoad f) (ascii "image") image with
    | some m =>
      refine ⟨rfl, fun _ => hvac fun f' files left hf' hfind' => ?_, fun _ => Unchanged.refl l⟩
      obtain rfl := Option.some.inj (hf.symm.trans hf')
      cases hfind.symm.trans hfind'
    | none =>
      have hsys := hsys hfind
      dsimp only
      rw [if_neg (by rw [hd]; exact Bool.noConfusion)]
      cases hi : h.images image with
      | none =>
        rw [hi] at hsys
        dsimp only at hsys ⊢
        rw [if_neg (by rw [hsys]; exact Bool.noConfusion)]
        refine ⟨rfl, fun _ => hvac fun f' files left _ _ hdir => ?_, fun _ => Unchanged.refl l⟩
        cases hi.symm.trans hdir
      | some d =>
        rw [hi] at hsys
        cases d with
        | link =>
          dsimp only at hsys ⊢
          rw [if_neg (by rw [hsys]; exact Bool.noConfusion)]
          refine ⟨rfl, fun _ => hvac fun f' files left _ _ hdir => ?_, fun _ => Unchanged.refl l⟩
          cases hi.symm.trans hdir
        | dir files =>
          dsimp only at hsys ⊢
          obtain ⟨left, hleft⟩ := Option.ne_none_iff_exists'.mp hsys
          rw [hleft]
          refine ⟨rfl, ?_⟩
          rw [unchanged_setHost, hh, Option.some_inj, setImage_eq_self, hi]
          constructor
          · intro he
            refine hvac fun f' files' left' _ _ hdir hleft' => ?_
            rw [hi] at hdir
            rw [hleft] at hleft'
            cases hdir
            cases hleft'
            simpa using he
          · intro hk
            rw [hk h f files left hh hf hfind hi hleft]

/-! ## The loop over the hosts -/

theorem hasImage_of_refuses (hr : Refuses os l image mac) : HasImage l image mac := by
  obtain ⟨h, hh, hd, -⟩ := hr
  exact ⟨h, hh, hd⟩

theorem any_isDir_iff : ((l.host mac).any fun h => l.isDir h image) = true ↔ HasImage l image mac := by
  unfold HasImage
  cases l.host mac with
  | none => simp
  | some h => simp

section Given

variable (hh : l.host mac = some h)

/-- Who has the image when a host has given it away: the same as before, but this host. -/
theorem hasImage_setHost (m : Bytes) :
    HasImage (l.setHost mac (some (h.setImage image none))) image m ↔
      toMacFileName m ≠ toMacFileName mac ∧ HasImage l image m := by
  by_cases hm : toMacFileName m = toMacFileName mac
  · have hnot : ¬HasImage (l.setHost mac (some (h.setImage image none))) image m := by
      rintro ⟨h', hh', hd⟩
      unfold Lbs.host at hh'
      rw [hm] at hh'
      obtain rfl := Option.some.inj ((host_setHost l mac _).symm.trans hh')
      unfold Lbs.isDir at hd
      rw [images_setImage] at hd
      cases hd
    exact ⟨fun hc => absurd hc hnot, fun hc => absurd hm hc.1⟩
  · unfold HasImage
    rw [host_setHost_ne hm]
    exact ⟨fun hc => ⟨hm, hc⟩, fun hc => hc.2⟩

theorem refuses_setHost (m : Bytes) :
    Refuses os (l.setHost mac (some (h.setImage image none))) image m ↔
      toMacFileName m ≠ toMacFileName mac ∧ Refuses os l image m := by
  by_cases hm : toMacFileName m = toMacFileName mac
  · exact ⟨fun hc => (hasImage_setHost m).mp (hasImage_of_refuses hc) |>.1 hm |>.elim,
      fun hc => absurd hm hc.1⟩
  · unfold Refuses
    rw [host_setHost_ne hm]
    exact ⟨fun hc => ⟨hm, hc⟩, fun hc => hc.2⟩

theorem refuses_congr {m : Bytes} (hm : toMacFileName m = toMacFileName mac) :
    Refuses os l image m ↔ Refuses os l image mac := by
  unfold Refuses Lbs.host
  rw [hm]

/-- If the host did not refuse, the same hosts refuse afterwards. -/
theorem forall_not_refuses_setHost (hr : ¬Refuses os l image mac) (macs : List Bytes) :
    (∀ m ∈ macs, ¬Refuses os (l.setHost mac (some (h.setImage image none))) image m) ↔
      ∀ m ∈ macs, ¬Refuses os l image m := by
  refine forall₂_congr fun m _ => not_congr ?_
  rw [refuses_setHost]
  refine ⟨fun hc => hc.2, fun hc => ⟨fun hm => hr ((refuses_congr hm).mp hc), hc⟩⟩

end Given

/-- **The loop** is left early if and only if a host refuses. -/
theorem imgDeleteHosts_fst (macs : List Bytes) (l : Lbs) :
    (imgDeleteHosts os image macs l).1 = true ↔ ∀ m ∈ macs, ¬Refuses os l image m := by
  induction macs generalizing l with
  | nil => exact ⟨fun _ m hm => absurd hm List.not_mem_nil, fun _ => rfl⟩
  | cons mac macs ih =>
    rw [List.forall_mem_cons, imgDeleteHosts]
    by_cases hi : HasImage l image mac
    · rw [if_pos (any_isDir_iff.mpr hi)]
      by_cases hr : Refuses os l image mac
      · have hfst := (imgDeleteLocal_of_refuses hr).1
        rcases hx : imgDeleteLocal os l mac image with ⟨r, l'⟩
        rw [hx] at hfst
        obtain rfl : r = false := hfst
        exact ⟨fun hc => (by cases hc), fun hc => absurd hr hc.1⟩
      · obtain ⟨h, hh, hd⟩ := hi
        rw [imgDeleteLocal_of_not_refuses hh hd hr]
        dsimp only
        rw [ih, forall_not_refuses_setHost hr]
        exact ⟨fun hc => ⟨hr, hc⟩, fun hc => hc.2⟩
    · rw [if_neg fun hc => hi (any_isDir_iff.mp hc), ih]
      exact ⟨fun hc => ⟨fun hr => hi (hasImage_of_refuses hr), hc⟩, fun hc => hc.2⟩

/-- Hosts without the image are passed over. -/
theorem imgDeleteHosts_append {before : List Bytes} (hb : ∀ m ∈ before, ¬HasImage l image m)
    (macs : List Bytes) :
    imgDeleteHosts os image (before ++ macs) l = imgDeleteHosts os image macs l := by
  induction before with
  | nil => rfl
  | cons m before ih =>
    obtain ⟨hm, hb⟩ := List.forall_mem_cons.mp hb
    rw [List.cons_append, imgDeleteHosts, if_neg fun hc => hm (any_isDir_iff.mp hc), ih hb]

theorem setHost_host (l : Lbs) (mac : Bytes) : l.setHost mac (l.host mac) = l := by
  unfold Lbs.setHost Lbs.host
  rw [Function.update_eq_self]

/-- `imgDeleteLocal` writes to one directory. -/
theorem imgDeleteLocal_snd (os : Os) (l : Lbs) (mac image : Bytes) :
    ∃ x, (imgDeleteLocal os l mac image).2 = l.setHost mac x := by
  have hsame : ∃ x, l = l.setHost mac x := ⟨_, (setHost_host l mac).symm⟩
  unfold imgDeleteLocal
  split
  · exact hsame
  · split
    · exact hsame
    · split
      · exact hsame
      · split
        · split <;> exact ⟨_, rfl⟩
        · split
          · exact ⟨_, rfl⟩
          · exact hsame

/-- A host without the image is left alone. -/
theorem imgDeleteHosts_host (macs : List Bytes) {l : Lbs} {m : Bytes} (hn : ¬HasImage l image m) :
    (imgDeleteHosts os image macs l).2.host m = l.host m := by
  induction macs generalizing l with
  | nil => rfl
  | cons mac macs ih =>
    rw [imgDeleteHosts]
    split_ifs with hd
    · have hm : toMacFileName m ≠ toMacFileName mac := by
        intro hm
        refine hn ?_
        have := any_isDir_iff.mp hd
        unfold HasImage Lbs.host at this ⊢
        rwa [hm]
      obtain ⟨x, hx⟩ := imgDeleteLocal_snd os l mac image
      rcases hc : imgDeleteLocal os l mac image with ⟨r, l'⟩
      obtain rfl : l' = l.setHost mac x := by
        rw [← hx, hc]
      cases r with
      | false => exact host_setHost_ne hm l x
      | true =>
        have hn' : ¬HasImage (l.setHost mac x) image m := by
          unfold HasImage
          rw [host_setHost_ne hm]
          exact hn
        exact (ih hn').trans (host_setHost_ne hm l x)
    · exact ih hn

end Frame

/-! ## The first one -/

section First

variable {α : Type*} {P : α → Prop}

theorem exists_first (P : α → Prop) (xs : List α) :
    (∀ x ∈ xs, ¬P x) ∨
      ∃ before x after, xs = before ++ x :: after ∧ P x ∧ ∀ b ∈ before, ¬P b := by
  induction xs with
  | nil => exact .inl fun x hx => absurd hx List.not_mem_nil
  | cons x xs ih =>
    by_cases hx : P x
    · exact .inr ⟨[], x, xs, rfl, hx, fun b hb => absurd hb List.not_mem_nil⟩
    obtain hall | ⟨before, y, after, rfl, hy, hb⟩ := ih
    · exact .inl (List.forall_mem_cons.mpr ⟨hx, hall⟩)
    · exact .inr ⟨x :: before, y, after, rfl, hy, List.forall_mem_cons.mpr ⟨hx, hb⟩⟩

/-- The first one stands before any other, or is it. -/
theorem first_mem {before after before' after' : List α} {x y : α}
    (he : before ++ x :: after = before' ++ y :: after') (hb : ∀ b ∈ before, ¬P b) (hy : P y) :
    x ∈ before' ++ [y] := by
  induction before generalizing before' with
  | nil =>
    cases before' with
    | nil =>
      cases he
      exact List.mem_singleton_self x
    | cons z zs =>
      cases he
      exact List.mem_cons_self
  | cons b bs ih =>
    cases before' with
    | nil =>
      obtain ⟨rfl, -⟩ := List.cons.inj he
      exact absurd hy (hb b List.mem_cons_self)
    | cons z zs =>
      obtain ⟨-, he⟩ := List.cons.inj he
      exact List.mem_cons_of_mem z (ih he fun c hc => hb c (List.mem_cons_of_mem b hc))

end First

/-! ## The calls -/

section Calls

variable {unique : Ini → Bytes} {os : Os} {l : Lbs}

/-- A call that returns 0 changes nothing. -/
def FailsUnchanged (l : Lbs) (r : Bool × Lbs) : Prop := r.1 = false → Unchanged l r.2

theorem failsUnchanged_same (r : Bool) : FailsUnchanged l (r, l) := fun _ => Unchanged.refl l

theorem failsUnchanged_true (l' : Lbs) : FailsUnchanged l (true, l') := fun h => by cases h

theorem failsUnchanged_false (l' : Lbs) : FailsUnchanged l (false, l') ↔ Unchanged l l' :=
  ⟨fun h => h rfl, fun h _ => h⟩

theorem createEntry_atomic (mac ip name : Bytes) :
    FailsUnchanged l (createEntry os l mac ip name) ↔
      AtomicCall unique os l (.createEntry mac ip name) := by
  unfold createEntry
  cases hh : l.host mac with
  | some h =>
    refine iff_of_true (failsUnchanged_same _) fun _ _ _ hc => ?_
    cases hh.symm.trans hc
  | none =>
    rw [if_neg (by simp)]
    cases he : l.ether with
    | none =>
      refine iff_of_true (failsUnchanged_same _) fun _ _ _ _ hc => ?_
      cases he.symm.trans hc
    | some text =>
      dsimp only
      cases ha : etherAdd (einfoHosts (etherLoad text)) mac ip name with
      | none =>
        refine iff_of_true (failsUnchanged_same _) fun t _ _ _ ht hc => ?_
        cases he.symm.trans ht
        cases ha.symm.trans hc
      | some hosts =>
        dsimp only
        by_cases ho : os.etherOpens = true
        · rw [if_pos ho]
          cases hcp : os.cpFailed with
          | none =>
            refine iff_of_true (failsUnchanged_true _) fun _ _ _ _ _ _ _ hc => ?_
            cases hcp.symm.trans hc
          | some left =>
            dsimp only
            rw [failsUnchanged_false]
            have hset := unchanged_setHost l mac left
            rw [hh] at hset
            constructor
            · rintro ⟨hether, hhosts, -, -⟩ t hs left' - ht ha' - hl
              cases he.symm.trans ht
              cases hcp.symm.trans hl
              cases ha.symm.trans ha'
              exact ⟨Option.some.inj (hether.trans he), hset.mp ⟨rfl, hhosts, rfl, rfl⟩⟩
            · intro hk
              obtain ⟨hs, hl⟩ := hk text hosts left hh he ha ho hcp
              exact ⟨(congrArg some hs).trans he.symm, (hset.mpr hl).2.1, rfl, rfl⟩
        · rw [if_neg ho]
          exact iff_of_true (failsUnchanged_same _) fun _ _ _ _ _ _ hc => absurd hc ho

theorem deleteEntry_atomic (mac : Bytes) :
    FailsUnchanged l (deleteEntry os l mac) ↔ AtomicCall unique os l (.deleteEntry mac) := by
  unfold deleteEntry
  cases he : l.ether with
  | none =>
    refine iff_of_true (failsUnchanged_same _) fun _ _ _ hc => ?_
    cases he.symm.trans hc
  | some text =>
    dsimp only
    cases hh : l.host mac with
    | none =>
      rw [show (l.unlinkFiles mac).host mac = none from hh]
      refine iff_of_true (fun _ => ⟨rfl, rfl, rfl, rfl⟩) fun _ _ _ _ hc => ?_
      cases hh.symm.trans hc
    | some h =>
      rw [show (l.unlinkFiles mac).host mac = some h from hh]
      dsimp only
      cases hrm : os.rmHostFailed with
      | none =>
        refine iff_of_true (failsUnchanged_true _) fun _ _ _ _ _ hc => ?_
        cases hrm.symm.trans hc
      | some left =>
        dsimp only
        rw [failsUnchanged_false]
        have hset := unchanged_setHost l mac (some left)
        rw [hh, Option.some_inj] at hset
        constructor
        · rintro ⟨-, hhosts, -, -⟩ t h' left' - hh' hl
          cases hh.symm.trans hh'
          cases hrm.symm.trans hl
          exact hset.mp ⟨rfl, hhosts, rfl, rfl⟩
        · intro hk
          exact ⟨rfl, (hset.mpr (hk text h left he hh hrm)).2.1, rfl, rfl⟩

theorem moveHdr2Local_fails (mac image : Bytes) (test : Bool) :
    FailsUnchanged l (moveHdr2Local os l mac image test) := by
  unfold moveHdr2Local
  split
  · exact failsUnchanged_same _
  · split
    · exact failsUnchanged_same _
    · split
      · exact failsUnchanged_same _
      · exact failsUnchanged_true _

theorem moveLocal2Hdr_fails (mac image : Bytes) (test : Bool) :
    FailsUnchanged l (moveLocal2Hdr unique os l mac image test) := by
  unfold moveLocal2Hdr
  split
  · exact failsUnchanged_same _
  · split
    · exact failsUnchanged_same _
    · split
      · exact failsUnchanged_same _
      · split
        · exact failsUnchanged_same _
        · split
          · exact failsUnchanged_same _
          · exact failsUnchanged_true _

theorem imgDeleteLocal_atomic (mac image : Bytes) :
    FailsUnchanged l (imgDeleteLocal os l mac image) ↔ KeepsImage os l image mac := by
  by_cases hi : HasImage l image mac
  · by_cases hr : Refuses os l image mac
    · obtain ⟨h1, h2⟩ := imgDeleteLocal_of_refuses hr
      exact ⟨fun h => h2.mp (h h1), fun h _ => h2.mpr h⟩
    · obtain ⟨h, hh, hd⟩ := hi
      rw [imgDeleteLocal_of_not_refuses hh hd hr]
      refine iff_of_true (failsUnchanged_true _) fun h' f files left hh' hf hfind hdir hleft => ?_
      cases hh.symm.trans hh'
      refine absurd ⟨h, hh, hd, fun f' hf' _ => ?_⟩ hr
      rw [hdir]
      dsimp only
      rw [hleft]
      exact Option.some_ne_none left
  · rw [imgDeleteLocal_of_not_hasImage hi]
    refine iff_of_true (failsUnchanged_same _) fun h f files left hh hf hfind hdir hleft => ?_
    refine absurd ⟨h, hh, ?_⟩ hi
    unfold Lbs.isDir
    rw [hdir]

theorem order_iniSetVal (conf : Ini) (s key val : Bytes) :
    (iniSetVal conf s key val).order = conf.order := by
  unfold iniSetVal
  split <;> rfl

theorem order_hdrSetMenu (conf : Ini) (menu visu image incl : Bytes) :
    (hdrSetMenu conf menu visu image incl).order = conf.order := by
  unfold hdrSetMenu
  dsimp only
  split_ifs <;> simp only [order_iniSetVal]

theorem iniAddSection_eq_none {conf : Ini} {s : Bytes} :
    iniAddSection conf s = none ↔ iniHasSection conf s = true := by
  unfold iniAddSection
  split_ifs with h
  · exact iff_of_true rfl h
  · exact iff_of_false (fun hc => by cases hc) h

/-- A header with a new menu is not the one that was loaded. -/
theorem iniSave_ne {f : IniFile} {menu : Bytes} {conf : Ini}
    (h : iniAddSection (iniLoad f) menu = some conf) (visu image incl : Bytes) :
    iniSave (hdrSetMenu conf menu visu image incl) ≠ f := by
  intro he
  have hlen := congrArg List.length he
  unfold iniAddSection at h
  split_ifs at h
  obtain rfl := Option.some.inj h
  unfold iniSave at hlen
  rw [List.length_map, order_hdrSetMenu] at hlen
  simp [iniLoad] at hlen

/-- What a call does with the header of a host depends on the host having one. -/
theorem host_of_header {mac : Bytes} {h : HostDir} {f : IniFile} (hl : l.header mac = some (h, f)) :
    l.host mac = some h ∧ h.header = some f := by
  unfold Lbs.header at hl
  cases hh : l.host mac with
  | none =>
    rw [hh] at hl
    cases hl
  | some h' =>
    rw [hh] at hl
    obtain ⟨f', hf, he⟩ := Option.map_eq_some_iff.mp hl
    cases he
    exact ⟨rfl, hf⟩

theorem header_eq {mac : Bytes} {h : HostDir} {f : IniFile} (hh : l.host mac = some h)
    (hf : h.header = some f) : l.header mac = some (h, f) := by
  rw [header_of_host hh, hf]
  rfl

theorem setHeader_atomic (mac image : Bytes) :
    FailsUnchanged l (setHeader unique os l mac image) ↔
      AtomicCall unique os l (.setHeader mac image) := by
  unfold setHeader
  cases hl : l.header mac with
  | none =>
    refine iff_of_true (failsUnchanged_same _) fun h f hh hf => ?_
    cases hl.symm.trans (header_eq hh hf)
  | some x =>
    obtain ⟨h, f⟩ := x
    obtain ⟨hh, hf⟩ := host_of_header hl
    dsimp only
    cases ha : iniAddSection (iniLoad f) (unique (iniLoad f)) with
    | none =>
      refine iff_of_true (failsUnchanged_same _) fun h' f' hh' hf' hno => ?_
      cases hl.symm.trans (header_eq hh' hf')
      rw [iniAddSection_eq_none.mp ha] at hno
      cases hno
    | some conf =>
      have hne := iniSave_ne ha (ascii "yes") image (image ++ ascii "/conf.txt")
      have hno : iniHasSection (iniLoad f) (unique (iniLoad f)) = false := by
        rw [Bool.eq_false_iff]
        intro hs
        rw [iniAddSection_eq_none.mpr hs] at ha
        cases ha
      dsimp only
      constructor
      · intro hk h' f' hh' hf' _
        by_contra hs
        have := (unchanged_setHost l mac _).mp (hk (Bool.eq_false_iff.mpr hs))
        rw [hh, Option.some_inj] at this
        have := congrArg HostDir.header this
        rw [hf, Option.some_inj] at this
        exact hne this
      · intro hk hs
        rw [show os.incSaved = true from hk h f hh hf hno] at hs
        cases hs

theorem moveBase2Hdr_atomic (mac image : Bytes) (test : Bool) :
    FailsUnchanged l (moveBase2Hdr unique os l mac image test) ↔
      AtomicCall unique os l (.moveBase2Hdr mac image test) := by
  unfold moveBase2Hdr
  by_cases hb : l.imgbase image = none
  · rw [if_pos hb]
    exact iff_of_true (failsUnchanged_same _) fun h f hb' => absurd hb hb'
  rw [if_neg hb]
  by_cases hd : ((l.host mac).any fun h => l.isDir h image) = true
  · rw [if_pos hd]
    refine iff_of_true (failsUnchanged_same _) fun h f _ hh hd' => ?_
    rw [hh, Option.any_some, hd'] at hd
    cases hd
  rw [if_neg hd]
  cases hl : l.header mac with
  | none =>
    refine iff_of_true (failsUnchanged_same _) fun h f _ hh _ hf => ?_
    cases hl.symm.trans (header_eq hh hf)
  | some x =>
    obtain ⟨h, f⟩ := x
    obtain ⟨hh, hf⟩ := host_of_header hl
    rw [hh, Option.any_some, Bool.not_eq_true] at hd
    dsimp only
    cases hm : hdrFindMenu (iniLoad f) (ascii "image") image with
    | some m =>
      refine iff_of_true (failsUnchanged_same _) fun h' f' _ hh' _ hf' hm' => ?_
      cases hl.symm.trans (header_eq hh' hf')
      cases hm.symm.trans hm'
    | none =>
      dsimp only
      by_cases ht : test = true
      · rw [if_pos ht]
        refine iff_of_true (failsUnchanged_same _) fun _ _ _ _ _ _ _ ht' => ?_
        cases ht.symm.trans ht'
      rw [if_neg ht]
      by_cases hs : os.symlink = false
      · rw [if_pos hs]
        refine iff_of_true (failsUnchanged_same _) fun _ _ _ _ _ _ _ _ hs' => ?_
        cases hs.symm.trans hs'
      rw [if_neg hs]
      cases ha : iniAddSection (iniLoad f) (unique (iniLoad f)) with
      | none =>
        -- the link is made, and stays
        have hset := unchanged_setHost l mac (some (h.setImage image (some .link)))
        rw [hh, Option.some_inj, setImage_eq_self] at hset
        refine iff_of_false (fun hk => ?_) fun hk => ?_
        · have hi := hset.mp (hk rfl)
          unfold Lbs.isDir at hd
          rw [← hi] at hd
          exact hb (Option.isNone_iff_eq_none.mp (by simpa using hd))
        · have := hk h f hb hh hd hf hm (Bool.eq_false_iff.mpr ht) (Bool.of_not_eq_false hs)
          rw [iniAddSection_eq_none.mp ha] at this
          cases this
      | some conf =>
        refine iff_of_true (failsUnchanged_true _) fun h' f' _ hh' _ hf' _ _ _ => ?_
        cases hl.symm.trans (header_eq hh' hf')
        rw [Bool.eq_false_iff]
        intro hsec
        rw [iniAddSection_eq_none.mpr hsec] at ha
        cases ha

/-- What the loop does when the first host that has the image gives it away: it is gone. -/
theorem imgDeleteHosts_given {image mac : Bytes} {h : HostDir} {before : List Bytes}
    (hb : ∀ m ∈ before, ¬HasImage l image m) (hh : l.host mac = some h)
    (hd : l.isDir h image = true) (hr : ¬Refuses os l image mac) (after : List Bytes) :
    ((imgDeleteHosts os image (before ++ mac :: after) l).1 = true ↔
      ∀ m ∈ after, ¬Refuses os l image m) ∧
    (imgDeleteHosts os image (before ++ mac :: after) l).2.hosts ≠ l.hosts := by
  rw [imgDeleteHosts_append hb, imgDeleteHosts, if_pos (any_isDir_iff.mpr ⟨h, hh, hd⟩),
    imgDeleteLocal_of_not_refuses hh hd hr]
  dsimp only
  refine ⟨by rw [imgDeleteHosts_fst, forall_not_refuses_setHost hr], fun he => ?_⟩
  have hn : ¬HasImage (l.setHost mac (some (h.setImage image none))) image mac := fun hc =>
    ((hasImage_setHost mac).mp hc).1 rfl
  have hhost := @imgDeleteHosts_host os image after _ mac hn
  rw [host_setHost, show (imgDeleteHosts os image after _).2.host mac = l.host mac from
    congrFun he (toMacFileName mac), hh, Option.some_inj] at hhost
  have hi := (setImage_eq_self h image none).mp hhost.symm
  unfold Lbs.isDir at hd
  rw [← hi] at hd
  cases hd

theorem rmBase_of_false {image : Bytes} {r : Bool × Lbs} (hr : r.1 = false) :
    rmBase os image r = r := by
  obtain ⟨b, l'⟩ := r
  obtain rfl : b = false := hr
  rfl

/-- No host has the image. -/
theorem rmBase_unused {image : Bytes} {files : List Bytes} {macs : List Bytes}
    (hb : l.imgbase image = some files) (hall : ∀ m ∈ macs, ¬HasImage l image m) :
    FailsUnchanged l (rmBase os image (imgDeleteHosts os image macs l)) ↔
      AtomicBase os l image files macs := by
  have hloop : imgDeleteHosts os image macs l = (true, l) := by
    have := @imgDeleteHosts_append os l image macs hall []
    rwa [List.append_nil] at this
  have hatomic : AtomicBase os l image files macs ↔ ∀ left, os.rmBaseFailed = some left → left = files := by
    refine ⟨fun hk left hl => hk.unused left hall hl, fun hk => ⟨?_, ?_, fun left _ => hk left⟩⟩
    · rintro b m a rfl hr
      exact absurd (hasImage_of_refuses hr) (hall m (by simp))
    · rintro b m a rfl hi
      exact absurd hi (hall m (by simp))
  rw [hloop, hatomic]
  unfold rmBase
  cases hrm : os.rmBaseFailed with
  | none => exact iff_of_true (failsUnchanged_true _) fun left hc => (by cases hc)
  | some left =>
    dsimp only
    rw [failsUnchanged_false]
    constructor
    · rintro ⟨-, -, hbase, -⟩ left' hl
      cases hl
      have := (Function.update_self image (some left) l.imgbase).symm.trans (congrFun hbase image)
      rw [hb] at this
      exact Option.some.inj this
    · intro hk
      refine ⟨rfl, rfl, ?_, rfl⟩
      rw [hk left rfl, ← hb]
      exact Function.update_eq_self image l.imgbase

section Used

variable {image mac : Bytes} {files : List Bytes} {before after : List Bytes}
  (hi : HasImage l image mac) (hbefore : ∀ m ∈ before, ¬HasImage l image m)

include hi hbefore

/-- The first host that has the image refuses. -/
theorem rmBase_refused (hr : Refuses os l image mac) :
    FailsUnchanged l (rmBase os image (imgDeleteHosts os image (before ++ mac :: after) l)) ↔
      AtomicBase os l image files (before ++ mac :: after) := by
  obtain ⟨hfst, hkeep⟩ := imgDeleteLocal_of_refuses hr
  have hloop : imgDeleteHosts os image (before ++ mac :: after) l = imgDeleteLocal os l mac image := by
    rw [imgDeleteHosts_append hbefore, imgDeleteHosts, if_pos (any_isDir_iff.mpr hi)]
    rcases hx : imgDeleteLocal os l mac image with ⟨r, l'⟩
    rw [hx] at hfst
    obtain rfl : r = false := hfst
    rfl
  have hcall : FailsUnchanged l (imgDeleteLocal os l mac image) ↔ KeepsImage os l image mac :=
    ⟨fun h => hkeep.mp (h hfst), fun h _ => hkeep.mpr h⟩
  rw [hloop, rmBase_of_false hfst, hcall]
  refine ⟨fun hk => ⟨?_, ?_, ?_⟩, fun hk => hk.refused before mac after rfl hr hbefore⟩
  · intro b m a hm hr' hb'
    have hmem := first_mem hm hbefore (hasImage_of_refuses hr')
    obtain hmem | hmem := List.mem_append.mp hmem
    · exact absurd hi (hb' mac hmem)
    · rwa [← List.mem_singleton.mp hmem]
  · intro b m a hm hi' hno
    exact absurd hr (hno mac (first_mem hm hbefore hi'))
  · intro left hno
    exact absurd hi (hno mac (by simp))

/-- It gives the image away: from here on nothing may fail. -/
theorem rmBase_given (hr : ¬Refuses os l image mac) :
    FailsUnchanged l (rmBase os image (imgDeleteHosts os image (before ++ mac :: after) l)) ↔
      AtomicBase os l image files (before ++ mac :: after) := by
  obtain ⟨h, hh, hd⟩ := id hi
  obtain ⟨hfst, hlost⟩ := @imgDeleteHosts_given os l image mac h before hbefore hh hd hr after
  have hbr : ∀ m ∈ before ++ [mac], ¬Refuses os l image m := by
    intro m hm hr'
    obtain hm | hm := List.mem_append.mp hm
    · exact hbefore m hm (hasImage_of_refuses hr')
    · exact hr (List.mem_singleton.mp hm ▸ hr')
  have hatomic : AtomicBase os l image files (before ++ mac :: after) ↔
      (∀ m ∈ after, ¬Refuses os l image m) ∧ os.rmBaseFailed = none := by
    refine ⟨fun hk => hk.given before mac after rfl hi hbr, fun ⟨ha, hrm⟩ => ?_⟩
    have hall : ∀ m ∈ before ++ mac :: after, ¬Refuses os l image m := by
      intro m hm
      rw [List.append_cons] at hm
      exact (List.mem_append.mp hm).elim (hbr m) (ha m)
    refine ⟨?_, ?_, ?_⟩
    · intro b m a hm hr'
      exact absurd hr' (hall m (by rw [hm]; simp))
    · intro b m a hm _ _
      exact ⟨fun x hx => hall x (by rw [hm]; simp [hx]), hrm⟩
    · intro left _ hl
      cases hrm.symm.trans hl
  rw [hatomic, ← hfst]
  clear hfst
  generalize imgDeleteHosts os image (before ++ mac :: after) l = x at hlost ⊢
  obtain ⟨r, l'⟩ := x
  cases r with
  | false => exact iff_of_false (fun hc => hlost (hc rfl).2.1) fun hc => by cases hc.1
  | true =>
    unfold rmBase
    cases os.rmBaseFailed with
    | none => exact iff_of_true (failsUnchanged_true _) ⟨rfl, rfl⟩
    | some left => exact iff_of_false (fun hc => hlost (hc rfl).2.1) fun hc => by cases hc.2

end Used

theorem imgDeleteBase_atomic (image : Bytes) :
    FailsUnchanged l (imgDeleteBase os l image) ↔
      AtomicCall unique os l (.imgDeleteBase image) := by
  unfold imgDeleteBase
  cases hb : l.imgbase image with
  | none =>
    refine iff_of_true (failsUnchanged_same _) fun _ _ hc => ?_
    cases hb.symm.trans hc
  | some files =>
    rw [if_neg (Option.some_ne_none files)]
    cases he : l.ether with
    | none =>
      refine iff_of_true (failsUnchanged_same _) fun _ _ _ hc => ?_
      cases he.symm.trans hc
    | some text =>
      have hatomic : AtomicCall unique os l (.imgDeleteBase image) ↔
          AtomicBase os l image files (registered text) := by
        refine ⟨fun hk => hk text files hb he, fun hk t fs hfs ht => ?_⟩
        cases hb.symm.trans hfs
        cases he.symm.trans ht
        exact hk
      rw [hatomic]
      dsimp only
      generalize registered text = macs
      obtain hall | ⟨before, mac, after, rfl, hi, hbefore⟩ := exists_first (HasImage l image) macs
      · exact rmBase_unused hb hall
      · by_cases hr : Refuses os l image mac
        · exact rmBase_refused hi hbefore hr
        · exact rmBase_given hi hbefore hr

/-- The link is made. -/
theorem skelAddMenu_link {image : Bytes} (himg : l.skel.images image = none) :
    FailsUnchanged l (skelAddMenu unique os l image (l.skel.setImage image (some .link))) ↔
      ∃ f, l.skel.header = some f ∧ (hdrFindMenu (iniLoad f) (ascii "image") image = none →
        iniHasSection (iniLoad f) (unique (iniLoad f)) = false) ∧ os.incSaved = true := by
  have hi : (l.skel.setImage image (some .link)).images image = some .link := images_setImage ..
  have hlink : ∀ (r : Bool) {skel : HostDir}, skel.images image = some .link →
      (FailsUnchanged l (r, { l with skel := skel }) ↔ r = true) := by
    intro r skel hskel
    constructor
    · intro hf
      by_contra hc
      have := congrArg (fun s : HostDir => s.images image) (hf (Bool.eq_false_iff.mpr hc)).2.2.2
      rw [show skel.images image = l.skel.images image from this, himg] at hskel
      cases hskel
    · rintro rfl
      exact failsUnchanged_true _
  unfold skelAddMenu
  rw [show (l.skel.setImage image (some .link)).header = l.skel.header from rfl]
  cases hf : l.skel.header with
  | none =>
    dsimp only
    rw [hlink false hi]
    refine iff_of_false Bool.noConfusion ?_
    rintro ⟨f, hc, -⟩
    cases hc
  | some f =>
    dsimp only
    cases hm : hdrFindMenu (iniLoad f) (ascii "image") image with
    | some m =>
      refine Iff.trans (hlink os.incSaved ?_) ?_
      · exact hi
      refine ⟨fun hs => ⟨f, rfl, fun hc => ?_, hs⟩, fun ⟨_, _, _, hs⟩ => hs⟩
      cases hm.symm.trans hc
    | none =>
      dsimp only
      cases ha : iniAddSection (iniLoad f) (unique (iniLoad f)) with
      | none =>
        dsimp only
        rw [hlink false hi]
        refine iff_of_false Bool.noConfusion ?_
        rintro ⟨f', hc, hno, -⟩
        cases hc
        cases (iniAddSection_eq_none.mp ha).symm.trans (hno hm)
      | some conf =>
        refine Iff.trans (hlink os.incSaved ?_) ?_
        · exact hi
        refine ⟨fun hs => ⟨f, rfl, fun _ => ?_, hs⟩, fun ⟨_, _, _, hs⟩ => hs⟩
        rw [Bool.eq_false_iff]
        intro hsec
        cases (iniAddSection_eq_none.mpr hsec).symm.trans ha

/-- The link could not be made. -/
theorem skelAddMenu_same {image : Bytes} :
    FailsUnchanged l (skelAddMenu unique os l image l.skel) ↔
      ∀ f, l.skel.header = some f → os.incSaved = false →
        if hdrFindMenu (iniLoad f) (ascii "image") image = none then
          iniHasSection (iniLoad f) (unique (iniLoad f)) = true
        else iniSave (iniLoad f) = f := by
  have hheader : ∀ {f g : IniFile}, l.skel.header = some f →
      (Unchanged l { l with skel := { l.skel with header := some g } } ↔ g = f) := by
    intro f g hf
    constructor
    · rintro ⟨-, -, -, hs⟩
      have := congrArg HostDir.header hs
      rw [hf] at this
      exact Option.some.inj this
    · rintro rfl
      refine ⟨rfl, rfl, rfl, ?_⟩
      rw [← hf]
  unfold skelAddMenu
  cases hf : l.skel.header with
  | none => exact iff_of_true (failsUnchanged_same _) fun f hc => (by cases hc)
  | some f =>
    dsimp only
    cases hm : hdrFindMenu (iniLoad f) (ascii "image") image with
    | some m =>
      dsimp only
      constructor
      · intro hk f' hf' hs
        cases hf'
        rw [if_neg (by rw [hm]; exact Option.some_ne_none m)]
        exact (hheader hf).mp (hk hs)
      · intro hk hs
        have := hk f rfl hs
        rw [if_neg (by rw [hm]; exact Option.some_ne_none m)] at this
        exact (hheader hf).mpr this
    | none =>
      dsimp only
      cases ha : iniAddSection (iniLoad f) (unique (iniLoad f)) with
      | none =>
        refine iff_of_true (failsUnchanged_same _) fun f' hf' _ => ?_
        cases hf'
        rw [if_pos hm]
        exact iniAddSection_eq_none.mp ha
      | some conf =>
        constructor
        · intro hk f' hf' hs
          cases hf'
          exact absurd ((hheader hf).mp (hk hs)) (iniSave_ne ha _ _ _)
        · intro hk hs
          have := hk f rfl hs
          rw [if_pos hm] at this
          cases (iniAddSection_eq_none.mpr this).symm.trans ha

theorem skelAddBaseLink_atomic (image : Bytes) :
    FailsUnchanged l (skelAddBaseLink unique os l image) ↔
      AtomicCall unique os l (.skelAddBaseLink image) := by
  unfold skelAddBaseLink
  by_cases hb : l.imgbase image = none
  · rw [if_pos hb]
    exact iff_of_true (failsUnchanged_same _) fun hc => absurd hb hc
  rw [if_neg hb]
  by_cases hs : (l.skel.images image).isSome = true
  · rw [if_pos hs]
    refine iff_of_true (failsUnchanged_same _) fun _ hc => ?_
    rw [hc] at hs
    cases hs
  have himg : l.skel.images image = none := by simpa using hs
  have hatomic : AtomicCall unique os l (.skelAddBaseLink image) ↔ _ :=
    ⟨fun hk => hk hb himg, fun hk _ _ => hk⟩
  rw [if_neg hs, hatomic]
  by_cases hsym : os.symlink = true
  · rw [if_pos hsym, if_pos hsym]
    exact skelAddMenu_link himg
  · rw [if_neg hsym, if_neg hsym]
    exact skelAddMenu_same

/-- **Failed calls**: a call that returns 0 changes nothing exactly when it is atomic. -/
theorem call_atomic_iff (unique : Ini → Bytes) (os : Os) (l : Lbs) (c : LbsCall) :
    ((l.call unique os c).1 = false → Unchanged l (l.call unique os c).2) ↔
      AtomicCall unique os l c := by
  cases c with
  | createEntry mac ip name => exact createEntry_atomic mac ip name
  | deleteEntry mac => exact deleteEntry_atomic mac
  | moveHdr2Local mac image test => exact iff_of_true (moveHdr2Local_fails mac image test) trivial
  | moveLocal2Hdr mac image test => exact iff_of_true (moveLocal2Hdr_fails mac image test) trivial
  | moveBase2Hdr mac image test => exact moveBase2Hdr_atomic mac image test
  | setHeader mac image => exact setHeader_atomic mac image
  | imgDeleteLocal mac image => exact imgDeleteLocal_atomic mac image
  | imgDeleteBase image => exact imgDeleteBase_atomic image
  | skelAddBaseLink image => exact skelAddBaseLink_atomic image

end Calls

/-! ## Links that stay -/

/-- No system call fails. -/
def calmOs : Os where
  etherOpens := true
  cpFailed := none
  cpWol := true
  symlink := true
  unlink := fun _ => true
  rmHostFailed := none
  rmImageFailed := fun _ => none
  rmBaseFailed := none
  incSaved := true

/-- A host with one menu, which is named as in `imgskel/header.lst`. -/
def diskHost : HostDir where
  header := some [(ascii "menu1", [(ascii "image", ascii "Local-Disk")])]
  wol := none
  images := fun image => if image = ascii "Local-Disk" then some (.dir []) else none

/-- One host and one base image. -/
def diskLbs : Lbs where
  ether := some []
  hosts := fun mac => if mac = ascii "0A" then some diskHost else none
  imgbase := fun image => if image = ascii "Base-1" then some [] else none
  skel := diskHost
  cfg := fun _ => false
  log := fun _ => false

/-- `moveBase2Hdr` returns 0, since the name of the new menu is taken, and leaves its link. -/
theorem moveBase2Hdr_leaves_link :
    ¬(∀ c, (diskLbs.call hdrUniqueName calmOs c).1 = false →
      Unchanged diskLbs (diskLbs.call hdrUniqueName calmOs c).2) := by
  intro hk
  have hh := (hk (.moveBase2Hdr (ascii "0A") (ascii "Base-1") false) (by decide)).2.1
  have hlink := congrArg (fun hosts : Bytes → Option HostDir =>
    ((hosts (ascii "0A")).bind fun h => h.images (ascii "Base-1")).isSome) hh
  exact absurd hlink (by decide)

end LinboxRescue
