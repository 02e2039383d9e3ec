import LinboxRescue.Admin.UserMenu
import LinboxRescue.Lib.Interleave

/-!
# Included files (`hdrLoad`, `hdrSave`)

`hdrLoad` of `src/server/admin/perl/lbs-lib.pl` reads a header and the files that it includes, and
`hdrSave` writes all of them back, whatever was changed. The client that finishes a backup
(`src/client/revimage/autosave/autosave.c`) moves `conf.tmp` over one of them.

1. `MenuDisk.mv`: the moved file is a new one, so what is still written to the old one is not seen.
2. `Editing.step`: after the client, the file and what `hdrSave` will write to it are the client's.
3. `conf_kept`: so it is at the end, if `hdrLoad` had not read the file when the client moved it, or
   `hdrSave` had opened it again.
-/

namespace LinboxRescue

/-! ## Files -/

structure DiskFile where
  inode : ℕ
  text : Bytes
  deriving DecidableEq, Repr

/-- The header, and the files that names lead to. -/
structure MenuDisk (φ : Type*) where
  header : IniFile
  files : φ → Option DiskFile
  next : ℕ

namespace MenuDisk

variable {φ : Type*} [DecidableEq φ] (d : MenuDisk φ)

/-- `open(F, "> $f")`: the file is emptied, or a new one is made. -/
def openFile (f : φ) : ℕ × MenuDisk φ :=
  match d.files f with
  | some x => (x.inode, { d with files := Function.update d.files f (some { x with text := [] }) })
  | none => (d.next, { d with files := Function.update d.files f (some ⟨d.next, []⟩), next := d.next + 1 })

/-- The text is written to the file that was opened, if it is still there. -/
def writeFile (f : φ) (inode : ℕ) (text : Bytes) : MenuDisk φ :=
  match d.files f with
  | some x =>
    if x.inode = inode then { d with files := Function.update d.files f (some ⟨inode, text⟩) } else d
  | none => d

/-- `mv -f`. -/
def mv (f : φ) (text : Bytes) : MenuDisk φ :=
  { d with files := Function.update d.files f (some ⟨d.next, text⟩), next := d.next + 1 }

end MenuDisk

/-! ## The menu operation and the client -/

/-- The values of the keys `include`. -/
def includes (conf : Ini) : List Bytes :=
  (iniGetSections conf).flatMap fun s =>
    (((conf.data s).getD []).filter fun p => p.1 = ascii "include").map Prod.snd

/-- `$inc{$v} = $buf`. -/
def incSet (inc : List (Bytes × Bytes)) (v buf : Bytes) : List (Bytes × Bytes) :=
  inc.filter (fun p => p.1 ≠ v) ++ [(v, buf)]

inductive EditStage
  | start
  | loading (conf : Ini) (todo : List Bytes) (inc : List (Bytes × Bytes))
  | saving (todo : List (Bytes × Bytes))
  | writing (k text : Bytes) (inode : ℕ) (todo : List (Bytes × Bytes))
  | done
  | ready (text : Bytes)
  | moved

/-- Whether a file can be opened for writing, and the order of the hash. -/
structure SaveOutcome where
  opens : Bool
  keys : List (Bytes × Bytes) → List (Bytes × Bytes)
  keys_perm : ∀ inc, (keys inc).Perm inc

section Edit

variable {φ : Type*} [DecidableEq φ] (place : Bytes → φ) (change : Ini → Ini) (target : φ)

/-- What `hdrLoad` keeps of an included file: nothing if it is empty. -/
def loadInclude (d : MenuDisk φ) (inc : List (Bytes × Bytes)) (v : Bytes) : List (Bytes × Bytes) :=
  match d.files (place v) with
  | some f => if f.text = [] then inc else incSet inc v (f.text.rdropWhile (· = 10))
  | none => inc

/-- One access to a file. `place` is where a name leads, `change` is what the operation does to the
header, and `target` is the file that the client writes. -/
def editAccess (o : SaveOutcome) : MenuDisk φ × EditStage → MenuDisk φ × EditStage
  | (d, .start) => (d, .loading (iniLoad d.header) (includes (iniLoad d.header)) [])
  | (d, .loading conf (v :: todo) inc) => (d, .loading conf todo (loadInclude place d inc v))
  | (d, .loading conf [] inc) =>
    if o.opens then ({ d with header := iniSave (change conf) }, .saving (o.keys inc)) else (d, .done)
  | (d, .saving ((k, text) :: todo)) =>
    if o.opens then ((d.openFile (place k)).2, .writing k text (d.openFile (place k)).1 todo)
    else (d, .saving todo)
  | (d, .saving []) => (d, .done)
  | (d, .writing k text inode todo) => (d.writeFile (place k) inode text, .saving todo)
  | (d, .done) => (d, .done)
  | (d, .ready text) => (d.mv target text, .moved)
  | (d, .moved) => (d, .moved)

/-! ## One operation and one client -/

inductive Party
  | menu | client
  deriving DecidableEq, Repr

/-- The operation and the client, before either has started. -/
def editStart (d : MenuDisk φ) (text : Bytes) : World Party (MenuDisk φ) EditStage :=
  ⟨d, fun
    | .menu => .start
    | .client => .ready text⟩

/-- There is a text for the file that will be written back. -/
def EditStage.Holds : EditStage → Prop
  | .loading _ _ inc => ∃ p ∈ inc, place p.1 = target
  | .saving todo | .writing _ _ _ todo => ∃ p ∈ todo, place p.1 = target
  | _ => False

/-- When the client moves its file, the operation has not read the old one, or has opened it
again. -/
def MovesFreely (w : World Party (MenuDisk φ) EditStage) (e : Party × SaveOutcome) : Prop :=
  e.1 = .client → ¬(w.procs .menu).Holds place target

/-- The same text up to newlines at its end. -/
def SameText (c t : Bytes) : Prop := t.rdropWhile (· = 10) = c.rdropWhile (· = 10)

/-- The file is the client's, and so is what will be written to it. -/
def Settled (c : Bytes) (d : MenuDisk φ) : EditStage → Prop
  | .loading _ _ inc => (∃ x, d.files target = some x ∧ SameText c x.text) ∧
      ∀ p ∈ inc, place p.1 = target → SameText c p.2
  | .saving todo => (∃ x, d.files target = some x ∧ SameText c x.text) ∧
      ∀ p ∈ todo, place p.1 = target → SameText c p.2
  | .writing k text inode todo =>
      (∃ x, d.files target = some x ∧
        if place k = target ∧ x.inode = inode then SameText c text else SameText c x.text) ∧
      ∀ p ∈ todo, place p.1 = target → SameText c p.2
  | _ => ∃ x, d.files target = some x ∧ SameText c x.text

variable {place change target} {d : MenuDisk φ} {c : Bytes}

theorem sameText_rdropWhile {t : Bytes} (h : SameText c t) :
    SameText c (t.rdropWhile (· = 10)) := by
  unfold SameText
  rw [List.rdropWhile_idempotent]
  exact h

omit [DecidableEq φ] in
theorem mem_loadInclude {inc : List (Bytes × Bytes)} {v : Bytes} {p : Bytes × Bytes}
    (h : p ∈ loadInclude place d inc v) : p ∈ inc ∨ p.1 = v ∧
      ∃ x, d.files (place v) = some x ∧ p.2 = x.text.rdropWhile (· = 10) := by
  unfold loadInclude at h
  cases hf : d.files (place v) with
  | none =>
    rw [hf] at h
    exact .inl h
  | some x =>
    rw [hf] at h
    dsimp only at h
    split_ifs at h
    · exact .inl h
    · unfold incSet at h
      obtain h | h := List.mem_append.mp h
      · exact .inl (List.mem_filter.mp h).1
      · obtain rfl := List.mem_singleton.mp h
        exact .inr ⟨rfl, x, rfl, rfl⟩

/-- The file that is opened is empty, and the others are as before. -/
theorem openFile_files (f : φ) :
    (d.openFile f).2.files f = some ⟨(d.openFile f).1, []⟩ ∧
    ∀ g, g ≠ f → (d.openFile f).2.files g = d.files g := by
  unfold MenuDisk.openFile
  cases d.files f with
  | none => exact ⟨Function.update_self .., fun g hg => Function.update_of_ne hg ..⟩
  | some x => exact ⟨Function.update_self .., fun g hg => Function.update_of_ne hg ..⟩

theorem writeFile_files (f : φ) (inode : ℕ) (text : Bytes) {x : DiskFile} (hx : d.files f = some x) :
    (d.writeFile f inode text).files f = some (if x.inode = inode then ⟨inode, text⟩ else x) := by
  unfold MenuDisk.writeFile
  rw [hx]
  dsimp only
  split_ifs
  · exact Function.update_self ..
  · exact hx

theorem writeFile_of_ne {f g : φ} (hg : g ≠ f) (inode : ℕ) (text : Bytes) :
    (d.writeFile f inode text).files g = d.files g := by
  unfold MenuDisk.writeFile
  cases d.files f with
  | none => rfl
  | some x =>
    dsimp only
    split_ifs
    · exact Function.update_of_ne hg ..
    · rfl

/-- **After the client**, no access of the operation changes the file. -/
theorem Settled.access (o : SaveOutcome) {s : EditStage} (hs : ∀ text, s ≠ .ready text)
    (h : Settled place target c d s) :
    Settled place target c (editAccess place change target o (d, s)).1
      (editAccess place change target o (d, s)).2 := by
  cases s with
  | start => exact ⟨h, fun p hp => absurd hp List.not_mem_nil⟩
  | loading conf todo inc =>
    obtain ⟨⟨x, hx, hsame⟩, hinc⟩ := h
    cases todo with
    | nil =>
      rw [editAccess]
      by_cases ho : o.opens = true
      · rw [if_pos ho]
        exact ⟨⟨x, hx, hsame⟩, fun p hp => hinc p ((o.keys_perm inc).mem_iff.mp hp)⟩
      · rw [if_neg ho]
        exact ⟨x, hx, hsame⟩
    | cons v todo =>
      refine ⟨⟨x, hx, hsame⟩, fun p hp hpl => ?_⟩
      obtain hp | ⟨rfl, y, hy, hp⟩ := mem_loadInclude hp
      · exact hinc p hp hpl
      · rw [hpl] at hy
        obtain rfl := Option.some.inj (hx.symm.trans hy)
        rw [hp]
        exact sameText_rdropWhile hsame
  | saving todo =>
    obtain ⟨⟨x, hx, hsame⟩, htodo⟩ := h
    cases todo with
    | nil => exact ⟨x, hx, hsame⟩
    | cons p todo =>
      obtain ⟨k, text⟩ := p
      obtain ⟨hk, htodo⟩ := List.forall_mem_cons.mp htodo
      rw [editAccess]
      by_cases ho : o.opens = true
      · rw [if_pos ho]
        refine ⟨?_, htodo⟩
        obtain ⟨hopen, hother⟩ := @openFile_files φ _ d (place k)
        by_cases hpl : place k = target
        · subst hpl
          refine ⟨_, hopen, ?_⟩
          rw [if_pos ⟨rfl, rfl⟩]
          exact hk rfl
        · refine ⟨x, (hother target (Ne.symm hpl)).trans hx, ?_⟩
          rw [if_neg fun hc => hpl hc.1]
          exact hsame
      · rw [if_neg ho]
        exact ⟨⟨x, hx, hsame⟩, htodo⟩
  | writing k text inode todo =>
    obtain ⟨⟨x, hx, hsame⟩, htodo⟩ := h
    refine ⟨?_, htodo⟩
    by_cases hpl : place k = target
    · subst hpl
      refine ⟨_, writeFile_files (place k) inode text hx, ?_⟩
      by_cases hin : x.inode = inode
      · rw [if_pos hin]
        rwa [if_pos ⟨rfl, hin⟩] at hsame
      · rw [if_neg hin]
        rwa [if_neg fun hc => hin hc.2] at hsame
    · refine ⟨x, (writeFile_of_ne (Ne.symm hpl) inode text).trans hx, ?_⟩
      rwa [if_neg fun hc => hpl hc.1] at hsame
  | done => exact h
  | ready text => exact absurd rfl (hs text)
  | moved => exact h

/-- No file has a number that is still to be given. -/
def Numbered (d : MenuDisk φ) : Prop := ∀ f x, d.files f = some x → x.inode < d.next

/-- The number of a file that is being written was given before. -/
def Opened (d : MenuDisk φ) : EditStage → Prop
  | .writing _ _ inode _ => inode < d.next
  | _ => True

theorem numbered_update {files : φ → Option DiskFile} {n : ℕ} (h : ∀ f x, files f = some x → x.inode < n)
    (f : φ) {y : DiskFile} (hy : y.inode < n) :
    ∀ g x, Function.update files f (some y) g = some x → x.inode < n := by
  intro g x hx
  by_cases hg : g = f
  · subst hg
    rw [Function.update_self] at hx
    exact Option.some.inj hx ▸ hy
  · rw [Function.update_of_ne hg] at hx
    exact h g x hx

theorem Numbered.openFile (h : Numbered d) (f : φ) :
    Numbered (d.openFile f).2 ∧ (d.openFile f).1 < (d.openFile f).2.next := by
  unfold MenuDisk.openFile
  cases hf : d.files f with
  | none =>
    exact ⟨numbered_update (fun g x hx => Nat.lt_succ_of_lt (h g x hx)) f (Nat.lt_succ_self _),
      Nat.lt_succ_self _⟩
  | some x => exact ⟨numbered_update h f (h f x hf), h f x hf⟩

theorem Numbered.access (o : SaveOutcome) {s : EditStage} (h : Numbered d) (hs : Opened d s) :
    Numbered (editAccess place change target o (d, s)).1 ∧
    Opened (editAccess place change target o (d, s)).1 (editAccess place change target o (d, s)).2 := by
  cases s with
  | start => exact ⟨h, trivial⟩
  | loading conf todo inc =>
    cases todo with
    | nil =>
      rw [editAccess]
      split_ifs <;> exact ⟨h, trivial⟩
    | cons v todo => exact ⟨h, trivial⟩
  | saving todo =>
    cases todo with
    | nil => exact ⟨h, trivial⟩
    | cons p todo =>
      rw [editAccess]
      split_ifs
      · exact h.openFile (place p.1)
      · exact ⟨h, trivial⟩
  | writing k text inode todo =>
    refine ⟨?_, trivial⟩
    rw [editAccess]
    unfold MenuDisk.writeFile
    cases hf : d.files (place k) with
    | none => exact h
    | some x =>
      dsimp only
      split_ifs
      · exact numbered_update h _ hs
      · exact h
  | done => exact ⟨h, trivial⟩
  | ready text =>
    exact ⟨numbered_update (fun g x hx => Nat.lt_succ_of_lt (h g x hx)) target (Nat.lt_succ_self _), trivial⟩
  | moved => exact ⟨h, trivial⟩

theorem Opened.mv {s : EditStage} (h : Opened d s) {f : φ} {text : Bytes} :
    Opened (d.mv f text) s := by
  cases s with
  | writing k t inode todo => exact Nat.lt_succ_of_lt h
  | start => trivial
  | loading conf todo inc => trivial
  | saving todo => trivial
  | done => trivial
  | ready t => trivial
  | moved => trivial

/-- **The move** of the client. -/
theorem settled_mv {s : EditStage} (ho : Opened d s) (hfree : ¬s.Holds place target) :
    Settled place target c (d.mv target c) s := by
  have hfile : (d.mv target c).files target = some ⟨d.next, c⟩ := Function.update_self ..
  have hsame : ∃ x, (d.mv target c).files target = some x ∧ SameText c x.text := ⟨_, hfile, rfl⟩
  cases s with
  | loading conf todo inc => exact ⟨hsame, fun p hp hpl => absurd ⟨p, hp, hpl⟩ hfree⟩
  | saving todo => exact ⟨hsame, fun p hp hpl => absurd ⟨p, hp, hpl⟩ hfree⟩
  | writing k text inode todo =>
    -- the number of the new file is not the one that was opened
    refine ⟨⟨_, hfile, ?_⟩, fun p hp hpl => absurd ⟨p, hp, hpl⟩ hfree⟩
    rw [if_neg fun hc => (Nat.ne_of_lt ho) hc.2.symm]
    rfl
  | start => exact hsame
  | done => exact hsame
  | ready text => exact hsame
  | moved => exact hsame

/-- A stage of the operation. -/
def EditStage.OfMenu : EditStage → Prop
  | .ready _ | .moved => False
  | _ => True

theorem EditStage.OfMenu.access (o : SaveOutcome) {s : EditStage} (h : s.OfMenu) :
    (editAccess place change target o (d, s)).2.OfMenu := by
  cases s with
  | start => trivial
  | loading conf todo inc =>
    cases todo with
    | nil =>
      rw [editAccess]
      split_ifs <;> trivial
    | cons v todo => trivial
  | saving todo =>
    cases todo with
    | nil => trivial
    | cons p todo =>
      rw [editAccess]
      split_ifs <;> trivial
  | writing k text inode todo => trivial
  | done => trivial
  | ready text => exact h.elim
  | moved => exact h.elim

variable (place target c) in
structure Editing (w : World Party (MenuDisk φ) EditStage) : Prop where
  numbered : Numbered w.shared
  opened : Opened w.shared (w.procs .menu)
  menu : (w.procs .menu).OfMenu
  client : w.procs .client = .ready c ∨
    w.procs .client = .moved ∧ Settled place target c w.shared (w.procs .menu)

/-- **One step** of the operation or of the client. -/
theorem Editing.step {w : World Party (MenuDisk φ) EditStage} {e : Party × SaveOutcome}
    (hfree : MovesFreely place target w e) (h : Editing place target c w) :
    Editing place target c (w.step (fun _ => editAccess place change target) e) := by
  obtain ⟨who, o⟩ := e
  cases who with
  | menu =>
    have hm := fun p => Function.update_self Party.menu p w.procs
    have hc := fun p => Function.update_of_ne (by decide : Party.client ≠ .menu) p w.procs
    obtain ⟨hn, ho⟩ := @Numbered.access _ _ place change target w.shared o _ h.numbered h.opened
    rw [World.step_eq rfl]
    refine ⟨hn, ?_, ?_, ?_⟩
    · dsimp only
      rw [hm]
      exact ho
    · dsimp only
      rw [hm]
      exact h.menu.access o
    · dsimp only
      rw [hm, hc]
      refine h.client.imp_right fun hmoved => ⟨hmoved.1, hmoved.2.access o fun text ht => ?_⟩
      have := h.menu
      rw [ht] at this
      exact this
  | client =>
    have hm := fun p => Function.update_of_ne (by decide : Party.menu ≠ .client) p w.procs
    have hc := fun p => Function.update_self Party.client p w.procs
    obtain hready | ⟨hmoved, hset⟩ := h.client
    · have hacc : editAccess place change target o (w.shared, w.procs .client) =
          (w.shared.mv target c, .moved) := by rw [hready, editAccess]
      rw [World.step_eq hacc]
      refine ⟨?_, ?_, ?_, .inr ⟨hc _, ?_⟩⟩
      · exact numbered_update (fun g x hx => Nat.lt_succ_of_lt (h.numbered g x hx)) target
          (Nat.lt_succ_self _)
      · dsimp only
        rw [hm]
        exact h.opened.mv
      · dsimp only
        rw [hm]
        exact h.menu
      · dsimp only
        rw [hm]
        exact settled_mv h.opened (hfree rfl)
    · have hacc : editAccess place change target o (w.shared, w.procs .client) =
          (w.shared, w.procs .client) := by rw [hmoved, editAccess]
      rw [World.step_eq_self hacc]
      exact h

variable (place target c) in
/-- At the end, the file is the client's. -/
def ConfKept (w : World Party (MenuDisk φ) EditStage) : Prop :=
  w.procs .menu = .done → w.procs .client = .moved →
    ∃ x, w.shared.files target = some x ∧ SameText c x.text

variable (place change target c) in
/-- **A finished backup** is not reverted if the client does not move its file between `hdrLoad` and
`hdrSave`. -/
theorem conf_kept (hd : Numbered d) {es : List (Party × SaveOutcome)}
    (hfree : World.Along (fun _ => editAccess place change target) (MovesFreely place target)
      (editStart d c) es) :
    ConfKept target c ((editStart d c).run (fun _ => editAccess place change target) es) := by
  have h0 : Editing place target c (editStart d c) := ⟨hd, trivial, trivial, .inl rfl⟩
  have hend := World.run_induction (fun w e hf h => Editing.step hf h) h0 hfree
  intro hmenu hclient
  obtain hready | ⟨-, hset⟩ := hend.client
  · rw [hclient] at hready
    cases hready
  · rw [hmenu] at hset
    exact hset

end Edit

/-- A host whose only menu is a backup that is being made. -/
def backupDisk : MenuDisk Bytes where
  header := [(ascii "menu1", [(ascii "include", ascii "Local-0/conf.txt")])]
  files := fun f => if f = ascii "Local-0/conf.txt" then some ⟨0, ascii "title Local backup\n"⟩ else none
  next := 1

/-- What the client writes. -/
def finishedConf : Bytes := ascii "title Image lab\n chainloader +1\n\n"

theorem id_perm (inc : List (Bytes × Bytes)) : (id inc).Perm inc := .refl inc

/-- Every file is opened, and the keys are written in the order they have. -/
def opensAll : SaveOutcome := ⟨true, id, id_perm⟩

/-- The client is done before the operation starts. -/
def clientFirst : List (Party × SaveOutcome) :=
  (.client :: List.replicate 6 .menu).map fun p => (p, opensAll)

/-- The client is done while the operation has the file in its memory. -/
def clientBetween : List (Party × SaveOutcome) :=
  (Party.menu :: .menu :: .client :: List.replicate 4 .menu).map fun p => (p, opensAll)

def backupRun (es : List (Party × SaveOutcome)) : World Party (MenuDisk Bytes) EditStage :=
  (editStart backupDisk finishedConf).run
    (fun _ => editAccess id (fun conf => iniSetVal conf (ascii "menu1") (ascii "visu") (ascii "no"))
      (ascii "Local-0/conf.txt")) es

theorem backupDisk_numbered : Numbered backupDisk := by
  intro f x hx
  unfold backupDisk at hx
  dsimp only at hx
  split_ifs at hx
  obtain rfl := Option.some.inj hx
  exact Nat.one_pos

theorem conf_kept_clientFirst : (backupRun clientFirst).procs .menu = .done ∧
    (backupRun clientFirst).procs .client = .moved ∧
    ConfKept (ascii "Local-0/conf.txt") finishedConf (backupRun clientFirst) := by
  refine ⟨rfl, rfl, conf_kept id _ _ _ backupDisk_numbered ?_⟩
  exact ⟨fun _ => id, fun h => (by cases h), fun h => (by cases h), fun h => (by cases h),
    fun h => (by cases h), fun h => (by cases h), fun h => (by cases h), trivial⟩

/-- The old text is written back. -/
theorem conf_reverted : Numbered backupDisk ∧
    ¬ConfKept (ascii "Local-0/conf.txt") finishedConf (backupRun clientBetween) := by
  refine ⟨backupDisk_numbered, fun h => ?_⟩
  obtain ⟨x, hx, hsame⟩ := h rfl rfl
  have hold : (backupRun clientBetween).shared.files (ascii "Local-0/conf.txt") =
      some ⟨1, ascii "title Local backup"⟩ := by decide +kernel
  obtain rfl := Option.some.inj (hold.symm.trans hx)
  exact absurd hsame (by unfold SameText; decide +kernel)

end LinboxRescue
