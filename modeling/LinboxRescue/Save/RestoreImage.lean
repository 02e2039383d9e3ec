import LinboxRescue.Save.Turns

/-!
# Interpreting `conf.txt`

`restoreimage` of `autorestore.c` reads `conf.txt` line by line and restores the partition tables and
the partitions. The lines are those of `saveimage` and `save`, read back with other formats than they
were written with.

1. `turn_plain`: every line is read back as it was meant, as long as the words in it are words.
2. `restoreimage_plain`: then the calls made are those written.
3. `restoreimage_cut`: of a volume's name only the part in front of a white space is read.
-/

namespace LinboxRescue

/-! ## The interpreter -/

/-- The device to restore to: a disk of the table, or a device of its own. -/
inductive Dest
  | hd (n : ℕ)
  | device (path : Bytes)
  deriving DecidableEq, Repr

inductive Action
  | restoreRaw (d1 : ℕ) (file : Bytes)
  | restore (dest : Dest) (sect : ℕ) (file : Bytes)
  | vgscan
  | ntblfix (d1 : ℕ)
  | setdefault (v : Bytes)
  | exit
  deriving DecidableEq, Repr

structure ConfState where
  actions : List Action
  vgscan : Bool
  exited : Bool

def ConfState.log (s : ConfState) (as : List Action) : ConfState := { s with actions := s.actions ++ as }

/-- The second word of `setdefault`, by `strtok`, and what is left in the buffer. -/
def strtok2 (buf : Bytes) : Bytes × Bytes :=
  let blanks := buf.takeWhile (· == 32)
  let t := buf.dropWhile (· == 32)
  let v := ((t.dropWhile (· != 32)).dropWhile (· == 32)).takeWhile (· != 32)
  (if v = [] then ascii "0" else v, blanks ++ t.takeWhile (· != 32))

/-- The command `ptabs`. -/
def ConfState.ptabs (s : ConfState) (buf : Bytes) : ConfState :=
  match sscanf (fmt " ptabs (hd%u) (nd)PATH/%s") buf with
  | [.int d1, .str file] => s.log [.restoreRaw d1.toNat file]
  | _ => s

/-- The command `partcopy`; the number of a volume's partition reads as `2 ^ 32 - 1`. -/
def ConfState.partcopy (revontblfix : Bool) (s : ConfState) (buf : Bytes) : ConfState :=
  match sscanf (fmt " partcopy (hd%u,%u) %u PATH/%s") buf with
  | [.int d1, .int d2, .int sect, .str file] =>
    if 3968 ≤ d1 ∧ d2 = 2 ^ 32 - 1 then
      match sscanf (fmt " partcopy (hd%*u,%*u) %*u PATH/%*s %s") buf with
      | [.str lvm] =>
        { s.log ((if s.vgscan then [] else [.vgscan]) ++
            [.restore (.device (ascii "/dev/" ++ lvm)) sect.toNat file]) with vgscan := true }
      | _ => { s.log [.exit] with exited := true }
    else
      s.log (.restore (.hd d1.toNat) sect.toNat file ::
        if sect = 63 ∧ revontblfix then [.ntblfix d1.toNat] else [])
  | _ => s

/-- One turn, with the line `buf`. -/
def ConfState.turn (revontblfix nolrs : Bool) (s : ConfState) (buf : Bytes) : ConfState × Bytes :=
  if s.exited then (s, buf)
  else
    match sscanf (fmt "%s") buf with
    | [.str word] =>
      if word = ascii "ptabs" then (s.ptabs buf, buf)
      else if word = ascii "partcopy" then (s.partcopy revontblfix buf, buf)
      else if word = ascii "setdefault" ∧ nolrs = false then
        (s.log [.setdefault (strtok2 buf).1], (strtok2 buf).2)
      else if word = ascii "chainloader" ∧ nolrs = false then (s.log [.setdefault (ascii "0")], buf)
      else (s, buf)
    | _ => (s, buf)

/-- What is done for the text of `conf.txt`; `garbage` is in the buffer at first. -/
def restoreimage (revontblfix nolrs : Bool) (garbage text : Bytes) : List Action :=
  (readLoop 250 (ConfState.turn revontblfix nolrs) ⟨[], false, false⟩ garbage text).actions

/-! ## What is meant by a line -/

/-- The restoration that a line asks for. -/
def ConfLine.call : ConfLine → Option Action
  | .ptabs disk pre => some (.restoreRaw disk.toNat (pre ++ ascii "TABS"))
  | .partcopy disk _ tmin file none => some (.restore (.hd disk.toNat) tmin.toNat file)
  | .partcopy _ _ tmin file (some d) => some (.restore (.device (ascii "/dev/" ++ d)) tmin.toNat file)
  | _ => none

def Action.isRestore : Action → Bool
  | .restoreRaw .. | .restore .. => true
  | _ => false

/-- A word: no white space, and not empty. -/
structure IsWord (w : Bytes) : Prop where
  ne : w ≠ []
  space : ∀ b ∈ w, isSpace b = false

theorem IsWord.append {v w : Bytes} (hv : IsWord v) (hw : ∀ b ∈ w, isSpace b = false) : IsWord (v ++ w) :=
  ⟨by simp [hv.ne], List.forall_mem_append.mpr ⟨hv.space, hw⟩⟩

theorem IsWord.ne_newline {w : Bytes} (hw : IsWord w) : ∀ b ∈ w, b ≠ 10 := by
  rintro b hb rfl
  exact absurd (hw.space _ hb) (by decide)

/-! ## Scanning -/

theorem scanConv_word {w r : Bytes} (hw : IsWord w) (hr : ∀ b ∈ r.head?, isSpace b = true) (k : ℕ) :
    scanConv .s (blanks k ++ (w ++ r)) = some (.str w, r) := by
  rw [scanConv_blanks, scanConv_s_word hw.space hw.ne hr]

/-- The first word of a line. -/
theorem sscanf_first {w r : Bytes} (hw : IsWord w) (hr : ∀ b ∈ r.head?, isSpace b = true) (k : ℕ) :
    sscanf (fmt "%s") (blanks k ++ (w ++ r)) = [.str w] := by
  rw [show fmt "%s" = [.conv .s true] from rfl, sscanf_conv _ (scanConv_word hw hr k), if_pos rfl]
  rfl

theorem sscanf_white_lits {w : Bytes} (hw : IsWord w) (k : ℕ) (ds : List Directive) (t : Bytes) :
    sscanf (.white :: (lits w ++ ds)) (blanks k ++ (w ++ t)) = sscanf ds t := by
  obtain ⟨b, v, rfl⟩ := List.exists_cons_of_ne_nil hw.ne
  rw [sscanf, skipSpace_blanks, List.cons_append, skipSpace_of_head (hw.space b List.mem_cons_self),
    ← List.cons_append, sscanf_lits]

theorem scanConv_u_decInt (n : ℤ) {r : Bytes}
    (hr : ∀ b ∈ r.head?, isDigit b = false) :
    scanConv .u (decInt n ++ r) = some (.int (n % 2 ^ 32), r) := by
  cases n with
  | ofNat n => exact scanNumber_dec strtoul n hr
  | negSucc n =>
    have h := scanNumber_neg_dec strtoul (n + 1) hr
    rw [scanConv, show decInt (Int.negSucc n) ++ r = 45 :: dec (n + 1) ++ r from rfl, h]
    rfl

/-- A literal text is a word. -/
theorem isWord_ascii {w : Bytes} (h : w ≠ [] ∧ w.all (fun b => !isSpace b) = true) : IsWord w :=
  ⟨h.1, fun b hb => by simpa using List.all_eq_true.mp h.2 b hb⟩

/-- What follows a number begins with `w`. -/
theorem head_append {w : Bytes} (hne : w ≠ []) (h : ∀ b ∈ w.head?, isDigit b = false) (t : Bytes) :
    ∀ b ∈ (w ++ t).head?, isDigit b = false := by
  obtain ⟨c, v, rfl⟩ := List.exists_cons_of_ne_nil hne
  exact h

/-- The line `partcopy` up to the name of the files. -/
def partcopyHead (disk part : ℤ) (tmin : UInt32) (file : Bytes) : Bytes :=
  ascii " partcopy (hd" ++ decInt disk ++ ascii "," ++ decInt part ++ ascii ") " ++ dec tmin.toNat ++
    ascii " PATH/" ++ file

/-- `" partcopy (hd%u,%u) %u PATH/%s"`, or the same without storing. -/
def partcopyFmt (store : Bool) : List Directive :=
  .white :: (lits (ascii "partcopy") ++ (.white :: (lits (ascii "(hd") ++ (.conv .u store ::
    (lits (ascii ",") ++ (.conv .u store :: (lits (ascii ")") ++ (.white :: .conv .u store ::
      (.white :: (lits (ascii "PATH/") ++ [.conv .s store]))))))))))

theorem sscanf_partcopyHead (store : Bool) (ds : List Directive) (disk part : ℤ) (tmin : UInt32)
    {file r : Bytes} (hfile : IsWord file) (hr : ∀ b ∈ r.head?, isSpace b = true) :
    sscanf (partcopyFmt store ++ ds) (partcopyHead disk part tmin file ++ r) =
      (if store then [.int (disk % 2 ^ 32), .int (part % 2 ^ 32), .int tmin.toNat, .str file] else []) ++
        sscanf ds r := by
  have htext : partcopyHead disk part tmin file ++ r = blanks 1 ++ (ascii "partcopy" ++ (blanks 1 ++
      (ascii "(hd" ++ (decInt disk ++ (ascii "," ++ (decInt part ++ (ascii ")" ++ (blanks 1 ++
        (dec tmin.toNat ++ (blanks 1 ++ (ascii "PATH/" ++ (file ++ r)))))))))))) := by
    simp only [partcopyHead, List.append_assoc]
    rfl
  have htmin : tmin.toNat < 2 ^ 32 := tmin.toNat_lt
  have hstep : sscanf (partcopyFmt store ++ ds) (partcopyHead disk part tmin file ++ r) =
      sscanf (.conv .u store :: (lits (ascii ",") ++ (.conv .u store :: (lits (ascii ")") ++
        (.white :: .conv .u store :: (.white :: (lits (ascii "PATH/") ++ (.conv .s store :: ds))))))))
        (decInt disk ++ (ascii "," ++ (decInt part ++ (ascii ")" ++ (blanks 1 ++
          (dec tmin.toNat ++ (blanks 1 ++ (ascii "PATH/" ++ (file ++ r))))))))) := by
    rw [htext]
    refine (sscanf_white_lits (isWord_ascii (w := ascii "partcopy") (by decide)) 1 _ _).trans ?_
    exact sscanf_white_lits (isWord_ascii (w := ascii "(hd") (by decide)) 1 _ _
  have hcomma := fun t => head_append (w := ascii ",") (by decide) (by decide) t
  have hparen := fun t => head_append (w := ascii ")") (by decide) (by decide) t
  rw [hstep, sscanf_conv _ (scanConv_u_decInt disk (hcomma _)), sscanf_lits,
    sscanf_conv _ (scanConv_u_decInt part (hparen _)), sscanf_lits, sscanf_white_conv,
    sscanf_conv _ ((scanConv_blanks _ _ _).trans (scanConv_u_dec htmin (head_blanks (by decide) _))),
    sscanf_white_lits (isWord_ascii (by decide)),
    sscanf_conv _ (scanConv_s_word hfile.space hfile.ne hr)]
  cases store <;> rfl

theorem sscanf_partcopy (disk part : ℤ) (tmin : UInt32) {file r : Bytes} (hfile : IsWord file)
    (hr : ∀ b ∈ r.head?, isSpace b = true) :
    sscanf (fmt " partcopy (hd%u,%u) %u PATH/%s") (partcopyHead disk part tmin file ++ r) =
      [.int (disk % 2 ^ 32), .int (part % 2 ^ 32), .int tmin.toNat, .str file] := by
  rw [show fmt " partcopy (hd%u,%u) %u PATH/%s" = partcopyFmt true ++ [] from rfl,
    sscanf_partcopyHead true [] disk part tmin hfile hr]
  rfl

/-- The name of a volume, up to the first white space. -/
theorem sscanf_volume (disk part : ℤ) (tmin : UInt32) {file w r : Bytes} (hfile : IsWord file)
    (hw : IsWord w) (hr : ∀ b ∈ r.head?, isSpace b = true) :
    sscanf (fmt " partcopy (hd%*u,%*u) %*u PATH/%*s %s")
      (partcopyHead disk part tmin file ++ (blanks 1 ++ (w ++ r))) = [.str w] := by
  rw [show fmt " partcopy (hd%*u,%*u) %*u PATH/%*s %s" =
      partcopyFmt false ++ [.white, .conv .s true] from rfl,
    sscanf_partcopyHead false _ disk part tmin hfile (by simp [blanks, isSpace]), sscanf_white_conv,
    sscanf_conv _ (scanConv_word hw hr 1)]
  rfl

theorem sscanf_ptabs (disk : ℤ) {file r : Bytes} (hfile : IsWord file)
    (hr : ∀ b ∈ r.head?, isSpace b = true) :
    sscanf (fmt " ptabs (hd%u) (nd)PATH/%s")
      (ascii "ptabs (hd" ++ decInt disk ++ ascii ") (nd)PATH/" ++ file ++ r) =
      [.int (disk % 2 ^ 32), .str file] := by
  have hfmt : fmt " ptabs (hd%u) (nd)PATH/%s" = .white :: (lits (ascii "ptabs") ++ (.white ::
      (lits (ascii "(hd") ++ (.conv .u true :: (lits (ascii ")") ++ (.white ::
        (lits (ascii "(nd)PATH/") ++ [.conv .s true]))))))) := rfl
  have htext : ascii "ptabs (hd" ++ decInt disk ++ ascii ") (nd)PATH/" ++ file ++ r =
      blanks 0 ++ (ascii "ptabs" ++ (blanks 1 ++ (ascii "(hd" ++ (decInt disk ++ (ascii ")" ++
        (blanks 1 ++ (ascii "(nd)PATH/" ++ (file ++ r)))))))) := by
    simp only [List.append_assoc]
    rfl
  have hparen := fun t => head_append (w := ascii ")") (by decide) (by decide) t
  rw [hfmt, htext, sscanf_white_lits (isWord_ascii (by decide)),
    sscanf_white_lits (isWord_ascii (by decide)), sscanf_conv _ (scanConv_u_decInt disk (hparen _)),
    if_pos rfl, sscanf_lits, sscanf_white_lits (isWord_ascii (by decide)),
    sscanf_conv _ (scanConv_s_word hfile.space hfile.ne hr), if_pos rfl]
  rfl

/-! ## One line -/

/-- The words of a line are words, and its numbers are in their ranges. -/
def ConfLine.Plain : ConfLine → Prop
  | .title hostname => ∀ b ∈ hostname, isSpace b = false
  | .desc date => ∀ b ∈ date, b ≠ 10
  | .ptabs disk pre => 0 ≤ disk ∧ disk < 48 ∧ ∀ b ∈ pre, isSpace b = false
  | .partcopy disk _ _ file none => 0 ≤ disk ∧ disk < 48 ∧ IsWord file
  | .partcopy disk part _ file (some d) =>
    3968 ≤ disk ∧ disk < 2 ^ 32 ∧ part = -1 ∧ IsWord file ∧ IsWord d
  | _ => True

theorem ne_newline_of_space {w : Bytes} (hw : ∀ b ∈ w, isSpace b = false) : ∀ b ∈ w, b ≠ 10 := by
  rintro b hb rfl
  exact absurd (hw _ hb) (by decide)

theorem isLine_plain {l : ConfLine} (hl : l.Plain) (hlen : l.text.length < 250) :
    IsLine 250 l.text := by
  have hdec : ∀ n : ℕ, ∀ b ∈ dec n, b ≠ 10 := fun n => dec_ne (by decide)
  have hint : ∀ n : ℤ, ∀ b ∈ decInt n, b ≠ 10 := fun n => decInt_ne (by decide) (by decide)
  have hlast : ∀ w : Bytes, l.text = w ++ [10] → (∀ b ∈ w, b ≠ 10) → IsLine 250 l.text :=
    fun w h hw => ⟨⟨w, h, hw⟩, hlen⟩
  cases l with
  | title hostname =>
    refine hlast _ rfl ?_
    simp only [List.forall_mem_append]
    exact ⟨by decide, ne_newline_of_space hl⟩
  | desc date =>
    refine hlast _ rfl ?_
    simp only [List.forall_mem_append]
    exact ⟨⟨by decide, hl⟩, by decide⟩
  | ptabs disk pre =>
    refine hlast _ rfl ?_
    simp only [List.forall_mem_append]
    exact ⟨⟨⟨⟨by decide, hint _⟩, by decide⟩, ne_newline_of_space hl.2.2⟩, by decide⟩
  | extent disk part tmin tmax ttype =>
    refine hlast _ rfl ?_
    simp only [List.forall_mem_append]
    exact ⟨⟨⟨⟨⟨⟨⟨⟨⟨by decide, hint _⟩, by decide⟩, hint _⟩, by decide⟩, hdec _⟩, by decide⟩, hdec _⟩,
      by decide⟩, hint _⟩
  | partcopy disk part tmin file device =>
    refine hlast _ rfl ?_
    simp only [List.forall_mem_append]
    cases device with
    | none =>
      exact ⟨⟨⟨⟨⟨⟨⟨⟨by decide, hint _⟩, by decide⟩, hint _⟩, by decide⟩, hdec _⟩, by decide⟩,
        hl.2.2.ne_newline⟩, by simp⟩
    | some d =>
      refine ⟨⟨⟨⟨⟨⟨⟨⟨by decide, hint _⟩, by decide⟩, hint _⟩, by decide⟩, hdec _⟩, by decide⟩,
        hl.2.2.2.1.ne_newline⟩, ?_⟩
      exact List.forall_mem_append.mpr ⟨by decide, hl.2.2.2.2.ne_newline⟩
  | error dnum poff ttype =>
    refine hlast _ rfl ?_
    simp only [List.forall_mem_append]
    exact ⟨⟨⟨⟨⟨⟨by decide, hint _⟩, by decide⟩, hdec _⟩, by decide⟩, hex_ne_newline _⟩, by decide⟩
  | bootComment boot =>
    refine hlast _ rfl ?_
    simp only [List.forall_mem_append]
    exact ⟨by decide, hdec _⟩
  | partcopyComment => exact hlast _ rfl (by decide)
  | ptabsComment => exact hlast _ rfl (by decide)
  | root => exact hlast _ rfl (by decide)
  | chainloader => exact hlast _ rfl (by decide)
  | blank => exact hlast [] rfl (by decide)

section Turn

variable {revontblfix nolrs : Bool} {s : ConfState} (hs : s.exited = false)

/-- The words that `restoreimage` knows. -/
def commands : List Bytes :=
  [ascii "ptabs", ascii "partcopy", ascii "setdefault", ascii "chainloader"]

include hs in
/-- A line that starts with another word. -/
theorem turn_other {w r : Bytes} (hw : IsWord w) (hr : ∀ b ∈ r.head?, isSpace b = true)
    (hcmd : w ∉ commands) (k : ℕ) :
    s.turn revontblfix nolrs (blanks k ++ (w ++ r)) = (s, blanks k ++ (w ++ r)) := by
  simp only [commands, List.mem_cons, List.not_mem_nil, or_false, not_or] at hcmd
  unfold ConfState.turn
  rw [if_neg (by rw [hs]; exact Bool.false_ne_true), sscanf_first hw hr]
  dsimp only
  rw [if_neg hcmd.1, if_neg hcmd.2.1, if_neg (fun h => hcmd.2.2.1 h.1), if_neg (fun h => hcmd.2.2.2 h.1)]

include hs in
theorem turn_ptabs {r : Bytes} (hr : ∀ b ∈ r.head?, isSpace b = true) (k : ℕ) :
    s.turn revontblfix nolrs (blanks k ++ (ascii "ptabs" ++ r)) =
      (s.ptabs (blanks k ++ (ascii "ptabs" ++ r)), blanks k ++ (ascii "ptabs" ++ r)) := by
  unfold ConfState.turn
  rw [if_neg (by rw [hs]; exact Bool.false_ne_true), sscanf_first (isWord_ascii (by decide)) hr]
  exact if_pos rfl

include hs in
theorem turn_partcopy {r : Bytes} (hr : ∀ b ∈ r.head?, isSpace b = true) (k : ℕ) :
    s.turn revontblfix nolrs (blanks k ++ (ascii "partcopy" ++ r)) =
      (s.partcopy revontblfix (blanks k ++ (ascii "partcopy" ++ r)),
        blanks k ++ (ascii "partcopy" ++ r)) := by
  unfold ConfState.turn
  rw [if_neg (by rw [hs]; exact Bool.false_ne_true), sscanf_first (isWord_ascii (by decide)) hr]
  dsimp only
  rw [if_neg (by decide), if_pos rfl]

/-- What a turn does to the restorations logged. -/
structure Logs (s : ConfState) (as : List Action) (s' : ConfState) : Prop where
  exited : s'.exited = false
  actions : s'.actions.filter (·.isRestore) = s.actions.filter (·.isRestore) ++ as

include hs in
theorem logs_refl : Logs s [] s := ⟨hs, (List.append_nil _).symm⟩

include hs in
theorem logs_log {as bs : List Action} (h : as.filter (·.isRestore) = bs) : Logs s bs (s.log as) :=
  ⟨hs, by rw [ConfState.log, List.filter_append, h]⟩

include hs in
/-- The line of a volume, as far as its name is a word `w`. -/
theorem logs_volume (disk : ℤ) (h1 : 3968 ≤ disk) (h2 : disk < 2 ^ 32) (tmin : UInt32)
    {file w r : Bytes} (hfile : IsWord file) (hw : IsWord w) (hr : ∀ b ∈ r.head?, isSpace b = true) :
    Logs s [.restore (.device (ascii "/dev/" ++ w)) tmin.toNat file]
      (s.partcopy revontblfix (partcopyHead disk (-1) tmin file ++ (blanks 1 ++ (w ++ r)))) := by
  unfold ConfState.partcopy
  rw [sscanf_partcopy disk (-1) tmin hfile (by simp [blanks, isSpace])]
  dsimp only
  rw [if_pos ⟨by omega, by decide⟩, sscanf_volume disk (-1) tmin hfile hw hr]
  dsimp only
  have hlog := @logs_log s hs ((if s.vgscan then [] else [.vgscan]) ++
    [.restore (.device (ascii "/dev/" ++ w)) (Int.toNat tmin.toNat) file])
      [.restore (.device (ascii "/dev/" ++ w)) tmin.toNat file] (by split_ifs <;> rfl)
  exact ⟨hlog.exited, hlog.actions⟩

include hs in
theorem logs_partition (disk part : ℤ) (h1 : 0 ≤ disk) (h2 : disk < 48) (tmin : UInt32)
    {file r : Bytes} (hfile : IsWord file) (hr : ∀ b ∈ r.head?, isSpace b = true) :
    Logs s [.restore (.hd disk.toNat) tmin.toNat file]
      (s.partcopy revontblfix (partcopyHead disk part tmin file ++ r)) := by
  unfold ConfState.partcopy
  rw [sscanf_partcopy disk part tmin hfile hr]
  dsimp only
  rw [if_neg (by omega), Int.emod_eq_of_lt h1 (by omega)]
  refine logs_log hs ?_
  rw [List.filter_cons_of_pos rfl]
  split_ifs <;> rfl

include hs in
theorem logs_ptabs (disk : ℤ) (h1 : 0 ≤ disk) (h2 : disk < 48) {file r : Bytes} (hfile : IsWord file)
    (hr : ∀ b ∈ r.head?, isSpace b = true) : Logs s [.restoreRaw disk.toNat file]
      (s.ptabs (ascii "ptabs (hd" ++ decInt disk ++ ascii ") (nd)PATH/" ++ file ++ r)) := by
  unfold ConfState.ptabs
  rw [sscanf_ptabs disk hfile hr]
  dsimp only
  rw [Int.emod_eq_of_lt h1 (by omega)]
  exact logs_log hs rfl

include hs in
/-- The line `partcopy` is recognised by its first word. -/
theorem turn_partcopyHead (disk part : ℤ) (tmin : UInt32) (file r : Bytes) :
    s.turn revontblfix nolrs (partcopyHead disk part tmin file ++ r) =
      (s.partcopy revontblfix (partcopyHead disk part tmin file ++ r),
        partcopyHead disk part tmin file ++ r) := by
  obtain ⟨t, ht⟩ : ∃ t, partcopyHead disk part tmin file ++ r =
      blanks 1 ++ (ascii "partcopy" ++ (32 :: t)) := by
    simp only [partcopyHead, List.append_assoc]
    exact ⟨_, rfl⟩
  rw [ht]
  exact turn_partcopy hs (by simp [isSpace]) 1

include hs in
/-- **A line is read back as it was meant.** -/
theorem turn_plain {l : ConfLine} (hl : l.Plain) :
    ∃ s', s.turn revontblfix nolrs l.text = (s', l.text) ∧ Logs s l.call.toList s' := by
  have hspace : ∀ t : Bytes, ∀ b ∈ (32 :: t).head?, isSpace b = true := fun t b hb => by
    cases hb; rfl
  have hother : ∀ (k : ℕ) (w t : Bytes), IsWord w → w ∉ commands → l.call = none →
      l.text = blanks k ++ (w ++ 32 :: t) →
      ∃ s', s.turn revontblfix nolrs l.text = (s', l.text) ∧ Logs s l.call.toList s' :=
    fun k w t hw hcmd hcall htext =>
      ⟨s, by rw [htext]; exact turn_other hs hw (hspace t) hcmd k, by rw [hcall]; exact logs_refl hs⟩
  cases l with
  | title hostname => exact hother 0 (ascii "title") _ (isWord_ascii (by decide)) (by decide) rfl rfl
  | desc date => exact hother 0 (ascii "desc") _ (isWord_ascii (by decide)) (by decide) rfl rfl
  | partcopyComment => exact hother 0 (ascii "#") _ (isWord_ascii (by decide)) (by decide) rfl rfl
  | ptabsComment => exact hother 0 (ascii "#") _ (isWord_ascii (by decide)) (by decide) rfl rfl
  | extent disk part tmin tmax ttype =>
    exact hother 1 (ascii "#") _ (isWord_ascii (by decide)) (by decide) rfl
      (by simp only [ConfLine.text, List.append_assoc]; rfl)
  | error dnum poff ttype =>
    exact hother 0 (ascii "#") _ (isWord_ascii (by decide)) (by decide) rfl
      (by simp only [ConfLine.text, List.append_assoc]; rfl)
  | bootComment boot => exact hother 0 (ascii "#") _ (isWord_ascii (by decide)) (by decide) rfl rfl
  | root => exact hother 1 (ascii "root") _ (isWord_ascii (by decide)) (by decide) rfl rfl
  | blank =>
    refine ⟨s, ?_, logs_refl hs⟩
    unfold ConfState.turn
    rw [if_neg (by rw [hs]; exact Bool.false_ne_true)]
    rfl
  | chainloader =>
    have htext : ConfLine.chainloader.text = blanks 1 ++ (ascii "chainloader" ++ 32 :: ascii "+1\n") := rfl
    cases nolrs with
    | true =>
      refine ⟨s, ?_, logs_refl hs⟩
      unfold ConfState.turn
      rw [if_neg (by rw [hs]; exact Bool.false_ne_true), htext,
        sscanf_first (isWord_ascii (by decide)) (hspace _)]
      rfl
    | false =>
      refine ⟨s.log [.setdefault (ascii "0")], ?_, logs_log hs rfl⟩
      unfold ConfState.turn
      rw [if_neg (by rw [hs]; exact Bool.false_ne_true), htext,
        sscanf_first (isWord_ascii (by decide)) (hspace _)]
      rfl
  | ptabs disk pre =>
    obtain ⟨h1, h2, hpre⟩ := hl
    have hfile : IsWord (pre ++ ascii "TABS") :=
      ⟨by simp [ascii], List.forall_mem_append.mpr ⟨hpre, by decide⟩⟩
    have htext : (ConfLine.ptabs disk pre).text = ascii "ptabs (hd" ++ decInt disk ++
        ascii ") (nd)PATH/" ++ (pre ++ ascii "TABS") ++ [10] := by
      simp only [ConfLine.text, List.append_assoc]
    obtain ⟨t, ht⟩ : ∃ t, (ConfLine.ptabs disk pre).text = blanks 0 ++ (ascii "ptabs" ++ 32 :: t) := by
      simp only [ConfLine.text, List.append_assoc]
      exact ⟨_, rfl⟩
    refine ⟨s.ptabs (ConfLine.ptabs disk pre).text, ?_, ?_⟩
    · rw [ht]
      exact turn_ptabs hs (hspace t) 0
    · rw [htext]
      exact logs_ptabs hs disk h1 h2 hfile (by simp [isSpace])
  | partcopy disk part tmin file device =>
    cases device with
    | none =>
      obtain ⟨h1, h2, hfile⟩ := hl
      have htext : (ConfLine.partcopy disk part tmin file none).text =
          partcopyHead disk part tmin file ++ [10] := by
        simp only [ConfLine.text, partcopyHead, List.append_assoc, List.nil_append]
      rw [htext]
      exact ⟨_, turn_partcopyHead hs disk part tmin file [10],
        logs_partition hs disk part h1 h2 tmin hfile (by simp [isSpace])⟩
    | some d =>
      obtain ⟨h1, h2, rfl, hfile, hd⟩ := hl
      have htext : (ConfLine.partcopy disk (-1) tmin file (some d)).text =
          partcopyHead disk (-1) tmin file ++ (blanks 1 ++ (d ++ [10])) := by
        simp only [ConfLine.text, partcopyHead, List.append_assoc]
        rfl
      rw [htext]
      exact ⟨_, turn_partcopyHead hs disk (-1) tmin file _,
        logs_volume hs disk h1 h2 tmin hfile hd (by simp [isSpace])⟩

end Turn

/-! ## The whole text -/

section Text

variable {revontblfix nolrs : Bool}

theorem turns_plain {ls : List ConfLine} (hls : ∀ l ∈ ls, l.Plain) {s : ConfState}
    (hs : s.exited = false) (buf : Bytes) :
    Logs s (ls.filterMap ConfLine.call)
        (turns (ConfState.turn revontblfix nolrs) (s, buf) (ls.map ConfLine.text)).1 ∧
      (turns (ConfState.turn revontblfix nolrs) (s, buf) (ls.map ConfLine.text)).2 =
        (ls.getLast?.map ConfLine.text).getD buf := by
  induction ls generalizing s buf with
  | nil => exact ⟨logs_refl hs, rfl⟩
  | cons l ls ih =>
    rw [List.forall_mem_cons] at hls
    obtain ⟨s', hturn, hlog⟩ := @turn_plain revontblfix nolrs s hs l hls.1
    obtain ⟨hlogs, hbuf⟩ := ih hls.2 hlog.exited l.text
    have hstep : turns (ConfState.turn revontblfix nolrs) (s, buf) ((l :: ls).map ConfLine.text) =
        turns (ConfState.turn revontblfix nolrs) (s', l.text) (ls.map ConfLine.text) := by
      rw [List.map_cons, turns, List.foldl_cons, hturn]
      rfl
    rw [hstep]
    refine ⟨⟨hlogs.exited, ?_⟩, ?_⟩
    · rw [hlogs.actions, hlog.actions, List.append_assoc]
      congr 1
      cases hcall : l.call with
      | none => rw [List.filterMap_cons_none hcall]; rfl
      | some a => rw [List.filterMap_cons_some hcall]; rfl
    · rw [hbuf, List.getLast?_cons]
      cases ls.getLast? <;> rfl

/-- The restorations made for plain lines that end with a blank one. -/
theorem restoreimage_plain {ls : List ConfLine} (hls : ∀ l ∈ ls, l.Plain)
    (hlen : ∀ l ∈ ls, l.text.length < 250) (hlast : ls.getLast? = some .blank) (garbage : Bytes) :
    (restoreimage revontblfix nolrs garbage (confText ls)).filter (·.isRestore) =
      ls.filterMap ConfLine.call := by
  have hlines : ∀ l ∈ ls.map ConfLine.text, IsLine 250 l := by
    intro t ht
    obtain ⟨l, hl, rfl⟩ := List.mem_map.mp ht
    exact isLine_plain (hls l hl) (hlen l hl)
  obtain ⟨hlogs, hbuf⟩ := @turns_plain revontblfix nolrs ls hls ⟨[], false, false⟩ rfl garbage
  rw [hlast] at hbuf
  obtain ⟨s', hturn, hlog⟩ := @turn_plain revontblfix nolrs _ hlogs.exited .blank trivial
  unfold restoreimage confText
  rw [readLoop_lines (by decide) hlines, hbuf]
  change ((ConfState.turn _ _ _ ConfLine.blank.text).1.actions.filter _) = _
  rw [hturn, hlog.actions, hlogs.actions]
  exact List.append_nil _

theorem actions_log (s : ConfState) (as : List Action) : s.actions <+: (s.log as).actions :=
  List.prefix_append _ _

theorem actions_ptabs (s : ConfState) (buf : Bytes) : s.actions <+: (s.ptabs buf).actions := by
  unfold ConfState.ptabs
  split
  · exact actions_log s _
  · exact List.prefix_refl _

theorem actions_partcopy (s : ConfState) (buf : Bytes) :
    s.actions <+: (s.partcopy revontblfix buf).actions := by
  unfold ConfState.partcopy
  split
  · split
    · split
      · exact actions_log s _
      · exact actions_log s _
    · exact actions_log s _
  · exact List.prefix_refl _

/-- Nothing that is done is undone. -/
theorem actions_turn (s : ConfState) (buf : Bytes) :
    s.actions <+: (s.turn revontblfix nolrs buf).1.actions := by
  unfold ConfState.turn
  split
  · exact List.prefix_refl _
  · split
    · split
      · exact actions_ptabs s buf
      · split
        · exact actions_partcopy s buf
        · split
          · exact actions_log s _
          · split
            · exact actions_log s _
            · exact List.prefix_refl _
    · exact List.prefix_refl _

/-- A volume whose name is `w` up to a white space is restored to `w`. -/
theorem restoreimage_cut {ls post : List ConfLine} (hls : ∀ l ∈ ls, l.Plain)
    (hlen : ∀ l ∈ ls, l.text.length < 250) {disk : ℤ} (h1 : 3968 ≤ disk) (h2 : disk < 2 ^ 32)
    {tmin : UInt32} {file w d : Bytes} {c : UInt8} (hfile : IsWord file) (hw : IsWord w)
    (hc : isSpace c = true)
    (hshort : (ConfLine.partcopy disk (-1) tmin file (some (w ++ c :: d))).text.length < 250)
    (garbage : Bytes) :
    ls.filterMap ConfLine.call ++ [.restore (.device (ascii "/dev/" ++ w)) tmin.toNat file] <+:
      (restoreimage revontblfix nolrs garbage (confText (ls ++
        .partcopy disk (-1) tmin file (some (w ++ c :: d)) :: post))).filter (·.isRestore) := by
  have hlines : ∀ l ∈ ls.map ConfLine.text, IsLine 250 l := by
    intro t ht
    obtain ⟨l, hl, rfl⟩ := List.mem_map.mp ht
    exact isLine_plain (hls l hl) (hlen l hl)
  obtain ⟨u, hu⟩ : ∃ u, u = partcopyHead disk (-1) tmin file ++ (blanks 1 ++ w) := ⟨_, rfl⟩
  have htext : (ConfLine.partcopy disk (-1) tmin file (some (w ++ c :: d))).text =
      u ++ c :: (d ++ [10]) := by
    simp only [ConfLine.text, hu, partcopyHead, List.append_assoc]
    rfl
  have hnl : ∀ b ∈ u, b ≠ 10 := by
    have hdec : ∀ n : ℕ, ∀ b ∈ dec n, b ≠ 10 := fun n => dec_ne (by decide)
    have hint : ∀ n : ℤ, ∀ b ∈ decInt n, b ≠ 10 := fun n => decInt_ne (by decide) (by decide)
    rw [hu, partcopyHead]
    simp only [List.forall_mem_append]
    exact ⟨⟨⟨⟨⟨⟨⟨⟨by decide, hint _⟩, by decide⟩, hint _⟩, by decide⟩, hdec _⟩, by decide⟩,
      hfile.ne_newline⟩, by decide, hw.ne_newline⟩
  rw [htext, List.length_append, List.length_cons] at hshort
  unfold restoreimage confText
  rw [List.map_append, List.flatten_append, readLoop_append (by decide) hlines, List.map_cons,
    List.flatten_cons, htext, List.append_assoc, List.cons_append]
  obtain ⟨hlogs, -⟩ := @turns_plain revontblfix nolrs ls hls ⟨[], false, false⟩ rfl garbage
  obtain ⟨r, hr⟩ := fgets_beyond hnl c (d ++ [10] ++ (post.map ConfLine.text).flatten)
    (show u.length + 1 < 250 by omega)
  refine readLoop_first (P := fun s => _ <+: s.actions.filter (·.isRestore)) (fun s l h =>
    h.trans ((actions_turn s l).filter _)) (List.append_ne_nil_of_right_ne_nil u (List.cons_ne_nil _ _))
    ?_ _
  rw [hr, hu, List.append_assoc, List.append_assoc, turn_partcopyHead hlogs.exited]
  have := @logs_volume revontblfix _ hlogs.exited disk h1 h2 tmin file w (c :: r) hfile hw
    (by simpa using hc)
  rw [this.actions, hlogs.actions]
  exact List.prefix_refl _

end Text

end LinboxRescue
