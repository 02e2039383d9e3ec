import LinboxRescue.Lib.Bytes

/-!
# POSIX regular expressions

1. `Ere.ends`: the places in a text that an expression can lead to. A place is what is left of the
   text, with whether it is its beginning.
2. `Ere.parse`: an expression is read byte by byte, with a frame for each open parenthesis. A text
   that is not an expression matches nothing.
3. `ereg`: an expression matches somewhere in a text.
4. `feed_plain`: bytes that are not special stand for themselves; so what an expression made of such
   bytes matches can be said without it (`ereg_prefix`, `ereg_infix`).
-/

namespace LinboxRescue

/-! ## Expressions -/

inductive Ere
  | empty
  | byte (p : UInt8 → Bool)
  | bol
  | eol
  | cat (a b : Ere)
  | alt (a b : Ere)
  | star (a : Ere)

namespace Ere

/-- What is left of the text, and whether it is the beginning. -/
abbrev Place := Bool × Bytes

/-- Any number of times, at most `n`. -/
def starEnds (f : Place → List Place) : ℕ → Place → List Place
  | 0, x => [x]
  | n + 1, x => x :: (f x).flatMap (starEnds f n)

/-- The places it can lead to. -/
def ends : Ere → Place → List Place
  | .empty, x => [x]
  | .byte _, (_, []) => []
  | .byte p, (_, b :: t) => if p b then [(false, t)] else []
  | .bol, x => if x.1 then [x] else []
  | .eol, x => if x.2 = [] then [x] else []
  | .cat a b, x => (a.ends x).flatMap b.ends
  | .alt a b, x => a.ends x ++ b.ends x
  | .star a, x => starEnds a.ends x.2.length x

/-- It matches at some place of the text. -/
def search (r : Ere) (text : Bytes) : Bool :=
  !(r.ends (true, text)).isEmpty || text.tails.tail.any fun t => !(r.ends (false, t)).isEmpty

/-! ## Reading -/

/-- One expression after the other. -/
def seq (rs : List Ere) : Ere := rs.foldr .cat .empty

/-- One of the expressions. -/
def oneOf : List Ere → Ere
  | [] => .empty
  | [r] => r
  | r :: rs => .alt r (oneOf rs)

/-- A bound: at least `m` times, and at most `n` times if there is a limit. -/
def repeated (m : ℕ) (n : Option ℕ) (r : Ere) : Ere :=
  .cat (seq (List.replicate m r)) <|
    match n with
    | none => .star r
    | some n => seq (List.replicate (n - m) (.alt r .empty))

/-- What the next byte belongs to. -/
inductive Mode
  | plain | escaped | brace
  | bound (raw : Bytes)
  | bracket (raw : Bytes) (delim : Option UInt8)

/-- What was read since the last open parenthesis: the branches, and the pieces of the last branch.
Not every piece can be repeated. -/
structure Frame where
  branches : List Ere
  pieces : List Ere
  open_ : Bool

def Frame.start : Frame := ⟨[], [], false⟩

def Frame.push (f : Frame) (r : Ere) : Frame := { f with pieces := f.pieces ++ [r], open_ := true }

/-- The last piece is repeated. -/
def Frame.again (f : Frame) (g : Ere → Ere) : Option Frame :=
  match f.pieces.getLast? with
  | some r => if f.open_ then some { f with pieces := f.pieces.dropLast ++ [g r], open_ := false } else none
  | none => none

/-- The branch ends. -/
def Frame.branch (f : Frame) : Option Frame :=
  if f.pieces = [] then none else some ⟨f.branches ++ [seq f.pieces], [], false⟩

def Frame.close (f : Frame) : Option Ere := f.branch.map fun f => oneOf f.branches

def isDigitByte (b : UInt8) : Bool := 48 ≤ b && b ≤ 57

/-- A character class. -/
def byteClass (name : Bytes) : Option (UInt8 → Bool) :=
  let lower := fun b : UInt8 => 97 ≤ b && b ≤ 122
  let upper := fun b : UInt8 => 65 ≤ b && b ≤ 90
  let graph := fun b : UInt8 => 33 ≤ b && b ≤ 126
  let alnum := fun b : UInt8 => lower b || upper b || isDigitByte b
  if name = ascii "alnum" then some alnum
  else if name = ascii "alpha" then some fun b => lower b || upper b
  else if name = ascii "blank" then some fun b => b == 32 || b == 9
  else if name = ascii "cntrl" then some fun b => b < 32 || b == 127
  else if name = ascii "digit" then some isDigitByte
  else if name = ascii "graph" then some graph
  else if name = ascii "lower" then some lower
  else if name = ascii "print" then some fun b => graph b || b == 32
  else if name = ascii "punct" then some fun b => graph b && !alnum b
  else if name = ascii "space" then some fun b => b == 32 || (9 ≤ b && b ≤ 13)
  else if name = ascii "upper" then some upper
  else if name = ascii "xdigit" then some fun b => isDigitByte b || (65 ≤ b && b ≤ 70) || (97 ≤ b && b ≤ 102)
  else none

/-- The items of a bracket expression. -/
def bracketItems : ℕ → Bytes → Option (UInt8 → Bool)
  | 0, _ => none
  | _, [] => some fun _ => false
  | n + 1, 91 :: 58 :: t => do
    let name := t.takeWhile (· ≠ 58)
    let p ← byteClass name
    let q ← bracketItems n (t.drop (name.length + 2))
    return fun b => p b || q b
  | n + 1, a :: 45 :: c :: t => do
    if c < a then none
    let q ← bracketItems n t
    return fun b => (a ≤ b && b ≤ c) || q b
  | n + 1, a :: t => do
    let q ← bracketItems n t
    return fun b => b == a || q b

/-- A bracket expression, from what is between the brackets. -/
def bracketPred : Bytes → Option (UInt8 → Bool)
  | 94 :: raw => (bracketItems (raw.length + 1) raw).map fun p b => !p b
  | raw => bracketItems (raw.length + 1) raw

/-- The numbers of a bound. -/
def boundOf (raw : Bytes) : Option (ℕ × Option ℕ) :=
  let number := fun ds : Bytes => ds.foldl (fun n d => 10 * n + (d.toNat - 48)) 0
  let m := raw.takeWhile isDigitByte
  let rest := raw.dropWhile isDigitByte
  if 255 < number m then none
  else if rest = [] then some (number m, some (number m))
  else if rest = [44] then some (number m, none)
  else if rest.head? = some 44 ∧ (rest.drop 1).all isDigitByte ∧ number m ≤ number (rest.drop 1) ∧
      number (rest.drop 1) ≤ 255 then some (number m, some (number (rest.drop 1)))
  else none

/-- The bytes that do not stand for themselves. -/
def special : Bytes := ascii "^.[$()|*+?\\" ++ [123]

/-- The frames, with the last one first. -/
structure State where
  mode : Mode
  frame : Frame
  outer : List Frame

def State.push (s : State) (r : Ere) : State := { s with mode := .plain, frame := s.frame.push r }

/-- The next byte of an expression, when no other form is open. -/
def plainByte (s : State) (b : UInt8) : Option State :=
  if b = 94 then some { s with frame := { s.frame.push .bol with open_ := false } }
  else if b = 46 then some (s.push (.byte fun _ => true))
  else if b = 91 then some { s with mode := .bracket [] none }
  else if b = 36 then some (s.push .eol)
  else if b = 40 then some ⟨.plain, .start, s.frame :: s.outer⟩
  else if b = 41 then
    match s.outer with
    | [] => none
    | f :: outer =>
      if s.frame.branches = [] ∧ s.frame.pieces = [] then some ⟨.plain, f.push .empty, outer⟩
      else s.frame.close.map fun r => ⟨.plain, f.push r, outer⟩
  else if b = 124 then s.frame.branch.map fun f => { s with frame := f }
  else if b = 42 then (s.frame.again .star).map fun f => { s with frame := f }
  else if b = 43 then (s.frame.again fun r => .cat r (.star r)).map fun f => { s with frame := f }
  else if b = 63 then (s.frame.again fun r => .alt r .empty).map fun f => { s with frame := f }
  else if b = 92 then some { s with mode := .escaped }
  else if b = 123 then some { s with mode := .brace }
  else some (s.push (.byte (· == b)))

/-- The next byte of an expression. -/
def feedByte (s : State) (b : UInt8) : Option State :=
  match s.mode with
  | .plain => plainByte s b
  | .escaped => some (s.push (.byte (· == b)))
  | .brace =>
    if isDigitByte b then some { s with mode := .bound [b] }
    else plainByte (s.push (.byte (· == 123))) b
  | .bound raw =>
    if b = 125 then do
      let (m, n) ← boundOf raw
      let f ← s.frame.again (repeated m n)
      return { s with mode := .plain, frame := f }
    else some { s with mode := .bound (raw ++ [b]) }
  | .bracket raw (some d) =>
    some { s with mode := .bracket (raw ++ [b]) (if b = 93 ∧ raw.getLast? = some d then none else some d) }
  | .bracket raw none =>
    if b = 93 ∧ raw ≠ [] ∧ raw ≠ [94] then do
      let p ← bracketPred raw
      return s.push (.byte p)
    else if raw.getLast? = some 91 ∧ (b = 58 ∨ b = 46 ∨ b = 61) then
      some { s with mode := .bracket (raw ++ [b]) (some b) }
    else some { s with mode := .bracket (raw ++ [b]) none }

def feed (s : Option State) (pattern : Bytes) : Option State :=
  pattern.foldl (fun s b => s.bind fun s => feedByte s b) s

/-- The end of the expression. -/
def State.finish (s : State) : Option Ere :=
  match s.mode, s.outer with
  | .plain, [] => s.frame.close
  | .brace, [] => (s.frame.push (.byte (· == 123))).close
  | _, _ => none

def parse (pattern : Bytes) : Option Ere :=
  (feed (some ⟨.plain, .start, []⟩) pattern).bind State.finish

/-! ## Bytes that stand for themselves -/

def literal (b : UInt8) : Ere := .byte (· == b)

/-- `.` -/
def any : Ere := .byte fun _ => true

theorem feed_append (s : Option State) (v w : Bytes) : feed s (v ++ w) = feed (feed s v) w :=
  List.foldl_append

theorem feed_cons (s : State) (b : UInt8) (w : Bytes) :
    feed (some s) (b :: w) = feed (feedByte s b) w := rfl

theorem plainByte_literal {b : UInt8} (hb : b ∉ special) (s : State) :
    plainByte s b = some (s.push (literal b)) := by
  have hne : ∀ c ∈ special, b ≠ c := fun c hc hbc => hb (hbc ▸ hc)
  unfold plainByte
  rw [if_neg (hne _ (by decide)), if_neg (hne _ (by decide)), if_neg (hne _ (by decide)),
    if_neg (hne _ (by decide)), if_neg (hne _ (by decide)), if_neg (hne _ (by decide)),
    if_neg (hne _ (by decide)), if_neg (hne _ (by decide)), if_neg (hne _ (by decide)),
    if_neg (hne _ (by decide)), if_neg (hne _ (by decide)), if_neg (hne _ (by decide))]
  rfl

/-- **Bytes that are not special** are read as themselves. -/
theorem feed_plain {w : Bytes} (hw : ∀ b ∈ w, b ∉ special) (branches pieces : List Ere) (o : Bool)
    (outer : List Frame) : ∃ o', feed (some ⟨.plain, ⟨branches, pieces, o⟩, outer⟩) w =
      some ⟨.plain, ⟨branches, pieces ++ w.map literal, o'⟩, outer⟩ := by
  induction w generalizing pieces o with
  | nil => exact ⟨o, by rw [List.map_nil, List.append_nil]; rfl⟩
  | cons b w ih =>
    obtain ⟨o', ho⟩ := ih (fun c hc => hw c (List.mem_cons_of_mem _ hc)) (pieces ++ [literal b]) true
    refine ⟨o', ?_⟩
    rw [feed_cons]
    have hb : feedByte ⟨.plain, ⟨branches, pieces, o⟩, outer⟩ b =
        some ⟨.plain, ⟨branches, pieces ++ [literal b], true⟩, outer⟩ :=
      plainByte_literal (hw b List.mem_cons_self) _
    rw [hb, ho, List.append_assoc, List.map_cons, List.singleton_append]

/-- `.*` at the end of an expression. -/
theorem feed_dotStar (branches pieces : List Ere) (o : Bool) (outer : List Frame) :
    feed (some ⟨.plain, ⟨branches, pieces, o⟩, outer⟩) [46, 42] =
      some ⟨.plain, ⟨branches, pieces ++ [.star any], false⟩, outer⟩ := by
  have hlast : (pieces ++ [any]).getLast? = some any := List.getLast?_concat ..
  change ((Frame.again ⟨branches, pieces ++ [any], true⟩ .star).map fun f => State.mk .plain f outer) = _
  unfold Frame.again
  dsimp only
  rw [hlast, List.dropLast_concat]
  rfl

/-! ## Where they lead -/

variable {x y : Place}

theorem mem_ends_append {a b : List Ere} :
    y ∈ ends (seq (a ++ b)) x ↔ ∃ z ∈ ends (seq a) x, y ∈ ends (seq b) z := by
  induction a generalizing x with
  | nil => simp [seq, ends]
  | cons r a ih =>
    change y ∈ (ends r x).flatMap (ends (seq (a ++ b))) ↔ ∃ z ∈ (ends r x).flatMap (ends (seq a)), _
    simp only [List.mem_flatMap, ih]
    constructor
    · rintro ⟨u, hu, z, hz, hy⟩
      exact ⟨z, ⟨u, hu, hz⟩, hy⟩
    · rintro ⟨z, ⟨u, hu, hz⟩, hy⟩
      exact ⟨u, hu, z, hz, hy⟩

theorem mem_ends_singleton {r : Ere} : y ∈ ends (seq [r]) x ↔ y ∈ ends r x := by
  simp [seq, ends]

/-- Bytes that stand for themselves. -/
theorem mem_ends_literals {w : Bytes} :
    y ∈ ends (seq (w.map literal)) x ↔ x.2 = w ++ y.2 ∧ y.1 = (x.1 && w.isEmpty) := by
  induction w generalizing x with
  | nil =>
    obtain ⟨b, t⟩ := x
    obtain ⟨b', t'⟩ := y
    simp only [List.map_nil, seq, List.foldr_nil, ends, List.mem_singleton, Prod.mk.injEq,
      List.nil_append, List.isEmpty_nil, Bool.and_true]
    exact ⟨fun h => ⟨h.2.symm, h.1⟩, fun h => ⟨h.2, h.1.symm⟩⟩
  | cons c w ih =>
    obtain ⟨b, t⟩ := x
    change y ∈ (ends (literal c) (b, t)).flatMap (ends (seq (w.map literal))) ↔ _
    cases t with
    | nil => simp [ends, literal]
    | cons d t =>
      simp only [literal, ends, List.isEmpty_cons, Bool.and_false, List.cons_append, List.cons.injEq]
      split_ifs with hd
      · have hd' : d = c := beq_iff_eq.mp hd
        rw [List.flatMap_singleton, ih]
        simp [hd']
      · have hd' : d ≠ c := fun h => hd (beq_iff_eq.mpr h)
        simp [hd']

/-- `.*` leads to each later place. -/
theorem mem_starEnds_any {n : ℕ} {b : Bool} {u t : Bytes} (h : u.length ≤ n) :
    ((b && u.isEmpty), t) ∈ starEnds (ends any) n (b, u ++ t) := by
  induction u generalizing n b with
  | nil =>
    rw [List.isEmpty_nil, Bool.and_true, List.nil_append]
    cases n with
    | zero => exact List.mem_singleton.mpr rfl
    | succ n => exact List.mem_cons_self
  | cons c u ih =>
    cases n with
    | zero => exact absurd h (by simp)
    | succ n =>
      have hih := @ih n false (by simpa using h)
      refine List.mem_cons_of_mem _ (List.mem_flatMap.mpr ⟨(false, u ++ t), ?_, ?_⟩)
      · exact List.mem_singleton.mpr rfl
      · simpa using hih

theorem mem_ends_anyStar {b : Bool} {u t : Bytes} :
    ((b && u.isEmpty), t) ∈ ends (.star any) (b, u ++ t) :=
  mem_starEnds_any (by simp)

/-- Every place that `.*` leads to is a later one. -/
theorem suffix_of_mem_starEnds {n : ℕ} (h : y ∈ starEnds (ends any) n x) : y.2 <:+ x.2 := by
  induction n generalizing x with
  | zero => rw [List.mem_singleton.mp h]
  | succ n ih =>
    obtain rfl | h := List.mem_cons.mp h
    · exact List.suffix_refl _
    · obtain ⟨z, hz, hy⟩ := List.mem_flatMap.mp h
      obtain ⟨b, t⟩ := x
      cases t with
      | nil => exact absurd hz List.not_mem_nil
      | cons c t =>
        rw [List.mem_singleton.mp hz] at hy
        exact (ih hy).trans (List.suffix_cons c t)

end Ere

/-- `ereg`: the expression matches somewhere in the text. -/
def ereg (pattern text : Bytes) : Bool :=
  match Ere.parse pattern with
  | some r => r.search text
  | none => false

namespace Ere

theorem search_iff {r : Ere} {text : Bytes} : r.search text = true ↔
    (∃ y, y ∈ r.ends (true, text)) ∨ ∃ v, v <:+ text ∧ v ≠ text ∧ ∃ y, y ∈ r.ends (false, v) := by
  have hne : ∀ l : List Place, (!l.isEmpty) = true ↔ ∃ y, y ∈ l := fun l => by
    rw [Bool.not_eq_true', List.isEmpty_eq_false_iff, List.ne_nil_iff_exists_cons]
    exact ⟨fun ⟨y, t, h⟩ => ⟨y, h ▸ List.mem_cons_self⟩, fun ⟨y, hy⟩ => by
      cases l with
      | nil => exact absurd hy List.not_mem_nil
      | cons a t => exact ⟨a, t, rfl⟩⟩
  have htails : ∀ v, v ∈ text.tails.tail ↔ v <:+ text ∧ v ≠ text := by
    intro v
    cases text with
    | nil => simp
    | cons b t =>
      rw [List.tails_cons, List.tail_cons, List.mem_tails]
      refine ⟨fun h => ⟨h.trans (List.suffix_cons b t), fun hc => ?_⟩, fun h => ?_⟩
      · have := h.length_le
        rw [hc] at this
        simp at this
      · exact (List.suffix_cons_iff.mp h.1).resolve_left h.2
  unfold search
  rw [Bool.or_eq_true, hne, List.any_eq_true]
  simp only [hne, htails, and_assoc]

/-- What is read up to `w` comes first, then `w`, then anything. -/
theorem parse_around {start w : Bytes} (hw : ∀ b ∈ w, b ∉ special) {pieces : List Ere} {o : Bool}
    (hs : feed (some ⟨.plain, .start, []⟩) start = some ⟨.plain, ⟨[], pieces, o⟩, []⟩) :
    parse (start ++ (w ++ [46, 42])) = some (seq (pieces ++ (w.map literal ++ [.star any]))) := by
  obtain ⟨o', ho⟩ := feed_plain hw [] pieces o []
  unfold parse
  rw [feed_append, feed_append, hs, ho, feed_dotStar, List.append_assoc]
  change (Frame.close _) = _
  unfold Frame.close Frame.branch
  rw [if_neg (by simp)]
  rfl

/-- After `w` anything may come. -/
theorem exists_mem_ends_around {pieces : List Ere} {w : Bytes} {x : Place} :
    (∃ y, y ∈ ends (seq (pieces ++ (w.map literal ++ [.star any]))) x) ↔
      ∃ z ∈ ends (seq pieces) x, w <+: z.2 := by
  constructor
  · rintro ⟨y, hy⟩
    obtain ⟨z, hz, hy⟩ := mem_ends_append.mp hy
    obtain ⟨u, hu, -⟩ := mem_ends_append.mp hy
    exact ⟨z, hz, u.2, (mem_ends_literals.mp hu).1.symm⟩
  · rintro ⟨⟨b, t⟩, hz, v, rfl⟩
    refine ⟨((b && w.isEmpty) && v.isEmpty, []), mem_ends_append.mpr ⟨_, hz, mem_ends_append.mpr ?_⟩⟩
    refine ⟨(b && w.isEmpty, v), mem_ends_literals.mpr ⟨rfl, rfl⟩, mem_ends_singleton.mpr ?_⟩
    have := @mem_ends_anyStar (b && w.isEmpty) v []
    rwa [List.append_nil] at this

variable {w text : Bytes} {c : UInt8}

/-- What the expression of a pattern finds. -/
theorem ereg_iff {pattern : Bytes} {r : Ere} (hp : parse pattern = some r) :
    ereg pattern text = true ↔
    (∃ y, y ∈ r.ends (true, text)) ∨ ∃ v, v <:+ text ∧ v ≠ text ∧ ∃ y, y ∈ r.ends (false, v) := by
  unfold ereg
  rw [hp]
  exact search_iff

/-- `^.` -/
theorem ereg_any : ereg [94, 46] text = true ↔ text ≠ [] := by
  have hp : parse [94, 46] = some (seq [.bol, any]) := rfl
  rw [ereg_iff hp]
  cases text with
  | nil => simp [seq, ends, any]
  | cons b t => exact ⟨fun _ => List.cons_ne_nil b t, fun _ => .inl ⟨(false, t), List.mem_singleton.mpr rfl⟩⟩

/-- `^w.*` -/
theorem ereg_prefix (hw : ∀ b ∈ w, b ∉ special) :
    ereg (94 :: (w ++ [46, 42])) text = true ↔ w <+: text := by
  have hp : parse ([94] ++ (w ++ [46, 42])) = some (seq ([.bol] ++ (w.map literal ++ [.star any]))) :=
    parse_around hw rfl
  rw [← List.singleton_append, ereg_iff hp]
  simp only [exists_mem_ends_around, mem_ends_singleton, ends]
  simp

/-- `c?` -/
def opt (c : UInt8) : Ere := .alt (literal c) .empty

theorem feed_opt (hc : c ∉ special) (branches pieces : List Ere) (o : Bool) (outer : List Frame) :
    feed (some ⟨.plain, ⟨branches, pieces, o⟩, outer⟩) [c, 63] =
      some ⟨.plain, ⟨branches, pieces ++ [opt c], false⟩, outer⟩ := by
  have hb : feedByte ⟨.plain, ⟨branches, pieces, o⟩, outer⟩ c =
      some ⟨.plain, ⟨branches, pieces ++ [literal c], true⟩, outer⟩ := plainByte_literal hc _
  have hlast : (pieces ++ [literal c]).getLast? = some (literal c) := List.getLast?_concat ..
  rw [feed_cons, hb]
  change ((Frame.again ⟨branches, pieces ++ [literal c], true⟩ fun r => .alt r .empty).map
    fun f => State.mk .plain f outer) = _
  unfold Frame.again
  dsimp only
  rw [hlast, List.dropLast_concat]
  rfl

theorem mem_ends_opt {z : Place} : z ∈ ends (opt c) x ↔ z = x ∨ x.2 = c :: z.2 ∧ z.1 = false := by
  obtain ⟨b, t⟩ := x
  obtain ⟨b', t'⟩ := z
  cases t with
  | nil => simp [opt, ends, literal]
  | cons d t =>
    simp only [opt, ends, literal, List.mem_append, List.mem_singleton, List.cons.injEq]
    split_ifs with hd
    · have hd' : d = c := beq_iff_eq.mp hd
      simp only [List.mem_singleton, Prod.mk.injEq, hd', true_and]
      exact ⟨fun h => h.elim (fun h => .inr ⟨h.2.symm, h.1⟩) .inl, fun h => h.elim .inr fun h => .inl
        ⟨h.2, h.1.symm⟩⟩
    · have hd' : d ≠ c := fun h => hd (beq_iff_eq.mpr h)
      simp [hd']

/-- `^c?w.*` -/
theorem ereg_optPrefix (hc : c ∉ special) (hw : ∀ b ∈ w, b ∉ special) :
    ereg (94 :: c :: 63 :: (w ++ [46, 42])) text = true ↔ w <+: text ∨ c :: w <+: text := by
  have hp : parse ([94, c, 63] ++ (w ++ [46, 42])) =
      some (seq ([.bol, opt c] ++ (w.map literal ++ [.star any]))) :=
    parse_around hw (feed_opt hc [] [.bol] false [])
  have hends : ∀ (b : Bool) (t : Bytes) (z : Place),
      z ∈ ends (seq [.bol, opt c]) (b, t) ↔ b = true ∧ z ∈ ends (opt c) (b, t) := by
    intro b t z
    cases b <;> simp [seq, ends]
  refine (ereg_iff hp).trans ?_
  simp only [exists_mem_ends_around, hends, mem_ends_opt]
  constructor
  · rintro (⟨z, ⟨-, rfl | ⟨hz, -⟩⟩, h⟩ | ⟨v, -, -, z, ⟨hf, -⟩, -⟩)
    · exact .inl h
    · rw [hz]
      exact .inr (List.cons_prefix_cons.mpr ⟨rfl, h⟩)
    · cases hf
  · rintro (h | ⟨v, rfl⟩)
    · exact .inl ⟨(true, text), ⟨trivial, .inl rfl⟩, h⟩
    · exact .inl ⟨(false, w ++ v), ⟨trivial, .inr ⟨rfl, rfl⟩⟩, List.prefix_append w v⟩

/-- `.*c?w.*` -/
theorem ereg_infix (hc : c ∉ special) (hw : ∀ b ∈ w, b ∉ special) :
    ereg (46 :: 42 :: c :: 63 :: (w ++ [46, 42])) text = true ↔ w <:+: text := by
  have hstart : feed (some ⟨.plain, .start, []⟩) [46, 42, c, 63] =
      some ⟨.plain, ⟨[], [.star any, opt c], false⟩, []⟩ := by
    rw [show [46, 42, c, 63] = [46, 42] ++ [c, 63] from rfl, feed_append]
    exact (congrArg (feed · [c, 63]) (feed_dotStar [] [] false [])).trans (feed_opt hc ..)
  have hp := parse_around hw hstart
  -- all that is read before `w` leaves a later part of the text
  have hlater : ∀ (x z : Place), z ∈ ends (seq [.star any, opt c]) x → z.2 <:+ x.2 := by
    intro x z hz
    obtain ⟨u, hu, hz⟩ := (mem_ends_append (a := [.star any]) (b := [opt c])).mp hz
    rw [mem_ends_singleton] at hu hz
    refine List.IsSuffix.trans ?_ (suffix_of_mem_starEnds hu)
    obtain rfl | ⟨hc, -⟩ := mem_ends_opt.mp hz
    · exact List.suffix_refl _
    · rw [hc]
      exact List.suffix_cons c _
  have hinside : ∀ (x z : Place), z ∈ ends (seq [.star any, opt c]) x → w <+: z.2 → w <:+: x.2 :=
    fun x z hz h => h.isInfix.trans (hlater x z hz).isInfix
  refine (ereg_iff hp).trans ?_
  simp only [exists_mem_ends_around]
  constructor
  · rintro (⟨z, hz, h⟩ | ⟨v, hv, -, z, hz, h⟩)
    · exact hinside _ z hz h
    · exact (hinside _ z hz h).trans hv.isInfix
  · rintro ⟨u, v, rfl⟩
    refine .inl ⟨(true && u.isEmpty, w ++ v), ?_, List.prefix_append w v⟩
    refine (mem_ends_append (a := [.star any]) (b := [opt c])).mpr ⟨_, ?_, mem_ends_singleton.mpr
      (mem_ends_opt.mpr (.inl rfl))⟩
    rw [mem_ends_singleton, List.append_assoc]
    exact mem_ends_anyStar

end Ere

end LinboxRescue
