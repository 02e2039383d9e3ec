import Mathlib.Tactic

/-!
# Queues linked through an array of slots

A queue of byte blocks kept in an array: every slot has its data and the number of the slot that
follows, and two pointers name the first and the last slot. A slot without data is free. Blocks are
appended whole (`push`) and taken off the front in any amount (`takeFront`), so that the first block
may be a partly used one.

`Chain p q` says that the slots of `p` are linked in the order `q` and that all others are free.
`Chain.push` and `Chain.takeFront` are what the two operations do to the order and to the data.
-/

namespace LinboxRescue

/-- A slot: its data and the slot that follows. -/
structure Slot (ι α : Type*) where
  data : List α
  next : Option ι

/-- An array of slots with the pointers to the first and the last one in use. -/
structure LinkedQueue (ι α : Type*) where
  slot : ι → Slot ι α
  first : Option ι
  last : Option ι

namespace LinkedQueue

variable {ι α : Type*}

/-- All slots are free. -/
def empty : LinkedQueue ι α := { slot := fun _ => ⟨[], none⟩, first := none, last := none }

/-- The data of slot `i?` and its followers, at most `n` slots. -/
def dataFrom (p : LinkedQueue ι α) : ℕ → Option ι → List α
  | 0, _ => []
  | _ + 1, none => []
  | n + 1, some i => (p.slot i).data ++ p.dataFrom n (p.slot i).next

/-- The amount of data in slot `i` and its followers, at most `n + 1` slots. -/
def totalFrom (p : LinkedQueue ι α) : ℕ → ι → ℕ
  | 0, i => (p.slot i).data.length
  | n + 1, i => (p.slot i).data.length +
      match (p.slot i).next with
      | some j => p.totalFrom n j
      | none => 0

theorem totalFrom_eq (p : LinkedQueue ι α) (n : ℕ) (i : ι) :
    p.totalFrom n i = (p.dataFrom (n + 1) (some i)).length := by
  induction n generalizing i with
  | zero => simp [totalFrom, dataFrom]
  | succ n ih =>
    rw [totalFrom, dataFrom, List.length_append]
    cases (p.slot i).next with
    | none => rfl
    | some j => simp only [ih]

/-- Slot `i` gets the data `xs` and is linked behind the last one. -/
def push [DecidableEq ι] (p : LinkedQueue ι α) (i : ι) (xs : List α) : LinkedQueue ι α :=
  let p := match p.last with
    | some l => { p with slot := Function.update p.slot l { p.slot l with next := some i } }
    | none => { p with first := some i }
  { p with slot := Function.update p.slot i { p.slot i with data := xs }, last := some i }

/-- The first slot `i` is freed. -/
def unlink [DecidableEq ι] (p : LinkedQueue ι α) (i : ι) : LinkedQueue ι α where
  slot := Function.update p.slot i ⟨[], none⟩
  first := (p.slot i).next
  last := if p.last = some i then none else p.last

/-- Slot `i` keeps the data `xs` only. -/
def setData [DecidableEq ι] (p : LinkedQueue ι α) (i : ι) (xs : List α) : LinkedQueue ι α :=
  { p with slot := Function.update p.slot i { p.slot i with data := xs } }

/-- `n` elements are taken off the front, with at most `steps` slots freed on the way. -/
def takeFront [DecidableEq ι] : ℕ → ℕ → LinkedQueue ι α → List α × LinkedQueue ι α
  | 0, _, p => ([], p)
  | steps + 1, n, p =>
    if n = 0 then ([], p)
    else match p.first with
      | none => ([], p)
      | some i =>
        if (p.slot i).data.length ≤ n then
          let r := takeFront steps (n - (p.slot i).data.length) (p.unlink i)
          ((p.slot i).data ++ r.1, r.2)
        else
          ((p.slot i).data.take n, p.setData i ((p.slot i).data.drop n))

/-! ## The order of the slots -/

/-- Every slot of `q` names its follower in `q`. -/
def Linked (slot : ι → Slot ι α) : List ι → Prop
  | [] => True
  | i :: q => (slot i).next = q.head? ∧ Linked slot q

/-- The slots in use are those of `q`, in this order. -/
structure Chain (p : LinkedQueue ι α) (q : List ι) : Prop where
  first : p.first = q.head?
  last : p.last = q.getLast?
  nodup : q.Nodup
  linked : Linked p.slot q
  free : ∀ i ∉ q, p.slot i = ⟨[], none⟩

/-- The data of the slots of `q`. -/
def dataOf (p : LinkedQueue ι α) (q : List ι) : List α := q.flatMap fun i => (p.slot i).data

theorem dataOf_cons (p : LinkedQueue ι α) (i : ι) (q : List ι) :
    p.dataOf (i :: q) = (p.slot i).data ++ p.dataOf q := rfl

theorem dataOf_congr {p p' : LinkedQueue ι α} {q : List ι}
    (h : ∀ i ∈ q, (p'.slot i).data = (p.slot i).data) : p'.dataOf q = p.dataOf q := by
  induction q with
  | nil => rfl
  | cons i q ih =>
    rw [List.forall_mem_cons] at h
    rw [dataOf_cons, dataOf_cons, h.1, ih h.2]

theorem chain_empty : Chain (empty : LinkedQueue ι α) [] :=
  ⟨rfl, rfl, List.nodup_nil, trivial, fun _ _ => rfl⟩

theorem Linked.congr {slot slot' : ι → Slot ι α} {q : List ι} (h : Linked slot q)
    (hs : ∀ i ∈ q, (slot' i).next = (slot i).next) : Linked slot' q := by
  induction q with
  | nil => trivial
  | cons i q ih =>
    rw [List.forall_mem_cons] at hs
    exact ⟨hs.1.trans h.1, ih h.2 hs.2⟩

theorem Linked.dataFrom {p : LinkedQueue ι α} {q : List ι} (h : Linked p.slot q) {n : ℕ}
    (hn : q.length ≤ n) : p.dataFrom n q.head? = p.dataOf q := by
  induction q generalizing n with
  | nil => cases n <;> rfl
  | cons i q ih =>
    obtain ⟨n, rfl⟩ : ∃ k, n = k + 1 := ⟨n - 1, by rw [List.length_cons] at hn; omega⟩
    rw [List.head?_cons, LinkedQueue.dataFrom, h.1, ih h.2 (by simpa using hn), dataOf_cons]

variable {p : LinkedQueue ι α} {q : List ι}

/-- Following the pointers from the first slot on gives the data of the queue. -/
theorem Chain.dataFrom (h : Chain p q) {n : ℕ} (hn : q.length ≤ n) :
    p.dataFrom n p.first = p.dataOf q := by
  rw [h.first]; exact h.linked.dataFrom hn

theorem Chain.totalFrom (h : Chain p q) {i : ι} (hi : p.first = some i) {n : ℕ}
    (hn : q.length ≤ n + 1) : p.totalFrom n i = (p.dataOf q).length := by
  rw [totalFrom_eq, ← hi, h.dataFrom hn]

theorem Chain.length_le [Fintype ι] (h : Chain p q) : q.length ≤ Fintype.card ι :=
  h.nodup.length_le_card

/-- A slot without data is in use only if one of the slots in use has no data. -/
theorem Chain.not_mem (h : ∀ i ∈ q, (p.slot i).data ≠ []) {i : ι} (hi : (p.slot i).data = []) :
    i ∉ q := fun hq => h i hq hi

/-! ## Appending -/

theorem getLast?_eq_append {l : ι} (h : q.getLast? = some l) : ∃ q₀, q = q₀ ++ [l] := by
  rcases List.eq_nil_or_concat q with rfl | ⟨q₀, l', rfl⟩
  · cases h
  · rw [List.concat_eq_append, List.getLast?_concat] at h
    cases h
    exact ⟨q₀, List.concat_eq_append⟩

theorem Linked.snoc {slot slot' : ι → Slot ι α} {q₀ : List ι} {l i : ι}
    (h : Linked slot (q₀ ++ [l])) (hs : ∀ j ∈ q₀, (slot' j).next = (slot j).next)
    (hl : (slot' l).next = some i) (hi : (slot' i).next = none) :
    Linked slot' (q₀ ++ [l] ++ [i]) := by
  induction q₀ with
  | nil => exact ⟨hl, hi, trivial⟩
  | cons j q₀ ih =>
    rw [List.forall_mem_cons] at hs
    refine ⟨?_, ih h.2 hs.2⟩
    rw [hs.1, h.1]
    cases q₀ <;> rfl

variable [DecidableEq ι]

/-- What appending does to the slots: the last one now has a follower, the new one has the data. -/
theorem Chain.push_slot (h : Chain p q) {i : ι} (hi : i ∉ q) (xs : List α) :
    (∀ j ∈ q, ((p.push i xs).slot j).data = (p.slot j).data) ∧
      (p.push i xs).slot i = ⟨xs, none⟩ ∧
      ∀ j ∉ q, j ≠ i → (p.push i xs).slot j = p.slot j := by
  have hfree := h.free i hi
  unfold push
  cases hl : p.last with
  | none =>
    refine ⟨fun j hj => ?_, ?_, fun j _ hji => ?_⟩
    · have hne : j ≠ i := fun e => hi (e ▸ hj)
      simp only [Function.update_of_ne hne]
    · simp only [Function.update_self, hfree]
    · simp only [Function.update_of_ne hji]
  | some l =>
    have hmem : l ∈ q := by
      have hlast := h.last
      rw [hl] at hlast
      exact List.mem_of_getLast? hlast.symm
    have hil : i ≠ l := fun e => hi (e ▸ hmem)
    refine ⟨fun j hj => ?_, ?_, fun j hj hji => ?_⟩
    · have hne : j ≠ i := fun e => hi (e ▸ hj)
      simp only [Function.update_of_ne hne]
      by_cases hjl : j = l
      · subst hjl; simp only [Function.update_self]
      · simp only [Function.update_of_ne hjl]
    · simp only [Function.update_self, Function.update_of_ne hil, hfree]
    · have hjl : j ≠ l := fun e => hj (e ▸ hmem)
      simp only [Function.update_of_ne hji, Function.update_of_ne hjl]

theorem Chain.push (h : Chain p q) {i : ι} (hi : i ∉ q) (xs : List α) :
    Chain (p.push i xs) (q ++ [i]) := by
  obtain ⟨-, hself, hother⟩ := h.push_slot hi xs
  have hlast := h.last
  refine ⟨?_, by rw [List.getLast?_concat]; rfl, ?_, ?_, fun j hj => ?_⟩
  · -- the first slot stays, unless there was none
    unfold LinkedQueue.push
    cases hl : p.last with
    | none =>
      rw [hl] at hlast
      rw [List.getLast?_eq_none_iff.mp hlast.symm]
      rfl
    | some l =>
      rw [hl] at hlast
      obtain ⟨q₀, rfl⟩ := getLast?_eq_append hlast.symm
      show p.first = _
      rw [h.first]
      cases q₀ <;> rfl
  · rw [List.nodup_append]
    exact ⟨h.nodup, List.nodup_singleton i, fun a ha b hb e => hi (by simp_all)⟩
  · cases hl : p.last with
    | none =>
      rw [hl] at hlast
      rw [List.getLast?_eq_none_iff.mp hlast.symm]
      exact ⟨by rw [hself]; rfl, trivial⟩
    | some l =>
      rw [hl] at hlast
      obtain ⟨q₀, rfl⟩ := getLast?_eq_append hlast.symm
      have hil : l ≠ i := fun e => hi (by simp [e])
      refine h.linked.snoc (fun j hj => ?_) ?_ (by rw [hself])
      · have hji : j ≠ i := fun e => hi (by simp [← e, hj])
        have hjl : j ≠ l := fun e => by
          have := (List.nodup_append.mp h.nodup).2.2 j hj l (by simp)
          exact this e
        unfold LinkedQueue.push
        simp only [hl, Function.update_of_ne hji, Function.update_of_ne hjl]
      · unfold LinkedQueue.push
        simp only [hl, Function.update_of_ne hil, Function.update_self]
  · rw [List.mem_append, List.mem_singleton, not_or] at hj
    rw [hother j hj.1 hj.2, h.free j hj.1]

theorem Chain.dataOf_push (h : Chain p q) {i : ι} (hi : i ∉ q) (xs : List α) :
    (p.push i xs).dataOf (q ++ [i]) = p.dataOf q ++ xs := by
  obtain ⟨hkeep, hself, -⟩ := h.push_slot hi xs
  have h1 : (p.push i xs).dataOf (q ++ [i]) = (p.push i xs).dataOf q ++ (p.push i xs).dataOf [i] :=
    List.flatMap_append
  rw [h1, dataOf_congr hkeep, dataOf_cons, hself]
  simp [dataOf]

/-! ## Taking off the front -/

theorem Chain.unlink {i : ι} (h : Chain p (i :: q)) :
    Chain (p.unlink i) q ∧ ∀ j ∈ q, (p.unlink i).slot j = p.slot j := by
  have hnot : i ∉ q := (List.nodup_cons.mp h.nodup).1
  have hkeep : ∀ j ∈ q, (p.unlink i).slot j = p.slot j := fun j hj =>
    Function.update_of_ne (fun e : j = i => hnot (e ▸ hj)) _ _
  refine ⟨⟨h.linked.1, ?_, (List.nodup_cons.mp h.nodup).2, ?_, fun j hj => ?_⟩, hkeep⟩
  · show (if p.last = some i then none else p.last) = _
    rw [h.last]
    rcases List.eq_nil_or_concat q with rfl | ⟨q₀, l, rfl⟩
    · exact if_pos rfl
    · rw [List.concat_eq_append, ← List.cons_append, List.getLast?_concat, List.getLast?_concat]
      refine if_neg fun e => hnot ?_
      rw [← Option.some.inj e]
      simp
  · exact h.linked.2.congr fun j hj => by rw [hkeep j hj]
  · by_cases hji : j = i
    · subst hji; exact Function.update_self _ _ _
    · show Function.update p.slot i ⟨[], none⟩ j = _
      rw [Function.update_of_ne hji, h.free j (by simp [hji, hj])]

/-- Shortening the first block. -/
theorem Chain.shorten {i : ι} (h : Chain p (i :: q)) (xs : List α) :
    Chain (p.setData i xs) (i :: q) ∧ ((p.setData i xs).slot i).data = xs ∧
      ∀ j ∈ q, (p.setData i xs).slot j = p.slot j := by
  have hne : ∀ j, j ≠ i → (p.setData i xs).slot j = p.slot j := fun j hj =>
    Function.update_of_ne hj _ _
  have hnext : ∀ j, ((p.setData i xs).slot j).next = (p.slot j).next := by
    intro j
    by_cases hji : j = i
    · subst hji; simp only [setData, Function.update_self]
    · rw [hne j hji]
  have hnot : i ∉ q := (List.nodup_cons.mp h.nodup).1
  refine ⟨⟨h.first, h.last, h.nodup, h.linked.congr fun j _ => hnext j, fun j hj => ?_⟩,
    by simp only [setData, Function.update_self], fun j hj => hne j fun e => hnot (e ▸ hj)⟩
  rw [hne j fun e => hj (by simp [e]), h.free j hj]

/-- What is left after taking something off the front: the blocks `q'`, all but the first of them as
they were, and none of them emptied. -/
structure Rest (p p' : LinkedQueue ι α) (q q' : List ι) : Prop where
  chain : Chain p' q'
  suffix : q' <:+ q
  keep : ∀ i ∈ q'.tail, p'.slot i = p.slot i
  shorter : ∀ i ∈ q', (p'.slot i).data.length ≤ (p.slot i).data.length
  solid : (∀ i ∈ q, (p.slot i).data ≠ []) → ∀ i ∈ q', (p'.slot i).data ≠ []

theorem Chain.takeFront (steps : ℕ) : ∀ {p : LinkedQueue ι α} {q : List ι} {n : ℕ}, Chain p q →
    q.length < steps → n ≤ (p.dataOf q).length →
    ∃ q', Rest p (takeFront steps n p).2 q q' ∧ (takeFront steps n p).1 = (p.dataOf q).take n ∧
      (takeFront steps n p).2.dataOf q' = (p.dataOf q).drop n := by
  induction steps with
  | zero => intro p q n _ hlt; omega
  | succ steps ih =>
    intro p q n h hlt hn
    rw [LinkedQueue.takeFront]
    by_cases h0 : n = 0
    · rw [if_pos h0, h0]
      exact ⟨q, ⟨h, List.suffix_rfl, fun _ _ => rfl, fun _ _ => le_rfl, fun hs => hs⟩, rfl, rfl⟩
    rw [if_neg h0]
    cases q with
    | nil => exact absurd (Nat.le_zero.mp hn) h0
    | cons i q =>
      have hfirst : p.first = some i := h.first
      rw [dataOf_cons] at hn ⊢
      simp only [hfirst]
      split_ifs with hle
      · -- the whole first block is taken
        obtain ⟨hunl, hkeep⟩ := h.unlink
        have hdata : (p.unlink i).dataOf q = p.dataOf q :=
          dataOf_congr fun j hj => by rw [hkeep j hj]
        rw [List.length_append] at hn
        obtain ⟨q', hr, h1, h2⟩ := ih hunl (by simpa using hlt)
          (show n - (p.slot i).data.length ≤ _ by rw [hdata]; omega)
        have hsub : ∀ {j}, j ∈ q' → j ∈ q := fun hj => hr.suffix.subset hj
        refine ⟨q', ⟨hr.chain, hr.suffix.trans (List.suffix_cons i q), fun j hj => ?_, fun j hj => ?_,
          fun hs => hr.solid fun j hj => ?_⟩, ?_, ?_⟩
        · rw [hr.keep j hj, hkeep j (hsub (List.mem_of_mem_tail hj))]
        · rw [← hkeep j (hsub hj)]; exact hr.shorter j hj
        · rw [hkeep j hj]; exact hs j (List.mem_cons_of_mem i hj)
        · show _ ++ _ = _
          rw [h1, hdata, List.take_append, List.take_of_length_le hle]
        · rw [h2, hdata, List.drop_append, List.drop_of_length_le hle, List.nil_append]
      · -- a part of the first block is enough
        obtain ⟨hchain, hdata, hother⟩ := h.shorten ((p.slot i).data.drop n)
        refine ⟨i :: q, ⟨hchain, List.suffix_rfl, hother, ?_, fun hs => ?_⟩, ?_, ?_⟩
        · rw [List.forall_mem_cons, hdata, List.length_drop]
          exact ⟨Nat.sub_le _ _, fun j hj => by rw [hother j hj]⟩
        · rw [List.forall_mem_cons, hdata, ne_eq, List.drop_eq_nil_iff]
          exact ⟨hle, fun j hj => by rw [hother j hj]; exact hs j (List.mem_cons_of_mem i hj)⟩
        · rw [List.take_append_of_le_length (by omega)]
        · have hq : (p.setData i ((p.slot i).data.drop n)).dataOf q = p.dataOf q :=
            dataOf_congr fun j hj => by rw [hother j hj]
          rw [dataOf_cons, hdata, hq, List.drop_append_of_le_length (by omega)]

end LinkedQueue

end LinboxRescue
