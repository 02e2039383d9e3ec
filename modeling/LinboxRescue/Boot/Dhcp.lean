import LinboxRescue.Lib.Bytes
import LinboxRescue.Lib.Fuel
import LinboxRescue.Lib.CString
import Mathlib.Data.List.TakeWhile

/-!
# The options of a DHCP answer (`src/client/src_revoboot/pxe.c`)

`bootp` hands the options field of the packet to `parse_dhcp_options`, which looks for the netmask
(option 1) and the gateway (option 3). The loop ends at a zero byte. In the field a zero byte is a pad
of its own and the byte 255 the end, and both have no length.

1. `parse_beforePad`: up to the first pad the options are read as they are meant.
2. `parseDhcpOptions_spec`: the loop never ends at the end tag, and it stays in front of what follows
   the field exactly when there is a pad, at which it stops.
-/

namespace LinboxRescue

/-! ## `parse_dhcp_options` -/

/-- `netmask` and `arptable[ARP_GATEWAY].ipaddr`. -/
structure Lease where
  netmask : Bytes
  gateway : Bytes
  deriving DecidableEq, Repr

/-- The `in_addr` at `p`. -/
def inAddr (mem : ℕ → UInt8) (p : ℕ) : Bytes := (List.range 4).map fun k => mem (p + k)

/-- What the `switch` stores. -/
def Lease.option (mem : ℕ → UInt8) (ptr : ℕ) (l : Lease) : Lease :=
  if mem ptr = 1 ∧ mem (ptr + 1) = 4 then { l with netmask := inAddr mem (ptr + 2) }
  else if mem ptr = 3 ∧ mem (ptr + 1) = 4 then { l with gateway := inAddr mem (ptr + 2) }
  else l

/-- `ptr + (2 + ptr[1])`. -/
def nextOption (mem : ℕ → UInt8) (ptr : ℕ) : ℕ := ptr + (2 + (mem (ptr + 1)).toNat)

inductive DhcpHalt
  | outOfFuel
  deriving DecidableEq, Repr

/-- The loop from `ptr` on: where it ends and what it has stored. -/
def parseDhcpOptions (mem : ℕ → UInt8) : ℕ → ℕ → Lease → Except DhcpHalt (ℕ × Lease)
  | 0, _, _ => .error .outOfFuel
  | fuel + 1, ptr, l =>
    if mem ptr = 0 then .ok (ptr, l)
    else parseDhcpOptions mem fuel (nextOption mem ptr) (l.option mem ptr)

/-- The bytes that are taken for the tag of an option, or for the end. -/
inductive ReadsTag (mem : ℕ → UInt8) : ℕ → Prop
  | first : ReadsTag mem 0
  | next {p : ℕ} : ReadsTag mem p → mem p ≠ 0 → ReadsTag mem (nextOption mem p)

/-! ## The options field -/

/-- What may stand in front of the end tag. -/
inductive DhcpOption
  | pad
  | tlv (tag : UInt8) (value : Bytes) (tag_ne : tag ≠ 0 ∧ tag ≠ 255) (length_lt : value.length < 256)
  deriving DecidableEq

def DhcpOption.encode : DhcpOption → Bytes
  | .pad => [0]
  | .tlv tag value _ _ => tag :: UInt8.ofNat value.length :: value

/-- The bytes of the options. -/
def encodeOptions (items : List DhcpOption) : Bytes := items.flatMap DhcpOption.encode

/-- What an option says. -/
def DhcpOption.lease (l : Lease) : DhcpOption → Lease
  | .pad => l
  | .tlv tag value _ _ =>
    if tag = 1 ∧ value.length = 4 then { l with netmask := value }
    else if tag = 3 ∧ value.length = 4 then { l with gateway := value }
    else l

/-- What the options say; a later one counts. -/
def leaseOf (items : List DhcpOption) (l : Lease) : Lease := items.foldl DhcpOption.lease l

/-- From `p` on the memory holds the options and the end tag. -/
def FieldAt (mem : ℕ → UInt8) (p : ℕ) (items : List DhcpOption) : Prop :=
  ∀ k (h : k < (encodeOptions items ++ [255]).length), mem (p + k) = (encodeOptions items ++ [255])[k]

/-- An option, a pad or the end tag begins at `p`. -/
def IsTag (items : List DhcpOption) (p : ℕ) : Prop :=
  ∃ k ≤ items.length, p = (encodeOptions (items.take k)).length

/-- The parse ends at the end tag with what the options say, and takes nothing else for a tag. -/
def ParsesOptions (mem : ℕ → UInt8) (l : Lease) (items : List DhcpOption) : Prop :=
  Returns (fun fuel => parseDhcpOptions mem fuel 0 l) ((encodeOptions items).length, leaseOf items l) ∧
    ∀ p, ReadsTag mem p → IsTag items p

/-- The options in front of the first pad. -/
def beforePad (items : List DhcpOption) : List DhcpOption := items.takeWhile (· ≠ .pad)

/-! ## One option -/

section Field

variable {mem : ℕ → UInt8} {p : ℕ} {items : List DhcpOption}

theorem encodeOptions_cons (o : DhcpOption) (items : List DhcpOption) :
    encodeOptions (o :: items) = o.encode ++ encodeOptions items := rfl

theorem FieldAt.tail {o : DhcpOption} (h : FieldAt mem p (o :: items)) :
    FieldAt mem (p + o.encode.length) items := by
  intro k hk
  have hlen : o.encode.length + k < (encodeOptions (o :: items) ++ [255]).length := by
    rw [encodeOptions_cons, List.append_assoc, List.length_append]
    omega
  have hmem := h (o.encode.length + k) hlen
  rw [Nat.add_assoc, hmem]
  simp only [encodeOptions_cons, List.append_assoc]
  rw [List.getElem_append_right (Nat.le_add_right _ _)]
  simp only [Nat.add_sub_cancel_left]

/-- The bytes of the first option. -/
theorem FieldAt.head {o : DhcpOption} (h : FieldAt mem p (o :: items)) {k : ℕ}
    (hk : k < o.encode.length) :
    mem (p + k) = o.encode[k] := by
  have hlen : k < (encodeOptions (o :: items) ++ [255]).length := by
    rw [encodeOptions_cons, List.append_assoc, List.length_append]
    omega
  rw [h k hlen]
  simp only [encodeOptions_cons, List.append_assoc]
  rw [List.getElem_append_left hk]

theorem FieldAt.drop (h : FieldAt mem p items) : ∀ k ≤ items.length,
    FieldAt mem (p + (encodeOptions (items.take k)).length) (items.drop k) := by
  induction items generalizing p with
  | nil =>
    intro k hk
    obtain rfl : k = 0 := Nat.le_zero.mp hk
    exact h
  | cons o items ih =>
    rintro (_ | k) hk
    · exact h
    · have htail := ih h.tail k (Nat.le_of_succ_le_succ hk)
      rw [List.take_succ_cons, List.drop_succ_cons, encodeOptions_cons, List.length_append, ← Nat.add_assoc]
      exact htail

/-- Behind the options stands the end tag. -/
theorem FieldAt.endTag (h : FieldAt mem p items) : mem (p + (encodeOptions items).length) = 255 := by
  have hend := h.drop items.length le_rfl
  rw [List.take_length, List.drop_length] at hend
  exact hend 0 (by decide)

theorem FieldAt.pad (h : FieldAt mem p (.pad :: items)) : mem p = 0 := h.head (k := 0) (by decide)

section Tlv

variable {tag : UInt8} {value : Bytes} {htag : tag ≠ 0 ∧ tag ≠ 255} {hlen : value.length < 256}
  (h : FieldAt mem p (.tlv tag value htag hlen :: items))

include h

theorem FieldAt.first : mem p = tag := h.head (k := 0) (Nat.succ_pos _)

theorem FieldAt.length : mem (p + 1) = UInt8.ofNat value.length :=
  h.head (k := 1) (Nat.succ_lt_succ (Nat.succ_pos _))

theorem FieldAt.next : nextOption mem p = p + (DhcpOption.tlv tag value htag hlen).encode.length := by
  have hnat : (UInt8.ofNat value.length).toNat = value.length := UInt8.toNat_ofNat_of_lt' hlen
  unfold nextOption
  rw [h.length, hnat]
  show _ = p + (value.length + 1 + 1)
  omega

theorem FieldAt.inAddr (h4 : value.length = 4) : inAddr mem (p + 2) = value := by
  refine List.ext_getElem ?_ fun k hk hk' => ?_
  · rw [LinboxRescue.inAddr, List.length_map, List.length_range, h4]
  · have hbyte := h.head (k := k + 2) (Nat.succ_lt_succ (Nat.succ_lt_succ hk'))
    have hadd : p + 2 + k = p + (k + 2) := by omega
    simp only [LinboxRescue.inAddr, List.getElem_map, List.getElem_range, hadd, hbyte]
    rfl

/-- The `switch` does what the option says. -/
theorem FieldAt.option (l : Lease) :
    l.option mem p = (DhcpOption.tlv tag value htag hlen).lease l := by
  have hfour : UInt8.ofNat value.length = 4 ↔ value.length = 4 := by
    constructor
    · intro he
      have hnat := congrArg UInt8.toNat he
      rw [UInt8.toNat_ofNat_of_lt' hlen] at hnat
      exact hnat
    · intro he
      rw [he]
      rfl
  unfold Lease.option
  rw [h.first, h.length]
  simp only [hfour, DhcpOption.lease]
  split_ifs with h1 h3
  · rw [h.inAddr h1.2]
  · rw [h.inAddr h3.2]
  · rfl

end Tlv

/-! ## The options in front of a pad -/

theorem ne_pad_of_mem_beforePad {o : DhcpOption} (h : o ∈ beforePad items) : o ≠ .pad := by
  simpa using List.mem_takeWhile_imp h

theorem beforePad_eq_take : beforePad items = items.take (beforePad items).length :=
  List.prefix_iff_eq_take.mp (List.takeWhile_prefix _)

/-- **The options in front of the first pad** are read one after the other. -/
theorem parse_beforePad (h : FieldAt mem p items) (l : Lease) :
    Leads (fun fuel => parseDhcpOptions mem fuel p l) fun fuel =>
      parseDhcpOptions mem fuel (p + (encodeOptions (beforePad items)).length)
        (leaseOf (beforePad items) l) := by
  induction items generalizing p l with
  | nil => exact Leads.refl _
  | cons o items ih =>
    cases o with
    | pad => exact Leads.refl _
    | tlv tag value htag hlen =>
      have hstep : ∀ fuel, parseDhcpOptions mem (fuel + 1) p l = parseDhcpOptions mem fuel
          (p + (DhcpOption.tlv tag value htag hlen).encode.length)
          ((DhcpOption.tlv tag value htag hlen).lease l) := by
        intro fuel
        rw [parseDhcpOptions, h.first, if_neg htag.1, h.next, h.option]
      have hcons : beforePad (.tlv tag value htag hlen :: items) =
          .tlv tag value htag hlen :: beforePad items := List.takeWhile_cons_of_pos (by simp)
      rw [hcons, encodeOptions_cons, List.length_append, ← Nat.add_assoc]
      exact (Leads.step hstep).trans (ih h.tail _)

/-- What stands behind them is a pad, or the end tag. -/
theorem getElem?_beforePad (items : List DhcpOption) :
    items[(beforePad items).length]? = some .pad ∨ beforePad items = items := by
  induction items with
  | nil => exact .inr rfl
  | cons o items ih =>
    by_cases ho : o = .pad
    · subst ho
      exact .inl rfl
    · have hcons : beforePad (o :: items) = o :: beforePad items :=
        List.takeWhile_cons_of_pos (by simpa using ho)
      rw [hcons]
      rcases ih with ih | ih
      · exact .inl ih
      · exact .inr (by rw [ih])

theorem pad_of_mem (h : .pad ∈ items) : items[(beforePad items).length]? = some .pad := by
  rcases getElem?_beforePad items with hpad | hall
  · exact hpad
  · rw [← hall] at h
    exact absurd rfl (ne_pad_of_mem_beforePad h)

theorem beforePad_of_not_mem (h : .pad ∉ items) : beforePad items = items :=
  List.takeWhile_eq_self_iff.mpr fun o ho => by
    simpa using fun he : o = .pad => h (he ▸ ho)

/-- The byte behind them, when there is a pad. -/
theorem FieldAt.beforePad (h : FieldAt mem p items) (hpad : .pad ∈ items) :
    mem (p + (encodeOptions (beforePad items)).length) = 0 := by
  obtain ⟨hlt, hget⟩ := List.getElem?_eq_some_iff.mp (pad_of_mem hpad)
  have hdrop := h.drop _ hlt.le
  rw [List.drop_eq_getElem_cons hlt, hget, ← beforePad_eq_take] at hdrop
  exact hdrop.pad

/-- All of them are reached. -/
theorem reads_beforePad (h : FieldAt mem p items) (hp : ReadsTag mem p) :
    ReadsTag mem (p + (encodeOptions (LinboxRescue.beforePad items)).length) := by
  induction items generalizing p with
  | nil => exact hp
  | cons o items ih =>
    cases o with
    | pad => exact hp
    | tlv tag value htag hlen =>
      have hcons : LinboxRescue.beforePad (.tlv tag value htag hlen :: items) =
          .tlv tag value htag hlen :: LinboxRescue.beforePad items :=
        List.takeWhile_cons_of_pos (by simp)
      have hnext := ReadsTag.next hp (h.first.symm ▸ htag.1)
      rw [h.next] at hnext
      rw [hcons, encodeOptions_cons, List.length_append, ← Nat.add_assoc]
      exact ih h.tail hnext

/-- With a pad, nothing else is reached. -/
theorem isTag_of_readsTag (h : FieldAt mem 0 items) (hpad : .pad ∈ items) (hp : ReadsTag mem p) :
    ∃ k ≤ (LinboxRescue.beforePad items).length, p = (encodeOptions (items.take k)).length := by
  induction hp with
  | first => exact ⟨0, Nat.zero_le _, rfl⟩
  | @next p hp hne ih =>
    obtain ⟨k, hk, rfl⟩ := ih
    rcases hk.lt_or_eq with hk | rfl
    · have hlt : k < items.length := hk.trans_le (List.takeWhile_prefix _).length_le
      have hmem : items[k] ∈ LinboxRescue.beforePad items := by
        rw [beforePad_eq_take]
        exact List.mem_take_iff_getElem.mpr ⟨k, by omega, rfl⟩
      have hdrop := h.drop k hlt.le
      rw [Nat.zero_add, List.drop_eq_getElem_cons hlt] at hdrop
      refine ⟨k + 1, hk, ?_⟩
      rw [List.take_succ_eq_append_getElem hlt]
      cases ho : items[k] with
      | pad => exact absurd ho (ne_pad_of_mem_beforePad hmem)
      | tlv tag value htag hlen =>
        rw [ho] at hdrop
        rw [hdrop.next]
        unfold encodeOptions
        rw [List.flatMap_append, List.length_append, List.flatMap_singleton]
    · have hzero := h.beforePad hpad
      rw [Nat.zero_add, beforePad_eq_take] at hzero
      exact absurd hzero hne

/-- Without one, a byte behind the end tag is taken for a tag. -/
theorem reads_behind (h : FieldAt mem 0 items) (hpad : .pad ∉ items) :
    ∃ p, ReadsTag mem p ∧ (encodeOptions items).length < p := by
  have hreads := reads_beforePad h ReadsTag.first
  have hend := h.endTag
  rw [beforePad_of_not_mem hpad, Nat.zero_add] at hreads
  rw [Nat.zero_add] at hend
  refine ⟨_, hreads.next (by rw [hend]; decide), ?_⟩
  unfold nextOption
  omega

end Field

/-! ## The whole field -/

/-- The loop ends at a zero byte only. -/
theorem stop_eq_zero {mem : ℕ → UInt8} : ∀ {fuel ptr : ℕ} {l : Lease} {r : ℕ × Lease},
    parseDhcpOptions mem fuel ptr l = .ok r → mem r.1 = 0 := by
  intro fuel
  induction fuel with
  | zero => exact fun h => nomatch h
  | succ fuel ih =>
    intro ptr l r h
    rw [parseDhcpOptions] at h
    split_ifs at h with hzero
    · obtain rfl := Except.ok.inj h
      exact hzero
    · exact ih h

theorem not_parses {mem : ℕ → UInt8} {items : List DhcpOption} (h : FieldAt mem 0 items) (l : Lease) :
    ¬ ParsesOptions mem l items := by
  rintro ⟨⟨n, hn⟩, -⟩
  have hzero := stop_eq_zero (hn n le_rfl)
  have hend := h.endTag
  rw [Nat.zero_add] at hend
  rw [hend] at hzero
  exact absurd hzero (by decide)

/-- **The parse of an options field** never ends at the end tag. It takes nothing for a tag that is none
exactly when there is a pad, and then it ends at the first one, with what the options before it say. -/
theorem parseDhcpOptions_spec {mem : ℕ → UInt8} {items : List DhcpOption} (h : FieldAt mem 0 items)
    (l : Lease) :
    ¬ ParsesOptions mem l items ∧
      ((∀ p, ReadsTag mem p → IsTag items p) ↔ .pad ∈ items) ∧
      (.pad ∈ items → Returns (fun fuel => parseDhcpOptions mem fuel 0 l)
        ((encodeOptions (beforePad items)).length, leaseOf (beforePad items) l)) := by
  refine ⟨not_parses h l, ⟨fun hall => ?_, fun hpad p hp => ?_⟩, fun hpad => ?_⟩
  · by_contra hpad
    obtain ⟨p, hp, hlt⟩ := reads_behind h hpad
    obtain ⟨k, hk, rfl⟩ := hall p hp
    have hle : (encodeOptions (items.take k)).length ≤ (encodeOptions items).length := by
      conv_rhs => rw [← List.take_append_drop k items]
      unfold encodeOptions
      rw [List.flatMap_append, List.length_append]
      exact Nat.le_add_right _ _
    omega
  · obtain ⟨k, hk, hp⟩ := isTag_of_readsTag h hpad hp
    exact ⟨k, hk.trans (List.takeWhile_prefix _).length_le, hp⟩
  · have hzero := h.beforePad hpad
    have hrun := parse_beforePad h l
    rw [Nat.zero_add] at hrun hzero
    refine hrun.returns (Returns.last fun fuel => ?_)
    rw [parseDhcpOptions, if_pos hzero]

/-- A pad in front of the mask. -/
def paddedField : List DhcpOption :=
  [.pad, .tlv 1 [255, 255, 255, 0] (by decide) (by decide)]

theorem parseDhcpOptions_spec_padded : Returns
    (fun fuel => parseDhcpOptions (byteAt [0, 1, 4, 255, 255, 255, 0, 255]) fuel 0 ⟨[], []⟩) (0, ⟨[], []⟩) :=
  have hfield : FieldAt (byteAt [0, 1, 4, 255, 255, 255, 0, 255]) 0 paddedField := by
    unfold FieldAt
    decide
  (parseDhcpOptions_spec hfield ⟨[], []⟩).2.2 (by decide)

/-- A mask, the end, and bytes of something else. -/
def maskField : Bytes := [1, 4, 255, 255, 255, 0, 255, 4, 7, 7, 7, 7, 1, 4, 9, 9, 9, 9, 0]

/-- The mask is taken from behind the end. -/
theorem not_parsesOptions :
    FieldAt (byteAt maskField) 0 [.tlv 1 [255, 255, 255, 0] (by decide) (by decide)] ∧
      Returns (fun fuel => parseDhcpOptions (byteAt maskField) fuel 0 ⟨[], []⟩) (18, ⟨[9, 9, 9, 9], []⟩) ∧
      ¬ ParsesOptions (byteAt maskField) ⟨[], []⟩
        [.tlv 1 [255, 255, 255, 0] (by decide) (by decide)] := by
  have hrun : Returns (fun fuel => parseDhcpOptions (byteAt maskField) fuel 0 ⟨[], []⟩)
      (18, ⟨[9, 9, 9, 9], []⟩) :=
    Returns.step (fun _ => rfl) (Returns.step (fun _ => rfl) (Returns.step (fun _ => rfl)
      (Returns.last fun _ => rfl)))
  refine ⟨by unfold FieldAt; decide, hrun, fun h => ?_⟩
  exact absurd (hrun.unique h.1) (by decide)

end LinboxRescue
