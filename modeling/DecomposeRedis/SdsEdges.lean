/-
What `sdsIncrLen` checks, what `sdstrim` removes and what `sdsrange` keeps.

* `sdsIncrLen_exact_iff` — the assertion of `sdsIncrLen` is about the free space only as
  far as its casts keep the increment, and never on a header of type 5;
* `sdstrim_exact_iff` — `strchr` also finds the terminator of the set, so `sdstrim`
  removes zero bytes;
* `sdsrange_slices` — `sdsrange` is slicing, for all numbers of its argument type.
-/
import DecomposeRedis.SdsHeaderSpec
import Mathlib.Data.List.DropRight
import Mathlib.Data.List.TakeWhile

namespace SdsHeader

variable {s : Str} {t : SdsType} {c : Bytes} {incr : ℤ}

/-! ### The length -/

/-- The assertion of `sdsIncrLen`. -/
def Asserts (s : Str) (incr : ℤ) : Prop :=
  match s.type with
  | some .t5 =>
    let oldlen : ℤ := (s.flags / 8 : ℕ)
    (0 < incr ∧ ssizeT (oldlen + incr) < 32) ∨ (incr < 0 ∧ (-incr) % 2 ^ 32 ≤ oldlen)
  | some t => t.allowsIncr s.alloc s.len incr
  | none => True

/-- The assertion is about the free space, and the length is set as it says. -/
structure IncrExact (s : Str) (incr : ℤ) : Prop where
  asserts_iff : Asserts s incr ↔ 0 ≤ sdslen s + incr ∧ sdslen s + incr ≤ sdsalloc s
  result : Asserts s incr → ∃ s', sdsIncrLen s incr = some s' ∧ (sdslen s' : ℤ) = sdslen s + incr ∧
    s'.buf[sdslen s']? = some 0 ∧ sdsalloc s' = sdsalloc s
  idle : incr = 0 → sdsIncrLen s 0 = some s

/-- The increments that the casts of the assertion keep apart from those within the free
space; on a header of type 5 only increments that are refused, where the sum does not wrap. -/
def Checked (s : Str) (incr : ℤ) : Prop :=
  match s.type with
  | some .t5 =>
    (0 < incr ∧ 32 ≤ sdslen s + incr ∧ sdslen s + incr < 2 ^ 63) ∨
      (incr < 0 ∧ sdslen s < (-incr) % 2 ^ 32)
  | some .t32 =>
    (0 ≤ incr → incr ≤ sdsalloc s - sdslen s ∨ sdsalloc s - sdslen s < incr % 2 ^ 32) ∧
      (incr < 0 → -incr ≤ sdslen s ∨ sdslen s < (-incr) % 2 ^ 32)
  | some .t64 => True
  | _ => incr < 0 → -incr ≤ sdslen s ∨ sdslen s < (-incr) % 2 ^ 32

/-- The sum of the assertion for type 5 is also small where it wraps. -/
theorem ssizeT_lt_iff {n : ℤ} (hlo : 0 ≤ n) (hhi : n < 2 ^ 63 + 32) :
    ssizeT n < 32 ↔ n < 32 ∨ 2 ^ 63 ≤ n := by
  rcases lt_or_ge n (2 ^ 63) with hlt | hge
  · rw [ssizeT_of_lt (by omega) hlt]
    omega
  · have hwrap : ssizeT n = n - 2 ^ 64 := by
      rw [ssizeT, ← Int.sub_bmod_right]
      exact Int.bmod_eq_of_le (by omega) (by omega)
    omega

/-- Within the free space the length is set and the string is ended there. -/
theorem incr_result (h : Holds s c) (ht : s.type = some t) (hlo : 0 ≤ sdslen s + incr)
    (hroom : sdslen s + incr ≤ sdsalloc s) (hidle : incr = 0 → t ≠ .t5) :
    ∃ s', sdsIncrLen s incr = some s' ∧ s'.type = some t ∧ (sdslen s' : ℤ) = sdslen s + incr ∧
      s'.buf[sdslen s']? = some 0 ∧ (t ≠ .t5 → sdsalloc s' = sdsalloc s) := by
  obtain ⟨t', ht', hlen, halloc⟩ := h.type
  obtain rfl : t' = t := Option.some.inj (ht'.symm.trans ht)
  obtain ⟨n, hn⟩ := Int.eq_ofNat_of_zero_le hlo
  have hincr := sdsIncrLen_eq ht h.len h.le halloc (by rw [← h.len]; exact hroom)
    (fun h0 h5 => hidle h0 (Option.some.inj (ht.symm.trans h5))) (by rw [← h.len]; exact hn.symm)
  have hle : n ≤ sdsalloc s := by omega
  have hbuf := h.buf_le
  have hlt : n < (sdssetlen s n).buf.length := by
    rw [buf_setlen]
    omega
  have hsetlen : sdslen (sdssetlen s n) = n := sdslen_setlen ht (Nat.lt_of_le_of_lt hle halloc)
  rw [hincr, Str.write, write, if_pos (show n + ([0] : Bytes).length ≤ _ from hlt)]
  refine ⟨_, rfl, ?_, ?_, ?_, fun h5 => ?_⟩
  · exact (type_setlen s n).trans ht
  · exact (congrArg Nat.cast hsetlen).trans hn.symm
  · show ((sdssetlen s n).buf.take n ++ _)[sdslen (sdssetlen s n)]? = some 0
    rw [hsetlen, List.getElem?_append_right (by simp), List.length_take, Nat.min_eq_left hlt.le,
      Nat.sub_self]
    rfl
  · exact sdsalloc_setlen ht h5

/-- An increment by zero writes what is there. -/
theorem incr_idle (h : Holds s c) (ht : s.type = some t) (h5 : t ≠ .t5) :
    sdsIncrLen s 0 = some s := by
  obtain ⟨t', ht', hlen, halloc⟩ := h.type
  obtain rfl : t' = t := Option.some.inj (ht'.symm.trans ht)
  obtain ⟨rest, hbuf, -⟩ := h.buf
  have hle : (c.length : ℤ) ≤ sdsalloc s := by exact_mod_cast h.le
  have hincr : sdsIncrLen s 0 = (sdssetlen s c.length).write c.length [0] :=
    sdsIncrLen_eq ht h.len h.le halloc (by rwa [Int.add_zero])
      (fun _ h5' => h5 (Option.some.inj (ht.symm.trans h5'))) (Int.add_zero _).symm
  have hlen' := h.len
  have hsame : sdssetlen s c.length = s := by
    cases t' with
    | t5 => exact absurd rfl h5
    | t8 | t16 | t32 | t64 =>
      simp only [sdslen, ht] at hlen'
      simp only [sdssetlen, ht, Nat.mod_eq_of_lt hlen]
      rw [← hlen']
  rw [hincr, hsame, Str.write_append hbuf (by simp)]
  exact congrArg (fun b => some { s with buf := b }) hbuf.symm

/-- On a header of type 5 an increment that passes changes the capacity. -/
theorem incrExact_t5_iff (h : Holds s c) (ht : s.type = some .t5) (hlo : -2 ^ 63 ≤ incr)
    (hhi : incr < 2 ^ 63) : IncrExact s incr ↔ Checked s incr := by
  have hcap := sdsalloc_t5 ht
  have hfield : sdslen s = s.flags / 8 := by simp only [sdslen, ht]
  have hshort : sdslen s < 32 := by
    obtain ⟨t, ht', hlen, -⟩ := h.type
    obtain rfl : t = .t5 := Option.some.inj (ht'.symm.trans ht)
    rw [h.len]
    simpa [SdsType.width] using hlen
  have hasserts : Asserts s incr ↔
      (0 < incr ∧ (sdslen s + incr < 32 ∨ 2 ^ 63 ≤ sdslen s + incr)) ∨
        (incr < 0 ∧ (-incr) % 2 ^ 32 ≤ sdslen s) := by
    simp only [Asserts, ht, ← hfield]
    refine or_congr_left (and_congr_right fun hpos => ?_)
    exact ssizeT_lt_iff (by omega) (by omega)
  simp only [Checked, ht]
  constructor
  · intro hexact
    have hiff := hasserts.symm.trans hexact.asserts_iff
    by_contra hnot
    obtain ⟨hlow, hroom⟩ := hiff.mp (by omega)
    have hidle : incr = 0 → SdsType.t5 ≠ .t5 := by omega
    obtain ⟨s', hrun, htype, hnew, -⟩ := incr_result h ht hlow hroom hidle
    obtain ⟨s'', hrun', -, -, hsame⟩ := hexact.result (hexact.asserts_iff.mpr ⟨hlow, hroom⟩)
    obtain rfl : s' = s'' := Option.some.inj (hrun.symm.trans hrun')
    rw [sdsalloc_t5 htype, hcap] at hsame
    omega
  · intro hchecked
    have hrefused : ¬ Asserts s incr := by
      rw [hasserts]
      omega
    refine ⟨iff_of_false hrefused (by omega), fun ha => absurd ha hrefused, fun h0 => ?_⟩
    omega

/-- **The assertion of `sdsIncrLen`** is about the free space exactly for the checked
increments. -/
theorem sdsIncrLen_exact_iff (h : Holds s c) (hlo : -2 ^ 63 ≤ incr) (hhi : incr < 2 ^ 63) :
    IncrExact s incr ↔ Checked s incr := by
  obtain ⟨t, ht, hlen, halloc⟩ := h.type
  have hle := h.le
  rw [← h.len] at hlen hle
  by_cases h5 : t = .t5
  · exact incrExact_t5_iff h (h5 ▸ ht) hlo hhi
  · have hfields : sdslen s = s.len ∧ sdsalloc s = s.alloc := by
      cases t with
      | t5 => exact absurd rfl h5
      | t8 | t16 | t32 | t64 => exact ⟨by simp only [sdslen, ht], by simp only [sdsalloc, ht]⟩
    have hrest : (Asserts s incr ↔ 0 ≤ sdslen s + incr ∧ sdslen s + incr ≤ sdsalloc s) →
        IncrExact s incr := by
      intro hiff
      refine ⟨hiff, fun ha => ?_, fun _ => incr_idle h ht h5⟩
      obtain ⟨hlow, hroom⟩ := hiff.mp ha
      obtain ⟨s', hrun, -, hnew, hend, hsame⟩ := incr_result h ht hlow hroom fun _ => h5
      exact ⟨s', hrun, hnew, hend, hsame h5⟩
    refine ⟨fun hexact => ?_, fun hchecked => hrest ?_⟩
    · have hiff := hexact.asserts_iff
      cases t with
      | t5 => exact absurd rfl h5
      | t8 | t16 | t32 =>
        simp only [Asserts, Checked, ht, SdsType.allowsIncr, SdsType.width, ← hfields.1,
          ← hfields.2] at *
        omega
      | t64 => simp only [Checked, ht]
    · cases t with
      | t5 => exact absurd rfl h5
      | t8 | t16 | t32 | t64 =>
        simp only [Asserts, Checked, ht, SdsType.allowsIncr, SdsType.width, ← hfields.1,
          ← hfields.2] at *
        omega

/-- `ab` with room for one more byte. -/
def shortStr : Str := ⟨1, 2, 3, [97, 98, 0, 0]⟩

theorem shortStr_holds : Holds shortStr [97, 98] :=
  ⟨⟨.t8, rfl, by decide, by decide⟩, rfl, by decide, [0], rfl, by decide⟩

theorem sdsIncrLen_exact_iff_short : IncrExact shortStr 1 :=
  (sdsIncrLen_exact_iff shortStr_holds (by decide) (by decide)).mpr fun hneg =>
    absurd hneg (by decide)

/-- On a header of type 5 an increment by zero fails and one that wraps does not, and on one
of type 8 the cast turns a large negative increment into zero. -/
theorem incr_by_zero_fails :
    Holds ⟨16, 0, 0, [97, 98, 0]⟩ [97, 98] ∧ sdsIncrLen ⟨16, 0, 0, [97, 98, 0]⟩ 0 = none ∧
      ¬ Asserts ⟨16, 0, 0, [97, 98, 0]⟩ 0 ∧ Asserts ⟨16, 0, 0, [97, 98, 0]⟩ (2 ^ 63 - 1) ∧
      Asserts shortStr (-2 ^ 32) :=
  ⟨⟨⟨.t5, rfl, by decide, by decide⟩, rfl, by decide, [], rfl, by decide⟩, rfl,
    by simp [Asserts, Str.type, SdsType.ofFlags], .inl ⟨by decide, by decide⟩,
    .inr ⟨by decide, by decide⟩⟩

/-! ### Slices -/

/-- `rangeCut` in the arithmetic of the code. -/
def rangeCutWrapped (len : ℕ) (start stop : ℤ) : ℤ × ℕ :=
  let start := if start < 0 then (if ssizeT (len + start) < 0 then 0 else ssizeT (len + start))
    else start
  let stop := if stop < 0 then (if ssizeT (len + stop) < 0 then 0 else ssizeT (len + stop))
    else stop
  let newlen := if stop < start then 0 else sizeT (ssizeT (ssizeT (stop - start) + 1))
  if newlen ≠ 0 then
    if ssizeT len ≤ start then (start, 0)
    else if ssizeT len ≤ stop then
      let stop := ssizeT (sizeT (len - 1))
      (start, if stop < start then 0 else sizeT (ssizeT (ssizeT (stop - start) + 1)))
    else (start, newlen)
  else (0, newlen)

/-- `sdsrange` in the arithmetic of the code. -/
def sdsrangeWrapped (s : Str) (start stop : ℤ) : Option Str :=
  let len := sdslen s
  if len = 0 then some s
  else
    let cut := rangeCutWrapped len start stop
    let start := cut.1.toNat
    let newlen := cut.2
    (if start ≠ 0 ∧ newlen ≠ 0 then (read s.buf start newlen).bind (s.write 0)
      else some s).bind fun s =>
      (s.write newlen [0]).map fun s => sdssetlen s newlen

/-- An index, counted from the end if it is negative. -/
def index (n : ℕ) (x : ℤ) : ℕ := (if x < 0 then max 0 (n + x) else x).toNat

/-- The bytes from one index to another. -/
def slice (c : Bytes) (start stop : ℤ) : Bytes :=
  (c.take (index c.length stop + 1)).drop (index c.length start)

theorem sizeT_of_lt {n : ℤ} (hlo : 0 ≤ n) (hhi : n < 2 ^ 64) : sizeT n = n.toNat := by
  rw [sizeT, Int.emod_eq_of_lt hlo hhi]

/-- The last index of the type is where the difference wraps; it is not zero then. -/
theorem sizeT_length {a b : ℤ} (ha : 0 ≤ a) (hab : a ≤ b) (hb : b < 2 ^ 63) :
    sizeT (ssizeT (ssizeT (b - a) + 1)) = (b - a + 1).toNat := by
  rw [ssizeT_of_lt (n := b - a) (by omega) (by omega)]
  rcases eq_or_lt_of_le (show b - a + 1 ≤ 2 ^ 63 by omega) with heq | hlt
  · rw [heq]
    rfl
  · rw [ssizeT_of_lt (by omega) hlt, sizeT_of_lt (by omega) (by omega)]

theorem rangeCutWrapped_eq {n : ℕ} (hpos : 0 < n) (hn : n < 2 ^ 62) {a b : ℤ} (ha : -2 ^ 63 ≤ a)
    (ha' : a < 2 ^ 63) (hb : -2 ^ 63 ≤ b) (hb' : b < 2 ^ 63) :
    rangeCutWrapped n a b = ((rangeCut n a b).1, (rangeCut n a b).2.toNat) := by
  have hindex : ∀ x : ℤ, -2 ^ 63 ≤ x → x < 2 ^ 63 →
      (if x < 0 then (if ssizeT (n + x) < 0 then 0 else ssizeT (n + x)) else x)
          = (if x < 0 then max ((n : ℤ) + x) 0 else x) ∧
        0 ≤ (if x < 0 then max ((n : ℤ) + x) 0 else x) ∧
          (if x < 0 then max ((n : ℤ) + x) 0 else x) < 2 ^ 63 := by
    intro x hx hx'
    by_cases hneg : x < 0
    · rw [if_pos hneg, if_pos hneg, ssizeT_of_lt (by omega) (by omega)]
      split_ifs <;> omega
    · rw [if_neg hneg, if_neg hneg]
      omega
  obtain ⟨ha₁, ha₂, ha₃⟩ := hindex a ha ha'
  obtain ⟨hb₁, hb₂, hb₃⟩ := hindex b hb hb'
  have hlen : ssizeT n = n := ssizeT_of_lt (by omega) (by omega)
  have hlast : ssizeT (sizeT ((n : ℤ) - 1)) = n - 1 := by
    rw [sizeT_of_lt (by omega) (by omega), ssizeT_of_lt (by omega) (by omega)]
    omega
  rw [rangeCutWrapped, rangeCut]
  dsimp only
  rw [ha₁, hb₁, hlen, hlast]
  generalize (if a < 0 then max ((n : ℤ) + a) 0 else a) = x at ha₂ ha₃ ⊢
  generalize (if b < 0 then max ((n : ℤ) + b) 0 else b) = y at hb₂ hb₃ ⊢
  by_cases hyx : y < x
  · simp [hyx]
  have hne : (y - x + 1).toNat ≠ 0 := by omega
  have hne' : y - x + 1 ≠ 0 := by omega
  rw [if_neg hyx, if_neg hyx, sizeT_length ha₂ (by omega) hb₃, if_pos hne, if_pos hne']
  by_cases hxn : (n : ℤ) ≤ x
  · simp [hxn]
  rw [if_neg hxn, if_neg hxn]
  by_cases hyn : (n : ℤ) ≤ y
  · have hlast' : ¬ (n : ℤ) - 1 < x := by omega
    rw [if_pos hyn, if_pos hyn, if_neg hlast', if_neg hlast',
      sizeT_length ha₂ (by omega) (by omega)]
  · rw [if_neg hyn, if_neg hyn]

theorem range_eq_slice (c : Bytes) (start stop : ℤ) :
    Sds.sdsrange c start stop = slice c start stop := by
  by_cases hc : c = []
  · simp [hc, Sds.sdsrange, slice]
  have hpos : 0 < c.length := List.length_pos_of_ne_nil hc
  rw [rangeCut_eq hc, slice, List.drop_take]
  simp only [rangeCut, index, max_comm (0 : ℤ)]
  have hindex : ∀ x : ℤ, 0 ≤ if x < 0 then max ((c.length : ℤ) + x) 0 else x := by
    intro x
    split_ifs <;> omega
  have hstart := hindex start
  have hstop := hindex stop
  generalize (if start < 0 then max ((c.length : ℤ) + start) 0 else start) = x at hstart ⊢
  generalize (if stop < 0 then max ((c.length : ℤ) + stop) 0 else stop) = y at hstop ⊢
  by_cases hyx : y < x
  · rw [if_pos hyx, if_neg (by simp), Int.toNat_zero, List.take_zero,
      show y.toNat + 1 - x.toNat = 0 by omega, List.take_zero]
  rw [if_neg hyx, if_pos (by omega)]
  by_cases hxn : (c.length : ℤ) ≤ x
  · rw [if_pos hxn, List.drop_eq_nil_of_le (by omega), List.take_nil, List.take_nil]
  rw [if_neg hxn]
  by_cases hyn : (c.length : ℤ) ≤ y
  · rw [if_pos hyn, if_neg (by omega), List.take_of_length_le (by rw [List.length_drop]; omega),
      List.take_of_length_le (by rw [List.length_drop]; omega)]
  · rw [if_neg hyn]
    congr 1
    omega

/-- **`sdsrange` is slicing**, and touches nothing outside of the string. -/
theorem sdsrange_slices (h : Holds s c) (hn : c.length < 2 ^ 62) {start stop : ℤ}
    (hs : -2 ^ 63 ≤ start) (hs' : start < 2 ^ 63) (he : -2 ^ 63 ≤ stop) (he' : stop < 2 ^ 63) :
    ∃ s', sdsrangeWrapped s start stop = some s' ∧ Holds s' (slice c start stop) := by
  have hsame : sdsrangeWrapped s start stop = sdsrange s start stop := by
    rw [sdsrangeWrapped, sdsrange, h.len]
    by_cases hc : c.length = 0
    · rw [if_pos hc, if_pos hc]
    · rw [if_neg hc, if_neg hc, rangeCutWrapped_eq (Nat.pos_of_ne_zero hc) hn hs hs' he he']
  rw [hsame, ← range_eq_slice]
  exact range_spec h start stop

theorem sdsrange_slices_last :
    ∃ s', sdsrangeWrapped shortStr (-1) (2 ^ 63 - 1) = some s' ∧ Holds s' [98] :=
  sdsrange_slices shortStr_holds (by decide) (by decide) (by decide) (by decide) (by decide)

end SdsHeader

namespace Sds

/-! ### Trimming -/

/-- The bytes of a C string. -/
def inSet (cset : Bytes) (b : UInt8) : Bool := b ∈ cset.takeWhile (· ≠ 0)

/-- `strchr` finds a byte of the string or its terminator. -/
def strchrFinds (cset : Bytes) (b : UInt8) : Bool := b = 0 || inSet cset b

/-- `sdstrim`; the second loop stops at the first byte that the first one keeps. -/
def sdstrim (s cset : Bytes) : Bytes :=
  (s.dropWhile (strchrFinds cset)).rdropWhile (strchrFinds cset)

/-- A part of `s`, between bytes of the set and with none at its ends. -/
structure Trimmed (cset s r : Bytes) : Prop where
  part : ∃ front back, s = front ++ r ++ back ∧ (∀ b ∈ front, inSet cset b) ∧ ∀ b ∈ back,
    inSet cset b
  first : ∀ b ∈ r.head?, ¬ inSet cset b
  last : ∀ b ∈ r.getLast?, ¬ inSet cset b

/-- Neither the first nor the last byte outside of the set is zero. -/
def NoZeroEdge (cset s : Bytes) : Prop :=
  (∀ b ∈ (s.dropWhile (inSet cset)).head?, b ≠ 0) ∧ ∀ b ∈ (s.rdropWhile (inSet cset)).getLast?,
    b ≠ 0

variable {cset s r : Bytes} {p : UInt8 → Bool}

theorem head_dropWhile {b : UInt8} (h : b ∈ (s.dropWhile p).head?) : ¬ p b := by
  intro hp
  have hnot := List.head?_dropWhile_not p s
  rw [Option.mem_def.mp h] at hnot
  simp_all

theorem last_rdropWhile {b : UInt8} (h : b ∈ (s.rdropWhile p).getLast?) : ¬ p b := by
  rw [List.rdropWhile, List.getLast?_reverse] at h
  exact head_dropWhile h

/-- A larger set removes no more if the next byte is not in it. -/
theorem dropWhile_eq_of_head {q : UInt8 → Bool} (hqp : ∀ b, q b → p b)
    (h : ∀ b ∈ (s.dropWhile q).head?, ¬ p b) :
    s.dropWhile p = s.dropWhile q := by
  induction s with
  | nil => rfl
  | cons b s ih =>
    by_cases hb : q b
    · rw [List.dropWhile_cons_of_pos hb] at h ⊢
      rw [List.dropWhile_cons_of_pos (hqp b hb)]
      exact ih h
    · rw [List.dropWhile_cons_of_neg hb] at h ⊢
      exact List.dropWhile_cons_of_neg (h b rfl)

/-- The ends of a trimmed part are the first and the last byte outside of the set. -/
theorem Trimmed.edges (h : Trimmed cset s r) :
    (s.dropWhile (inSet cset)).head? = r.head? ∧ (s.rdropWhile (inSet cset)).getLast?
      = r.getLast? := by
  obtain ⟨front, back, rfl, hfront, hback⟩ := h.part
  rcases List.eq_nil_or_concat' r with rfl | ⟨m, x, rfl⟩
  · have hall : ∀ b ∈ front ++ [] ++ back, inSet cset b := by
      intro b hb
      rw [List.append_nil] at hb
      exact (List.mem_append.mp hb).elim (hfront b) (hback b)
    rw [List.dropWhile_eq_nil_iff.mpr hall, List.rdropWhile_eq_nil_iff.mpr hall]
    exact ⟨rfl, rfl⟩
  constructor
  · rw [List.append_assoc, List.dropWhile_append_of_pos hfront]
    rcases hm : m ++ [x] with _ | ⟨y, m'⟩
    · simp at hm
    · rw [List.cons_append, List.dropWhile_cons_of_neg (h.first y (by rw [hm]; rfl))]
      rfl
  · have hx : ¬ inSet cset x := h.last x (by simp)
    rw [List.rdropWhile, List.reverse_append, List.dropWhile_append_of_pos (by simpa using hback)]
    simp [hx]

/-- Without zeros at the edges, what `strchr` finds does not matter. -/
theorem sdstrim_eq (h : NoZeroEdge cset s) :
    sdstrim s cset = (s.dropWhile (inSet cset)).rdropWhile (inSet cset) := by
  have hqp : ∀ b, inSet cset b → strchrFinds cset b := by
    intro b hb
    simp [strchrFinds, hb]
  have hp : ∀ b, ¬ inSet cset b → b ≠ 0 → ¬ strchrFinds cset b := by
    intro b hb h0
    simp [strchrFinds, hb, h0]
  have hfront := dropWhile_eq_of_head hqp fun b hb => hp b (head_dropWhile hb) (h.1 b hb)
  rw [sdstrim, hfront, List.rdropWhile, List.rdropWhile]
  refine congrArg List.reverse (dropWhile_eq_of_head hqp fun b hb => ?_)
  have hnot := head_dropWhile hb
  refine hp b hnot (h.2 b ?_)
  -- the bytes before the part are in the set
  obtain ⟨u, hu⟩ : ∃ u, s = u ++ s.dropWhile (inSet cset) :=
    ⟨_, (List.takeWhile_append_dropWhile).symm⟩
  rw [List.rdropWhile, List.getLast?_reverse, hu, List.reverse_append, List.dropWhile_append]
  split_ifs with hempty
  · rw [List.isEmpty_iff.mp hempty] at hb
    cases hb
  · rw [List.head?_append]
    simp [Option.mem_def.mp hb]

theorem trimmed_trim (cset s : Bytes) :
    Trimmed cset s ((s.dropWhile (inSet cset)).rdropWhile (inSet cset)) := by
  refine ⟨⟨s.takeWhile (inSet cset), (s.dropWhile (inSet cset)).rtakeWhile (inSet cset),
    ?_, ?_, ?_⟩, ?_, ?_⟩
  · rw [List.append_assoc, List.rdropWhile_append_rtakeWhile, List.takeWhile_append_dropWhile]
  · exact fun b hb => List.mem_takeWhile_imp hb
  · exact fun b hb => List.mem_rtakeWhile_imp hb
  · intro b hb
    obtain ⟨v, hv⟩ := List.rdropWhile_prefix (inSet cset) (s.dropWhile (inSet cset))
    refine head_dropWhile (s := s) (Option.mem_def.mpr ?_)
    rw [← hv, List.head?_append, Option.mem_def.mp hb]
    rfl
  · exact fun b hb => last_rdropWhile hb

theorem Trimmed.eq_nil_iff (h : Trimmed cset s r) : r = [] ↔ ∀ b ∈ s, inSet cset b := by
  obtain ⟨front, back, rfl, hfront, hback⟩ := h.part
  constructor
  · rintro rfl b hb
    rw [List.append_nil] at hb
    exact (List.mem_append.mp hb).elim (hfront b) (hback b)
  · intro hall
    rcases r with _ | ⟨b, r⟩
    · rfl
    · exact absurd (hall b (by simp)) (h.first b rfl)

theorem sdstrim_sdstrim (s cset : Bytes) : sdstrim (sdstrim s cset) cset = sdstrim s cset := by
  have hhead : (sdstrim s cset).dropWhile (strchrFinds cset) = sdstrim s cset := by
    rcases hr : sdstrim s cset with _ | ⟨b, r⟩
    · rfl
    obtain ⟨v, hv⟩ := List.rdropWhile_prefix (strchrFinds cset) (s.dropWhile (strchrFinds cset))
    refine List.dropWhile_cons_of_neg (head_dropWhile (s := s) (Option.mem_def.mpr ?_))
    rw [← hv, show (s.dropWhile (strchrFinds cset)).rdropWhile (strchrFinds cset) = b :: r from hr]
    rfl
  rw [sdstrim, hhead, sdstrim, List.rdropWhile_idempotent]

/-- **`sdstrim` removes the bytes of the set** exactly if no zero byte is next to them. -/
theorem sdstrim_exact_iff (s cset : Bytes) :
    (Trimmed cset s (sdstrim s cset) ∧ (sdstrim s cset = [] ↔ ∀ b ∈ s, inSet cset b) ∧
      sdstrim (sdstrim s cset) cset = sdstrim s cset) ↔ NoZeroEdge cset s := by
  constructor
  · rintro ⟨h, -⟩
    obtain ⟨hfirst, hlast⟩ := h.edges
    rw [NoZeroEdge, hfirst, hlast]
    constructor
    · rintro b hb rfl
      obtain ⟨v, hv⟩ := List.rdropWhile_prefix (strchrFinds cset) (s.dropWhile (strchrFinds cset))
      refine head_dropWhile (s := s) (p := strchrFinds cset) (b := 0) ?_ rfl
      rw [← hv, List.head?_append, show ((s.dropWhile _).rdropWhile _).head? = some 0 from hb]
      rfl
    · rintro b hb rfl
      exact last_rdropWhile hb rfl
  · intro h
    have htrim : Trimmed cset s (sdstrim s cset) := by
      rw [sdstrim_eq h]
      exact trimmed_trim cset s
    exact ⟨htrim, htrim.eq_nil_iff, sdstrim_sdstrim s cset⟩

/-- A zero byte is removed though it is in no set. -/
theorem zero_trimmed : sdstrim [0] [32] = [] ∧ ¬ inSet [32] 0 := by decide

end Sds
