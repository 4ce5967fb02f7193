/-
Numbers and formats in strings (`sdsll2str`, `sdsull2str`, `sdscatvprintf` of sds.c).

* `swapLoop_eq` — two pointers that meet reverse what is between them;
* `ll2str_exact` — a number is written in decimal, with a sign where it is negative, for all
  numbers of 64 bits;
* `sdscatvprintf_appends` — a buffer that is too small is found out by the byte before its
  last, so that the whole text is appended.
-/
import DecomposeRedis.SdsHeaderSpec

namespace SdsHeader

open Sds (decimal decimalInt length_decimal_le_of_lt)

/-! ### Numbers -/

/-- The digits of a number, the last one first; the end of them is returned as well. -/
def digitLoop (v p : ℕ) (buf : Bytes) : Option (ℕ × Bytes) :=
  (write buf p [(48 + v % 10).toUInt8]).bind fun buf =>
    if v / 10 = 0 then some (p + 1, buf) else digitLoop (v / 10) (p + 1) buf
termination_by v
decreasing_by omega

/-- The bytes from `s` to `p` are reversed. -/
def swapLoop (s p : ℕ) (buf : Bytes) : Option Bytes :=
  if s < p then
    (read buf s 1).bind fun aux => (read buf p 1).bind fun b =>
      (write buf s b).bind fun buf => (write buf p aux).bind fun buf => swapLoop (s + 1) (p - 1) buf
  else some buf
termination_by p - s

/-- The terminator, and the reversal.  The length is returned. -/
def finishStr (p : ℕ) (buf : Bytes) : Option (ℕ × Bytes) :=
  (write buf p [0]).bind fun buf => (swapLoop 0 (p - 1) buf).map fun buf => (p, buf)

/-- `sdsll2str`; the magnitude is an `unsigned long long`. -/
def sdsll2str (buf : Bytes) (value : Int64) : Option (ℕ × Bytes) :=
  let v := sizeT (if value < 0 then -value.toInt else value.toInt)
  (digitLoop v 0 buf).bind fun (p, buf) =>
    if value < 0 then (write buf p [45]).bind (finishStr (p + 1)) else finishStr p buf

/-- `sdsull2str` -/
def sdsull2str (buf : Bytes) (v : UInt64) : Option (ℕ × Bytes) :=
  (digitLoop v.toNat 0 buf).bind fun (p, buf) => finishStr p buf

/-- `SDS_LLSTR_SIZE` -/
def llstrSize : ℕ := 21

section Numbers

variable {a m c buf : Bytes} {v : ℕ}

/-- The last digit comes first in the buffer. -/
theorem reverse_decimal (v : ℕ) :
    (decimal v).reverse = (48 + v % 10).toUInt8 :: if v / 10 = 0 then
      [] else (decimal (v / 10)).reverse := by
  by_cases hv : v = 0
  · rw [hv]
    rfl
  · rw [decimal, if_neg hv, List.reverse_reverse,
      Nat.digits_def' (by decide) (Nat.pos_of_ne_zero hv), List.map_cons]
    split_ifs with hdiv
    · rw [hdiv]
      rfl
    · rw [decimal, if_neg hdiv, List.reverse_reverse]

theorem digitLoop_eq (hroom : (decimal v).length ≤ buf.length) :
    digitLoop v a.length (a ++ buf) =
      some (a.length + (decimal v).length,
        a ++ ((decimal v).reverse ++ buf.drop (decimal v).length)) := by
  induction v using Nat.strong_induction_on generalizing a buf with
  | _ v ih =>
    have hlen := congrArg List.length (reverse_decimal v)
    rw [List.length_reverse, List.length_cons] at hlen
    rw [digitLoop, write_append (by simp; omega), Option.bind_some, hlen, reverse_decimal v]
    split_ifs with hdiv
    · rfl
    · rw [if_neg hdiv, List.length_reverse] at hlen
      have hnext := @ih (v / 10) (by omega) (a ++ [(48 + v % 10).toUInt8]) (buf.drop 1)
        (by simp; omega)
      simp only [List.append_assoc, List.length_append, List.length_singleton, List.drop_drop]
        at hnext
      simpa [Nat.add_comm, Nat.add_assoc] using hnext

theorem read_byte (a : Bytes) (x : UInt8) (rest : Bytes) :
    read (a ++ x :: rest) a.length 1 = some [x] := by
  rw [read, if_pos (by simp), List.drop_left]
  rfl

theorem write_byte (a : Bytes) (x y : UInt8) (rest : Bytes) :
    write (a ++ x :: rest) a.length [y] = some (a ++ y :: rest) :=
  write_append (by simp)

theorem swapLoop_eq :
    swapLoop a.length (a.length + m.length - 1) (a ++ (m ++ c)) = some (a ++ (m.reverse ++ c)) := by
  induction m using List.bidirectionalRec generalizing a c with
  | nil =>
    rw [swapLoop, if_neg (by simp)]
    rfl
  | singleton x =>
    rw [swapLoop, if_neg (by simp)]
    rfl
  | cons_append x m y ih =>
    -- the outer two are swapped, and the loop goes on with the inner part
    have hbuf : a ++ (x :: (m ++ [y]) ++ c) = a ++ x :: (m ++ y :: c) := by simp
    have hend : a.length + (x :: (m ++ [y])).length - 1 = (a ++ x :: m).length := by simp
    have hlen : (a ++ x :: m).length = (a ++ y :: m).length := by simp
    have hlast : ∀ z, a ++ z :: (m ++ y :: c) = (a ++ z :: m) ++ y :: c := by simp
    rw [hbuf, hend, swapLoop, if_pos (by simp), read_byte, Option.bind_some, hlast x, read_byte,
      Option.bind_some, ← hlast x,
      write_byte, Option.bind_some, hlast y, hlen, write_byte, Option.bind_some]
    have hnext := @ih (a ++ [y]) (x :: c)
    have hp : (a ++ [y]).length + m.length - 1 = (a ++ y :: m).length - 1 := by simp
    rw [hp] at hnext
    simpa using hnext

theorem finishStr_eq (hc : c ≠ []) :
    finishStr m.length (m ++ c) = some (m.length, m.reverse ++ 0 :: c.tail) := by
  obtain ⟨z, c, rfl⟩ := List.exists_cons_of_ne_nil hc
  have hswap := @swapLoop_eq [] m (0 :: c)
  rw [List.length_nil, Nat.zero_add, List.nil_append, List.nil_append] at hswap
  rw [finishStr, write_byte, Option.bind_some, hswap]
  rfl

/-- The magnitude of the least number is no `long long`. -/
theorem magnitude_eq (value : Int64) :
    sizeT (if value < 0 then -value.toInt else value.toInt) = value.toInt.natAbs ∧
      value.toInt.natAbs ≤ 2 ^ 63 := by
  have hlow := value.le_toInt
  have hhigh := value.toInt_lt
  have hneg : value < 0 ↔ value.toInt < 0 := Int64.lt_iff_toInt_lt
  rw [sizeT, if_congr hneg rfl rfl]
  split_ifs with h <;> omega

/-- **Numbers of 64 bits** are written in decimal. -/
theorem ll2str_exact (buf : Bytes) (hroom : llstrSize ≤ buf.length) :
    (∀ value : Int64, (decimalInt value.toInt).length < llstrSize ∧ sdsll2str buf value =
      some ((decimalInt value.toInt).length,
        decimalInt value.toInt ++ 0 :: buf.drop ((decimalInt value.toInt).length + 1))) ∧
    ∀ v : UInt64, (decimal v.toNat).length < llstrSize ∧ sdsull2str buf v =
      some ((decimal v.toNat).length, decimal v.toNat ++ 0 ::
        buf.drop ((decimal v.toNat).length + 1)) := by
  have hsize : llstrSize = 21 := rfl
  -- the digits, and what is left of the buffer
  have hdigits : ∀ n, (decimal n).length < buf.length →
      digitLoop n 0 buf = some ((decimal n).reverse.length,
        (decimal n).reverse ++ buf.drop (decimal n).length) ∧ buf.drop (decimal n).length ≠ [] := by
    intro n hn
    have hloop := @digitLoop_eq [] buf n (Nat.le_of_lt hn)
    rw [List.length_nil, Nat.zero_add, List.nil_append, List.nil_append] at hloop
    rw [List.length_reverse]
    exact ⟨hloop, by simpa using hn⟩
  constructor
  · intro value
    obtain ⟨hmagnitude, hle⟩ := magnitude_eq value
    have hlen : (decimal value.toInt.natAbs).length ≤ 19 :=
      length_decimal_le_of_lt (by decide) (by omega)
    obtain ⟨hloop, hrest⟩ := hdigits value.toInt.natAbs (by omega)
    have hneg : value < 0 ↔ value.toInt < 0 := Int64.lt_iff_toInt_lt
    rw [sdsll2str, hmagnitude, hloop, Option.bind_some]
    dsimp only
    by_cases h : value.toInt < 0
    · -- the sign comes behind the digits, and is the first after the reversal
      obtain ⟨z, rest, hz⟩ := List.exists_cons_of_ne_nil hrest
      have hsigned := finishStr_eq (m := (decimal value.toInt.natAbs).reverse ++ [45])
        (c := rest) (by
        rintro rfl
        have := congrArg List.length hz
        simp at this
        omega)
      have htail : rest.tail = buf.drop ((decimal value.toInt.natAbs).length + 1 + 1) := by
        rw [← List.tail_drop, ← List.tail_drop, hz, List.tail_cons]
      rw [decimalInt, if_pos h, if_pos (hneg.mpr h), hz, write_byte, Option.bind_some,
        List.length_cons, ← htail]
      refine ⟨by omega, ?_⟩
      simpa using hsigned
    · rw [decimalInt, if_neg h, if_neg (mt hneg.mp h), finishStr_eq hrest, List.reverse_reverse,
        List.tail_drop, List.length_reverse]
      exact ⟨by omega, rfl⟩
  · intro v
    have hv := v.toNat_lt
    have hlen : (decimal v.toNat).length ≤ 20 := length_decimal_le_of_lt (by decide) (by omega)
    obtain ⟨hloop, hrest⟩ := hdigits v.toNat (by omega)
    refine ⟨by omega, ?_⟩
    rw [sdsull2str, hloop, Option.bind_some]
    dsimp only
    rw [finishStr_eq hrest, List.reverse_reverse, List.tail_drop, List.length_reverse]

theorem ll2str_least : llstrSize ≤ (List.replicate 21 (0 : UInt8)).length ∧
    sdsll2str (List.replicate 21 0) Int64.minValue = some (20, decimalInt (-2 ^ 63) ++ [0]) :=
  ⟨by decide, ((ll2str_exact (List.replicate 21 0) (by decide)).1 Int64.minValue).2.trans
    (by decide)⟩

end Numbers

/-! ### Formats -/

/-- `vsnprintf` for a format and arguments that expand to `r`. -/
def vsnprintf (r buf : Bytes) (size : ℕ) : Option Bytes := write buf 0 (r.take (size - 1) ++ [0])

/-- The loop of `sdscatvprintf`; memory from the allocator holds anything. -/
def formatLoop (junk : ℕ → Bytes) (r : Bytes) : ℕ → ℕ → Bytes → Option Bytes
  | 0, _, _ => none
  | fuel + 1, buflen, buf =>
    (write buf (buflen - 2) [0]).bind fun buf => (vsnprintf r buf buflen).bind fun buf =>
      buf[buflen - 2]?.bind fun last =>
        if last ≠ 0 then
          let buflen := sizeT (buflen * 2)
          formatLoop junk r fuel buflen (fresh (junk buflen) buflen)
        else some buf

/-- `sdscatvprintf`, with `sdscat` at its end. -/
def sdscatvprintf (fuel : ℕ) (junk : ℕ → Bytes) (s : Str) (fmt r : Bytes) : Option Str :=
  let buflen := sizeT (fmt.length * 2)
  let buflen := if 1024 < buflen then buflen else 1024
  (formatLoop junk r fuel buflen (fresh (junk buflen) buflen)).bind fun buf =>
    sdscatlen (junk 0) s (buf.takeWhile (· ≠ 0))

section Formats

variable {r buf : Bytes} {n fuel : ℕ} {junk : ℕ → Bytes}

theorem write_zero {x : Bytes} (hx : x.length ≤ buf.length) :
    write buf 0 x = some (x ++ buf.drop x.length) :=
  write_append (c := []) hx

/-- The byte before the last tells whether the text and its terminator fit. -/
theorem print_cases (hr : 0 ∉ r) (hn : 2 ≤ n) (hbuf : buf.length = n) :
    ∃ buf', (write buf (n - 2) [0]).bind (fun buf => vsnprintf r buf n) = some buf' ∧
      if n < r.length + 2 then ∃ x, x ≠ 0 ∧ buf'[n - 2]? = some x
      else buf'[n - 2]? = some 0 ∧ buf'.takeWhile (· ≠ 0) = r := by
  have hmarked : write buf (n - 2) [0] = some (buf.set (n - 2) 0) := by
    rw [write, if_pos (by simp; omega), List.set_eq_take_append_cons_drop, if_pos (by omega)]
    rfl
  rw [hmarked, Option.bind_some, vsnprintf, write_zero (by simp; omega)]
  refine ⟨_, rfl, ?_⟩
  split_ifs with hlt
  · have hpos : n - 2 < r.length := by omega
    refine ⟨r[n - 2], fun h => hr (h ▸ List.getElem_mem hpos), ?_⟩
    rw [List.append_assoc, List.getElem?_append_left (by simp; omega),
      List.getElem?_take_of_lt (by omega), List.getElem?_eq_getElem hpos]
  · rw [List.take_of_length_le (by omega)]
    constructor
    · -- the byte is the terminator, or the mark is still there
      rw [List.getElem?_append]
      split_ifs with h
      · have hend : n - 2 = r.length := by
          simp at h
          omega
        rw [hend, List.getElem?_concat_length]
      · rw [List.getElem?_drop, Nat.add_sub_cancel' (Nat.le_of_not_lt h),
          List.getElem?_set_self (by omega)]
    · rw [List.append_assoc, List.takeWhile_append_of_pos]
      · simp
      · intro b hb
        simpa using ne_of_mem_of_not_mem hb hr

theorem formatLoop_eq (hr : 0 ∉ r) (hsize : r.length < maxSize) (hn : 2 ≤ n) (hbuf : buf.length = n)
    (hfuel : r.length + 2 - n < fuel) :
    ∃ buf', formatLoop junk r fuel n buf = some buf' ∧ buf'.takeWhile (· ≠ 0) = r := by
  rw [maxSize] at hsize
  induction fuel generalizing n buf with
  | zero => exact absurd hfuel (Nat.not_lt_zero _)
  | succ fuel ih =>
    obtain ⟨buf', hprint, hcases⟩ := print_cases hr (by omega) hbuf
    rw [Option.bind_eq_some_iff] at hprint
    obtain ⟨buf₁, hmark, hprint⟩ := hprint
    rw [formatLoop, hmark, Option.bind_some, hprint, Option.bind_some]
    split_ifs at hcases with hlt
    · obtain ⟨x, hx, hlast⟩ := hcases
      have hdouble : sizeT (n * 2) = n * 2 := by
        rw [sizeT]
        omega
      rw [hlast, Option.bind_some, if_pos hx, hdouble]
      exact ih (by omega) (length_fresh _ _) (by omega)
    · rw [hcases.1, Option.bind_some, if_neg (by simp)]
      exact ⟨buf', rfl, hcases.2⟩

/-- **The whole text is appended.** -/
theorem sdscatvprintf_appends {s : Str} {c fmt : Bytes} (h : Holds s c) (hr : 0 ∉ r)
    (hsize : c.length + r.length < maxSize) (hfmt : fmt.length < maxSize)
    (hfuel : r.length < fuel) :
    ∃ s', sdscatvprintf fuel junk s fmt r = some s' ∧ Holds s' (c ++ r) := by
  have hdouble : sizeT (fmt.length * 2) = fmt.length * 2 := by
    rw [maxSize] at hfmt
    rw [sizeT]
    omega
  obtain ⟨n, hn⟩ : ∃ n, n = if 1024 < fmt.length * 2 then fmt.length * 2 else 1024 := ⟨_, rfl⟩
  have hlow : 1024 ≤ n := by
    split_ifs at hn <;> omega
  obtain ⟨buf, hloop, htext⟩ := @formatLoop_eq r (fresh (junk n) n) n fuel junk hr
    (by omega) (by omega)
    (length_fresh _ _) (by omega)
  rw [sdscatvprintf, hdouble, ← hn, hloop, Option.bind_some, htext]
  exact cat_spec h hsize

/-- A text that needs a second buffer is appended to `hi`. -/
theorem sdscatvprintf_hi : ∃ s s' : Str, Holds s [104, 105] ∧
    sdscatvprintf 2001 (fun _ => [7]) s [37, 115] (List.replicate 2000 97) = some s' ∧
    Holds s' ([104, 105] ++ List.replicate 2000 97) := by
  obtain ⟨s, -, hs⟩ := @newlen_spec [] (.bytes [104, 105]) (by decide)
  obtain ⟨s', hcat, hs'⟩ := @sdscatvprintf_appends (List.replicate 2000 97) 2001 (fun _ => [7]) s
    [104, 105] [37, 115] hs (fun h => absurd (List.eq_of_mem_replicate h) (by decide))
    (by rw [List.length_replicate]; decide) (by decide) (by rw [List.length_replicate]; decide)
  exact ⟨s, s', hs, hcat, hs'⟩

end Formats

end SdsHeader
