/-
Dynamic strings (sds.c), as the byte strings they hold.

Indices are signed in the source, and so they are integers here.
-/
import Mathlib.Data.List.Basic
import Mathlib.Data.Nat.Digits.Lemmas
import Mathlib.Tactic

namespace Sds

/-- Byte strings. -/
abbrev Bytes := List UInt8

/-- `sdsrange`: the part of the string from `start` to `stop`, both included;
negative indices count from the end. -/
def sdsrange (s : Bytes) (start stop : ℤ) : Bytes :=
  let len : ℤ := s.length
  if s = [] then s
  else
    let start := if start < 0 then max (len + start) 0 else start
    let stop := if stop < 0 then max (len + stop) 0 else stop
    let newlen := if stop < start then 0 else stop - start + 1
    if newlen = 0 then []
    else if len ≤ start then []
    else
      let stop := if len ≤ stop then len - 1 else stop
      let newlen := if stop < start then 0 else stop - start + 1
      (s.drop start.toNat).take newlen.toNat

/-- The use by the query buffer: drop what was parsed. -/
theorem sdsrange_neg_one (s : Bytes) {start : ℕ} (h : start ≤ s.length) :
    sdsrange s start (-1) = s.drop start := by
  rw [sdsrange]
  by_cases hs : s = []
  · simp [hs]
  have hlen : 0 < s.length := List.length_pos_of_ne_nil hs
  have hstop : max ((s.length : ℤ) + -1) 0 = (s.length : ℤ) - 1 := by omega
  have hneg : ¬ (start : ℤ) < 0 := by omega
  simp only [if_neg hs, if_neg hneg, show (-1 : ℤ) < 0 by decide, if_true, hstop]
  by_cases hend : start = s.length
  · subst hend
    simp
  · have h1 : ¬ (s.length : ℤ) - 1 < start := by omega
    have h2 : ¬ (s.length : ℤ) - 1 - start + 1 = 0 := by omega
    have h3 : ¬ (s.length : ℤ) ≤ start := by omega
    have h4 : ¬ (s.length : ℤ) ≤ s.length - 1 := by omega
    simp only [if_neg h1, if_neg h2, if_neg h3, if_neg h4]
    rw [Int.toNat_natCast, List.take_of_length_le]
    rw [List.length_drop]
    omega

/-! ### Numbers -/

/-- A number in decimal. -/
def decimal (n : ℕ) : Bytes :=
  if n = 0 then [48] else ((Nat.digits 10 n).map fun d => (48 + d).toUInt8).reverse

/-- The same with a sign, as `%ld` prints it. -/
def decimalInt (n : ℤ) : Bytes := if n < 0 then 45 :: decimal n.natAbs else decimal n.natAbs

theorem decimalInt_natCast (n : ℕ) : decimalInt n = decimal n := by
  rw [decimalInt, if_neg (by omega), Int.natAbs_natCast]

theorem decimal_digit (n : ℕ) : ∀ b ∈ decimal n, 48 ≤ b ∧ b ≤ 57 := by
  intro b hb
  rw [decimal] at hb
  split_ifs at hb with hn
  · obtain rfl := List.mem_singleton.mp hb
    decide
  · rw [List.mem_reverse, List.mem_map] at hb
    obtain ⟨d, hd, rfl⟩ := hb
    have hlt := Nat.digits_lt_base (by decide) hd
    interval_cases d <;> decide

theorem decimal_ne_nil (n : ℕ) : decimal n ≠ [] := by
  rw [decimal]
  split_ifs with hn
  · exact List.cons_ne_nil _ _
  · simpa using Nat.digits_ne_nil_iff_ne_zero.mpr hn

/-- A number is what its digits say. -/
theorem ofDigits_decimal (n : ℕ) :
    Nat.ofDigits 10 ((decimal n).map fun b => b.toNat - 48).reverse = n := by
  rw [decimal]
  split_ifs with hn
  · rw [hn]
    rfl
  · rw [List.map_reverse, List.reverse_reverse, List.map_map]
    have hdigits : (Nat.digits 10 n).map ((fun b : UInt8 => b.toNat - 48)
        ∘ fun d => (48 + d).toUInt8) =
        Nat.digits 10 n := by
      refine (List.map_congr_left fun d hd => ?_).trans (List.map_id _)
      have hlt := Nat.digits_lt_base (by decide) hd
      interval_cases d <;> rfl
    rw [hdigits, Nat.ofDigits_digits]

theorem length_decimal_le_of_lt {n k : ℕ} (hk : 0 < k) (hn : n < 10 ^ k) :
    (decimal n).length ≤ k := by
  rw [decimal]
  split_ifs with h
  · exact hk
  · rw [List.length_reverse, List.length_map]
    exact (Nat.digits_length_le_iff (by decide) n).mpr hn

theorem length_decimal_le {n : ℕ} (hn : n < 2 ^ 63) : (decimal n).length ≤ 19 :=
  length_decimal_le_of_lt (by decide) (hn.trans (by norm_num))

end Sds
